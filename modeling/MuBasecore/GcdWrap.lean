import MuBasecore.GcdPartition

/-!
Ranges that wrap past the end of the 64-bit addresses. The search compares the
wrapped last byte, so such a range is found exactly when one entry contains both
its base and its wrapped end, and the call then breaks the map.
-/

namespace MuBasecore.GcdWrap

open EfiTypes Word64 SegmentList GcdMap GcdSpace GcdRange GcdPartition GcdMapEntry List Bool

variable {r : AllocateRequest} {endLink link high startLink subLink : Nat} {e : GcdMapEntry}
  {sizes : SpaceSizes} {g : Gcd} {env : Environment}

theorem firstUnusable_eq_some {es : List GcdMapEntry} (h : firstUnusable r link es = some subLink) :
    link ≤ subLink ∧ ∃ e, es[subLink - link]? = some e ∧
      (coreAllocateSpaceCheckEntry r e).isError = true := by
  induction es generalizing link with
  | nil => simp [firstUnusable] at h
  | cons e es ih =>
    rw [firstUnusable] at h
    split at h
    next herr =>
      obtain ⟨⟩ := h
      exact ⟨le_refl _, e, by simp, herr⟩
    · obtain ⟨hle, d, hd, herr⟩ := ih h
      have hsucc : subLink - link = subLink - (link + 1) + 1 := by omega
      exact ⟨by omega, d, by simpa [hsucc] using hd, herr⟩

variable {map : List GcdMapEntry}

theorem firstUnusable_linkRange
    (h : firstUnusable r startLink (linkRange map startLink endLink) = some subLink) :
    startLink ≤ subLink ∧ subLink ≤ endLink ∧ ∃ e, map[subLink]? = some e ∧
      (coreAllocateSpaceCheckEntry r e).isError = true := by
  obtain ⟨hle, e, he, herr⟩ := firstUnusable_eq_some h
  rw [linkRange, List.getElem?_drop, Nat.add_sub_cancel' hle, List.getElem?_take] at he
  split at he
  · exact ⟨hle, by omega, e, he, herr⟩
  · simp at he

def remaining (r : AllocateRequest) (map : List GcdMapEntry) : Option Nat → Nat
  | none => 0
  | some link => if r.gcdAllocateType.topDown then link + 1 else map.length - link

theorem remaining_followingLink (hlink : link < map.length) :
    (∀ next ∈ followingLink r map link, next < map.length) ∧
      remaining r map (followingLink r map link) < remaining r map (some link) := by
  unfold followingLink remaining
  cases r.gcdAllocateType.topDown with
  | true =>
    cases link with
    | zero => simp
    | succ link => simp; omega
  | false =>
    by_cases hnext : link + 1 < map.length
    · simp [hnext]
      omega
    · simp [hnext]
      omega

theorem le_candidateBase (high : Nat)
    (htop : r.gcdAllocateType.topDown = false) (haln : r.alignment < 64)
    (hbase : e.baseAddress < 2 ^ 63) : e.baseAddress ≤ candidateBase r high e := by
  have hpow := two_pow_le_of_lt haln
  have hlt := lt_alignDown_add (e.baseAddress + (2 ^ r.alignment - 1)) r.alignment
  simp only [candidateBase, htop, false_eq_true, if_false]
  rw [add64_eq (by omega)]
  omega

section

variable (htop : r.gcdAllocateType.topDown = true) (hle : e.baseAddress ≤ e.endAddress)
    (hend : e.endAddress < 2 ^ 63) (hmax : high < 2 ^ 64)
    (hfits : ¬ add64 e.baseAddress r.length > high) (hlen : ¬ r.length > add64 e.endAddress 1)
include htop hle hend hmax hfits hlen

theorem candidateBase_topDown :
    e.baseAddress + r.length ≤ high ∧ r.length ≤ e.endAddress + 1 ∧
      candidateBase r high e = alignDown (min e.endAddress high + 1 - r.length) r.alignment := by
  rw [add64_eq (by omega)] at hlen
  rw [add64_eq (by omega)] at hfits
  refine ⟨by omega, by omega, ?_⟩
  simp only [candidateBase, htop, if_true]
  rw [add64_eq (by omega), sub64_eq (by omega) (by omega)]

theorem candidateBase_add_le : candidateBase r high e + r.length ≤ e.endAddress + 1 := by
  obtain ⟨hbase, hshrt, heq⟩ := candidateBase_topDown htop hle hend hmax hfits hlen
  have := alignDown_le (min e.endAddress high + 1 - r.length) r.alignment
  omega

end

variable {upper : Nat}

theorem remaining_subLink
    (htile : TilesMap 0 upper map) (hup : upper ≤ 2 ^ 63) (haln : r.alignment < 64)
    (hlengthPos : 0 < r.length) (hmax : high < 2 ^ 64)
    (he : map[link]? = some e)
    (huse : ¬ (coreAllocateSpaceCheckEntry r e).isError = true)
    (hfits : ¬ (r.gcdAllocateType.topDown && decide (add64 e.baseAddress r.length > high)))
    (hlen : ¬ (r.gcdAllocateType.topDown && decide (r.length > add64 e.endAddress 1)))
    (hfind : coreSearchGcdMapEntry (candidateBase r high e) r.length map =
      some (startLink, endLink))
    (hsub : firstUnusable r startLink (linkRange map startLink endLink) = some subLink) :
    subLink < map.length ∧ remaining r map (some subLink) < remaining r map (some link) := by
  obtain ⟨hstartSub, hsubEnd, d, hd, herr⟩ := firstUnusable_linkRange hsub
  obtain ⟨-, ⟨a, ha, habase⟩, ⟨z, hz, hzlast⟩⟩ := searchEntry_links hfind
  rw [contains_iff] at habase hzlast
  have hlt : subLink < map.length := (List.getElem?_eq_some_iff.1 hd).1
  have hmem := tiles_mem htile (mem_of_getElem? he)
  have hne : subLink ≠ link := by
    rintro rfl
    rw [he] at hd
    obtain ⟨⟩ := hd
    exact huse herr
  refine ⟨hlt, ?_⟩
  cases htop : r.gcdAllocateType.topDown with
  | false =>
    have hbase := le_candidateBase high htop haln (show e.baseAddress < 2 ^ 63 by omega)
    have hst : link ≤ startLink := by
      by_contra hbefore
      have := tiles_getElem_lt htile (by omega) ha he
      omega
    simp only [remaining, htop, false_eq_true, if_false]
    omega
  | true =>
    have hend := candidateBase_add_le htop hmem.2.1 (by omega) hmax
      (by simpa [htop] using hfits) (by simpa [htop] using hlen)
    rw [lastByte_eq hlengthPos (by omega)] at hzlast
    have hstop : endLink ≤ link := by
      by_contra hbhd
      have := tiles_getElem_lt htile (by omega) he hz
      omega
    simp only [remaining, htop, if_true]
    omega

variable {baseAddress : Nat}

def Usable (r : AllocateRequest) (e : GcdMapEntry) : Prop :=
  e.imageHandle = 0 ∧
    match r.space with
    | .memory => e.gcdMemoryType = r.gcdMemoryType
    | .io => e.gcdIoType = r.gcdIoType

theorem usable_iff : Usable r e ↔ ¬ (coreAllocateSpaceCheckEntry r e).isError = true := by
  unfold Usable coreAllocateSpaceCheckEntry
  cases r.space <;> by_cases hhandle : e.imageHandle = 0 <;> simp [hhandle]

/-- A descending search does not pass over the entry. -/
def Fits (r : AllocateRequest) (maxAddress : Nat) (e : GcdMapEntry) : Prop :=
  r.gcdAllocateType.topDown = true →
    ¬ add64 e.baseAddress r.length > maxAddress ∧ ¬ r.length > add64 e.endAddress 1

inductive Searches (r : AllocateRequest) (map : List GcdMapEntry) (maxAddress : Nat) :
    Option Nat → SearchResult → Prop
  | head (baseAddress : Nat) : Searches r map maxAddress none (.notFound baseAddress)
  | skip {link : Nat} {e : GcdMapEntry} {result : SearchResult} (he : map[link]? = some e)
      (hskip : ¬ Usable r e ∨
        r.gcdAllocateType.topDown = true ∧ maxAddress < add64 e.baseAddress r.length)
      (hnext : Searches r map maxAddress (followingLink r map link) result) :
      Searches r map maxAddress (some link) result
  | short {link : Nat} {e : GcdMapEntry} (baseAddress : Nat) (he : map[link]? = some e)
      (htop : r.gcdAllocateType.topDown = true) (hshrt : add64 e.endAddress 1 < r.length) :
      Searches r map maxAddress (some link) (.notFound baseAddress)
  | beyond {link : Nat} {e : GcdMapEntry} (he : map[link]? = some e)
      (hok : Usable r e) (hfits : Fits r maxAddress e)
      (hout : r.gcdAllocateType.topDown = false ∧
          maxAddress < lastByte (candidateBase r maxAddress e) r.length ∨
        coreSearchGcdMapEntry (candidateBase r maxAddress e) r.length map = none) :
      Searches r map maxAddress (some link) (.notFound (candidateBase r maxAddress e))
  | found {link startLink endLink : Nat} {e : GcdMapEntry} (he : map[link]? = some e)
      (hok : Usable r e) (hfits : Fits r maxAddress e)
      (hlast : r.gcdAllocateType.topDown = false →
        lastByte (candidateBase r maxAddress e) r.length ≤ maxAddress)
      (hfind : coreSearchGcdMapEntry (candidateBase r maxAddress e) r.length map =
        some (startLink, endLink))
      (huse : firstUnusable r startLink (linkRange map startLink endLink) = none) :
      Searches r map maxAddress (some link)
        (.found (candidateBase r maxAddress e) startLink endLink)
  | blocked {link startLink endLink subLink : Nat} {e : GcdMapEntry} {result : SearchResult}
      (he : map[link]? = some e) (hok : Usable r e) (hfits : Fits r maxAddress e)
      (hfind : coreSearchGcdMapEntry (candidateBase r maxAddress e) r.length map =
        some (startLink, endLink))
      (hsub : firstUnusable r startLink (linkRange map startLink endLink) = some subLink)
      (hnext : Searches r map maxAddress (some subLink) result) :
      Searches r map maxAddress (some link) result

theorem searchLoop_searches (fuel : Nat) (link : Option Nat) (baseAddress : Nat)
    (htile : TilesMap 0 upper map) (hup : upper ≤ 2 ^ 63) (haln : r.alignment < 64)
    (hlengthPos : 0 < r.length) (hmax : high < 2 ^ 64)
    (hlink : ∀ i ∈ link, i < map.length) (hfuel : remaining r map link < fuel) :
    ∃ result, searchLoop r map high fuel link baseAddress = some result ∧
      Searches r map high link result := by
  induction fuel generalizing link baseAddress with
  | zero => omega
  | succ fuel ih =>
    cases link with
    | none => exact ⟨_, rfl, .head baseAddress⟩
    | some link =>
      have hlt : link < map.length := hlink link rfl
      obtain ⟨hnext, hdecrease⟩ := remaining_followingLink (r := r) hlt
      have he : map[link]? = some (map.getD link gcdMemorySpaceMapEntryTemplate) := by
        simp [hlt]
      obtain ⟨next, hrun, hsearches⟩ := ih _ baseAddress hnext (by omega)
      simp only [searchLoop]
      generalize map.getD link gcdMemorySpaceMapEntryTemplate = e at he
      split
      next herr => exact ⟨next, hrun, .skip he (.inl fun huse => usable_iff.1 huse herr) hsearches⟩
      rename_i huse
      have hok : Usable r e := usable_iff.2 huse
      split
      next hskip => exact ⟨next, hrun, .skip he (.inr (by simpa using hskip)) hsearches⟩
      rename_i hskip
      split
      next hshrt =>
        obtain ⟨htop, hshrt⟩ := Bool.and_eq_true_iff.1 hshrt
        exact ⟨_, rfl, .short baseAddress he htop (of_decide_eq_true hshrt)⟩
      rename_i hshrt
      have hfits : Fits r high e := fun htop => by simpa [htop] using And.intro hskip hshrt
      split
      next hlast => exact ⟨_, rfl, .beyond he hok hfits (.inl (by simpa using hlast))⟩
      rename_i hlast
      split
      next hnone => exact ⟨_, rfl, .beyond he hok hfits (.inr hnone)⟩
      rename_i hfind
      split
      next hunused =>
        exact ⟨_, rfl, .found he hok hfits (fun htop => by simpa [htop] using hlast) hfind hunused⟩
      rename_i hsub
      obtain ⟨hsubLt, hsubDecrease⟩ := remaining_subLink htile hup haln hlengthPos hmax
        he huse hskip hshrt hfind hsub
      obtain ⟨result, hrun, hsearches⟩ := ih (some _) _ (by simpa using hsubLt) (by omega)
      exact ⟨result, hrun, .blocked he hok hfits hfind hsub hsearches⟩

/-- `MaxAddress`: the bound given with the request, or the end of the map. -/
def limitAddress (r : AllocateRequest) (map : List GcdMapEntry) (baseAddress : Nat) : Nat :=
  if r.gcdAllocateType.maxAddress then baseAddress
  else (map.getLastD gcdMemorySpaceMapEntryTemplate).endAddress

theorem limitAddress_lt
    (htile : TilesMap 0 upper map) (hup : upper ≤ 2 ^ 63) (hbase : baseAddress < 2 ^ 64) :
    limitAddress r map baseAddress < 2 ^ 64 := by
  unfold limitAddress
  split
  · exact hbase
  · cases hlast : map.getLast? with
    | none => simp [getLastD_eq_getLast?, hlast, gcdMemorySpaceMapEntryTemplate]
    | some z =>
      have := tiles_mem htile (mem_of_getLast? hlast)
      simp only [getLastD_eq_getLast?, hlast, Option.getD_some]
      omega

section

variable (htile : TilesMap 0 upper map) (hup : upper ≤ 2 ^ 63) (haln : r.alignment < 64)
  (hlengthPos : 0 < r.length) (hbase : baseAddress < 2 ^ 64)
include htile hup haln hlengthPos hbase

/-- A search that is not for a given address starts behind or in front of all entries. -/
theorem selectRange_searches (htype : r.gcdAllocateType ≠ .address) :
    ∃ start result, (∀ i e, map[i]? = some e → ∃ j ∈ start,
        if r.gcdAllocateType.topDown then i ≤ j else j ≤ i) ∧
      selectRange r map baseAddress = some result ∧
      Searches r map (limitAddress r map baseAddress) start result := by
  unfold selectRange limitAddress
  rw [if_neg htype]
  obtain ⟨result, hrun, hsearches⟩ := searchLoop_searches (map.length + 1)
    (if map.isEmpty then none
      else some (if r.gcdAllocateType.topDown then map.length - 1 else 0))
    baseAddress htile hup haln hlengthPos (limitAddress_lt (r := r) htile hup hbase)
    (by cases map <;> cases r.gcdAllocateType.topDown <;> simp)
    (by
      cases map with
      | nil => simp [remaining]
      | cons e es => cases htop : r.gcdAllocateType.topDown <;> simp [remaining, htop])
  refine ⟨_, result, ?_, hrun, hsearches⟩
  intro i e he
  have hi := (List.getElem?_eq_some_iff.1 he).1
  cases map with
  | nil => simp at hi
  | cons d ds =>
    cases r.gcdAllocateType.topDown with
    | true => simpa using Nat.le_of_lt_succ hi
    | false => simp

theorem selectRange_isSome : (selectRange r map baseAddress).isSome = true := by
  by_cases htype : r.gcdAllocateType = .address
  · unfold selectRange
    repeat' split
    all_goals rfl
  · obtain ⟨_, result, -, hselect, -⟩ :=
      selectRange_searches htile hup haln hlengthPos hbase htype
    rw [hselect]
    rfl

end

section Wrap

variable {upper baseAddress length : Nat}

theorem coreSearchGcdMapEntry_wrap (htile : TilesMap 0 upper map)
    (hbase : baseAddress < 2 ^ 64) (hlen : length < 2 ^ 64)
    (hwrap : 2 ^ 64 < baseAddress + length)
    (hfind : coreSearchGcdMapEntry baseAddress length map = some (startLink, endLink)) :
    startLink = endLink ∧ ∃ e, map[startLink]? = some e ∧ e.contains baseAddress = true ∧
      e.contains (lastByte baseAddress length) = true := by
  obtain ⟨hle, ⟨a, ha, habase⟩, ⟨z, hz, hzlast⟩⟩ := searchEntry_links hfind
  have hlast := (lastByte_wrap hbase hlen hwrap).2
  have heq : startLink = endLink := by
    by_contra hne
    have hlt := tiles_getElem_lt htile (by omega) ha hz
    rw [contains_iff] at habase hzlast
    omega
  subst heq
  rw [ha] at hz
  obtain ⟨⟩ := hz
  exact ⟨rfl, a, ha, habase, hzlast⟩

theorem searchFrom_of_contains {lastAddress : Nat} {pre post : List GcdMapEntry}
    (hpre : ∀ d ∈ pre, ¬ d.contains baseAddress = true)
    (hbase : e.contains baseAddress = true) (hlast : e.contains lastAddress = true) :
    searchFrom baseAddress lastAddress link none (pre ++ e :: post) =
      some (link + pre.length, link + pre.length) := by
  induction pre generalizing link with
  | nil => simp [searchFrom, hbase, hlast]
  | cons d ds ih =>
    have hd : d.contains baseAddress = false :=
      eq_false_iff.2 (hpre d (by simp))
    rw [cons_append, searchFrom]
    simp only [hd, false_eq_true, if_false]
    rw [ih (fun x hx => hpre x (by simp [hx]))]
    simp only [length_cons]
    congr 2 <;> omega

theorem searchEntry_of_contains (htile : TilesMap 0 upper map)
    (he : e ∈ map) (hbase : e.contains baseAddress = true)
    (hlast : e.contains (lastByte baseAddress length) = true) :
    ∃ link, map[link]? = some e ∧
      coreSearchGcdMapEntry baseAddress length map = some (link, link) := by
  obtain ⟨pre, post, rfl⟩ := append_of_mem he
  refine ⟨pre.length, by simp, ?_⟩
  have hpre : ∀ d ∈ pre, ¬ d.contains baseAddress = true := by
    intro d hd hcont
    have hlt := (pairwise_append.1 (tiles_pairwise htile)).2.2 d hd e (by simp)
    rw [contains_iff] at hcont hbase
    omega
  rw [coreSearchGcdMapEntry, searchFrom_of_contains hpre hbase hlast]
  simp

theorem linkRange_self (he : map[link]? = some e) : linkRange map link link = [e] := by
  obtain ⟨hlt, rfl⟩ := List.getElem?_eq_some_iff.1 he
  unfold linkRange
  rw [take_succ_eq_append_getElem hlt, drop_append]
  simp [min_eq_left (le_of_lt hlt)]

theorem convertRange_self_isSome {σ : Type} (next : σ → GcdMapEntry → σ)
    (convert : σ → GcdMapEntry → GcdMapEntry) (baseAddress length : Nat) (s : σ)
    (he : map[link]? = some e) :
    (convertRange next convert baseAddress length s map link link).isSome = true := by
  unfold convertRange
  rw [linkRange_self he, convertLoop]
  generalize coreInsertGcdMapEntry e baseAddress length = inserted
  simp [convertLoop]

end Wrap

section Search

variable {result : SearchResult} {start : Option Nat} {b base maxAddress : Nat} {d : GcdMapEntry}

theorem firstUnusable_eq_none {es : List GcdMapEntry} (h : firstUnusable r link es = none) :
    ∀ e ∈ es, Usable r e := by
  induction es generalizing link with
  | nil => simp
  | cons e es ih =>
    rw [firstUnusable] at h
    split at h
    · simp at h
    next huse =>
      rw [forall_mem_cons]
      exact ⟨usable_iff.2 huse, ih h⟩

theorem Searches.candidate (h : Searches r map maxAddress start result)
    (hres : result = .found base startLink endLink) :
    ∃ e ∈ map, Fits r maxAddress e ∧ candidateBase r maxAddress e = base := by
  induction h with
  | head => cases hres
  | skip _ _ _ ih => exact ih hres
  | short => cases hres
  | beyond => cases hres
  | found he _ hfits =>
    cases hres
    exact ⟨_, mem_of_getElem? he, hfits, rfl⟩
  | blocked _ _ _ _ _ _ ih => exact ih hres

theorem firstUnusable_self (he : map[link]? = some e) :
    firstUnusable r link (linkRange map link link) = none ↔ Usable r e := by
  rw [linkRange_self he, usable_iff]
  simp [firstUnusable]

/-- The range wraps, and one entry of the kind contains both its base and its wrapped end. -/
def WrapsInside (map : List GcdMapEntry) (kind : GcdMapEntry → Prop) (base length : Nat) : Prop :=
  2 ^ 64 < base + length ∧ ∃ e ∈ map, kind e ∧ e.contains base = true ∧
    e.contains (lastByte base length) = true

/-- The first aligned address from the base of the entry on. -/
def FirstAligned (r : AllocateRequest) (e : GcdMapEntry) (b : Nat) : Prop :=
  2 ^ r.alignment ∣ b ∧ e.baseAddress ≤ b ∧ b < e.baseAddress + 2 ^ r.alignment

/-- The search goes past the entry, since an entry that cannot be used contains both ends of
the range at its first aligned address. -/
def GoesPast (r : AllocateRequest) (map : List GcdMapEntry) (e : GcdMapEntry) : Prop :=
  ∃ b, FirstAligned r e b ∧ WrapsInside map (¬ Usable r ·) b r.length

/-- The request is about to be given a range that wraps. At a given address, one usable entry
contains both ends; upwards, this holds for the first aligned address of a usable entry to
which the search comes; downwards it never happens. -/
def TakesWrapped (r : AllocateRequest) (map : List GcdMapEntry) : Prop :=
  if r.gcdAllocateType = .address then
    2 ^ r.alignment ∣ r.baseAddress.getD 0 ∧
      WrapsInside map (Usable r) (r.baseAddress.getD 0) r.length
  else
    r.gcdAllocateType.topDown = false ∧ ∃ e ∈ map, Usable r e ∧ ∃ b, FirstAligned r e b ∧
      lastByte b r.length ≤ limitAddress r map (r.baseAddress.getD 0) ∧
      WrapsInside map (Usable r) b r.length ∧
      ∀ d ∈ map, Usable r d → d.baseAddress < e.baseAddress → GoesPast r map d

theorem FirstAligned.mono (hd : FirstAligned r d c) (he : FirstAligned r e b)
    (h : d.baseAddress ≤ e.baseAddress) : c ≤ b := by
  obtain ⟨hdvd, -, hlt⟩ := hd
  obtain ⟨hdvd', hle, -⟩ := he
  exact (le_alignDown hdvd le_rfl).trans (alignDown_le_of_lt hdvd' (by omega))

theorem FirstAligned.unique (h : FirstAligned r e b) (h' : FirstAligned r e c) : b = c :=
  le_antisymm (h.mono h' le_rfl) (h'.mono h le_rfl)

/-- An upward search that is at `start` gets to the entry `e` and takes the wrapped range at `b`. -/
structure GetsTo (r : AllocateRequest) (map : List GcdMapEntry) (maxAddress : Nat)
    (start : Option Nat) (k : Nat) (e : GcdMapEntry) (b : Nat) : Prop where
  entry : map[k]? = some e
  ahead : ∃ j ∈ start, j ≤ k
  usable : Usable r e
  first : FirstAligned r e b
  last_le : lastByte b r.length ≤ maxAddress
  inside : WrapsInside map (Usable r) b r.length
  past : ∀ i d, map[i]? = some d → (∃ j ∈ start, j ≤ i) → i < k → Usable r d → GoesPast r map d

section

variable (htile : TilesMap 0 upper map) (hup : upper ≤ 2 ^ 63) (hlen : r.length < 2 ^ 64)
include htile

theorem WrapsInside.search {kind : GcdMapEntry → Prop} (h : WrapsInside map kind base r.length) :
    ∃ link d, map[link]? = some d ∧ kind d ∧ d.contains base = true ∧
      d.contains (lastByte base r.length) = true ∧
      coreSearchGcdMapEntry base r.length map = some (link, link) := by
  obtain ⟨-, d, hd, hkind, hbase, hlast⟩ := h
  obtain ⟨link, hlink, hfind⟩ := searchEntry_of_contains htile hd hbase hlast
  exact ⟨link, d, hlink, hkind, hbase, hlast, hfind⟩

section

theorem GoesPast.not_inside (h : GoesPast r map e) (hfirst : FirstAligned r e b) :
    ¬ WrapsInside map (Usable r) b r.length := by
  rintro ⟨-, z, hz, hok, hzbase, -⟩
  obtain ⟨b', hb', -, c, hc, hno, hcbase, -⟩ := h
  rw [hb'.unique hfirst] at hcbase
  rw [contains_iff] at hzbase hcbase
  exact hno (tiles_eq_of_mem htile hc hz hcbase hzbase ▸ hok)

/-- The search may go on from another place if it goes past the usable entries in between. -/
theorem getsTo_iff {start' : Option Nat}
    (hback : ∀ i d, map[i]? = some d → (∃ j ∈ start', j ≤ i) → ∃ j ∈ start, j ≤ i)
    (hskip : ∀ i d, map[i]? = some d → Usable r d → (∃ j ∈ start, j ≤ i) →
      (∃ j ∈ start', j ≤ i) ∨ GoesPast r map d) :
    (∃ k e b, GetsTo r map maxAddress start' k e b) ↔
      ∃ k e b, GetsTo r map maxAddress start k e b := by
  constructor
  · rintro ⟨k, e, b, h⟩
    refine ⟨k, e, b, { h with ahead := hback k e h.entry h.ahead, past := ?_ }⟩
    intro i d hd hi hlt hok
    exact (hskip i d hd hok hi).elim (h.past i d hd · hlt hok) id
  · rintro ⟨k, e, b, h⟩
    refine ⟨k, e, b, { h with ahead := ?_, past := ?_ }⟩
    · refine (hskip k e h.entry h.usable h.ahead).resolve_right fun hpast => ?_
      exact hpast.not_inside htile h.first h.inside
    · exact fun i d hd hi => h.past i d hd (hback i d hd hi)

include hlen

theorem wrapsInside_of_search (hbase : base < 2 ^ 64) (hwrap : 2 ^ 64 < base + r.length)
    (hfind : coreSearchGcdMapEntry base r.length map = some (startLink, endLink))
    (huse : firstUnusable r startLink (linkRange map startLink endLink) = none) :
    WrapsInside map (Usable r) base r.length := by
  obtain ⟨rfl, e, he, hcont⟩ := coreSearchGcdMapEntry_wrap htile hbase hlen hwrap hfind
  exact ⟨hwrap, e, mem_of_getElem? he, (firstUnusable_self he).1 huse, hcont⟩

end

section Upwards

variable (haln : r.alignment < 64) (htop : r.gcdAllocateType.topDown = false)
include hup haln htop

theorem firstAligned_iff (he : e ∈ map) (high : Nat) :
    FirstAligned r e b ↔ b = candidateBase r high e := by
  have hmem := tiles_mem htile he
  have hpow := two_pow_le_of_lt haln
  have hpos := Nat.two_pow_pos r.alignment
  have hcand : candidateBase r high e =
      alignDown (e.baseAddress + (2 ^ r.alignment - 1)) r.alignment := by
    simp only [candidateBase, htop, false_eq_true, if_false]
    rw [add64_eq (by omega)]
  rw [hcand]
  constructor
  · rintro ⟨hdvd, hle, hlt⟩
    exact le_antisymm (le_alignDown hdvd (by omega)) (alignDown_le_of_lt hdvd (by omega))
  · rintro rfl
    have hle := alignDown_le (e.baseAddress + (2 ^ r.alignment - 1)) r.alignment
    have hlt := lt_alignDown_add (e.baseAddress + (2 ^ r.alignment - 1)) r.alignment
    exact ⟨dvd_alignDown, by omega, by omega⟩

theorem FirstAligned.le (h : FirstAligned r e b) (he : e ∈ map) : b ≤ 2 ^ 63 := by
  have hmem := tiles_mem htile he
  have hpow := two_pow_le_of_lt haln
  have hpos := Nat.two_pow_pos r.alignment
  rw [(firstAligned_iff htile hup haln htop he 0).1 h, candidateBase, htop, if_neg (by simp),
    add64_eq (by omega)]
  exact alignDown_le_of_lt (Nat.pow_dvd_pow 2 (by omega)) (by omega)

include hlen

theorem Searches.wraps_iff (h : Searches r map maxAddress start result) :
    (∃ base i j, result = .found base i j ∧ 2 ^ 64 < base + r.length) ↔
      ∃ k e b, GetsTo r map maxAddress start k e b := by
  have hcand : ∀ d ∈ map, FirstAligned r d (candidateBase r maxAddress d) ∧
      candidateBase r maxAddress d ≤ 2 ^ 63 := by
    intro d hd
    have hfirst := (firstAligned_iff htile hup haln htop hd maxAddress).2 rfl
    exact ⟨hfirst, hfirst.le htile hup haln htop hd⟩
  by_cases hlong : r.length ≤ 2 ^ 63
  · constructor
    · rintro ⟨base, i, j, hres, hwrap⟩
      obtain ⟨e, he, -, rfl⟩ := h.candidate hres
      have := (hcand e he).2
      omega
    · rintro ⟨k, e, b, h⟩
      have := h.first.le htile hup haln htop (mem_of_getElem? h.entry)
      have := h.inside.1
      omega
  -- a range that is found has its last byte in the map, so that it wraps
  have hwraps : ∀ b i j, coreSearchGcdMapEntry b r.length map = some (i, j) →
      2 ^ 64 < b + r.length := by
    intro b i j hfind
    by_contra hlow
    obtain ⟨-, -, z, hz, hzlast⟩ := searchEntry_links hfind
    rw [lastByte_eq (by omega) (not_lt.1 hlow), contains_iff] at hzlast
    have := tiles_mem htile (mem_of_getElem? hz)
    omega
  induction h with
  | head =>
    exact ⟨fun ⟨_, _, _, hres, _⟩ => (by cases hres), fun ⟨_, _, _, h⟩ => by simpa using h.ahead⟩
  | @skip link e _ he hskip _ ih =>
    have hno : ¬ Usable r e := hskip.resolve_right fun h => by simp [htop] at h
    have hnext : ∀ i d, map[i]? = some d →
        ((∃ j ∈ followingLink r map link, j ≤ i) ↔ link < i) := by
      intro i d hd
      have := (List.getElem?_eq_some_iff.1 hd).1
      rw [followingLink, htop, if_neg (by simp)]
      split
      · simp
      · simp
        omega
    refine ih.trans (getsTo_iff htile (fun i d hd hi => ?_)
      fun i d hd hok hi => .inl ?_)
    · exact ⟨link, rfl, ((hnext i d hd).1 hi).le⟩
    · obtain ⟨_, ⟨⟩, hle⟩ := hi
      refine (hnext i d hd).2 (lt_of_le_of_ne hle ?_)
      rintro rfl
      exact hno (Option.some.inj (hd.symm.trans he) ▸ hok)
  | short _ _ hdown => simp [htop] at hdown
  | @beyond link d hd hdok _ hout =>
    refine ⟨fun ⟨_, _, _, hres, _⟩ => (by cases hres), fun ⟨k, e, b, h⟩ => ?_⟩
    obtain ⟨_, ⟨⟩, hle⟩ := h.ahead
    have hmem := mem_of_getElem? hd
    obtain ⟨hfirst, hlow⟩ := hcand d hmem
    generalize candidateBase r maxAddress d = c at hfirst hlow hout
    have hin : ∃ P, WrapsInside map P c r.length := by
      rcases lt_or_eq_of_le hle with hlt | rfl
      · obtain ⟨c', hc', hin⟩ := h.past link d hd ⟨link, rfl, le_rfl⟩ hlt hdok
        exact ⟨_, hfirst.unique hc' ▸ hin⟩
      · obtain rfl := Option.some.inj (hd.symm.trans h.entry)
        exact ⟨_, hfirst.unique h.first ▸ h.inside⟩
    obtain ⟨P, hin⟩ := hin
    obtain ⟨_, _, _, _, _, _, hfind⟩ := hin.search htile
    rcases hout with ⟨-, hbeyond⟩ | hnone
    · have := hfirst.mono h.first (tiles_getElem_le htile hle hd h.entry).1
      have := h.first.le htile hup haln htop (mem_of_getElem? h.entry)
      have := lastByte_wrap (by omega) hlen hin.1
      have := lastByte_wrap (by omega) hlen h.inside.1
      have := h.last_le
      omega
    · simp [hfind] at hnone
  | @found link i j e he hok _ hlast hfind huse =>
    refine ⟨fun _ => ?_, fun _ => ⟨_, i, j, rfl, hwraps _ _ _ hfind⟩⟩
    have hmem := mem_of_getElem? he
    refine ⟨link, e, _, he, ⟨link, rfl, le_rfl⟩, hok, (hcand e hmem).1, hlast htop,
      wrapsInside_of_search htile hlen (by have := (hcand e hmem).2; omega)
        (hwraps _ _ _ hfind) hfind huse, ?_⟩
    rintro n d - ⟨_, ⟨⟩, hle⟩ hlt
    omega
  | @blocked link i j subLink e _ he hok _ hfind hsub _ ih =>
    have hmem := mem_of_getElem? he
    obtain ⟨hfirst, hle⟩ := hcand e hmem
    generalize candidateBase r maxAddress e = b at hfirst hle hfind
    have hwrap := hwraps b i j hfind
    obtain ⟨rfl, c, hc, hcont⟩ := coreSearchGcdMapEntry_wrap htile (by omega) hlen hwrap hfind
    obtain ⟨hge, hle', -⟩ := firstUnusable_linkRange hsub
    obtain rfl : subLink = i := by omega
    have hno : ¬ Usable r c := by
      rw [← firstUnusable_self hc, hsub]
      simp
    have hcbase := ((c.contains_iff b).1 hcont.1).1
    have hlink : link ≤ subLink := by
      by_contra hlt
      have := tiles_getElem_lt htile (not_le.1 hlt) hc he
      have := ((c.contains_iff b).1 hcont.1).2
      have := hfirst.2.1
      omega
    refine ih.trans (getsTo_iff htile (fun n d hd hn => ?_) fun n d hd hdok hn => ?_)
    · obtain ⟨_, ⟨⟩, hn⟩ := hn
      exact ⟨link, rfl, hlink.trans hn⟩
    · obtain ⟨_, ⟨⟩, hn⟩ := hn
      rcases lt_or_ge n subLink with hlt | hge
      -- an entry in between has the same first aligned address
      · refine .inr ⟨b, ⟨hfirst.1, ?_, ?_⟩, hwrap, c, mem_of_getElem? hc, hno, hcont⟩
        · have := tiles_getElem_lt htile hlt hd hc
          have := (tiles_mem htile (mem_of_getElem? hd)).2.1
          omega
        · have := (tiles_getElem_le htile hn he hd).1
          have := hfirst.2.2
          omega
      · exact .inl ⟨subLink, rfl, hge⟩

end Upwards

include hup hlen

theorem selectRange_wraps_iff (haln : r.alignment < 64) (hpos : 0 < r.length)
    (hbase : r.baseAddress.getD 0 < 2 ^ 64) :
    (∃ base i j, selectRange r map (r.baseAddress.getD 0) = some (.found base i j) ∧
      2 ^ 64 < base + r.length) ↔ TakesWrapped r map := by
  rw [TakesWrapped]
  split
  next htype =>
    rw [Nat.dvd_iff_mod_eq_zero]
    constructor
    · rintro ⟨base, i, j, hsel, hwrap⟩
      rw [selectRange, if_pos htype] at hsel
      split at hsel
      · cases hsel
      next haligned =>
        split at hsel
        · cases hsel
        next hfind =>
          split at hsel
          next huse =>
            cases hsel
            exact ⟨not_not.1 haligned, wrapsInside_of_search htile hlen hbase hwrap hfind huse⟩
          · cases hsel
    · rintro ⟨haligned, hin⟩
      obtain ⟨l, c, hc, hok, -, -, hfind⟩ := hin.search htile
      refine ⟨_, l, l, ?_, hin.1⟩
      rw [selectRange, if_pos htype, if_neg (not_not.2 haligned), hfind]
      dsimp only
      rw [(firstUnusable_self hc).2 hok]
  next htype =>
    obtain ⟨start, result, hahead, hres, hrun⟩ :=
      selectRange_searches htile hup haln hpos hbase htype
    rw [hres]
    simp only [Option.some.injEq]
    cases htop : r.gcdAllocateType.topDown with
    | true =>
      refine ⟨fun ⟨base, i, j, hfound, hwrap⟩ => ?_, fun h => nomatch h.1⟩
      obtain ⟨e, he, hfits, rfl⟩ := hrun.candidate hfound
      have hmem := tiles_mem htile he
      have := candidateBase_add_le htop hmem.2.1 (by omega) (limitAddress_lt htile hup hbase)
        (hfits htop).1 (hfits htop).2
      omega
    | false =>
      have hstart : ∀ n d, map[n]? = some d → ∃ m ∈ start, m ≤ n := by simpa [htop] using hahead
      rw [hrun.wraps_iff htile hup hlen haln htop]
      constructor
      · rintro ⟨k, e, b, h⟩
        refine ⟨rfl, e, mem_of_getElem? h.entry, h.usable, b, h.first, h.last_le, h.inside, ?_⟩
        intro d hd hok hlt
        obtain ⟨i, hi⟩ := List.getElem?_of_mem hd
        refine h.past i d hi (hstart i d hi) (not_le.1 fun hle => ?_) hok
        have := tiles_getElem_le htile hle h.entry hi
        omega
      · rintro ⟨-, e, he, hok, b, hfirst, hlast, hin, hpast⟩
        obtain ⟨k, hk⟩ := List.getElem?_of_mem he
        refine ⟨k, e, b, hk, hstart k e hk, hok, hfirst, hlast, hin, fun i d hd _ hlt hdok => ?_⟩
        have := tiles_getElem_lt htile hlt hd hk
        have := tiles_mem htile (mem_of_getElem? hd)
        exact hpast d (mem_of_getElem? hd) hdok (by omega)

end

end Search

/-- The arguments are 64-bit words. -/
def WordSized : GcdCall → Prop
  | .convert r => r.baseAddress < 2 ^ 64 ∧ r.length < 2 ^ 64
  | .allocate r => r.baseAddress.getD 0 < 2 ^ 64 ∧ r.length < 2 ^ 64

/-- The call is about to change a range that wraps. For a conversion, one entry
contains the base and the wrapped end and passes the checks. -/
def SlipsThrough (env : Environment) (g : Gcd) : GcdCall → Prop
  | .convert r =>
    2 ^ 64 < r.baseAddress + r.length ∧
      env.allocateGcdMapEntry = true ∧ setCpuAttributes env r = .success ∧
      ∃ e ∈ g.map r.operation.space, e.contains r.baseAddress = true ∧
        e.contains r.lastAddress = true ∧ checkEntry r e = .success
  | .allocate r =>
    r.check = .success ∧ env.allocateGcdMapEntry = true ∧ TakesWrapped r (g.map r.space)

/-- The call fails and changes nothing, or leaves partitions. -/
def SoundOutcome (sizes : SpaceSizes) (env : Environment) (g : Gcd) (call : GcdCall) : Prop :=
  ∃ status base g', GcdCall.run env call g = some (status, base, g') ∧
    (status ≠ .success ∧ g' = g ∨
      status = .success ∧ base + call.length ≤ 2 ^ 64 ∧
        ∀ space, SortedPartition (sizes.upper space - 1) (g'.map space))

theorem checkEntries_singleton (r : ConvertRequest) (e : GcdMapEntry) :
    checkEntries r [e] = checkEntry r e := by
  unfold checkEntries
  split
  · rfl
  next hchk =>
    have hok : checkEntry r e = .success := by simpa using hchk
    rw [hok]
    rfl

section

variable (hg : GcdWellFormed sizes g)
include hg

theorem partition_of_wellFormed (space : Space) :
    SortedPartition (sizes.upper space - 1) (g.map space) :=
  sortedPartition_of_tiles (sizes.upper_pos space) (hg space).tiles

theorem coreConvertSpace_of_slips {r : ConvertRequest} (hword : WordSized (.convert r))
    (hslips : SlipsThrough env g (.convert r)) :
    ∃ g', coreConvertSpace env r g = some (.success, g') := by
  obtain ⟨hwrap, hpool, hcpu, e, he, hbase, hlast, hchk⟩ := hslips
  obtain ⟨link, hlink, hfind⟩ :=
    searchEntry_of_contains (hg r.operation.space).tiles he hbase hlast
  have hlen : r.length ≠ 0 := by
    have := hword.1
    omega
  obtain ⟨map, hmap⟩ := Option.isSome_iff_exists.1
    (convertRange_self_isSome (nextAttributes r) (convertEntry r) r.baseAddress r.length
      r.attributes hlink)
  refine ⟨g.setMap r.operation.space map, ?_⟩
  unfold coreConvertSpace
  simp [hlen, hfind, linkRange_self hlink, checkEntries_singleton, hchk, hpool, hcpu, hmap]

theorem soundOutcome_convert_iff {r : ConvertRequest} (hword : WordSized (.convert r)) :
    SoundOutcome sizes env g (.convert r) ↔ ¬ SlipsThrough env g (.convert r) := by
  constructor
  · rintro ⟨status, base, g', hrun, hout⟩ hslips
    obtain ⟨g'', hcall⟩ := coreConvertSpace_of_slips hg hword hslips
    simp only [GcdCall.run, hcall, Option.some.injEq, Prod.mk.injEq] at hrun
    obtain ⟨rfl, rfl, rfl⟩ := hrun
    rcases hout with ⟨hstat, -⟩ | ⟨-, hrng, -⟩
    · exact hstat rfl
    · exact absurd hslips.1 (not_lt.2 hrng)
  · intro hslips
    rcases convertSpace_cases env r g with
      ⟨status, hstat, heq⟩ | ⟨startLink, endLink, hlen, hfind, hchk, hpool, hcpu, heq⟩
    · exact ⟨status, r.baseAddress, g, by simp [GcdCall.run, heq], .inl ⟨hstat, rfl⟩⟩
    · have hrng : r.baseAddress + r.length ≤ 2 ^ 64 := by
        by_contra hwrap
        apply hslips
        obtain ⟨rfl, e, he, hbase, hlast⟩ := coreSearchGcdMapEntry_wrap
          (hg r.operation.space).tiles hword.1 hword.2 (not_le.1 hwrap) hfind
        rw [linkRange_self he, checkEntries_singleton] at hchk
        exact ⟨not_le.1 hwrap, hpool, hcpu, e, mem_of_getElem? he, hbase, hlast, hchk⟩
      obtain ⟨map, hconv, hmap⟩ := convertRange_wf (nextAttributes r)
        r.attributes (convertEntry_base r) (convertEntry_end r) hg hlen
        hrng hfind
      rw [hconv] at heq
      exact ⟨.success, r.baseAddress, _, by simp [GcdCall.run, heq],
        .inr ⟨rfl, hrng, partition_of_wellFormed hmap⟩⟩

theorem soundOutcome_allocate_iff (hword : WordSized (.allocate r)) :
    SoundOutcome sizes env g (.allocate r) ↔ ¬ SlipsThrough env g (.allocate r) := by
  have hwraps : r.check = .success → ((∃ base i j,
      selectRange r (g.map r.space) (r.baseAddress.getD 0) = some (.found base i j) ∧
        2 ^ 64 < base + r.length) ↔ TakesWrapped r (g.map r.space)) := fun hchk =>
    selectRange_wraps_iff (hg r.space).tiles (sizes.upper_le r.space) hword.2
      (AllocateRequest.check_eq_success hchk).1 (AllocateRequest.check_eq_success hchk).2 hword.1
  constructor
  · rintro ⟨status, base, g', hrun, hout⟩ ⟨hchk, hpool, htakes⟩
    obtain ⟨base', start, stop, hsel, hwrap⟩ := (hwraps hchk).2 htakes
    have hcall : coreAllocateSpace env r g = some (status, base, g') := hrun
    simp only [coreAllocateSpace, hchk, hsel, hpool, EfiStatus.isError, bne_self_eq_false,
      false_eq_true, if_false, Bool.not_true] at hcall
    split at hcall
    · simp at hcall
    · obtain ⟨⟩ := hcall
      rcases hout with ⟨hstat, -⟩ | ⟨-, hrng, -⟩
      · exact hstat rfl
      · exact absurd hwrap (not_lt.2 hrng)
  · intro hslips
    rcases allocateSpace_cases with
      ⟨status, base, hstat, heq⟩ | ⟨hchk, hsel, heq⟩ |
        ⟨base, startLink, endLink, hlen, hchk, hpool, hsel, heq⟩
    · exact ⟨status, base, g, heq, .inl ⟨hstat, rfl⟩⟩
    · obtain ⟨haln, hlen⟩ := AllocateRequest.check_eq_success hchk
      have hsome := selectRange_isSome (hg r.space).tiles (sizes.upper_le r.space) haln hlen hword.1
      simp [hsel] at hsome
    · have hrng : base + r.length ≤ 2 ^ 64 := by
        by_contra hwrap
        exact hslips ⟨hchk, hpool, (hwraps hchk).1 ⟨base, startLink, endLink, hsel, not_le.1 hwrap⟩⟩
      obtain ⟨map, hconv, hmap⟩ := convertRange_wf
        (fun (_ : Unit) _ => ()) () (allocateEntry_base r) (allocateEntry_end r) hg hlen hrng
        (selectRange_found hsel).1
      rw [hconv] at heq
      exact ⟨.success, base, _, heq, .inr ⟨rfl, hrng, partition_of_wellFormed hmap⟩⟩

theorem soundOutcome_iff {call : GcdCall} (hword : WordSized call) :
    SoundOutcome sizes env g call ↔ ¬ SlipsThrough env g call := by
  cases call with
  | convert r => exact soundOutcome_convert_iff hg hword
  | allocate r => exact soundOutcome_allocate_iff hg hword

end

/-- A call with words for arguments that does not slip through the checks. -/
def GuardedStep (g g' : Gcd) : Prop :=
  ∃ env call status base, WordSized call ∧ ¬ SlipsThrough env g call ∧
    GcdCall.run env call g = some (status, base, g')

theorem guardedStep_wellFormed {g' : Gcd} (hg : GcdWellFormed sizes g)
    (hstep : GuardedStep g g') : GcdWellFormed sizes g' := by
  obtain ⟨env, call, status, base, hword, hslips, hrun⟩ := hstep
  obtain ⟨status', base', g'', hrun', hout⟩ := (soundOutcome_iff hg hword).2 hslips
  rw [hrun] at hrun'
  obtain ⟨⟩ := hrun'
  apply step_wellFormed hg
  refine ⟨env, call, status, base, hrun, ?_⟩
  intro hok
  rcases hout with ⟨hstat, -⟩ | ⟨-, hrng, -⟩
  · exact absurd hok hstat
  · exact hrng

theorem guarded_wellFormed
    (h : Relation.ReflTransGen GuardedStep sizes.initial g) : GcdWellFormed sizes g := by
  induction h with
  | refl => exact initial_wellFormed sizes
  | tail _ hstep ih => exact guardedStep_wellFormed ih hstep

/-- In every map that calls which do not slip through can reach, a call has a
sound outcome exactly when it does not slip through. -/
theorem call_soundOutcome_iff_not_slips (sizes : SpaceSizes) {g : Gcd}
    (h : Relation.ReflTransGen GuardedStep sizes.initial g) (env : Environment)
    (call : GcdCall) (hword : WordSized call) :
    SoundOutcome sizes env g call ↔ ¬ SlipsThrough env g call :=
  soundOutcome_iff (guarded_wellFormed h) hword

theorem add_soundOutcome :
    SoundOutcome sampleSizes sampleEnvironment sampleSizes.initial
      (.convert (addSystemMemory 0x1000 0x3000 efiMemoryWb)) :=
  (call_soundOutcome_iff_not_slips sampleSizes .refl sampleEnvironment
    (.convert (addSystemMemory 0x1000 0x3000 efiMemoryWb)) ⟨by decide, by decide⟩).mpr
    fun h => absurd h.1 (by decide)

/-- Adding a range that wraps inside the initial entry succeeds and leaves an
entry that ends below its base. -/
theorem wrapping_add_breaks_map :
    ∃ g', coreConvertSpace sampleEnvironment
          (addSystemMemory 0x10000 (2 ^ 64 - 0x8000) efiMemoryWb) sampleSizes.initial =
        some (.success, g') ∧
      systemMemoryEntry 0x10000 0x7FFF (efiMemoryWb ||| efiMemoryRuntime) ∈ g'.memorySpaceMap ∧
      ¬ SortedPartition (2 ^ 48 - 1) g'.memorySpaceMap := by
  refine ⟨⟨[nonExistentEntry 0 0xFFFF,
      systemMemoryEntry 0x10000 0x7FFF (efiMemoryWb ||| efiMemoryRuntime),
      nonExistentEntry 0x8000 (2 ^ 48 - 1)], sampleSizes.initial.ioSpaceMap⟩,
    by decide +kernel, by decide, ?_⟩
  intro h
  exact absurd (h.base_le_end (systemMemoryEntry 0x10000 0x7FFF
    (efiMemoryWb ||| efiMemoryRuntime)) (by decide)) (by decide)

end MuBasecore.GcdWrap
