import MuBasecore.GcdLabels
import MuBasecore.GcdWrap

/-!
What the search of `CoreAllocateSpace` finds. Upwards it finds the lowest base
that can serve the request; downwards it leaves out the ranges whose last entry
starts too close to the maximum address.
-/

namespace MuBasecore.GcdSearch

open EfiTypes Word64 SegmentList GcdMap GcdSpace GcdRange GcdPartition GcdCapabilities GcdWrap
open GcdLabels GcdMapEntry AllocateRequest List

variable {start : Option Nat} {result : SearchResult} {r : AllocateRequest} {map : List GcdMapEntry}
  {d e : GcdMapEntry} {b base endLink link maxAddress startLink subLink upper : Nat}

/-- The request may be served at `b`. -/
structure Feasible (r : AllocateRequest) (map : List GcdMapEntry) (maxAddress b : Nat) : Prop where
  aligned : 2 ^ r.alignment ∣ b
  below : b + r.length ≤ maxAddress + 1
  usable : ∀ a, b ≤ a → a < b + r.length → ∃ e ∈ map, e.contains a = true ∧ Usable r e

theorem searchFrom_isSome {lastAddress lower : Nat}
    (htile : TilesMap lower upper map) (hlast : lastAddress < upper) (hbase : base ≤ lastAddress)
    (hlo : lower ≤ lastAddress) (hst : start = none → lower ≤ base) :
    (searchFrom base lastAddress link start map).isSome = true := by
  induction map generalizing lower link start with
  | nil =>
    have : lower = upper := htile
    omega
  | cons e es ih =>
    obtain ⟨rfl, hle, hrest⟩ := htile
    have hafter : ∀ a, e.baseAddress ≤ a → ¬ e.contains a = true → e.endAddress + 1 ≤ a := by
      intro a ha hcont
      rw [contains_iff] at hcont
      omega
    rw [searchFrom]
    cases hfnd : (if e.contains base then some link else start) with
    | none =>
      have hne : ¬ e.contains base = true := by
        intro hcont
        simp [hcont] at hfnd
      simp only [hne, Bool.false_eq_true, if_false] at hfnd
      have hnext := hafter base (hst hfnd) hne
      exact ih hrest (by omega) fun _ => hnext
    | some i =>
      simp only
      split
      · rfl
      next hne =>
        exact ih hrest (hafter lastAddress hlo hne) (by simp)

theorem searchEntry_ne_none (htile : TilesMap 0 upper map) (hupper : upper ≤ 2 ^ 63)
    (hlen : 0 < r.length) (hend : base + r.length ≤ upper) :
    coreSearchGcdMapEntry base r.length map ≠ none := by
  rw [coreSearchGcdMapEntry, lastByte_eq hlen (by omega), ← Option.isSome_iff_ne_none]
  exact searchFrom_isSome htile (by omega) (by omega) (Nat.zero_le _) fun _ => Nat.zero_le _

theorem candidateBase_dvd : 2 ^ r.alignment ∣ candidateBase r maxAddress e := by
  unfold candidateBase
  split <;> exact dvd_alignDown

section Search

variable (htile : TilesMap 0 upper map) (hlen : 0 < r.length)

include htile hlen

theorem Feasible.avoids (hb : Feasible r map maxAddress b) (hd : d ∈ map)
    (hunuse : ¬ Usable r d) : b + r.length ≤ d.baseAddress ∨ d.endAddress < b := by
  by_contra hmeets
  have hle := (tiles_mem htile hd).2.1
  obtain ⟨e, he, hcont, huse⟩ := hb.usable (max b d.baseAddress) (by omega) (by omega)
  rw [contains_iff] at hcont
  rw [tiles_eq_of_mem htile he hd hcont (by omega)] at huse
  exact hunuse huse

theorem feasible_of_search (hrng : base + r.length ≤ 2 ^ 64)
    (haligned : 2 ^ r.alignment ∣ base) (hbel : base + r.length ≤ maxAddress + 1)
    (hfind : coreSearchGcdMapEntry base r.length map = some (startLink, endLink))
    (huse : firstUnusable r startLink (linkRange map startLink endLink) = none) :
    Feasible r map maxAddress base := by
  obtain ⟨e, es, hlink, hspl, hfnd⟩ := foundRange_of_search hlen hrng htile hfind
  have hbase := hfnd.base_mem
  have hlast := hfnd.last_mem
  refine ⟨haligned, hbel, fun a hle hlt => ?_⟩
  obtain ⟨d, hd, hmem⟩ := exists_mem_of_tiles hfnd.tiles (n := a) (by omega) (by omega)
  rw [hlink] at huse
  refine ⟨d, ?_, (d.contains_iff a).2 hmem, firstUnusable_eq_none huse d hd⟩
  rw [hspl]
  exact mem_append_right _ (mem_append_left _ hd)

theorem unusable_meets (hrng : base + r.length ≤ 2 ^ 64)
    (hfind : coreSearchGcdMapEntry base r.length map = some (startLink, endLink))
    (hsub : firstUnusable r startLink (linkRange map startLink endLink) = some subLink) :
    ∃ d, map[subLink]? = some d ∧ ¬ Usable r d ∧ base ≤ d.endAddress ∧
      d.baseAddress < base + r.length := by
  obtain ⟨hst, hend, d, hd, herr⟩ := firstUnusable_linkRange hsub
  obtain ⟨-, ⟨a, ha, habase⟩, ⟨z, hz, hzlast⟩⟩ := searchEntry_links hfind
  rw [lastByte_eq hlen hrng, contains_iff] at hzlast
  rw [contains_iff] at habase
  refine ⟨d, hd, fun huse => usable_iff.1 huse herr, ?_, ?_⟩
  · have := tiles_getElem_le htile hst ha hd
    omega
  · have := tiles_getElem_le htile hend hd hz
    omega

end Search

section Upward

/-- What the upward search says about every base: it returns the lowest one that
is feasible, and `notFound` only if there is none. -/
def LowestReport (r : AllocateRequest) (map : List GcdMapEntry) (maxAddress : Nat) :
    SearchResult → Prop
  | .found b _ _ => IsLeast {b | Feasible r map maxAddress b} b
  | .notFound _ => ∀ b, ¬ Feasible r map maxAddress b

/-- Every feasible base lies behind the entries in front of `start`. -/
def Passed (r : AllocateRequest) (map : List GcdMapEntry) (maxAddress : Nat)
    (start : Option Nat) : Prop :=
  ∀ b, Feasible r map maxAddress b → ∀ i c, map[i]? = some c → (∀ j ∈ start, i < j) →
    c.endAddress < b

variable (htile : TilesMap 0 upper map) (hlen : 0 < r.length)

include htile hlen

theorem Feasible.last_lt (hb : Feasible r map maxAddress b) : b + r.length ≤ upper := by
  obtain ⟨z, hz, hcont, -⟩ := hb.usable (b + r.length - 1) (by omega) (by omega)
  have := tiles_mem htile hz
  rw [contains_iff] at hcont
  omega

theorem Feasible.base_le (hb : Feasible r map maxAddress b) (he : map[link]? = some e)
    (hpast : Passed r map maxAddress (some link)) : e.baseAddress ≤ b := by
  obtain ⟨d, hd, hcont, -⟩ := hb.usable b (le_refl _) (by omega)
  rw [contains_iff] at hcont
  obtain ⟨k, hk⟩ := List.getElem?_of_mem hd
  by_contra hlt
  rcases lt_or_ge k link with hkl | hkl
  · have := hpast b hb k d hk (by simpa using hkl)
    omega
  · have := tiles_getElem_le htile hkl he hk
    omega

section

variable (hupper : upper ≤ 2 ^ 63) (haln : r.alignment < 64)
    (htop : r.gcdAllocateType.topDown = false)
include hupper haln htop

theorem Feasible.candidateBase_le (hb : Feasible r map maxAddress b)
    (he : map[link]? = some e) (hpast : Passed r map maxAddress (some link)) :
    candidateBase r maxAddress e ≤ b := by
  have hbase := hb.base_le htile hlen he hpast
  have hmem := tiles_mem htile (mem_of_getElem? he)
  have hpow := two_pow_le_of_lt haln
  have hpos := Nat.two_pow_pos r.alignment
  simp only [candidateBase, htop, Bool.false_eq_true, if_false]
  rw [add64_eq (by omega)]
  exact alignDown_le_of_lt hb.aligned (by omega)

theorem Searches.lowest (hwrap : ∀ e ∈ map, candidateBase r maxAddress e + r.length ≤ 2 ^ 64)
    (h : Searches r map maxAddress start result)
    (hpast : Passed r map maxAddress start) : LowestReport r map maxAddress result := by
  induction h with
  | head baseAddress =>
    intro b hb
    obtain ⟨d, hd, hcont, -⟩ := hb.usable b (le_refl _) (by omega)
    obtain ⟨k, hk⟩ := List.getElem?_of_mem hd
    have := hpast b hb k d hk (by simp)
    rw [contains_iff] at hcont
    omega
  | @skip link e result he hskip hnext ih =>
    apply ih
    intro b hb i c hc hi
    have hile : i ≤ link := by
      have := (List.getElem?_eq_some_iff.1 hc).1
      simp only [followingLink, htop, Bool.false_eq_true, if_false] at hi
      split at hi
      · have := hi _ rfl
        omega
      · omega
    have := tiles_getElem_le htile hile hc he
    have := hb.base_le htile hlen he hpast
    rcases hskip with hunuse | ⟨hdown, -⟩
    · have havoids := hb.avoids htile hlen (mem_of_getElem? he) hunuse
      omega
    · simp [htop] at hdown
  | short baseAddress he hdown hshrt => simp [htop] at hdown
  | @beyond link e he hok hfits hout =>
    intro b hb
    have := hb.candidateBase_le htile hlen hupper haln htop he hpast
    have hlast := hb.last_lt htile hlen
    have hbel := hb.below
    rcases hout with ⟨-, hout⟩ | hnone
    · rw [lastByte_eq hlen (hwrap e (mem_of_getElem? he))] at hout
      omega
    · exact absurd hnone (searchEntry_ne_none htile hupper hlen (by omega))
  | @found link startLink endLink e he hok hfits hlast hfind huse =>
    have hrng := hwrap e (mem_of_getElem? he)
    have hlast := hlast htop
    rw [lastByte_eq hlen hrng] at hlast
    exact ⟨feasible_of_search htile hlen hrng candidateBase_dvd (by omega) hfind huse,
      fun b hb => hb.candidateBase_le htile hlen hupper haln htop he hpast⟩
  | @blocked link startLink endLink subLink e result he hok hfits hfind hsub hnext ih =>
    obtain ⟨d, hd, hunuse, hmeets⟩ := unusable_meets htile hlen
      (hwrap e (mem_of_getElem? he)) hfind hsub
    apply ih
    intro b hb i c hc hi
    have := tiles_getElem_lt htile (hi _ rfl) hc hd
    have := tiles_mem htile (mem_of_getElem? hd)
    have := hb.candidateBase_le htile hlen hupper haln htop he hpast
    have havoids := hb.avoids htile hlen (mem_of_getElem? hd) hunuse
    omega

end

end Upward

section Downward

/-- A place that the descending search may come to. -/
def FeasibleBelow (r : AllocateRequest) (map : List GcdMapEntry) (maxAddress b : Nat) : Prop :=
  Feasible r map maxAddress b ∧
    ∃ z ∈ map, z.contains (b + r.length - 1) = true ∧ z.baseAddress + r.length ≤ maxAddress

def HighestReport (r : AllocateRequest) (map : List GcdMapEntry) (maxAddress : Nat) :
    SearchResult → Prop
  | .found b _ _ => IsGreatest {b | FeasibleBelow r map maxAddress b} b
  | .notFound _ => ∀ b, ¬ FeasibleBelow r map maxAddress b

/-- Every such range lies in front of the entries behind `start`. -/
def PassedDown (r : AllocateRequest) (map : List GcdMapEntry) (maxAddress : Nat)
    (start : Option Nat) : Prop :=
  ∀ b, FeasibleBelow r map maxAddress b → ∀ i c, map[i]? = some c → (∀ j ∈ start, j < i) →
    b + r.length ≤ c.baseAddress

variable (htile : TilesMap 0 upper map) (hlen : 0 < r.length)

include htile

theorem candidate_fits (hupper : upper ≤ 2 ^ 63) (hmax : maxAddress < 2 ^ 64)
    (htop : r.gcdAllocateType.topDown = true) (he : map[link]? = some e)
    (hfits : Fits r maxAddress e) :
    e.baseAddress + r.length ≤ maxAddress ∧ e.endAddress < upper ∧
      candidateBase r maxAddress e + r.length ≤ e.endAddress + 1 ∧
      candidateBase r maxAddress e + r.length ≤ maxAddress + 1 := by
  have hmem := tiles_mem htile (mem_of_getElem? he)
  obtain ⟨hbase, hshrt, heq⟩ :=
    candidateBase_topDown htop hmem.2.1 (by omega) hmax (hfits htop).1 (hfits htop).2
  have := alignDown_le (min e.endAddress maxAddress + 1 - r.length) r.alignment
  omega

include hlen

theorem FeasibleBelow.last_entry (hb : FeasibleBelow r map maxAddress b)
    (he : map[link]? = some e) (hpast : PassedDown r map maxAddress (some link)) :
    ∃ k ≤ link, ∃ z, map[k]? = some z ∧ z.baseAddress + r.length ≤ maxAddress ∧
      b + r.length ≤ z.endAddress + 1 ∧ z.endAddress ≤ e.endAddress := by
  obtain ⟨hfeas, z, hz, hcont, hfits⟩ := hb
  obtain ⟨k, hk⟩ := List.getElem?_of_mem hz
  rcases lt_or_ge link k with hlk | hlk
  · have := hpast b ⟨hfeas, z, hz, hcont, hfits⟩ k z hk (by simpa using hlk)
    rw [contains_iff] at hcont
    omega
  · have := tiles_getElem_le htile hlk hk he
    rw [contains_iff] at hcont
    exact ⟨k, hlk, z, hk, hfits, by omega, by omega⟩

section

variable (hupper : upper ≤ 2 ^ 63) (hmax : maxAddress < 2 ^ 64)
    (htop : r.gcdAllocateType.topDown = true)
include hupper hmax htop

theorem FeasibleBelow.le_candidateBase (hb : FeasibleBelow r map maxAddress b)
    (he : map[link]? = some e) (hfits : Fits r maxAddress e)
    (hpast : PassedDown r map maxAddress (some link)) : b ≤ candidateBase r maxAddress e := by
  have hmem := tiles_mem htile (mem_of_getElem? he)
  obtain ⟨k, -, z, -, -, hlast, hend⟩ := hb.last_entry htile hlen he hpast
  have hbel := hb.1.below
  rw [(candidateBase_topDown htop hmem.2.1 (by omega) hmax (hfits htop).1 (hfits htop).2).2.2]
  exact le_alignDown hb.1.aligned (by omega)

theorem Searches.highest (h : Searches r map maxAddress start result)
    (hpast : PassedDown r map maxAddress start) : HighestReport r map maxAddress result := by
  induction h with
  | head baseAddress =>
    intro b hb
    obtain ⟨hfeas, z, hz, hcont, hfits⟩ := hb
    obtain ⟨k, hk⟩ := List.getElem?_of_mem hz
    have := hpast b ⟨hfeas, z, hz, hcont, hfits⟩ k z hk (by simp)
    rw [contains_iff] at hcont
    omega
  | @skip link e result he hskip hnext ih =>
    apply ih
    intro b hb i c hc hi
    have hile : link ≤ i := by
      simp only [followingLink, htop, if_true] at hi
      split at hi
      · omega
      · have := hi _ rfl
        omega
    have := tiles_getElem_le htile hile he hc
    obtain ⟨k, hk, z, hz, hfits, hlast, hend⟩ := hb.last_entry htile hlen he hpast
    rcases hskip with hunuse | ⟨-, hhigh⟩
    · have havoids := hb.1.avoids htile hlen (mem_of_getElem? he) hunuse
      omega
    · rcases lt_or_eq_of_le hk with hlt | rfl
      · have := tiles_getElem_lt htile hlt hz he
        omega
      · obtain rfl := Option.some.inj (hz.symm.trans he)
        rw [add64_eq (by omega)] at hhigh
        omega
  | @short link e baseAddress he hdown hshrt =>
    intro b hb
    have hmem := tiles_mem htile (mem_of_getElem? he)
    obtain ⟨k, -, z, -, -, hlast, hend⟩ := hb.last_entry htile hlen he hpast
    rw [add64_eq (by omega)] at hshrt
    omega
  | @beyond link e he hok hfits hout =>
    have hcandidate := candidate_fits htile hupper hmax htop he hfits
    rcases hout with ⟨hup, -⟩ | hnone
    · simp [htop] at hup
    · exact absurd hnone (searchEntry_ne_none htile hupper hlen (by omega))
  | @found link startLink endLink e he hok hfits hlast hfind huse =>
    have hcandidate := candidate_fits htile hupper hmax htop he hfits
    have hfeas : Feasible r map maxAddress (candidateBase r maxAddress e) :=
      feasible_of_search htile hlen (by omega) candidateBase_dvd (by omega) hfind huse
    refine ⟨⟨hfeas, ?_⟩, fun b hb => hb.le_candidateBase htile hlen hupper hmax htop he hfits hpast⟩
    obtain ⟨z, hz, hcont, -⟩ := hfeas.usable
      (candidateBase r maxAddress e + r.length - 1) (by omega) (by omega)
    refine ⟨z, hz, hcont, ?_⟩
    rw [contains_iff] at hcont
    obtain ⟨k, hk⟩ := List.getElem?_of_mem hz
    rcases lt_or_ge link k with hlk | hlk
    · have := tiles_getElem_lt htile hlk he hk
      omega
    · have := tiles_getElem_le htile hlk hk he
      omega
  | @blocked link startLink endLink subLink e result he hok hfits hfind hsub hnext ih =>
    have hcandidate := candidate_fits htile hupper hmax htop he hfits
    obtain ⟨d, hd, hunuse, hmeets⟩ := unusable_meets htile hlen (by omega) hfind hsub
    apply ih
    intro b hb i c hc hi
    have := tiles_getElem_lt htile (hi _ rfl) hd hc
    have := tiles_mem htile (mem_of_getElem? hd)
    have := hb.le_candidateBase htile hlen hupper hmax htop he hfits hpast
    have havoids := hb.1.avoids htile hlen (mem_of_getElem? hd) hunuse
    omega

end

end Downward

def allocatedLabels (r : AllocateRequest) (base : Nat) (ls : List GcdLabel) : List GcdLabel :=
  ls.mapIdx fun address label =>
    if base ≤ address ∧ address < base + r.length then
      { label with imageHandle := r.imageHandle, deviceHandle := r.deviceHandle }
    else label

variable {sizes : SpaceSizes} {g : Gcd} {env : Environment}

theorem allocateSpace_notFound (env : Environment) (hchk : r.check = .success)
    (hsel : selectRange r (g.map r.space) (r.baseAddress.getD 0) = some (.notFound base)) :
    coreAllocateSpace env r g = some (.notFound, base, g) := by
  simp [coreAllocateSpace, hchk, hsel]

theorem coreAllocateSpace_found (hg : GcdWellFormed sizes g)
    (hpool : env.allocateGcdMapEntry = true) (hchk : r.check = .success)
    (hrng : base + r.length ≤ 2 ^ 64)
    (hsel : selectRange r (g.map r.space) (r.baseAddress.getD 0) =
      some (.found base startLink endLink)) :
    ∃ map, coreAllocateSpace env r g = some (.success, base, g.setMap r.space map) ∧
      labels map = allocatedLabels r base (labels (g.map r.space)) := by
  have hlen := (check_eq_success hchk).2
  have hfind := (selectRange_found hsel).1
  obtain ⟨map, hconv, -⟩ := convertRange_wf (fun (_ : Unit) _ => ()) ()
    (allocateEntry_base r) (allocateEntry_end r) hg hlen hrng hfind
  refine ⟨map, by simp [coreAllocateSpace, hchk, hsel, hpool, hconv], ?_⟩
  apply (convertRange_labels_iff (f := allocateEntry r) (allocateEntry_base r)
    (allocateEntry_end r) (fun _ => rfl) (fun _ => rfl) (fun _ => rfl) hlen hrng
    (le_trans (sizes.upper_le r.space) (by decide)) (hg r.space).tiles hfind hconv).2
  rw [visitEntries_eq_map fun _ => rfl]

/-- The value of `MaxAddress` for a request on these maps. -/
def bound (r : AllocateRequest) (g : Gcd) : Nat :=
  limitAddress r (g.map r.space) (r.baseAddress.getD 0)

/-- No candidate wraps around the address space. -/
def NoWrap (r : AllocateRequest) (g : Gcd) : Prop :=
  ∀ e ∈ g.map r.space, candidateBase r (bound r g) e + r.length ≤ 2 ^ 64

theorem selectRange_report (hg : GcdWellFormed sizes g) (hchk : r.check = .success)
    (htype : r.gcdAllocateType ≠ .address) (hbase : r.baseAddress.getD 0 < 2 ^ 64) :
    ∃ result, selectRange r (g.map r.space) (r.baseAddress.getD 0) = some result ∧
      (r.gcdAllocateType.topDown = false → NoWrap r g →
        LowestReport r (g.map r.space) (bound r g) result) ∧
      (r.gcdAllocateType.topDown = true → HighestReport r (g.map r.space) (bound r g) result) := by
  obtain ⟨haln, hlen⟩ := check_eq_success hchk
  have htile := (hg r.space).tiles
  have hupper := sizes.upper_le r.space
  obtain ⟨start, result, hahead, hres, hfinds⟩ :=
    selectRange_searches htile hupper haln hlen hbase htype
  refine ⟨result, hres, fun htop hwrap => ?_, fun htop => ?_⟩
  · refine Searches.lowest htile hlen hupper haln htop hwrap hfinds ?_
    intro b _ i e he hpast
    obtain ⟨j, hj, hle⟩ := hahead i e he
    rw [htop, if_neg (by simp)] at hle
    have := hpast j hj
    omega
  · refine Searches.highest htile hlen hupper (limitAddress_lt htile hupper hbase) htop hfinds ?_
    intro b _ i e he hpast
    obtain ⟨j, hj, hle⟩ := hahead i e he
    rw [htop, if_pos rfl] at hle
    have := hpast j hj
    omega

theorem Feasible.add_le (hg : GcdWellFormed sizes g) (hlen : 0 < r.length)
    (hb : Feasible r (g.map r.space) maxAddress b) : b + r.length ≤ 2 ^ 64 := by
  have := hb.last_lt (hg r.space).tiles hlen
  have := sizes.upper_le r.space
  omega

/-- The call succeeds exactly if some base is feasible, returns the lowest one
and gives its range, and nothing else, to the handles of the request. -/
def ServesLowest (env : Environment) (r : AllocateRequest) (g : Gcd) : Prop :=
  ∃ status base g', coreAllocateSpace env r g = some (status, base, g') ∧
    (status = .success ↔ ∃ b, Feasible r (g.map r.space) (bound r g) b) ∧
    (status ≠ .success → g' = g) ∧
    (status = .success →
      IsLeast {b | Feasible r (g.map r.space) (bound r g) b} base ∧
      labels (g'.map r.space) = allocatedLabels r base (labels (g.map r.space)) ∧
      ∀ space, space ≠ r.space → g'.map space = g.map space)

/-- A search upwards serves every valid request that does not wrap from the
lowest range that fits. -/
theorem coreAllocateSpace_servesLowest (sizes : SpaceSizes) {g : Gcd}
    (hreach : Relation.ReflTransGen Step sizes.initial g) (env : Environment)
    (hpool : env.allocateGcdMapEntry = true) (r : AllocateRequest) (hcheck : r.check = .success)
    (htype : r.gcdAllocateType = .anySearchBottomUp ∨ r.gcdAllocateType = .maxAddressSearchBottomUp)
    (hbase : r.baseAddress.getD 0 < 2 ^ 64) (hwrap : NoWrap r g) : ServesLowest env r g := by
  have hg := reachable_wf hreach
  have hlength := (AllocateRequest.check_eq_success hcheck).2
  have hsearches : r.gcdAllocateType ≠ .address ∧ r.gcdAllocateType.topDown = false := by
    rcases htype with h | h <;> rw [h] <;> exact ⟨by simp, rfl⟩
  obtain ⟨result, hselect, hlowest, -⟩ := selectRange_report hg hcheck hsearches.1 hbase
  have hreport := hlowest hsearches.2 hwrap
  cases result with
  | notFound base =>
    refine ⟨.notFound, base, g, allocateSpace_notFound env hcheck hselect, ?_, fun _ => rfl,
      by simp⟩
    exact iff_of_false (by simp) fun ⟨b, hb⟩ => hreport b hb
  | found base startLink endLink =>
    obtain ⟨map, hcall, hlabels⟩ :=
      coreAllocateSpace_found hg hpool hcheck (hreport.1.add_le hg hlength) hselect
    refine ⟨.success, base, _, hcall, iff_of_true rfl ⟨base, hreport.1⟩, fun h => absurd rfl h,
      fun _ => ⟨hreport, ?_, fun space hspace => map_setMap_of_ne hspace⟩⟩
    rw [map_setMap_self]
    exact hlabels

def pageBelow (type : GcdAllocateType) (maxAddress : Nat) : AllocateRequest where
  space := .memory
  gcdAllocateType := type
  gcdMemoryType := .systemMemory
  gcdIoType := .nonExistent
  alignment := 12
  length := 0x1000
  baseAddress := some maxAddress
  imageHandle := 1
  deviceHandle := 0

theorem sampleAdded_reached : Relation.ReflTransGen Step sampleSizes.initial sampleAdded :=
  .single ⟨sampleEnvironment, .convert (addSystemMemory 0x1000 0x3000 efiMemoryWb), .success,
    0x1000, by decide +kernel, by decide⟩

theorem pageBelow_servesLowest :
    ServesLowest sampleEnvironment (pageBelow .maxAddressSearchBottomUp 0x1FFF) sampleAdded :=
  coreAllocateSpace_servesLowest sampleSizes sampleAdded_reached sampleEnvironment rfl
    (pageBelow .maxAddressSearchBottomUp 0x1FFF) rfl (Or.inr rfl) (by decide)
    (by unfold NoWrap; decide +kernel)

def downward (r : AllocateRequest) : AllocateRequest :=
  { r with
    gcdAllocateType :=
      match r.gcdAllocateType with
      | .anySearchBottomUp => .anySearchTopDown
      | .maxAddressSearchBottomUp => .maxAddressSearchTopDown
      | type => type }

theorem feasible_downward : Feasible (downward r) map maxAddress b ↔ Feasible r map maxAddress b :=
  ⟨fun h => ⟨h.aligned, h.below, h.usable⟩, fun h => ⟨h.aligned, h.below, h.usable⟩⟩

def Serves (env : Environment) (r : AllocateRequest) (g : Gcd) : Prop :=
  ∃ base g', coreAllocateSpace env r g = some (.success, base, g')

/-- Both directions serve the same requests. -/
def DirectionFree (env : Environment) (r : AllocateRequest) (g : Gcd) : Prop :=
  (Serves env (downward r) g ↔ Serves env r g) ∧
    ∀ q, q = r ∨ q = downward r → ∀ base g',
      coreAllocateSpace env q g = some (.success, base, g') →
        Feasible r (g.map r.space) (bound r g) base

theorem serves_iff {P : Nat → Prop} (hg : GcdWellFormed sizes g)
    (hpool : env.allocateGcdMapEntry = true) (hchk : r.check = .success)
    (hP : ∀ b, P b → Feasible r (g.map r.space) maxAddress b)
    (hsel : selectRange r (g.map r.space) (r.baseAddress.getD 0) = some result)
    (hfnd : ∀ base i j, result = .found base i j → P base)
    (hnotFound : ∀ base, result = .notFound base → ∀ b, ¬ P b) :
    (Serves env r g ↔ ∃ b, P b) ∧ ∀ base g',
      coreAllocateSpace env r g = some (.success, base, g') → P base := by
  cases result with
  | notFound base =>
    have hcall := allocateSpace_notFound env hchk hsel
    refine ⟨iff_of_false ?_ fun ⟨b, hb⟩ => hnotFound base rfl b hb, ?_⟩
    · rintro ⟨b, g', h⟩
      simp [hcall] at h
    · intro b g' h
      simp [hcall] at h
  | found base startLink endLink =>
    have hbase := hfnd base startLink endLink rfl
    obtain ⟨map, hcall, -⟩ := coreAllocateSpace_found hg hpool hchk
      ((hP base hbase).add_le hg (check_eq_success hchk).2) hsel
    refine ⟨iff_of_true ⟨base, _, hcall⟩ ⟨base, hbase⟩, ?_⟩
    intro b g' h
    rw [hcall] at h
    simp only [Option.some.injEq, Prod.mk.injEq, true_and] at h
    rw [← h.1]
    exact hbase

/-- The two directions agree exactly when, if any base is feasible, one is whose
range ends in an entry that starts at least the length below the bound. -/
theorem directionFree_iff (sizes : SpaceSizes) {g : Gcd}
    (hreach : Relation.ReflTransGen Step sizes.initial g) (env : Environment)
    (hpool : env.allocateGcdMapEntry = true) (r : AllocateRequest) (hcheck : r.check = .success)
    (htype : r.gcdAllocateType = .anySearchBottomUp ∨ r.gcdAllocateType = .maxAddressSearchBottomUp)
    (hbase : r.baseAddress.getD 0 < 2 ^ 64) (hwrap : NoWrap r g) :
    DirectionFree env r g ↔
      ((∃ b, Feasible r (g.map r.space) (bound r g) b) →
        ∃ b, FeasibleBelow r (g.map r.space) (bound r g) b) := by
  have hg := reachable_wf hreach
  have hup : r.gcdAllocateType ≠ .address ∧ r.gcdAllocateType.topDown = false := by
    rcases htype with h | h <;> rw [h] <;> exact ⟨by simp, rfl⟩
  have hdown : (downward r).gcdAllocateType ≠ .address ∧
      (downward r).gcdAllocateType.topDown = true ∧
      (downward r).check = r.check ∧ bound (downward r) g = bound r g := by
    rcases htype with h | h <;>
      simp [downward, h, GcdAllocateType.topDown, AllocateRequest.check, GcdAllocateType.valid,
        bound, limitAddress, GcdAllocateType.maxAddress]
  obtain ⟨hdownType, htop, hdownCheck, hbound⟩ := hdown
  rw [← hdownCheck] at hcheck
  obtain ⟨up, hselectUp, hlowest, -⟩ := selectRange_report hg (hdownCheck ▸ hcheck) hup.1 hbase
  obtain ⟨down, hselectDown, -, hhighest⟩ := selectRange_report hg hcheck hdownType hbase
  have hlowest := hlowest hup.2 hwrap
  have hhighest := hhighest htop
  rw [hbound] at hhighest
  obtain ⟨hservesUp, hsoundUp⟩ := serves_iff (P := Feasible r (g.map r.space) (bound r g)) hg hpool
    (hdownCheck ▸ hcheck) (fun _ hb => hb) hselectUp
    (fun base i j heq => by subst heq; exact hlowest.1)
    (fun base heq => by subst heq; exact hlowest)
  obtain ⟨hservesDown, hsoundDown⟩ := serves_iff
    (P := FeasibleBelow (downward r) (g.map r.space) (bound r g)) hg hpool hcheck
    (fun _ hb => hb.1) hselectDown (fun base i j heq => by subst heq; exact hhighest.1)
    (fun base heq => by subst heq; exact hhighest)
  have hbelow : ∀ b, FeasibleBelow (downward r) (g.map r.space) (bound r g) b ↔
      FeasibleBelow r (g.map r.space) (bound r g) b :=
    fun b => and_congr_left fun _ => feasible_downward
  simp only [hbelow] at hservesDown hsoundDown
  unfold DirectionFree
  rw [hservesUp, hservesDown]
  constructor
  · exact fun h => h.1.mpr
  · refine fun h => ⟨⟨fun ⟨b, hb⟩ => ⟨b, hb.1⟩, h⟩, ?_⟩
    rintro q (rfl | rfl) base g' hcall
    · exact hsoundUp base g' hcall
    · exact (hsoundDown base g' hcall).1

theorem pageBelow_directionFree :
    DirectionFree sampleEnvironment (pageBelow .maxAddressSearchBottomUp 0x3FFF) sampleAdded :=
  (directionFree_iff sampleSizes sampleAdded_reached sampleEnvironment rfl
    (pageBelow .maxAddressSearchBottomUp 0x3FFF) rfl (Or.inr rfl) (by decide)
    (by unfold NoWrap; decide +kernel)).mpr fun _ =>
    ⟨0x3000, ⟨by decide, by decide, fun a hle hlt =>
      ⟨systemMemoryEntry 0x1000 0x3FFF (efiMemoryWb ||| efiMemoryRuntime), by decide,
        by simp [systemMemoryEntry, pageBelow] at hlt ⊢; omega, rfl, rfl⟩⟩,
      systemMemoryEntry 0x1000 0x3FFF (efiMemoryWb ||| efiMemoryRuntime), by decide, by decide,
      by decide⟩

/-- A free page that ends right at the bound is found upwards only. -/
theorem lastPage_found_upward_only :
    Relation.ReflTransGen Step sampleSizes.initial sampleAdded ∧
      (coreAllocateSpace sampleEnvironment (pageBelow .maxAddressSearchBottomUp 0x1FFF)
        sampleAdded).map (fun answer => (answer.1, answer.2.1)) = some (.success, 0x1000) ∧
      coreAllocateSpace sampleEnvironment (downward (pageBelow .maxAddressSearchBottomUp 0x1FFF))
        sampleAdded = some (.notFound, 0x1FFF, sampleAdded) := by
  refine ⟨sampleAdded_reached, ?_⟩
  decide +kernel

end MuBasecore.GcdSearch
