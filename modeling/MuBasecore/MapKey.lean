import MuBasecore.GcdReport
import MuBasecore.PoolBlocks

/-!
The map key: every edit of the memory map counts it on. Two maps handed out with
one key are the same as long as nothing else that is part of them changes behind
the back of the key.
-/

namespace MuBasecore.MapKey

open EfiTypes GcdMap GcdSpace GcdReport MemoryTypes MemoryMap PageServices PoolServices
  GetMemoryMap Option
open GcdPartition (addSystemMemory nonExistentEntry)
open MemoryMapRuns (Walk samplePlatform addLowMemory)
open PoolBlocks (allocate_outcome emptyPools)

variable {fuel pages start : Nat} {status : EfiStatus} {type : EfiMemoryType}

variable {c : Conversion} {free : MemoryState → Option MemoryState} {promoted : Bool}
  {range : MemoryRange} {last : Nat} {p : Platform}

section Edits

variable {level : Level} {s s' s'' : MemoryState}

/-- The bins as `CoreGetMemoryMap` sees them. -/
def SameBins (s s' : MemoryState) : Prop :=
  ∀ type, (s'.memoryTypeStatistics type).baseAddress = (s.memoryTypeStatistics type).baseAddress ∧
    (s'.memoryTypeStatistics type).maximumAddress = (s.memoryTypeStatistics type).maximumAddress ∧
    (s'.memoryTypeStatistics type).numberOfPages = (s.memoryTypeStatistics type).numberOfPages

theorem SameBins.refl (s : MemoryState) : SameBins s s :=
  fun _ => ⟨rfl, rfl, rfl⟩

theorem SameBins.trans (h : SameBins s s') (h' : SameBins s' s'') : SameBins s s'' :=
  fun type => ⟨(h' type).1.trans (h type).1, (h' type).2.1.trans (h type).2.1,
    (h' type).2.2.trans (h type).2.2⟩

def Advances (s s' : MemoryState) : Prop :=
  s.memoryMapKey < s'.memoryMapKey ∨
    s'.memoryMapKey = s.memoryMapKey ∧ s'.memoryMap = s.memoryMap ∧
      gcdReport s'.gcd = gcdReport s.gcd ∧ SameBins s s'

theorem Advances.refl (s : MemoryState) : Advances s s :=
  .inr ⟨rfl, rfl, rfl, SameBins.refl s⟩

theorem Advances.le (h : Advances s s') : s.memoryMapKey ≤ s'.memoryMapKey := by
  rcases h with h | ⟨h, -⟩
  · exact le_of_lt h
  · exact le_of_eq h.symm

theorem Advances.trans (h : Advances s s') (h' : Advances s' s'') : Advances s s'' := by
  rcases h with h | ⟨hkey, hmap, hgcd, hbins⟩
  · exact .inl (h.trans_le h'.le)
  rcases h' with h' | ⟨hkey', hmap', hgcd', hbins'⟩
  · exact .inl (hkey ▸ h')
  · exact .inr ⟨hkey'.trans hkey, hmap'.trans hmap, hgcd'.trans hgcd, hbins.trans hbins'⟩

theorem pushRange_key (h : pushRange range s = some s') : s'.memoryMapKey = s.memoryMapKey := by
  unfold pushRange at h
  split at h
  · obtain ⟨⟩ := h
    rfl
  · exact nomatch h

theorem coreAddRange_key (h : coreAddRange range s = some s') :
    s'.memoryMapKey = s.memoryMapKey + 1 :=
  pushRange_key h

theorem pullRange_key {before behind : List MemoryMapEntry} {e : MemoryMapEntry}
    (h : pullRange before e behind start last s = some s') :
    s'.memoryMapKey = s.memoryMapKey := by
  unfold pullRange at h
  split at h
  · split at h <;> obtain rfl := some.inj h <;> rfl
  split at h
  · split at h <;> obtain rfl := some.inj h <;> rfl
  · exact (pushRange_key h :)

theorem updateStatistics_key (e : MemoryRange) :
    (c.updateStatistics e start pages s).memoryMapKey = s.memoryMapKey := by
  obtain ⟨statistics, information, heq⟩ :=
    MemoryMapLayout.updateStatistics_eq c e start pages
  rw [heq]

structure LevelAdvances (level : Level) : Prop where
  free : ∀ {s s'}, level.coreFreeMemoryMapStack s = some s' → s.memoryMapKey ≤ s'.memoryMapKey
  promote : ∀ {s s' promoted}, level.promoteMemoryResource s = some (promoted, s') → Advances s s'

theorem convertLoop_advances (hlev : LevelAdvances level)
    (h : MemoryMap.convertLoop level c pages last fuel start s = some (status, s')) :
    Advances s s' := by
  induction fuel generalizing start s with
  | zero => exact absurd h (by simp [MemoryMap.convertLoop])
  | succ fuel ih =>
    rw [MemoryMap.convertLoop] at h
    split at h
    swap
    · obtain ⟨⟩ := h
      exact Advances.refl _
    split at h
    · obtain ⟨⟩ := h
      exact Advances.refl _
    split at h
    · obtain ⟨⟩ := h
      exact Advances.refl _
    simp only at h
    split at h
    · cases h
    rename_i s₁ hpull
    split at h
    · cases h
    rename_i s₂ hadd
    split at h
    · cases h
    rename_i s₃ hfree
    have hpulled := pullRange_key hpull
    rw [updateStatistics_key] at hpulled
    have hadded := coreAddRange_key hadd
    have hfreed := hlev.free hfree
    have hrest := (ih h).le
    exact .inl (by omega)

theorem convertPages_advances (hlev : LevelAdvances level)
    (h : coreConvertPagesEx level c start pages s = some (status, s')) : Advances s s' := by
  unfold coreConvertPagesEx at h
  simp only at h
  split at h
  · obtain ⟨⟩ := h
    exact Advances.refl s
  · exact convertLoop_advances hlev h

section

variable (hfree : ∀ {s s'}, free s = some s' → s.memoryMapKey ≤ s'.memoryMapKey)
include hfree

theorem promoteLoop_advances {done es : List GcdMapEntry} {promoted' : Bool}
    (h : promoteLoop p free done es promoted s = some (promoted', s')) : Advances s s' := by
  induction es generalizing done promoted s with
  | nil =>
    obtain ⟨⟩ := h
    exact Advances.refl _
  | cons e es ih =>
    rw [promoteLoop] at h
    split at h
    · simp only at h
      split at h
      · cases h
      rename_i s₁ hadd
      split at h
      · cases h
      rename_i s₂ hfreed
      have hadded := coreAddRange_key hadd
      have hmono := hfree hfreed
      have hrest := (ih h).le
      simp only at hadded
      exact .inl (by omega)
    · exact ih h

theorem promote_advances (h : promoteMemoryResource p free s = some (promoted, s')) :
    Advances s s' := by
  unfold promoteMemoryResource at h
  split at h
  · exact nomatch h
  split at h
  · exact nomatch h
  rename_i hloop
  obtain ⟨⟩ := h
  have hadv := promoteLoop_advances hfree hloop
  exact hadv

end

theorem LevelAdvances.walk (hlev : LevelAdvances level) : Walk level Advances where
  refl := Advances.refl
  trans := Advances.trans
  base s _ := .inr ⟨rfl, rfl, rfl, SameBins.refl s⟩
  promote := hlev.promote

theorem poolPages_advances (hlev : LevelAdvances level) {align : Nat}
    (h : coreAllocatePoolPages p level type pages align s = some (start, s')) :
    Advances s s' :=
  hlev.walk.poolPages (fun h => convertPages_advances hlev h) h

theorem nestedLevel_advances : LevelAdvances (nestedLevel p) where
  free h := le_of_eq (congrArg MemoryState.memoryMapKey (some.inj h))
  promote h := promote_advances
    (fun h => le_of_eq (congrArg MemoryState.memoryMapKey (some.inj h))) h

theorem allocateMemoryMapEntry_key (h : allocateMemoryMapEntry p s = some s') :
    s.memoryMapKey ≤ s'.memoryMapKey := by
  unfold allocateMemoryMapEntry at h
  split at h
  · obtain ⟨⟩ := h
    exact le_rfl
  split at h
  · exact nomatch h
  rename_i hpgs
  split at h
  · exact nomatch h
  obtain ⟨⟩ := h
  exact (poolPages_advances (nestedLevel_advances) hpgs).le

theorem freeMapStackLoop_key (h : freeMapStackLoop p fuel s = some s') :
    s.memoryMapKey ≤ s'.memoryMapKey := by
  induction fuel generalizing s with
  | zero => exact absurd h (by simp [freeMapStackLoop])
  | succ fuel ih =>
    rw [freeMapStackLoop] at h
    split at h
    · obtain ⟨⟩ := h
      exact le_rfl
    split at h
    · cases h
    rename_i s₁ hent
    have hkey := allocateMemoryMapEntry_key hent
    simp only at h
    split at h
    all_goals
      have hrest := ih h
      exact hkey.trans hrest

theorem outer_advances : LevelAdvances (outerLevel p) where
  free h := freeMapStackLoop_key h
  promote h := promote_advances (fun h => freeMapStackLoop_key h) h

theorem run_advances {call : MemoryCall} (h : call.run p s = some s') : Advances s s' := by
  have hconv : ∀ {c start pages status s'},
      coreConvertPagesEx (outerLevel p) c start pages s = some (status, s') → Advances s s' :=
    fun h => convertPages_advances (outer_advances) h
  cases call with
  | addMemoryDescriptor type start pages attributes =>
    unfold MemoryCall.run coreAddMemoryDescriptor at h
    simp only at h
    split at h
    · obtain ⟨⟩ := h
      exact Advances.refl s
    split at h
    · obtain ⟨⟩ := h
      exact Advances.refl s
    split at h
    · exact nomatch h
    rename_i hadd
    have hadded := coreAddRange_key hadd
    have hfreed := freeMapStackLoop_key h
    exact .inl (by omega)
  | convertPages | updateMemoryAttributes | freePoolPages =>
    obtain ⟨⟨status, t⟩, hrun, rfl⟩ := map_eq_some_iff.1 h
    exact hconv hrun
  | allocatePages type memoryType pages memory =>
    obtain ⟨⟨status, start, t⟩, hrun, rfl⟩ := map_eq_some_iff.1 h
    exact outer_advances.walk.allocatePages (fun h => convertPages_advances outer_advances h) hrun
  | freePages memory pages =>
    obtain ⟨⟨status, t⟩, hrun, rfl⟩ := map_eq_some_iff.1 h
    unfold coreInternalFreePages at hrun
    split at hrun
    · obtain ⟨⟩ := hrun
      exact Advances.refl s
    simp only at hrun
    split at hrun
    · obtain ⟨⟩ := hrun
      exact Advances.refl s
    · exact hconv hrun
  | allocatePoolPages type pages align =>
    obtain ⟨⟨start, t⟩, hrun, rfl⟩ := map_eq_some_iff.1 h
    exact poolPages_advances outer_advances hrun

end Edits

section Assembly

variable {a a' : Assembly} {size size' : Nat}

def Agree (a a' : Assembly) : Prop :=
  ∀ ⦃map map' bufferSize bufferSize'⦄, a = .map map bufferSize → a' = .map map' bufferSize' →
    map = map'

theorem agree_map (map : List MemoryDescriptor) (bufferSize bufferSize' : Nat) :
    Agree (.map map bufferSize) (.map map bufferSize') := by
  rintro _ _ _ _ ⟨⟩ ⟨⟩
  rfl

theorem Agree.bind {f f' : List MemoryDescriptor → Nat → Assembly} (h : Agree a a')
    (hf : ∀ map bufferSize bufferSize', Agree (f map bufferSize) (f' map bufferSize')) :
    Agree (a.bind f) (a'.bind f') := by
  intro map map' bufferSize bufferSize' hmap hmap'
  cases a with
  | bufferTooSmall | cutOff => exact absurd hmap (by simp [Assembly.bind])
  | map d b =>
    cases a' with
    | bufferTooSmall | cutOff => exact absurd hmap' (by simp [Assembly.bind])
    | map d' b' =>
      obtain rfl := h rfl rfl
      exact hf d b b' hmap hmap'

theorem checkRoom_agree (map : List MemoryDescriptor) (bufferSize bufferSize' : Nat) :
    Agree (checkRoom size bufferSize map) (checkRoom size' bufferSize' map) := by
  unfold checkRoom
  split
  · rintro _ _ _ _ ⟨⟩
  split
  · rintro _ _ _ _ - ⟨⟩
  · exact agree_map map bufferSize bufferSize'

theorem foldl_agree {β : Type} {f f' : Assembly → β → Assembly}
    (hf : ∀ {a a'} b, Agree a a' → Agree (f a b) (f' a' b)) (bs : List β) (h : Agree a a') :
    Agree (bs.foldl f a) (bs.foldl f' a') := by
  induction bs generalizing a a' with
  | nil => exact h
  | cons b bs ih => exact ih (hf b h)

theorem addDescriptor_agree (d : MemoryDescriptor) (h : Agree a a') :
    Agree (addDescriptor size a d) (addDescriptor size' a' d) :=
  h.bind fun _ _ _ => checkRoom_agree _ _ _

theorem splitLoop_agree {binStart binEnd : Nat} (map : List MemoryDescriptor) :
    Agree (splitLoop size type binStart binEnd fuel map)
      (splitLoop size' type binStart binEnd fuel map) := by
  induction fuel generalizing map with
  | zero => rintro _ _ _ _ ⟨⟩
  | succ fuel ih =>
    simp only [splitLoop]
    split
    · exact agree_map _ _ _
    · exact (checkRoom_agree _ _ _).bind fun map _ _ => ih map

variable {s s' : MemoryState}

theorem hasBin_congr (h : SameBins s s') : hasBin s' type = hasBin s type := by
  rw [hasBin, hasBin, (h type).2.2]

theorem splitBin_agree (hbins : SameBins s s') (type : EfiMemoryType) (h : Agree a a') :
    Agree (splitBin size s a type) (splitBin size' s' a' type) := by
  unfold splitBin
  rw [hasBin_congr hbins, (hbins type).1, (hbins type).2.1]
  split
  · exact h.bind fun map _ _ => splitLoop_agree map
  · exact h

theorem addGcdEntry_eq (e : GcdMapEntry) :
    addGcdEntry size a e = (gcdDescriptor e).toList.foldl (addDescriptor size) a := by
  unfold addGcdEntry
  split <;> rename_i h <;> rw [h] <;> rfl

theorem addGcdEntries_eq (mergeGcdMapEntry : GcdMapEntry) (es : List GcdMapEntry) (a : Assembly) :
    addGcdEntries size mergeGcdMapEntry es a =
      (gcdDescriptors mergeGcdMapEntry es).foldl (addDescriptor size) a := by
  induction es generalizing mergeGcdMapEntry a with
  | nil => exact addGcdEntry_eq mergeGcdMapEntry
  | cons e es ih =>
    rw [addGcdEntries, gcdDescriptors]
    split
    · exact ih _ a
    · rw [ih, addGcdEntry_eq, List.foldl_append]

theorem assembleMap_agree (hmap : s'.memoryMap = s.memoryMap)
    (hrep : gcdReport s'.gcd = gcdReport s.gcd) (hbins : SameBins s s') :
    Agree (assembleMap size s) (assembleMap size' s') := by
  unfold assembleMap
  rw [addGcdEntries_eq, addGcdEntries_eq, ← gcdReport, ← gcdReport, hrep, hmap]
  refine foldl_agree (fun d h => addDescriptor_agree d h) _ ?_
  refine foldl_agree (fun type h => splitBin_agree hbins type h) _ ?_
  refine foldl_agree (fun d h => addDescriptor_agree d h) _ ?_
  exact agree_map [] _ _

theorem getMap_answer {given : Bool} {answer : MapAnswer}
    (h : coreGetMemoryMap size given s = some answer) :
    answer.mapKey = s.memoryMapKey % 2 ^ 64 ∧ (answer.status = .success →
      ∃ map bufferSize, assembleMap size s = .map map bufferSize ∧
        answer.memoryMap = finishMap map) := by
  unfold coreGetMemoryMap at h
  split at h
  · obtain ⟨⟩ := h
    exact ⟨rfl, fun hok => nomatch hok⟩
  split at h
  · obtain ⟨⟩ := h
    exact ⟨rfl, fun hok => nomatch hok⟩
  split at h
  next map bufferSize hasm =>
    obtain ⟨⟩ := h
    exact ⟨rfl, fun _ => ⟨map, bufferSize, hasm, rfl⟩⟩
  · obtain ⟨⟩ := h
    exact ⟨rfl, fun hok => nomatch hok⟩
  · exact nomatch h

end Assembly

section Runs

/-- A step of the memory and GCD services. The pool services come to the map through
`CoreAllocatePoolPagesI` and `CoreFreePoolPagesI`, which are calls of the memory services;
whatever else happens leaves the map, the key and the bins alone. -/
inductive Step (p : Platform) : MemoryState → MemoryState → Prop
  | memory {s s'} (call : MemoryCall) (hrun : call.run p s = some s') : Step p s s'
  | gcd {s g} {env : Environment} {call : GcdCall} {status : EfiStatus} {baseAddress : Nat}
      (hquiet : Quiet s.gcd call) (hrun : call.run env s.gcd = some (status, baseAddress, g)) :
      Step p s { s with gcd := g }
  | other {s s'} (hmap : s'.memoryMap = s.memoryMap) (hkey : s'.memoryMapKey = s.memoryMapKey)
      (hgcd : s'.gcd = s.gcd) (hbins : SameBins s s') : Step p s s'

variable {s s' : MemoryState}

theorem Step.advances (h : Step p s s') : Advances s s' := by
  cases h with
  | memory call hrun => exact run_advances hrun
  | gcd hquiet hrun => exact .inr ⟨rfl, rfl, quiet_report hquiet hrun, SameBins.refl s⟩
  | other hmap hkey hgcd hbins => exact .inr ⟨hkey, hmap, congrArg gcdReport hgcd, hbins⟩

theorem run_steps_advances (h : Relation.ReflTransGen (Step p) s s') : Advances s s' := by
  induction h with
  | refl => exact Advances.refl s
  | tail _ hstep ih => exact ih.trans hstep.advances

theorem Advances.same (h : Advances s s') (hturn : s'.memoryMapKey < s.memoryMapKey + 2 ^ 64)
    (hkey : s.memoryMapKey % 2 ^ 64 = s'.memoryMapKey % 2 ^ 64) :
    s'.memoryMap = s.memoryMap ∧ gcdReport s'.gcd = gcdReport s.gcd ∧ SameBins s s' := by
  rcases h with h | ⟨-, hsame⟩
  · exact absurd hkey (by omega)
  · exact hsame

/-- Two maps that are handed out with one key are the same, and a key that is
accepted belongs to the map as it is. -/
theorem mapKey_determines_map {size size' : Nat} {given given' : Bool} {answer answer' : MapAnswer}
    (hfirst : coreGetMemoryMap size given s = some answer) (hsuccess : answer.status = .success)
    (hrun : Relation.ReflTransGen (Step p) s s')
    (hturn : s'.memoryMapKey < s.memoryMapKey + 2 ^ 64)
    (hsecond : coreGetMemoryMap size' given' s' = some answer')
    (hsuccess' : answer'.status = .success) :
    (answer.mapKey = answer'.mapKey → answer.memoryMap = answer'.memoryMap) ∧
      (coreTerminateMemoryMap p answer.mapKey s' = .success →
        answer.memoryMap = answer'.memoryMap) := by
  obtain ⟨map, bufferSize, hassemble, hmap⟩ := (getMap_answer hfirst).2 hsuccess
  obtain ⟨map', bufferSize', hassemble', hmap'⟩ := (getMap_answer hsecond).2 hsuccess'
  have hsame : s.memoryMapKey % 2 ^ 64 = s'.memoryMapKey % 2 ^ 64 →
      answer.memoryMap = answer'.memoryMap := by
    intro hkey
    obtain ⟨hentries, hreport, hbins⟩ := (run_steps_advances hrun).same hturn hkey
    rw [hmap, hmap', assembleMap_agree hentries hreport hbins hassemble hassemble']
  rw [(getMap_answer hfirst).1, (getMap_answer hsecond).1]
  refine ⟨hsame, fun haccepted => hsame ?_⟩
  by_contra hkey
  rw [coreTerminateMemoryMap, if_neg hkey] at haccepted
  exact absurd haccepted (by decide)

end Runs

/-- `sizeof (EFI_GCD_MAP_ENTRY)`. -/
def sizeOfGcdMapEntry : Nat := 80

/-- `CoreAllocateGcdMapEntry`, which says whether there are two entries. -/
def coreAllocateGcdMapEntry (p : Platform) (s : PoolState MemoryState) :
    Option (Bool × PoolState MemoryState) :=
  match coreAllocatePoolI (corePageService p) p .bootServicesData sizeOfGcdMapEntry s with
  | none => none
  | some (topEntry, s) =>
    if topEntry = 0 then some (false, s)
    else
      match coreAllocatePoolI (corePageService p) p .bootServicesData sizeOfGcdMapEntry s with
      | none => none
      | some (bottomEntry, s) =>
        if bottomEntry = 0 then
          (coreFreePoolI (corePageService p) p topEntry s).map fun result => (false, result.2)
        else some (true, s)

/-- A call of a GCD service up to the release of the entries it has no use for. -/
def gcdService (p : Platform) (cpu : Option (Nat → Nat → AttributeMask → EfiStatus))
    (call : GcdCall) (s : PoolState MemoryState) : Option (EfiStatus × PoolState MemoryState) :=
  match coreAllocateGcdMapEntry p s with
  | none => none
  | some (allocated, s) =>
    (call.run ⟨allocated, cpu⟩ s.pages.gcd).map fun result =>
      (result.1, { s with pages := { s.pages with gcd := result.2.2 } })

section Services

open Relation

variable {s s' : PoolState MemoryState} {size buffer : Nat}

theorem allocateBlock_run {granularity head : Nat}
    (h : allocateBlock (corePageService p) granularity type size s = some (head, s')) :
    ReflTransGen (Step p) s.pages s'.pages := by
  rcases (allocate_outcome h).pages_cases with hsame | ⟨count, start, halloc⟩
  · rw [hsame]
  · refine .single (.memory (.allocatePoolPages type count granularity) ?_)
    exact map_eq_some_iff.2 ⟨_, halloc, rfl⟩

theorem mapEntries_run (h : coreAllocateGcdMapEntry p s = some (true, s')) :
    ReflTransGen (Step p) s.pages s'.pages := by
  have hpool : ∀ {s s' : PoolState MemoryState} {buffer},
      coreAllocatePoolI (corePageService p) p .bootServicesData sizeOfGcdMapEntry s =
        some (buffer, s') → ReflTransGen (Step p) s.pages s'.pages := by
    intro s s' buffer h
    simp only [coreAllocatePoolI, lookupPoolHead, EfiMemoryType.named, if_true] at h
    split at h
    · cases h
    rename_i hblock
    obtain ⟨⟩ := h
    exact allocateBlock_run hblock
  unfold coreAllocateGcdMapEntry at h
  split at h
  · cases h
  rename_i htop
  split at h
  · cases h
  split at h
  · cases h
  rename_i hbottom
  split at h
  · simp at h
  · obtain ⟨⟩ := h
    exact (hpool htop).trans (hpool hbottom)

/-- A call of a GCD service that has its two entries is a run of the steps. -/
theorem gcdService_run {s₁ : PoolState MemoryState} {call : GcdCall}
    {cpu : Option (Nat → Nat → AttributeMask → EfiStatus)}
    (hentries : coreAllocateGcdMapEntry p s = some (true, s₁)) (hquiet : Quiet s₁.pages.gcd call)
    (h : gcdService p cpu call s = some (status, s')) :
    ReflTransGen (Step p) s.pages s'.pages := by
  rw [gcdService, hentries] at h
  obtain ⟨result, hrun, hresult⟩ := map_eq_some_iff.1 h
  obtain ⟨⟩ := hresult
  exact (mapEntries_run hentries).tail (.gcd hquiet hrun)

end Services

def bareGcd : Gcd where
  memorySpaceMap := [nonExistentEntry 0 0xFFFFFF]
  ioSpaceMap := []

/-- Memory with one pool block in use; the page of the block has room for more. -/
def samplePools : Option (PoolState MemoryState) :=
  (addLowMemory.run samplePlatform (initialState samplePlatform bareGcd)).bind fun m =>
    (coreAllocatePoolI (corePageService samplePlatform) samplePlatform .bootServicesData
      sizeOfGcdMapEntry (emptyPools m)).map Prod.snd

def addPage (type : GcdMemoryType) : GcdCall :=
  .convert { addSystemMemory 0x100000 0x1000 0 with gcdMemoryType := type }

def poolDescriptors : List MemoryDescriptor :=
  [⟨.conventionalMemory, 0, 14, efiMemoryWb⟩, ⟨.bootServicesData, 0xE000, 2, efiMemoryWb⟩]

def reservedPage : MemoryDescriptor :=
  ⟨.reservedMemoryType, 0x100000, 1, 0⟩

/-- A page of system memory is added between the two calls. -/
theorem addSystemPage_same_map : ∃ s s' answer answer', samplePools = some s ∧
    gcdService samplePlatform none (addPage .systemMemory) s = some (.success, s') ∧
      coreGetMemoryMap 192 true s.pages = some answer ∧ answer.memoryMap = poolDescriptors ∧
      coreGetMemoryMap 192 true s'.pages = some answer' ∧
      answer.mapKey = answer'.mapKey ∧ answer.memoryMap = answer'.memoryMap := by
  have hruns : samplePools.bind (fun s =>
      (gcdService samplePlatform none (addPage .systemMemory) s).bind fun result =>
        (coreGetMemoryMap 192 true s.pages).bind fun answer =>
          (coreGetMemoryMap 192 true result.2.pages).map fun answer' =>
            (result.1, (coreAllocateGcdMapEntry samplePlatform s).map fun entries =>
              (entries.1, entries.2.pages.gcd),
              decide (result.2.pages.memoryMapKey < s.pages.memoryMapKey + 2 ^ 64),
              answer, answer')) =
      some (.success, some (true, bareGcd), true, ⟨.success, 96, poolDescriptors, 3⟩,
        ⟨.success, 96, poolDescriptors, 3⟩) := by
    decide +kernel
  obtain ⟨s, hs, hruns⟩ := bind_eq_some_iff.mp hruns
  obtain ⟨⟨status, s'⟩, hservice, hruns⟩ := bind_eq_some_iff.mp hruns
  obtain ⟨answer, hanswer, hruns⟩ := bind_eq_some_iff.mp hruns
  obtain ⟨answer', hanswer', heq⟩ := map_eq_some_iff.mp hruns
  simp only [Prod.mk.injEq, decide_eq_true_eq] at heq
  obtain ⟨rfl, hgcd, hturn, rfl, rfl⟩ := heq
  refine ⟨s, s', _, _, hs, hservice, hanswer, rfl, hanswer', rfl, ?_⟩
  obtain ⟨⟨allocated, s₁⟩, hentries, hgcd⟩ := map_eq_some_iff.mp hgcd
  obtain ⟨rfl, hgcd⟩ := Prod.mk.inj hgcd
  have hquiet : Quiet s₁.pages.gcd (addPage .systemMemory) := by
    rw [hgcd]
    refine .inr (.inr fun first last hfind => ?_)
    obtain ⟨⟩ : some (0, 0) = some (first, last) := hfind
    decide
  have hrun := gcdService_run hentries hquiet hservice
  exact (mapKey_determines_map hanswer rfl hrun hturn hanswer' rfl).1 rfl

/-- A reserved page becomes part of the map, but does not count the key on: the old
key is still accepted. -/
theorem addReservedPage_keeps_key : ∃ s s' answer answer', samplePools = some s ∧
    gcdService samplePlatform none (addPage .reserved) s = some (.success, s') ∧
      coreGetMemoryMap 192 true s.pages = some answer ∧ answer.status = .success ∧
      coreGetMemoryMap 192 true s'.pages = some answer' ∧ answer'.status = .success ∧
      answer.mapKey = answer'.mapKey ∧ answer.memoryMap = poolDescriptors ∧
      answer'.memoryMap = poolDescriptors ++ [reservedPage] ∧
      coreTerminateMemoryMap samplePlatform answer.mapKey s'.pages = .success := by
  have hruns : samplePools.bind (fun s =>
      (gcdService samplePlatform none (addPage .reserved) s).bind fun result =>
        (coreGetMemoryMap 192 true s.pages).bind fun answer =>
          (coreGetMemoryMap 192 true result.2.pages).map fun answer' =>
            (result.1, answer, answer',
              coreTerminateMemoryMap samplePlatform answer.mapKey result.2.pages)) =
      some (.success, ⟨.success, 96, poolDescriptors, 3⟩,
        ⟨.success, 144, poolDescriptors ++ [reservedPage], 3⟩, .success) := by
    decide +kernel
  obtain ⟨s, hs, hruns⟩ := bind_eq_some_iff.mp hruns
  obtain ⟨⟨status, s'⟩, hservice, hruns⟩ := bind_eq_some_iff.mp hruns
  obtain ⟨answer, hanswer, hruns⟩ := bind_eq_some_iff.mp hruns
  obtain ⟨answer', hanswer', heq⟩ := map_eq_some_iff.mp hruns
  simp only [Prod.mk.injEq] at heq
  obtain ⟨rfl, rfl, rfl, hterminate⟩ := heq
  exact ⟨s, s', _, _, hs, hservice, hanswer, rfl, hanswer', rfl, rfl, rfl, rfl, hterminate⟩

end MuBasecore.MapKey
