import MuBasecore.GcdRange

/-!
Every GCD map that the services can produce from the initial one by requests
whose ranges do not wrap is a sorted partition of the address space in which no
two neighbours could be merged.
-/

namespace MuBasecore.GcdPartition

open EfiTypes Word64 SegmentList GcdMap GcdSpace GcdRange

variable {g g' : Gcd} {space : Space} {map : List GcdMapEntry} {r : AllocateRequest}
  {base baseAddress last first : Nat}

theorem convertEntry_base (r : ConvertRequest) (attrs : AttributeMask)
    (e : GcdMapEntry) : (convertEntry r attrs e).baseAddress = e.baseAddress := by
  unfold convertEntry
  split <;> rfl

theorem convertEntry_end (r : ConvertRequest) (attrs : AttributeMask)
    (e : GcdMapEntry) : (convertEntry r attrs e).endAddress = e.endAddress := by
  unfold convertEntry
  split <;> rfl

theorem allocateEntry_base (r : AllocateRequest) (_ : Unit) (e : GcdMapEntry) :
    (allocateEntry r e).baseAddress = e.baseAddress :=
  rfl

theorem allocateEntry_end (r : AllocateRequest) (_ : Unit) (e : GcdMapEntry) :
    (allocateEntry r e).endAddress = e.endAddress :=
  rfl

@[simp] theorem map_setMap_self (g : Gcd) (space : Space) (map : List GcdMapEntry) :
    (g.setMap space map).map space = map := by
  cases space <;> rfl

theorem map_setMap_of_ne {other : Space}
    (h : other ≠ space) : (g.setMap space map).map other = g.map other := by
  cases space <;> cases other <;> first | rfl | exact absurd rfl h

theorem convertSpace_cases (env : Environment) (r : ConvertRequest) (g : Gcd) :
    (∃ status, status ≠ .success ∧ coreConvertSpace env r g = some (status, g)) ∨
      ∃ first last, 0 < r.length ∧
        coreSearchGcdMapEntry r.baseAddress r.length (g.map r.operation.space) =
          some (first, last) ∧
        checkEntries r (linkRange (g.map r.operation.space) first last) = .success ∧
        env.allocateGcdMapEntry = true ∧ setCpuAttributes env r = .success ∧
        coreConvertSpace env r g =
          (convertRange (nextAttributes r) (convertEntry r) r.baseAddress r.length
            r.attributes (g.map r.operation.space) first last).map
              fun map => (.success, g.setMap r.operation.space map) := by
  unfold coreConvertSpace
  by_cases hlen : r.length = 0
  · exact .inl ⟨.invalidParameter, by decide, by simp only [hlen, if_true]⟩
  simp only [hlen, if_false]
  cases hfind : coreSearchGcdMapEntry r.baseAddress r.length (g.map r.operation.space) with
  | none => exact .inl ⟨.unsupported, by decide, rfl⟩
  | some links =>
    obtain ⟨first, last⟩ := links
    by_cases hchk :
        (checkEntries r (linkRange (g.map r.operation.space) first last)).isError
    · exact .inl ⟨_, (EfiStatus.isError_iff _).1 hchk, by simp only [hchk, if_true]⟩
    by_cases hpool : env.allocateGcdMapEntry
    · by_cases hcpu : (setCpuAttributes env r).isError
      · refine .inl ⟨_, (EfiStatus.isError_iff _).1 hcpu, ?_⟩
        simp [hchk, hpool, hcpu]
      · refine .inr ⟨first, last, by omega, rfl, by simpa using hchk, hpool,
          by simpa using hcpu, ?_⟩
        simp only [hchk, hpool, hcpu, Bool.not_true, Bool.false_eq_true, if_false]
        cases convertRange (nextAttributes r) (convertEntry r) r.baseAddress r.length
          r.attributes (g.map r.operation.space) first last <;> rfl
    · refine .inl ⟨.outOfResources, by decide, ?_⟩
      simp [hchk, hpool]

theorem searchLoop_found {high fuel : Nat} {link : Option Nat}
    (h : searchLoop r map high fuel link baseAddress = some (.found base first last)) :
    coreSearchGcdMapEntry base r.length map = some (first, last) ∧
      firstUnusable r first (linkRange map first last) = none := by
  induction fuel generalizing link baseAddress with
  | zero => simp [searchLoop] at h
  | succ fuel ih =>
    cases link with
    | none => simp [searchLoop] at h
    | some link =>
      simp only [searchLoop] at h
      split at h
      · exact ih h
      split at h
      · exact ih h
      split at h
      · simp at h
      split at h
      · simp at h
      split at h
      · simp at h
      next start stop hfind =>
        split at h
        next huse =>
          obtain ⟨rfl, rfl, rfl⟩ := h
          exact ⟨hfind, huse⟩
        · exact ih h

theorem selectRange_found (h : selectRange r map baseAddress = some (.found base first last)) :
    coreSearchGcdMapEntry base r.length map = some (first, last) ∧
      firstUnusable r first (linkRange map first last) = none := by
  unfold selectRange at h
  split at h
  · split at h
    · simp at h
    split at h
    · simp at h
    next start stop hfind =>
      split at h
      next huse =>
        obtain ⟨rfl, rfl, rfl⟩ := h
        exact ⟨hfind, huse⟩
      · simp at h
  · exact searchLoop_found h

theorem AllocateRequest.check_eq_success (h : r.check = .success) :
    r.alignment < 64 ∧ 0 < r.length := by
  unfold AllocateRequest.check at h
  repeat' split at h
  all_goals first
    | omega
    | simp at h

variable {env : Environment}

theorem allocateSpace_cases :
    (∃ status base, status ≠ .success ∧ coreAllocateSpace env r g = some (status, base, g)) ∨
      (r.check = .success ∧ selectRange r (g.map r.space) (r.baseAddress.getD 0) = none ∧
        coreAllocateSpace env r g = none) ∨
      ∃ base first last, 0 < r.length ∧ r.check = .success ∧ env.allocateGcdMapEntry = true ∧
        selectRange r (g.map r.space) (r.baseAddress.getD 0) = some (.found base first last) ∧
        coreAllocateSpace env r g =
          (convertRange (fun _ _ => ()) (fun _ => allocateEntry r) base r.length ()
            (g.map r.space) first last).map fun map => (.success, base, g.setMap r.space map) := by
  unfold coreAllocateSpace
  by_cases hchk : r.check.isError
  · exact .inl ⟨r.check, r.baseAddress.getD 0, (EfiStatus.isError_iff _).1 hchk,
      by simp only [hchk, if_true]⟩
  have hok : r.check = .success := by simpa using hchk
  simp only [hchk]
  cases hsel : selectRange r (g.map r.space) (r.baseAddress.getD 0) with
  | none => exact .inr (.inl ⟨hok, rfl, rfl⟩)
  | some result =>
    cases result with
    | notFound base => exact .inl ⟨.notFound, base, by decide, rfl⟩
    | found base first last =>
      by_cases hpool : env.allocateGcdMapEntry
      · refine .inr (.inr
          ⟨base, first, last, (AllocateRequest.check_eq_success hok).2, hok, hpool, rfl, ?_⟩)
        simp only [hpool, Bool.not_true, Bool.false_eq_true, if_false]
        cases convertRange (fun _ _ => ()) (fun _ => allocateEntry r) base r.length ()
          (g.map r.space) first last <;> rfl
      · refine .inl ⟨.outOfResources, base, by decide, ?_⟩
        simp [hpool]

/-- The map is a partition of the addresses below `upper` without mergeable
neighbours. -/
structure WellFormed (upper : Nat) (map : List GcdMapEntry) : Prop where
  tiles : TilesMap 0 upper map
  separated : SeparatedMap map

/-- The widths of the two address spaces. -/
structure SpaceSizes where
  memory : Nat
  io : Nat
  memory_lt : memory < 64
  io_lt : io < 64

variable {sizes : SpaceSizes}

def SpaceSizes.upper (sizes : SpaceSizes) : Space → Nat
  | .memory => 2 ^ sizes.memory
  | .io => 2 ^ sizes.io

def SpaceSizes.initial (sizes : SpaceSizes) : Gcd :=
  coreInitializeGcdServices sizes.memory sizes.io

theorem two_pow_le_of_lt {n : Nat} (h : n < 64) : 2 ^ n ≤ 2 ^ 63 :=
  Nat.pow_le_pow_right (by decide) (by omega)

theorem SpaceSizes.upper_le (sizes : SpaceSizes) (space : Space) : sizes.upper space ≤ 2 ^ 63 := by
  cases space with
  | memory => exact two_pow_le_of_lt sizes.memory_lt
  | io => exact two_pow_le_of_lt sizes.io_lt

theorem initial_wellFormed (sizes : SpaceSizes) (space : Space) :
    WellFormed (sizes.upper space) (sizes.initial.map space) := by
  have hend : ∀ n, n < 64 → sub64 (shl64 1 n) 1 + 1 = 2 ^ n := by
    intro n hn
    have hpos : 0 < 2 ^ n := Nat.two_pow_pos n
    have hle := two_pow_le_of_lt hn
    unfold shl64
    rw [one_mul, Nat.mod_eq_of_lt (by omega), sub64_eq (by omega) hpos]
    omega
  cases space with
  | memory =>
    refine ⟨tiles_singleton.2 ⟨rfl, Nat.zero_le _, hend _ sizes.memory_lt⟩, ?_⟩
    exact List.IsChain.singleton _
  | io =>
    refine ⟨tiles_singleton.2 ⟨rfl, Nat.zero_le _, hend _ sizes.io_lt⟩, ?_⟩
    exact List.IsChain.singleton _

def GcdWellFormed (sizes : SpaceSizes) (g : Gcd) : Prop :=
  ∀ space, WellFormed (sizes.upper space) (g.map space)

theorem setMap_wellFormed (hg : GcdWellFormed sizes g) (hmap : WellFormed (sizes.upper space) map) :
    GcdWellFormed sizes (g.setMap space map) := by
  intro other
  by_cases hoth : other = space
  · subst hoth
    rw [map_setMap_self]
    exact hmap
  · rw [map_setMap_of_ne hoth]
    exact hg other

theorem convertRange_wf {σ : Type} (next : σ → GcdMapEntry → σ)
    {convert : σ → GcdMapEntry → GcdMapEntry} (s : σ)
    (hbase : ∀ s e, (convert s e).baseAddress = e.baseAddress)
    (hend : ∀ s e, (convert s e).endAddress = e.endAddress)
    {length : Nat}
    (hg : GcdWellFormed sizes g) (hlen : 0 < length)
    (hrng : baseAddress + length ≤ 2 ^ 64)
    (hfind : coreSearchGcdMapEntry baseAddress length (g.map space) = some (first, last)) :
    ∃ map, convertRange next convert baseAddress length s (g.map space) first last =
        some map ∧ GcdWellFormed sizes (g.setMap space map) := by
  have hup : sizes.upper space ≤ 2 ^ 64 := le_trans (sizes.upper_le space) (by decide)
  obtain ⟨map, hconv, htile, hsep⟩ :=
    convertRange_partition hbase hend hlen hrng hup (hg space).tiles (hg space).separated hfind
  exact ⟨map, hconv, setMap_wellFormed hg ⟨htile, hsep⟩⟩

variable {status : EfiStatus}

theorem convertSpace_wf {r : ConvertRequest} (hg : GcdWellFormed sizes g)
    (hcall : coreConvertSpace env r g = some (status, g'))
    (hrng : status = .success → r.baseAddress + r.length ≤ 2 ^ 64) :
    (status ≠ .success → g' = g) ∧ GcdWellFormed sizes g' := by
  rcases convertSpace_cases env r g with
    ⟨status', hstat, heq⟩ | ⟨first, last, hlen, hfind, -, -, -, heq⟩
  · rw [heq] at hcall
    obtain ⟨⟩ := hcall
    exact ⟨fun _ => rfl, hg⟩
  · rw [heq] at hcall
    simp only [Option.map_eq_some_iff, Prod.mk.injEq] at hcall
    obtain ⟨map, hconv, rfl, rfl⟩ := hcall
    obtain ⟨map', hconv', hmap⟩ := convertRange_wf (nextAttributes r)
      r.attributes (convertEntry_base r) (convertEntry_end r) hg hlen
      (hrng rfl) hfind
    rw [hconv] at hconv'
    obtain ⟨⟩ := hconv'
    exact ⟨fun h => absurd rfl h, hmap⟩

theorem allocateSpace_wf (hg : GcdWellFormed sizes g)
    (hcall : coreAllocateSpace env r g = some (status, base, g'))
    (hrng : status = .success → base + r.length ≤ 2 ^ 64) :
    (status ≠ .success → g' = g) ∧ GcdWellFormed sizes g' := by
  rcases allocateSpace_cases with
    ⟨status', base', hstat, heq⟩ | ⟨-, -, heq⟩ | ⟨base', first, last, hlen, -, -, hsel, heq⟩
  · rw [heq] at hcall
    obtain ⟨⟩ := hcall
    exact ⟨fun _ => rfl, hg⟩
  · simp [heq] at hcall
  · rw [heq] at hcall
    simp only [Option.map_eq_some_iff, Prod.mk.injEq] at hcall
    obtain ⟨map, hconv, rfl, rfl, rfl⟩ := hcall
    obtain ⟨map', hconv', hmap⟩ := convertRange_wf
      (fun (_ : Unit) _ => ()) () (allocateEntry_base r) (allocateEntry_end r) hg hlen (hrng rfl)
      (selectRange_found hsel).1
    rw [hconv] at hconv'
    obtain ⟨⟩ := hconv'
    exact ⟨fun h => absurd rfl h, hmap⟩

/-- One call of the services that does not wrap when it succeeds. -/
def Step (g g' : Gcd) : Prop :=
  ∃ env call status base, GcdCall.run env call g = some (status, base, g') ∧
    (status = .success → base + call.length ≤ 2 ^ 64)

theorem step_wellFormed (hg : GcdWellFormed sizes g)
    (hstep : Step g g') : GcdWellFormed sizes g' := by
  obtain ⟨env, call, status, base, hrun, hrng⟩ := hstep
  cases call with
  | allocate r => exact (allocateSpace_wf hg hrun hrng).2
  | convert r =>
    simp only [GcdCall.run] at hrun
    split at hrun
    · simp at hrun
    next hcall =>
      obtain ⟨⟩ := hrun
      exact (convertSpace_wf hg hcall hrng).2

theorem reachable_wf (h : Relation.ReflTransGen Step sizes.initial g) : GcdWellFormed sizes g := by
  induction h with
  | refl => exact initial_wellFormed sizes
  | tail _ hstep ih => exact step_wellFormed ih hstep

/-- The entries are sorted and partition the addresses from zero up to
`lastAddress`. -/
structure SortedPartition (lastAddress : Nat) (map : List GcdMapEntry) : Prop where
  first_base : map.head?.map GcdMapEntry.baseAddress = some 0
  base_le_end : ∀ e ∈ map, e.baseAddress ≤ e.endAddress
  adjacent : map.IsChain fun a b => b.baseAddress = a.endAddress + 1
  last_end : map.getLast?.map GcdMapEntry.endAddress = some lastAddress

/-- No two neighbours could be merged. -/
def Canonical (map : List GcdMapEntry) : Prop :=
  map.IsChain fun a b =>
    ¬ (a.capabilities = b.capabilities ∧ a.attributes = b.attributes ∧
      a.gcdMemoryType = b.gcdMemoryType ∧ a.gcdIoType = b.gcdIoType ∧
      a.imageHandle = b.imageHandle ∧ a.deviceHandle = b.deviceHandle)

theorem sortedPartition_of_tiles {upper : Nat} (hpos : 0 < upper)
    (h : TilesMap 0 upper map) : SortedPartition (upper - 1) map := by
  cases map with
  | nil =>
    have : 0 = upper := h
    omega
  | cons e es =>
    obtain ⟨hfst, hle, hch, hlast⟩ := (tiles_iff_isChain (by simp)).1 h
    refine ⟨hfst, hle, hch, ?_⟩
    rw [Option.map_eq_some_iff] at hlast ⊢
    obtain ⟨z, hz, hup⟩ := hlast
    exact ⟨z, hz, by omega⟩

theorem canonical_iff_separated : Canonical map ↔ SeparatedMap map := by
  unfold Canonical SeparatedMap Separated
  simp [GcdMapEntry.label]

theorem SpaceSizes.upper_pos (sizes : SpaceSizes) (space : Space) : 0 < sizes.upper space := by
  cases space <;> exact Nat.two_pow_pos _

/-- Every map that calls with ranges that do not wrap can reach is a sorted
partition of the addresses it started with, and no two neighbours could be
merged. -/
theorem reachable_map_sorted_canonical (sizes : SpaceSizes) {g : Gcd}
    (h : Relation.ReflTransGen Step sizes.initial g) (space : Space) :
    SortedPartition (sizes.upper space - 1) (g.map space) ∧ Canonical (g.map space) := by
  have hmap := reachable_wf h space
  exact ⟨sortedPartition_of_tiles (sizes.upper_pos space) hmap.tiles,
    canonical_iff_separated.mpr hmap.separated⟩

def sampleSizes : SpaceSizes where
  memory := 48
  io := 16
  memory_lt := by decide
  io_lt := by decide

def sampleEnvironment : Environment where
  allocateGcdMapEntry := true
  cpu := none

def addSystemMemory (baseAddress length : Nat) (capabilities : AttributeMask) : ConvertRequest where
  operation := .addMemory
  gcdMemoryType := .systemMemory
  gcdIoType := .nonExistent
  baseAddress := baseAddress
  length := length
  capabilities := capabilities
  attributes := 0

def systemMemoryEntry (baseAddress endAddress : Nat) (capabilities : AttributeMask) :
    GcdMapEntry :=
  { gcdMemorySpaceMapEntryTemplate with
    baseAddress := baseAddress
    endAddress := endAddress
    capabilities := capabilities
    gcdMemoryType := .systemMemory }

def nonExistentEntry (baseAddress endAddress : Nat) : GcdMapEntry :=
  { gcdMemorySpaceMapEntryTemplate with baseAddress := baseAddress, endAddress := endAddress }

theorem reachable_map_after_add :
    let map := [nonExistentEntry 0 0xFFF,
      systemMemoryEntry 0x1000 0x3FFF (efiMemoryWb ||| efiMemoryRuntime),
      nonExistentEntry 0x4000 (2 ^ 48 - 1)]
    SortedPartition (2 ^ 48 - 1) map ∧ Canonical map :=
  reachable_map_sorted_canonical sampleSizes (g := ⟨_, sampleSizes.initial.ioSpaceMap⟩)
    (.single ⟨sampleEnvironment, .convert (addSystemMemory 0x1000 0x3000 efiMemoryWb), .success,
      0x1000, by decide +kernel, by decide⟩) .memory

end MuBasecore.GcdPartition
