import MuBasecore.PageSearch

/-!
What a successful page allocation has done. The search comes to an end in the memory map
as it is or in what promotions make of it; there it finds a place in free memory, unless a
descriptor below the first multiple of the alignment misleads it. Nothing of this goes
beyond the page count that is left of the request once its bytes are counted in 64 bits.
-/

namespace MuBasecore.PageGrants

open EfiTypes Word64 SegmentSet MemoryTypes MemoryMap PageServices MemoryMapLayout MemoryMapRuns
  PageAllocation PageSearch Option Nat Prod
open List

/-- The ranges that `FindFreePages` goes through, by their last and their first address: the
bin of the type, the default bin, and all memory up to the limit of the request. -/
def ranges (r : PageRequest) (s : MemoryState) : List (Nat × Nat) :=
  let bin := s.memoryTypeStatistics r.newType
  (if r.newType.named && decide (r.maxAddress ≥ bin.maximumAddress) then
      [(bin.maximumAddress, bin.baseAddress)] else []) ++
    (if r.maxAddress ≥ s.defaultMaximumAddress then [(s.defaultMaximumAddress, 0)] else []) ++
    [(r.maxAddress, 0)]

/-- A request as the services make it: its bytes can be counted, and are a multiple of the
alignment, which is one of the two granularities. -/
structure Proper (r : PageRequest) : Prop where
  max_lt : r.maxAddress < 2 ^ 64
  pos : 0 < r.numberOfPages
  lt : r.numberOfPages * efiPageSize < 2 ^ 64
  align : r.alignment = 0x1000 ∨ r.alignment = 0x10000
  dvd : r.alignment ∣ r.numberOfPages * efiPageSize

/-- The pages of the request fit in at `b`. -/
def Place (r : PageRequest) (s : MemoryState) (range : Nat × Nat) (b : Nat) : Prop :=
  ∃ e ∈ s.memoryMap, FitsIn ((range.1 + 1) / efiPageSize * efiPageSize) range.2
    (r.numberOfPages * efiPageSize) r.alignment e b

/-- A descriptor below the first multiple of the alignment misleads the search. -/
def Escape (r : PageRequest) (s : MemoryState) (range : Nat × Nat) : Prop :=
  ∃ e ∈ s.memoryMap, Escapes ((range.1 + 1) / efiPageSize * efiPageSize) range.2
    (r.numberOfPages * efiPageSize) r.alignment e

/-- There is no place in the range but, at most, at address zero, which stands for none. -/
def Full (r : PageRequest) (s : MemoryState) (range : Nat × Nat) : Prop :=
  ∀ b, Place r s range b → b = 0

/-- Some descriptor misleads the search, and no range before has a place. -/
def MisledIn (r : PageRequest) (s : MemoryState) : List (Nat × Nat) → Prop
  | [] => False
  | range :: rest => Escape r s range ∨ Full r s range ∧ MisledIn r s rest

def Misled (r : PageRequest) (s : MemoryState) : Prop :=
  MisledIn r s (ranges r s)

/-- The search comes to the map of the second state: memory is promoted as long as no range
has anything to offer. -/
inductive Searched (level : Level) (r : PageRequest) : MemoryState → MemoryState → Prop
  | here (s : MemoryState) : Searched level r s s
  | promoted {s s₁ s₂ : MemoryState}
      (hnone : ∀ range ∈ ranges r s, ¬ Escape r s range ∧ Full r s range)
      (hprom : level.promoteMemoryResource s = some (true, s₁)) (h : Searched level r s₁ s₂) :
      Searched level r s s₂

def firstFound (r : PageRequest) (s : MemoryState) : List (Nat × Nat) → Nat
  | [] => 0
  | range :: rest =>
    if r.find range.1 range.2 s ≠ 0 then r.find range.1 range.2 s else firstFound r s rest

variable {p : Platform} {level : Level} {r : PageRequest} {s s₁ s' : MemoryState}
  {fuel m memory n pages start : Nat} {memoryType : EfiMemoryType}

theorem mem_ranges_le {range : Nat × Nat} (h : range ∈ ranges r s) : range.1 ≤ r.maxAddress := by
  simp only [ranges, mem_append, mem_ite_nil_right, Bool.and_eq_true, decide_eq_true_eq,
    mem_singleton] at h
  rcases h with (⟨⟨-, hle⟩, rfl⟩ | ⟨hle, rfl⟩) | rfl
  · exact hle
  · exact hle
  · exact le_rfl

theorem limit_mem_ranges (r : PageRequest) (s : MemoryState) : (r.maxAddress, 0) ∈ ranges r s := by
  simp [ranges]

section Search

variable (hr : Proper r) (hsnd : Sound p s)

include hr hsnd

theorem find_cases {range : Nat × Nat} (hle : range.1 ≤ r.maxAddress) :
    r.find range.1 range.2 s = 0 ∧ ¬ Escape r s range ∧ Full r s range ∨
      r.find range.1 range.2 s ≠ 0 ∧
        (Escape r s range ∧
            r.find range.1 range.2 s + r.numberOfPages * efiPageSize = 2 ^ 64 ∨
          ¬ Escape r s range ∧ Place r s range (r.find range.1 range.2 s)) := by
  have hmax := hr.max_lt
  have hsizes : Sizes ((range.1 + 1) / efiPageSize * efiPageSize)
      (r.numberOfPages * efiPageSize) r.alignment := by
    have htop := div_mul_le_self (range.1 + 1) efiPageSize
    refine ⟨by omega, Nat.mul_pos hr.pos (by decide), hr.lt, ?_, hr.dvd, ?_⟩ <;>
      rcases hr.align with h | h <;> rw [h] <;> decide
  rcases findPages_place (show range.1 < 2 ^ 64 by omega) rfl rfl hsizes range.2
      fun e he => end_lt_of_sound hsnd he with
    ⟨hzero, hnone, hfull⟩ | ⟨hne, ⟨hesc, hend⟩ | ⟨hnone, hplace⟩⟩
  · refine .inl ⟨hzero, fun ⟨e, he, hesc⟩ => hnone e he hesc, ?_⟩
    rintro b ⟨e, he, hb⟩
    exact hfull e he b hb
  · exact .inr ⟨hne, .inl ⟨hesc, hend⟩⟩
  · exact .inr ⟨hne, .inr ⟨fun ⟨e, he, hesc⟩ => hnone e he hesc, hplace⟩⟩

theorem firstFound_cases {l : List (Nat × Nat)} (hl : ∀ range ∈ l, range.1 ≤ r.maxAddress) :
    firstFound r s l = 0 ∧ ¬ MisledIn r s l ∧
        (∀ range ∈ l, ¬ Escape r s range ∧ Full r s range) ∨
      firstFound r s l ≠ 0 ∧
        (MisledIn r s l ∧ firstFound r s l + r.numberOfPages * efiPageSize = 2 ^ 64 ∨
          ¬ MisledIn r s l ∧ ∃ range ∈ l, Place r s range (firstFound r s l)) := by
  induction l with
  | nil => exact .inl ⟨rfl, id, by simp⟩
  | cons range rest ih =>
    have ih := ih fun x hx => hl x (mem_cons_of_mem _ hx)
    simp only [firstFound, MisledIn, forall_mem_cons, exists_mem_cons_iff]
    rcases find_cases hr hsnd (hl range mem_cons_self) with
      ⟨hzero, hesc, hfull⟩ | ⟨hne, ⟨hesc, hend⟩ | ⟨hesc, hplace⟩⟩
    · rw [if_neg (not_not.2 hzero)]
      simp only [hesc, hfull, false_or, not_false_eq_true, true_and]
      rcases ih with ⟨hzero, hrest⟩ | ⟨hne, hrest⟩
      · exact .inl ⟨hzero, hrest⟩
      · exact .inr ⟨hne, hrest.imp_right fun h => ⟨h.1, .inr h.2⟩⟩
    · rw [if_pos hne]
      exact .inr ⟨hne, .inl ⟨.inl hesc, hend⟩⟩
    · rw [if_pos hne]
      refine .inr ⟨hne, .inr ⟨?_, .inl hplace⟩⟩
      rintro (h | ⟨hfull, -⟩)
      · exact hesc h
      · exact hne (hfull _ hplace)

omit hr hsnd in
theorem findFreePages_cases (h : findFreePages level r (fuel + 1) s = some (start, s')) :
    firstFound r s (ranges r s) = start ∧ start ≠ 0 ∧ s'.memoryMap = s.memoryMap ∨
      firstFound r s (ranges r s) = 0 ∧
        (level.promoteMemoryResource s = some (false, s') ∧ start = 0 ∨ ∃ s₁,
          level.promoteMemoryResource s = some (true, s₁) ∧
            findFreePages level r fuel s₁ = some (start, s')) := by
  have hfirst : firstFound r s (ranges r s) =
      if r.findInBin s ≠ 0 then r.findInBin s
      else if r.findInDefault s ≠ 0 then r.findInDefault s else r.find r.maxAddress 0 s := by
    have hlast : ∀ x : Nat, (if x ≠ 0 then x else 0) = x := by
      intro x
      split <;> omega
    simp only [ranges, PageRequest.findInBin, PageRequest.findInDefault]
    split <;> split <;>
      simp only [cons_append, nil_append, firstFound, hlast, ne_eq, not_true_eq_false, if_false]
  rw [findFreePages] at h
  rw [hfirst]
  split at h
  next hbin =>
    obtain ⟨rfl, rfl⟩ := mk.inj (some.inj h)
    exact .inl ⟨if_pos hbin, hbin, rfl⟩
  rename_i hbin
  rw [if_neg hbin]
  split at h
  next hdefault =>
    obtain ⟨rfl, rfl⟩ := mk.inj (some.inj h)
    refine .inl ⟨if_pos hdefault, hdefault, ?_⟩
    split <;> rfl
  rename_i hdefault
  rw [if_neg hdefault]
  split at h
  next hmax =>
    obtain ⟨rfl, rfl⟩ := mk.inj (some.inj h)
    exact .inl ⟨rfl, hmax, rfl⟩
  rename_i hmax
  refine .inr ⟨not_not.1 hmax, ?_⟩
  split at h
  · simp at h
  next s₁ hprom =>
    obtain ⟨rfl, rfl⟩ := mk.inj (some.inj h)
    exact .inl ⟨hprom, rfl⟩
  next s₁ hprom => exact .inr ⟨s₁, hprom, h⟩

end Search

theorem Searched.keeps (h : Searched level r s s₁) (hlev : LevelKeeps p level)
    (hsnd : Sound p s) : Sound p s₁ ∧ Keeps p Allocated s s₁ := by
  induction h with
  | here s => exact ⟨hsnd, Keeps.refl p Allocated s⟩
  | promoted hnone hprom _ ih =>
    obtain ⟨hsnd₁, hkeep₁⟩ := hlev.promote hsnd hprom
    exact (ih hsnd₁).imp_right hkeep₁.trans

section Level

variable (hlev : LevelKeeps p level) (hr : Proper r) (hsnd : Sound p s)
  (h : findFreePages level r fuel s = some (start, s'))

include hlev hr hsnd h

/-- Where the search ends, and with what. -/
theorem findFreePages_settles (hne : start ≠ 0) :
    ∃ s₁, Searched level r s s₁ ∧ s'.memoryMap = s₁.memoryMap ∧
      (Misled r s₁ ∧ start + r.numberOfPages * efiPageSize = 2 ^ 64 ∨
        ¬ Misled r s₁ ∧ ∃ range ∈ ranges r s₁, Place r s₁ range start) := by
  induction fuel generalizing s with
  | zero => simp [findFreePages] at h
  | succ fuel ih =>
    have hfirst := firstFound_cases (l := ranges r s) hr hsnd fun range => mem_ranges_le
    rcases findFreePages_cases h with ⟨rfl, -, hmap⟩ | ⟨hzero, ⟨-, hstart⟩ | ⟨s₁, hprom, hrest⟩⟩
    · exact ⟨s, .here s, hmap, (hfirst.resolve_left fun h => hne h.1).2⟩
    · exact absurd hstart hne
    · have hnone := (hfirst.resolve_right fun h => h.1 hzero).2.2
      obtain ⟨s₂, hsearched, hsettled⟩ := ih (hlev.promote hsnd hprom).1 hrest
      exact ⟨s₂, .promoted hnone hprom hsearched, hsettled⟩

end Level

theorem convertOrPromote_success (hnew : memoryType ≠ .conventionalMemory)
    (hsnd : Sound p s) (h : convertOrPromote p start pages memoryType s = some (.success, s')) :
    ∃ s₁, Converted s₁ s' memoryType start (shl64 pages efiPageShift) := by
  have hlev := outerLevel_keeps p
  unfold convertOrPromote at h
  split at h
  · simp at h
  rename_i status s₁ hconv
  split at h
  · have hkeep := convertPages_keeps hlev (spares_allocated hnew) (fun _ hk => hk) hsnd hconv
    rename_i herr
    split at h
    · simp at h
    · obtain ⟨⟩ := h
      simp at herr
    next s₂ hprom =>
      exact ⟨s₂, convertPages_success hlev hnew (hlev.promote hkeep.1 hprom).1 h⟩
  · obtain ⟨⟩ := h
    exact ⟨s, convertPages_success hlev hnew hsnd hconv⟩

theorem granularity_cases (arch : Arch) (type : EfiMemoryType) :
    arch.granularity type = 0x1000 ∨ arch.granularity type = 0x10000 := by
  cases arch <;> cases type <;> first | exact .inl rfl | exact .inr rfl

theorem roundPages_bytes {alignment : Nat} (haln : alignment = 0x1000 ∨ alignment = 0x10000)
    (hpgs : pages < 2 ^ 52) (hpos : 0 < shl64 (roundPages alignment pages) efiPageShift) :
    0 < pages ∧ pages ≤ roundPages alignment pages ∧
      roundPages alignment pages * efiPageSize < 2 ^ 64 ∧
      alignment ∣ roundPages alignment pages * efiPageSize ∧
      shl64 (roundPages alignment pages) efiPageShift =
        roundPages alignment pages * efiPageSize := by
  rw [Nat.dvd_iff_mod_eq_zero]
  unfold shl64 roundPages alignTo add64 efiPageShift efiPageSize at *
  rcases haln with rfl | rfl <;> omega

theorem ne_conventionalMemory (h : notAllocatable memoryType = false) :
    memoryType ≠ .conventionalMemory := by
  rintro rfl
  simp [notAllocatable] at h

/-- What a caller of the page allocation may rely on once it has succeeded with
the address `m`. -/
structure Granted (s s' : MemoryState) (type : EfiAllocateType) (memoryType : EfiMemoryType)
    (pages memory m : Nat) : Prop where
  pos : 1 ≤ pages
  space : m + pages * efiPageSize ≤ 2 ^ 64
  limit : type = .allocateMaxAddress → m + pages * efiPageSize ≤ memory + 1
  free : ∀ n, m ≤ n → n < m + pages * efiPageSize → HasType s n .conventionalMemory
  new : ∀ n, m ≤ n → n < m + pages * efiPageSize → HasType s' n memoryType

variable {type : EfiAllocateType}

def limitOf (p : Platform) (type : EfiAllocateType) (memory : Nat) : Nat :=
  if type = .allocateMaxAddress then memory else p.arch.maxAllocAddress

/-- The memory map has the pages without a promotion: at the address asked for, or, below the
limit, at a multiple of the granularity other than zero in one free descriptor. -/
def AtHand (p : Platform) (s : MemoryState) (type : EfiAllocateType) (memoryType : EfiMemoryType)
    (pages memory : Nat) : Prop :=
  if type = .allocateAddress then
    ∀ n, memory ≤ n → n < memory + pages * efiPageSize → HasType s n .conventionalMemory
  else
    ∃ b ≠ 0, ∃ e ∈ s.memoryMap,
      FitsIn ((limitOf p type memory + 1) / efiPageSize * efiPageSize) 0 (pages * efiPageSize)
        (p.arch.granularity memoryType) e b

theorem allocated_ne_zero
    (h : coreInternalAllocatePages p type memoryType pages memory s = some (.success, m, s')) :
    m ≠ 0 := by
  rcases allocatePages_cases h with
    ⟨herr, -⟩ | ⟨-, ⟨-, rfl, -, hchk, -⟩ | ⟨-, start, s₁, -, hrest⟩⟩
  · simp at herr
  · rintro rfl
    simp [checkAllocateAddress] at hchk
  · rcases hrest with ⟨-, herr, -⟩ | ⟨hne, rfl, -⟩
    · simp at herr
    · simpa using hne

/-- The request that the search is called with. -/
def request (p : Platform) (type : EfiAllocateType) (memoryType : EfiMemoryType)
    (pages memory : Nat) : PageRequest where
  maxAddress := limitOf p type memory
  numberOfPages := roundPages (p.arch.granularity memoryType) pages
  newType := memoryType
  alignment := p.arch.granularity memoryType

/-- What a success comes from, if the bytes can be counted: the pages have their new type, and
they are where the caller asked for them or at a place in the map the search has come to. -/
theorem allocatePages_success (hsnd : Sound p s) (hmemory : memory < 2 ^ 64)
    (hpages : pages < 2 ^ 52)
    (h : coreInternalAllocatePages p type memoryType pages memory s = some (.success, m, s')) :
    let count := roundPages (p.arch.granularity memoryType) pages
    0 < pages ∧ pages ≤ count ∧ m + count * efiPageSize < 2 ^ 64 ∧
      (∀ n, m ≤ n → n < m + count * efiPageSize → HasType s' n memoryType) ∧
      (type = .allocateAddress ∧ m = memory ∨ type ≠ .allocateAddress ∧
        ∃ s₁, Searched (outerLevel p) (request p type memoryType pages memory) s s₁ ∧
          ∃ range ∈ ranges (request p type memoryType pages memory) s₁,
            Place (request p type memoryType pages memory) s₁ range m) := by
  intro count
  have halign := granularity_cases p.arch memoryType
  rcases allocatePages_cases h with
    ⟨herror, -⟩ | ⟨hallocatable, ⟨htype, rfl, -, -, hconvert⟩ | ⟨htype, start, s₁, hfind, hrest⟩⟩
  · simp at herror
  · obtain ⟨s₁, hpos, hlt, -, hnew⟩ :=
      convertOrPromote_success (ne_conventionalMemory hallocatable) hsnd hconvert
    obtain ⟨hpages, hle, -, -, heq⟩ := roundPages_bytes halign hpages hpos
    rw [heq] at hlt hnew
    exact ⟨hpages, hle, hlt, hnew, .inl ⟨htype, rfl⟩⟩
  rcases hrest with ⟨-, herror, -⟩ | ⟨hne, hm, hconvert⟩
  · simp at herror
  obtain rfl : m = start := by simpa using hm
  have hsnd₁ := (findFreePages_keeps (outerLevel_keeps p) hsnd hfind).1
  obtain ⟨s₂, hpos, hlt, -, hnew⟩ :=
    convertOrPromote_success (ne_conventionalMemory hallocatable) hsnd₁ hconvert
  obtain ⟨hpages, hle, hbytes, hdvd, heq⟩ := roundPages_bytes halign hpages hpos
  rw [heq] at hlt hnew hpos
  have hmax : limitOf p type memory < 2 ^ 64 := by
    unfold limitOf
    split
    · exact hmemory
    · cases p.arch <;> decide
  have hproper : Proper (request p type memoryType pages memory) :=
    ⟨hmax, Nat.pos_of_mul_pos_right hpos, hbytes, halign, hdvd⟩
  obtain ⟨s₃, hsearched, -, ⟨-, hend⟩ | ⟨-, hplace⟩⟩ :=
    findFreePages_settles (outerLevel_keeps p) hproper hsnd hfind hne
  · exact absurd hend hlt.ne
  · exact ⟨hpages, hle, hlt, hnew, .inr ⟨htype, s₃, hsearched, hplace⟩⟩

/-- Free memory at a place that is in the map already lies in one of its descriptors. -/
theorem fitsIn_before {top top' low bytes bytes' align b : Nat} {e : MemoryMapEntry}
    (hsnd : Sound p s) (hkeep : Keeps p Allocated s s₁) (he : e ∈ s₁.memoryMap)
    (h : FitsIn top low bytes align e b) (hpos : 0 < bytes') (hle : bytes' ≤ bytes)
    (htop : top ≤ top')
    (hfree : ∀ n, b ≤ n → n < b + bytes' → HasType s n .conventionalMemory) :
    ∃ d ∈ s.memoryMap, FitsIn top' 0 bytes' align d b := by
  have hstart := h.start_le
  have hend := h.end_le
  have htop' := h.top_le
  obtain ⟨x, hx, hlabel, hfirst, hlast⟩ := hsnd.laid.within (m := b) (n := b + bytes' - 1)
    (k := (e.type, e.attributes)) (by omega) (by
      intro i hi hi'
      obtain ⟨attrs, hhold⟩ := hasType_iff_holds.1 (hfree i hi (by omega))
      refine hkeep.free (fun _ hk => hk) i _ (by simp [Allocated, h.free.type]) ?_
        (covers_iff_holds.2 ⟨_, hhold⟩)
      exact ⟨_, mem_map_of_mem he, show e.startAddress ≤ i ∧ i ≤ e.endAddress by omega, rfl⟩)
  obtain ⟨d, hd, rfl⟩ := mem_map.1 hx
  obtain ⟨htype, hattributes⟩ := rangeSegment_label_eq.1 hlabel
  simp only [rangeSegment] at hfirst hlast
  exact ⟨d, hd, ⟨htype.trans h.free.type, by rw [hattributes]; exact h.free.plain⟩, h.dvd,
    Nat.zero_le b, hfirst, by omega, by omega⟩

/-- Pages that are at hand are found without a promotion. -/
theorem atHand_place {range : Nat × Nat} (htype : type ≠ .allocateAddress)
    (hat : AtHand p s type memoryType (roundPages (p.arch.granularity memoryType) pages) memory)
    (hsearched : Searched level (request p type memoryType pages memory) s s₁)
    (hrange : range ∈ ranges (request p type memoryType pages memory) s₁)
    (hplace : Place (request p type memoryType pages memory) s₁ range m) :
    (type = .allocateMaxAddress →
        m + roundPages (p.arch.granularity memoryType) pages * efiPageSize ≤ memory + 1) ∧
      ∀ n, m ≤ n → n < m + roundPages (p.arch.granularity memoryType) pages * efiPageSize →
        HasType s n .conventionalMemory := by
  rw [AtHand, if_neg htype] at hat
  obtain ⟨b, hb, hat⟩ := hat
  cases hsearched with
  | promoted hnone =>
    exact absurd ((hnone _ (limit_mem_ranges _ s)).2 b hat) hb
  | here =>
    obtain ⟨e, he, hfree, -, -, hstart, hend, htop⟩ := hplace
    change m + roundPages (p.arch.granularity memoryType) pages * efiPageSize ≤ _ at hend htop
    refine ⟨?_, fun n hn hn' => ⟨e, he, hfree.type, by omega, by omega⟩⟩
    intro hmax
    have hdown := div_mul_le_self (range.1 + 1) efiPageSize
    have hle : range.1 ≤ limitOf p type memory := mem_ranges_le hrange
    rw [limitOf, if_pos hmax] at hle
    omega

/-- A successful allocation keeps its promise just if the bytes of the request can be counted
in 64 bits and its pages are at hand without a promotion. They are counted as the request has
them on the one side, and rounded up to the granularity on the other. -/
theorem allocatePages_granted (hreachable : Reachable p s) (hmemory : memory < 2 ^ 64)
    (h : coreInternalAllocatePages p type memoryType pages memory s = some (.success, m, s')) :
    (Granted s s' type memoryType pages memory m →
        pages < 2 ^ 52 ∧ AtHand p s type memoryType pages memory) ∧
      (pages < 2 ^ 52 ∧ AtHand p s type memoryType
          (roundPages (p.arch.granularity memoryType) pages) memory →
        Granted s s' type memoryType pages memory m) := by
  have hsnd := reachable_sound hreachable
  have hne := allocated_ne_zero h
  constructor
  · intro hgranted
    have hpages : pages < 2 ^ 52 := by
      have hspace := hgranted.space
      unfold efiPageSize at hspace
      omega
    refine ⟨hpages, ?_⟩
    obtain ⟨hpos, hle, -, -,
      ⟨htype, rfl⟩ | ⟨htype, s₁, hsearched, range, hrange, e, he, hfits⟩⟩ :=
      allocatePages_success hsnd hmemory hpages h
    · rw [AtHand, if_pos htype]
      exact hgranted.free
    · rw [AtHand, if_neg htype]
      have hrange : range.1 ≤ limitOf p type memory := mem_ranges_le hrange
      have htop : (range.1 + 1) / efiPageSize * efiPageSize ≤
          (limitOf p type memory + 1) / efiPageSize * efiPageSize :=
        Nat.mul_le_mul_right _ (Nat.div_le_div_right (by omega))
      have hkeep := (hsearched.keeps (outerLevel_keeps p) hsnd).2
      exact ⟨m, hne, fitsIn_before hsnd hkeep he hfits (Nat.mul_pos hpos (by decide))
        (Nat.mul_le_mul_right _ hle) htop hgranted.free⟩
  · rintro ⟨hpages, hat⟩
    obtain ⟨hpos, hle, hlt, hnew, hplace⟩ := allocatePages_success hsnd hmemory hpages h
    have hmul := Nat.mul_le_mul_right efiPageSize hle
    refine ⟨hpos, by omega, ?_, ?_, fun n hn hn' => hnew n hn (by omega)⟩ <;>
      rcases hplace with ⟨htype, rfl⟩ | ⟨htype, s₁, hsearched, range, hrange, hplace⟩
    · exact fun hmax => by simp [htype] at hmax
    · intro hmax
      have hlimit := (atHand_place htype hat hsearched hrange hplace).1 hmax
      omega
    · rw [AtHand, if_pos htype] at hat
      exact fun n hn hn' => hat n hn (by omega)
    · intro n hn hn'
      exact (atHand_place htype hat hsearched hrange hplace).2 n hn (by omega)

theorem allocateThreePages_granted : ∃ s s', addLowMemory.run samplePlatform
    (initialState samplePlatform emptyGcd) = some s ∧
      coreInternalAllocatePages samplePlatform .allocateAnyPages .loaderData 3 0 s =
        some (.success, 0xC000, s') ∧
      Granted s s' .allocateAnyPages .loaderData 3 0 0xC000 := by
  obtain ⟨s, hs, hmap, -⟩ := addLowMemory_run
  have hrun : ((addLowMemory.run samplePlatform (initialState samplePlatform emptyGcd)).bind
      fun s => (coreInternalAllocatePages samplePlatform .allocateAnyPages .loaderData 3 0 s).map
        fun r => (r.1, r.2.1)) = some (.success, 0xC000) := by
    decide +kernel
  rw [hs, bind_some] at hrun
  obtain ⟨⟨status, m, s'⟩, hcall, heq⟩ := map_eq_some_iff.mp hrun
  obtain ⟨⟩ := heq
  have hreach := added_reachable (by decide) (by decide) hs
  refine ⟨s, s', hs, hcall, (allocatePages_granted hreach (by decide) hcall).2
    ⟨by decide, 0xC000, by decide, ?_⟩⟩
  rw [hmap]
  exact ⟨_, mem_cons_self, ⟨rfl, by decide⟩, by decide, by decide, by decide, by decide, by decide⟩

/-- A request for more pages than the address space has is granted one page. -/
theorem allocateTooManyPages_succeeds : ∃ s s', addLowMemory.run samplePlatform
    (initialState samplePlatform emptyGcd) = some s ∧
      coreInternalAllocatePages samplePlatform .allocateAnyPages .loaderData (2 ^ 52 + 1) 0 s =
        some (.success, 0xE000, s') ∧
      s'.memoryMap.map (·.toMemoryRange) =
        [⟨.conventionalMemory, 0, 0xDFFF, efiMemoryWb⟩, ⟨.loaderData, 0xE000, 0xEFFF, efiMemoryWb⟩,
          ⟨.bootServicesData, 0xF000, 0xFFFF, efiMemoryWb⟩] ∧
      ¬ Granted s s' .allocateAnyPages .loaderData (2 ^ 52 + 1) 0 0xE000 := by
  have hrun : ((addLowMemory.run samplePlatform (initialState samplePlatform emptyGcd)).bind
      fun s => (coreInternalAllocatePages samplePlatform .allocateAnyPages .loaderData
        (2 ^ 52 + 1) 0 s).map fun r => (r.1, r.2.1, r.2.2.memoryMap.map (·.toMemoryRange))) =
      some (.success, 0xE000, [⟨.conventionalMemory, 0, 0xDFFF, efiMemoryWb⟩,
          ⟨.loaderData, 0xE000, 0xEFFF, efiMemoryWb⟩,
          ⟨.bootServicesData, 0xF000, 0xFFFF, efiMemoryWb⟩]) := by
    decide +kernel
  obtain ⟨s, hs, hcall⟩ := bind_eq_some_iff.mp hrun
  obtain ⟨⟨status, m, s'⟩, hcall, heq⟩ := map_eq_some_iff.mp hcall
  simp only [mk.injEq] at heq
  obtain ⟨rfl, rfl, hmap⟩ := heq
  refine ⟨s, s', hs, hcall, hmap, ?_⟩
  intro hgranted
  have hspace := hgranted.space
  unfold efiPageSize at hspace
  omega

end MuBasecore.PageGrants
