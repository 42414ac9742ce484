import MuBasecore.MemoryMapRuns

/-!
The two halves of a page allocation. The search goes for the greatest end among the
descriptors that pass its tests, and the conversion succeeds just if the range lies in
one descriptor of free memory, which gives every page of it the new type.
-/

namespace MuBasecore.PageAllocation

open EfiTypes Word64 SegmentSet MemoryTypes MemoryMap PageServices MemoryMapLayout MemoryMapRuns
  Option Nat Prod
open List

variable {fuel last n pages start : Nat} {e : MemoryMapEntry} {status : EfiStatus}

def HasType (s : MemoryState) (n : Nat) (type : EfiMemoryType) : Prop :=
  ∃ e ∈ s.memoryMap, e.type = type ∧ e.startAddress ≤ n ∧ n ≤ e.endAddress

/-- The bytes from `start` to `last` lie in one descriptor of free memory. -/
def FreeRange (s : MemoryState) (start last : Nat) : Prop :=
  ∃ e ∈ s.memoryMap, e.type = .conventionalMemory ∧ e.startAddress ≤ start ∧ last ≤ e.endAddress

theorem hasType_iff_holds {s : MemoryState} {type : EfiMemoryType} :
    HasType s n type ↔ ∃ attrs, Holds (segments s.memoryMap) n (type, attrs) := by
  constructor
  · rintro ⟨e, he, rfl, hn⟩
    exact ⟨e.attributes, _, mem_map_of_mem he, hn, rfl⟩
  · rintro ⟨attrs, d, hd, hn, hlab⟩
    obtain ⟨e, he, rfl⟩ := mem_map.1 hd
    exact ⟨e, he, (rangeSegment_label_eq.1 hlab).1, hn⟩

variable {p : Platform}

section Convert

variable {level : Level} {newType : EfiMemoryType} {s s' : MemoryState}

theorem rangeSegment_unique (hsnd : Sound p s) {d : MemoryMapEntry}
    (hd : d ∈ s.memoryMap) (he : e ∈ s.memoryMap) (hdn : (rangeSegment d.toMemoryRange).Has n)
    (hen : (rangeSegment e.toMemoryRange).Has n) :
    rangeSegment d.toMemoryRange = rangeSegment e.toMemoryRange := by
  by_contra hne
  have hap := hsnd.laid.apart.forall (mem_map_of_mem hd) (mem_map_of_mem he) hne
  simp only [Segment.Apart, Segment.Has] at *
  omega

theorem splitFirst_eq_none {test : MemoryMapEntry → Bool} {es : List MemoryMapEntry}
    (h : splitFirst test es = none) : ∀ e ∈ es, test e = false := by
  induction es with
  | nil => simp
  | cons d ds ih =>
    rw [splitFirst] at h
    split at h
    · simp at h
    rename_i htest
    split at h
    next hrest =>
      simp only [mem_cons, forall_eq_or_imp]
      exact ⟨by simpa using htest, ih hrest⟩
    · simp at h

section

variable (hlev : LevelKeeps p level) (hnew : newType ≠ .conventionalMemory) (hsnd : Sound p s)
include hlev hnew hsnd

theorem convertLoop_allocates
    (hstartDvd : efiPageSize ∣ start) (hlastDvd : efiPageSize ∣ last + 1) (hlt : start < last)
    (h : MemoryMap.convertLoop level (.toType newType) pages last (fuel + 1) start s =
      some (status, s')) :
    (¬ FreeRange s start last ∧ status = .notFound ∧ s' = s) ∨
      FreeRange s start last ∧ status = .success ∧
        ∀ n, start ≤ n → n ≤ last → HasType s' n newType := by
  rw [MemoryMap.convertLoop, if_pos hlt] at h
  cases hspl : splitFirst (MemoryMapEntry.covers · start) s.memoryMap with
  | none =>
    simp only [hspl, some.injEq, mk.injEq] at h
    refine .inl ⟨?_, h.1.symm, h.2.symm⟩
    rintro ⟨e, he, -, hle, hge⟩
    have := splitFirst_eq_none hspl e he
    simp only [MemoryMapEntry.covers, Bool.and_eq_false_iff, decide_eq_false_iff_not] at this
    omega
  | some found =>
    obtain ⟨before, e, behind⟩ := found
    obtain ⟨hmap, hcvr⟩ := splitFirst_eq_some hspl
    obtain ⟨hst, hend⟩ := covers_eq_true hcvr
    have he : e ∈ s.memoryMap := by simp [hmap]
    simp only [hspl] at h
    split at h
    next href =>
      obtain ⟨⟩ := h
      refine .inl ⟨?_, rfl, rfl⟩
      rintro ⟨d, hd, htype, hle, hge⟩
      have heq := rangeSegment_unique hsnd (n := start) he hd ⟨hst, le_of_lt hend⟩
        ⟨hle, le_trans (le_of_lt hlt) hge⟩
      simp only [rangeSegment, Segment.mk.injEq, mk.injEq] at heq
      simp only [Conversion.allowed, Bool.not_eq_true', Bool.and_eq_false_iff, bne_eq_false_iff_eq,
        heq.2.2.1, htype, heq.2.1, beq_self_eq_true, beq_eq_false_iff_ne.2 hnew] at href
      simp only [Bool.false_eq_true, or_false, Bool.not_eq_false', Bool.and_eq_true,
        decide_eq_true_eq] at href
      omega
    rename_i halw
    have halw : (Conversion.toType newType).allowed e.toMemoryRange last = true := by
      simpa using halw
    simp only [Conversion.allowed, Bool.and_eq_true, Bool.not_eq_true', Bool.and_eq_false_iff,
      bne_eq_false_iff_eq, hnew, false_or, decide_eq_false_iff_not, bne_iff_ne,
      beq_eq_false_iff_ne.2 hnew, ne_eq] at halw
    have htype : e.type = .conventionalMemory := by simpa using halw.2
    rw [if_neg halw.1] at h
    split at h
    · simp at h
    rename_i s₁ hpull
    split at h
    · simp at h
    rename_i s₂ hadd
    split at h
    · simp at h
    rename_i s₃ hfree
    have hle : last ≤ e.endAddress := by omega
    obtain ⟨hsnd₂, -, -, hhold⟩ := convertRange_sound hsnd hmap hst (le_of_lt hlt) hle
      hstartDvd hlastDvd hpull hadd
    obtain ⟨hsnd₃, hkeeps₃⟩ := hlev.free hsnd₂ hfree
    have hbound := end_lt_of_sound hsnd he
    cases fuel with
    | zero => simp [MemoryMap.convertLoop] at h
    | succ fuel =>
      rw [add64_eq (by omega), MemoryMap.convertLoop, if_neg (by omega)] at h
      obtain ⟨rfl, rfl⟩ := mk.inj (some.inj h)
      refine .inr ⟨⟨e, he, htype, hst, hle⟩, rfl, ?_⟩
      intro n hn hn'
      exact hasType_iff_holds.2
        ⟨_, hkeeps₃.kept n _ hnew ((hhold n _).2 (.inl ⟨⟨hn, hn'⟩, rfl⟩))⟩

theorem convertPages_allocates
    (h : coreConvertPagesEx level (.toType newType) start pages s = some (status, s')) :
    let last := lastByte start (shl64 pages efiPageShift)
    let Convertible :=
      pages ≠ 0 ∧ start % efiPageSize = 0 ∧ start < last ∧ FreeRange s start last
    (¬ Convertible ∧ status.isError = true ∧ s' = s) ∨
      Convertible ∧ status = .success ∧ ∀ n, start ≤ n → n ≤ last → HasType s' n newType := by
  intro last Convertible
  unfold coreConvertPagesEx at h
  dsimp only at h
  split at h
  next hinv =>
    obtain ⟨⟩ := h
    refine .inl ⟨?_, rfl, rfl⟩
    rintro ⟨hpgs, halign, hlt, -⟩
    omega
  next hval =>
    obtain ⟨hpgs, hval⟩ := not_or.1 hval
    obtain ⟨halign, hlt⟩ := not_or.1 hval
    have halign : start % efiPageSize = 0 := by omega
    have hlt : start < last := Nat.lt_of_not_le hlt
    have hdvd := dvd_of_mod_eq_zero halign
    rcases convertLoop_allocates hlev hnew hsnd hdvd (lastByte_dvd hdvd) hlt h with
      ⟨hnone, rfl, rfl⟩ | ⟨hfree, hrest⟩
    · exact .inl ⟨fun hconvertible => hnone hconvertible.2.2.2, rfl, rfl⟩
    · exact .inr ⟨⟨hpgs, halign, hlt, hfree⟩, hrest⟩

end

/-- The bytes from `start` on were free and have the new type. -/
structure Converted (s s' : MemoryState) (newType : EfiMemoryType) (start bytes : Nat) : Prop where
  pos : 0 < bytes
  lt : start + bytes < 2 ^ 64
  free : FreeRange s start (start + bytes - 1)
  new : ∀ n, start ≤ n → n < start + bytes → HasType s' n newType

theorem convertPages_success (hlev : LevelKeeps p level)
    (hnew : newType ≠ .conventionalMemory) (hsnd : Sound p s)
    (h : coreConvertPagesEx level (.toType newType) start pages s = some (.success, s')) :
    Converted s s' newType start (shl64 pages efiPageShift) := by
  rcases convertPages_allocates hlev hnew hsnd h with ⟨-, herr, -⟩ | ⟨⟨-, -, hlt, hfree⟩, -, hconvd⟩
  · simp at herr
  have hbyt : shl64 pages efiPageShift < 2 ^ 64 := mod_lt _ (by decide)
  obtain ⟨e, he, -, -, hge⟩ := id hfree
  have hbound := end_lt_of_sound hsnd he
  have hlast : lastByte start (shl64 pages efiPageShift) + 1 =
      start + shl64 pages efiPageShift := by
    unfold lastByte sub64 add64 at *
    omega
  refine ⟨by omega, by omega, ?_, fun n hn hn' => hconvd n hn (by omega)⟩
  rwa [← hlast, Nat.add_sub_cancel]

end Convert

section Find

variable {maxAddress limit low bytes align : Nat} {map : List MemoryMapEntry}

/-- Memory that is not for a special purpose. -/
structure Free (e : MemoryMapEntry) : Prop where
  type : e.type = .conventionalMemory
  plain : e.attributes &&& efiMemorySp = 0

/-- The descriptor passes the tests of the search. -/
structure Offers (limit low bytes align : Nat) (e : MemoryMapEntry) : Prop where
  free : Free e
  start_lt : e.startAddress < limit
  low_le : low ≤ e.endAddress
  start_le : e.startAddress ≤ usableEnd limit align e
  enough : bytes ≤ add64 (sub64 (usableEnd limit align e) e.startAddress) 1
  low_le_base : low ≤ add64 (sub64 (usableEnd limit align e) bytes) 1

theorem findStep_eq (limit low bytes align target : Nat) (e : MemoryMapEntry) :
    Offers limit low bytes align e ∧ findStep limit low bytes align target e =
        max target (usableEnd limit align e) ∨
      ¬ Offers limit low bytes align e ∧ findStep limit low bytes align target e = target := by
  simp only [findStep]
  split
  · exact .inr ⟨fun h => absurd h.free.type ‹_›, rfl⟩
  split
  · exact .inr ⟨fun h => absurd h.free.plain ‹_›, rfl⟩
  split
  · exact .inr ⟨fun h => by have := h.start_lt; have := h.low_le; omega, rfl⟩
  split
  · exact .inr ⟨fun h => absurd h.start_le (not_le.2 ‹_›), rfl⟩
  split
  · exact .inr ⟨fun h => absurd h.enough (not_le.2 ‹_›), rfl⟩
  split
  · exact .inr ⟨fun h => absurd h.low_le_base (not_le.2 ‹_›), rfl⟩
  rename_i htype hsp hrng hst henough hlow
  refine .inl ⟨⟨⟨not_not.1 htype, not_not.1 hsp⟩, by omega, by omega, Nat.le_of_not_lt hst,
    Nat.le_of_not_lt henough, Nat.le_of_not_lt hlow⟩, ?_⟩
  split <;> omega

/-- The search ends with the greatest end that is offered. -/
theorem findStep_foldl (target : Nat) :
    target ≤ map.foldl (findStep limit low bytes align) target ∧
      (∀ e ∈ map, Offers limit low bytes align e → usableEnd limit align e ≤
        map.foldl (findStep limit low bytes align) target) ∧
      (map.foldl (findStep limit low bytes align) target = target ∨
        ∃ e ∈ map, Offers limit low bytes align e ∧
          map.foldl (findStep limit low bytes align) target = usableEnd limit align e) := by
  induction map generalizing target with
  | nil => exact ⟨le_rfl, fun e he => absurd he not_mem_nil, .inl rfl⟩
  | cons e es ih =>
    obtain ⟨hle, hall, hend⟩ := ih (findStep limit low bytes align target e)
    rw [foldl_cons]
    simp only [mem_cons, forall_eq_or_imp, exists_eq_or_imp]
    rcases findStep_eq limit low bytes align target e with ⟨hoff, heq⟩ | ⟨hoff, heq⟩
    · rw [heq] at hle hall hend ⊢
      refine ⟨by omega, ⟨fun _ => by omega, hall⟩, ?_⟩
      rcases hend with hend | hend
      · rw [hend]
        rcases le_total target (usableEnd limit align e) with h | h
        · exact .inr (.inl ⟨hoff, max_eq_right h⟩)
        · exact .inl (max_eq_left h)
      · exact .inr (.inr hend)
    · rw [heq] at hle hall hend ⊢
      exact ⟨hle, ⟨fun h => absurd h hoff, hall⟩, hend.imp_right .inr⟩

theorem usableEnd_cases (hlimit : limit < 2 ^ 64) (hend : e.endAddress < 2 ^ 64)
    (haln : 0 < align) :
    usableEnd limit align e = 2 ^ 64 - 1 ∧ (min e.endAddress limit + 1 = 2 ^ 64 ∨
        min e.endAddress limit + 1 < align) ∨
      align ≤ min e.endAddress limit + 1 ∧ min e.endAddress limit + 1 < 2 ^ 64 ∧
        usableEnd limit align e + 1 = (min e.endAddress limit + 1) / align * align := by
  have hclip : (if e.endAddress ≥ limit then limit else e.endAddress) = min e.endAddress limit := by
    split <;> omega
  unfold usableEnd
  dsimp only
  rw [hclip]
  have hle := div_mul_le_self (min e.endAddress limit + 1) align
  rcases Nat.lt_or_ge (min e.endAddress limit + 1) (2 ^ 64) with hlt | hge
  · rw [add64_eq hlt, alignTo]
    rcases Nat.lt_or_ge (min e.endAddress limit + 1) align with hsml | hlarge
    · rw [div_eq_of_lt hsml, Nat.zero_mul]
      exact .inl ⟨rfl, .inr hsml⟩
    · have hpos : 0 < (min e.endAddress limit + 1) / align * align :=
        Nat.mul_pos (Nat.div_pos hlarge haln) haln
      rw [sub64_eq (by omega) hpos]
      exact .inr ⟨hlarge, hlt, by omega⟩
  · have hzero : add64 (min e.endAddress limit) 1 = 0 := by
      unfold add64
      omega
    rw [hzero, alignTo, Nat.zero_div, Nat.zero_mul]
    exact .inl ⟨rfl, .inl (by omega)⟩

theorem Offers.start_eq (hbyt : 0 < bytes) (h : Offers limit low bytes align e) :
    sub64 (usableEnd limit align e) (sub64 bytes 1) + bytes = usableEnd limit align e + 1 ∧
      e.startAddress ≤ sub64 (usableEnd limit align e) (sub64 bytes 1) ∧
      (usableEnd limit align e = 2 ^ 64 - 1 → 0 < e.startAddress) := by
  have henough := h.enough
  have hst := h.start_le
  have hlt : usableEnd limit align e < 2 ^ 64 := sub64_lt
  generalize usableEnd limit align e = target at *
  unfold add64 sub64 at *
  omega

theorem findPages_cases (hmax : maxAddress < 2 ^ 64) (hpgs : pages ≠ 0)
    (hbyt : pages * efiPageSize = bytes) (hlt : bytes < 2 ^ 64)
    (hlimit : (maxAddress + 1) / efiPageSize * efiPageSize - 1 = limit) :
    coreFindFreePagesI maxAddress low pages align map = 0 ∧
        (∀ e ∈ map, ¬ Offers limit low bytes align e) ∨
      ∃ e ∈ map, Offers limit low bytes align e ∧
        (∀ d ∈ map, Offers limit low bytes align d →
          usableEnd limit align d ≤ usableEnd limit align e) ∧
        coreFindFreePagesI maxAddress low pages align map =
          if sub64 (usableEnd limit align e) (sub64 bytes 1) % efiPageSize ≠ 0 then 0
          else sub64 (usableEnd limit align e) (sub64 bytes 1) := by
  unfold coreFindFreePagesI
  dsimp only
  split
  · refine .inl ⟨rfl, fun e _ h => absurd h.start_lt ?_⟩
    unfold efiPageSize at *
    omega
  rename_i hval
  have hshift : shl64 pages efiPageShift = bytes := by
    rw [← hbyt] at hlt ⊢
    exact mod_eq_of_lt hlt
  have hpageMax : (if maxAddress % efiPageSize = efiPageSize - 1 then maxAddress
      else alignTo (sub64 maxAddress efiPageSize) efiPageSize + (efiPageSize - 1)) = limit := by
    clear hshift hbyt
    unfold efiPageSize at *
    split
    · omega
    · rw [sub64_eq hmax (by omega), alignTo]
      omega
  rw [hshift, hpageMax]
  obtain ⟨-, hall, hnone | ⟨e, he, hoff, heq⟩⟩ := findStep_foldl 0
  · refine .inl ⟨?_, fun e he hoff => ?_⟩
    · have hodd : sub64 0 (sub64 bytes 1) % efiPageSize ≠ 0 := by
        unfold sub64 efiPageSize at *
        omega
      rw [hnone, if_pos hodd]
    · have hle := hall e he hoff
      have hst := hoff.start_eq (by unfold efiPageSize at hbyt; omega)
      have hlow := hoff.enough
      rw [hnone, le_zero] at hle
      rw [hle] at hst hlow
      unfold add64 sub64 efiPageSize at *
      omega
  · rw [heq] at hall ⊢
    exact .inr ⟨e, he, hoff, hall, rfl⟩

end Find

end MuBasecore.PageAllocation
