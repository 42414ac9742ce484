import MuBasecore.HeapGuard

/-!
The bitmap of the heap guard as a set of pages. Below the end of the range that the
tables cover it is exact; a page above that range is read as the page with the same
low bits, since reading does not make the tables deeper.
-/

namespace MuBasecore.GuardedPages

open BitWords EfiTypes HeapGuard RadixTable Word64 Nat

variable {bitNumber fuel height i n numberOfPages page startBit : Nat} {counts : BitCounts}
  {k : Nat}

section Words

variable {value : Bool} {combine : BitVec 64 → BitVec 64 → BitVec 64} {fill : BitVec 64}

theorem mapEntryBitIndex_eq (address : Nat) : mapEntryBitIndex address = address / 4096 % 64 := by
  rw [mapEntryBitIndex, and_two_pow_sub_one_eq_mod, shiftRight_eq_div_pow]
  rfl

theorem mapEntryBitIndex_lt (address : Nat) : mapEntryBitIndex address < 64 := by
  rw [mapEntryBitIndex_eq]
  exact mod_lt _ (by decide)

theorem mapBitIndex_eq (address : Nat) : mapBitIndex address = address / 4096 % 65536 := by
  rw [mapBitIndex, and_two_pow_sub_one_eq_mod, shiftRight_eq_div_pow]
  rfl

theorem wordIndex_eq (address : Nat) : wordIndex address = address / 4096 / 64 % 1024 := by
  change address >>> 18 &&& (2 ^ 10 - 1) = _
  rw [and_two_pow_sub_one_eq_mod, shiftRight_eq_div_pow]
  omega

structure Adds (startBit bitNumber : Nat) (counts : BitCounts) : Prop where
  msbs_lt : counts.msbs < 64
  lsbs_lt : counts.lsbs < 64
  fits : startBit + counts.msbs ≤ 64
  sum : counts.msbs + 64 * counts.qwords + counts.lsbs = bitNumber
  next : 0 < counts.qwords + counts.lsbs →
    startBit + counts.msbs = if counts.msbs > 0 then 64 else 0

theorem countBits_adds (hst : startBit < 64) :
    Adds startBit bitNumber (countBits startBit bitNumber) := by
  unfold countBits
  simp only [show mapEntryBits = 64 from rfl]
  split
  · constructor <;> simp only
    · omega
    · omega
    · omega
    · omega
    · intro
      split <;> omega
  · constructor <;> simp only <;> omega

theorem getLsbD_shifted_lowMask {start : Nat} (hn : n < 64) (hfit : start + n ≤ 64) :
    (lowMask 64 n <<< start).getLsbD i = decide (start ≤ i ∧ i < start + n) := by
  rw [BitVec.getLsbD_shiftLeft, getLsbD_lowMask hn]
  rw [Bool.eq_iff_iff]
  simp only [Bool.and_eq_true, Bool.not_eq_true', decide_eq_true_eq, decide_eq_false_iff_not]
  omega

theorem writeFirst_overwritten (hstamps : Stamps value combine)
    (h : Adds startBit bitNumber counts) (bitMap : Nat) (words : Words) :
    Overwritten value (64 * bitMap + startBit) counts.msbs words
      (writeFirst combine counts startBit bitMap words) := by
  unfold writeFirst
  split
  · exact overwritten_stamp hstamps (fun i => getLsbD_shifted_lowMask h.msbs_lt h.fits) h.fits
      words bitMap (by decide)
  next hzero =>
    rw [Nat.eq_zero_of_not_pos hzero]
    exact overwritten_zero value _ words

theorem writeLast_overwritten (hstamps : Stamps value combine)
    (h : counts.lsbs < 64) (bitMap : Nat) (words : Words) :
    Overwritten value (64 * bitMap) counts.lsbs words (writeLast combine counts bitMap words) := by
  unfold writeLast
  split
  · have hmask : ∀ i, (lowMask 64 counts.lsbs).getLsbD i =
        decide (0 ≤ i ∧ i < 0 + counts.lsbs) := by
      intro i
      rw [getLsbD_lowMask h]
      simp
    exact overwritten_stamp hstamps hmask (by omega) words bitMap (by decide)
  next hzero =>
    rw [Nat.eq_zero_of_not_pos hzero]
    exact overwritten_zero value _ words

theorem Adds.second_eq
    (h : Adds startBit bitNumber counts) (hpos : 0 < counts.qwords + counts.lsbs) (bitMap : Nat) :
    64 * secondWord counts bitMap = 64 * bitMap + startBit + counts.msbs := by
  have hnext := h.next hpos
  unfold secondWord
  split
  next hmsbs =>
    rw [if_pos hmsbs] at hnext
    omega
  next hmsbs =>
    rw [if_neg hmsbs] at hnext
    omega

section

variable (hstamps : Stamps value combine) (hfill : ∀ i < 64, fill.getLsbD i = value)
include hstamps hfill

theorem Adds.overwritten (h : Adds startBit bitNumber counts) (bitMap : Nat) (words : Words) :
    Overwritten value (64 * bitMap + startBit) bitNumber words
      (writeLast combine counts (secondWord counts bitMap + counts.qwords)
        (fillWords fill counts (secondWord counts bitMap)
          (writeFirst combine counts startBit bitMap words))) := by
  have hfst := writeFirst_overwritten hstamps h bitMap words
  have hfilled : Overwritten value (64 * secondWord counts bitMap) (64 * counts.qwords) _
      (fillWords fill counts (secondWord counts bitMap) _) :=
    overwritten_fill hfill (writeFirst combine counts startBit bitMap words) _ _ (by decide)
  have hlast := writeLast_overwritten hstamps h.lsbs_lt (secondWord counts bitMap + counts.qwords)
    (fillWords fill counts (secondWord counts bitMap)
      (writeFirst combine counts startBit bitMap words))
  have hall := (hfst.trans hfilled (fun hpos => h.second_eq (by omega) bitMap)).trans hlast
    (fun hpos => by rw [mul_add, h.second_eq (by omega) bitMap, add_assoc])
  rw [h.sum] at hall
  exact hall

theorem writeBits_overwritten (address bitNumber bitMap : Nat) (words : Words) :
    Overwritten value (64 * bitMap + mapEntryBitIndex address) bitNumber words
      (writeBits combine fill address bitNumber bitMap words) := by
  exact (countBits_adds (mapEntryBitIndex_lt address)).overwritten hstamps hfill bitMap words

end

theorem bitAt_of_lt (words : Words) (h : i < 64) :
    bitAt words (64 * k + i) = (words k).getLsbD i := by
  unfold bitAt
  rw [show (64 * k + i) / 64 = k by omega, show (64 * k + i) % 64 = i by omega]

theorem getBits_getLsbD (h : bitNumber ≤ 64) (address bitMap : Nat) (words : Words) (i : Nat) :
    (getBits address bitNumber bitMap words).getLsbD i =
      (decide (i < bitNumber) && bitAt words (64 * bitMap + mapEntryBitIndex address + i)) := by
  have hst := mapEntryBitIndex_lt address
  unfold getBits
  generalize mapEntryBitIndex address = startBit at *
  simp only [show mapEntryBits = 64 from rfl]
  split
  · -- One whole word.
    rename_i hwh
    obtain ⟨rfl, rfl⟩ := hwh
    rcases lt_or_ge i 64 with hi | hi
    · rw [add_zero, bitAt_of_lt words hi, decide_eq_true hi, Bool.true_and]
    · rw [BitVec.getLsbD_of_ge _ _ hi, decide_eq_false (by omega), Bool.false_and]
  rename_i hpart
  rcases lt_or_ge 64 (startBit + bitNumber) with hcross | hcross
  · -- The high bits of one word and the low bits of the next.
    have hlsbs : ((startBit + bitNumber - 1) % 64 + 1) % 64 = startBit + bitNumber - 64 := by omega
    rw [if_pos hcross, if_pos hcross, hlsbs, if_pos (by omega)]
    rw [BitVec.getLsbD_or, BitVec.getLsbD_and, BitVec.getLsbD_ushiftRight, BitVec.getLsbD_shiftLeft,
      BitVec.getLsbD_and, getLsbD_lowMask (by omega), getLsbD_lowMask (by omega)]
    rcases lt_or_ge i (64 - startBit) with hi | hi
    · rw [add_assoc, bitAt_of_lt words (show startBit + i < 64 by omega)]
      simp [hi, show i < bitNumber by omega]
    · rw [show 64 * bitMap + startBit + i = 64 * (bitMap + 1) + (startBit + i - 64) by omega]
      rcases lt_or_ge i bitNumber with hlt | hge
      · rw [bitAt_of_lt words (show startBit + i - 64 < 64 by omega)]
        simp [hlt, show ¬ i < 64 - startBit by omega, show i < 64 by omega,
          show i - (64 - startBit) = startBit + i - 64 by omega,
          show startBit + i - 64 < startBit + bitNumber - 64 by omega]
      · simp [show ¬ i < 64 - startBit by omega, show ¬ i < bitNumber by omega,
          show ¬ i - (64 - startBit) < startBit + bitNumber - 64 by omega]
  · -- Some bits of one word.
    have hnot : ¬ startBit + bitNumber > 64 := by omega
    simp only [if_neg hnot, gt_iff_lt, lt_irrefl, if_false]
    rw [BitVec.getLsbD_and, BitVec.getLsbD_ushiftRight, getLsbD_lowMask (by omega), Bool.and_comm]
    rcases lt_or_ge i bitNumber with hi | hi
    · rw [add_assoc, bitAt_of_lt words (show startBit + i < 64 by omega)]
    · rw [decide_eq_false (by omega), Bool.false_and, Bool.false_and]

end Words

variable {m : GuardedMemoryMap} {S : Set Nat}

def coverage (height : Nat) : Nat :=
  mapBits * (2 ^ mapTableEntryShift) ^ height

theorem coverage_eq : coverage height = 65536 * 512 ^ height := rfl

theorem coverage_pos : 0 < coverage height :=
  mul_pos (by decide) (Nat.pow_pos (by decide))

theorem levelShift_eq (h : height < 4) :
    levelShift (mapTableDepth - (height + 1) - 1) = 28 + 9 * height := by
  revert h
  revert height
  decide

theorem tableIndex_eq (h : height < 4) (address : Nat) :
    tableIndex height address = address / 2 ^ 28 / 512 ^ height % 512 := by
  have hmask : levelMask (mapTableDepth - (height + 1) - 1) = 2 ^ 9 - 1 := by
    revert h
    revert height
    decide
  rw [tableIndex, levelIndex, hmask, and_two_pow_sub_one_eq_mod, shiftRight_eq_div_pow,
    levelShift_eq h, pow_add, ← Nat.div_div_eq_div_mul, Nat.pow_mul]

theorem samePath_iff (h : height ≤ 4) (a b : Nat) :
    SamePath tableIndex height a b ↔ a / 2 ^ 28 % 512 ^ height = b / 2 ^ 28 % 512 ^ height := by
  induction height with
  | zero => simp [SamePath, mod_one]
  | succ n ih =>
    rw [samePath_succ, ih (by omega), tableIndex_eq (by omega), tableIndex_eq (by omega),
      mod_pow_succ, mod_pow_succ (x := b / 2 ^ 28)]
    constructor
    · rintro ⟨hlow, htop⟩
      rw [hlow, htop]
    · intro hsum
      have hpos : 0 < 512 ^ n := Nat.pow_pos (by decide)
      have hlow := congrArg (· % 512 ^ n) hsum
      simp only [add_mul_mod_self_left, mod_mod] at hlow
      refine ⟨hlow, ?_⟩
      rw [hlow] at hsum
      exact Nat.eq_of_mul_eq_mul_left hpos (add_left_cancel hsum)

def bitOf (m : GuardedMemoryMap) (page : Nat) : Bool :=
  match findGuardedMemoryMap (page * efiPageSize) m with
  | none => false
  | some words => bitAt words (page % mapBits)

theorem height_le : m.height ≤ 4 :=
  le_of_lt_succ m.height_lt

theorem bitOf_congr {page' : Nat} (hunit : page / 65536 % 512 ^ m.height =
      page' / 65536 % 512 ^ m.height) (hbit : page % 65536 = page' % 65536) :
    bitOf m page = bitOf m page' := by
  have hpath : SamePath tableIndex m.height (page * efiPageSize) (page' * efiPageSize) := by
    rw [samePath_iff (height_le)]
    rw [show page * efiPageSize / 2 ^ 28 = page / 65536 by unfold efiPageSize; omega,
      show page' * efiPageSize / 2 ^ 28 = page' / 65536 by unfold efiPageSize; omega]
    exact hunit
  unfold bitOf findGuardedMemoryMap
  rw [get?_congr hpath, show mapBits = 65536 from rfl, hbit]

theorem bitOf_mod : bitOf m page = bitOf m (page % coverage m.height) := by
  rw [coverage_eq]
  apply bitOf_congr
  · rw [mod_mul_right_div_self, mod_mod]
  · rw [mod_mul_right_mod]

structure Represents (m : GuardedMemoryMap) (S : Set Nat) : Prop where
  below : ∀ page ∈ S, page < coverage m.height
  bit : ∀ page < coverage m.height, bitOf m page = true ↔ page ∈ S

theorem Represents.bitOf_iff (h : Represents m S) (page : Nat) :
    bitOf m page = true ↔ page % coverage m.height ∈ S := by
  rw [bitOf_mod]
  exact h.bit _ (mod_lt _ (coverage_pos))

theorem Represents.faithful_iff (h : Represents m S) (page : Nat) :
    ((bitOf m page = true) ↔ page ∈ S) ↔
      page < coverage m.height ∨ page % coverage m.height ∉ S := by
  rw [h.bitOf_iff]
  rcases lt_or_ge page (coverage m.height) with hlt | hge
  · rw [mod_eq_of_lt hlt]
    simp [hlt]
  · have hnot : page ∉ S := fun hpage => absurd (h.below page hpage) (by omega)
    simp [hnot, not_lt.2 hge]

theorem get?_raise_or_null (t : Table Words height) (address : Nat) :
    (if t.isNull then Table.null else t.raise).get? tableIndex address =
      if tableIndex height address = 0 then t.get? tableIndex address else none := by
  cases t with
  | null => simp [Table.isNull, Table.get?]
  | leaf | node => exact get?_raise address _

theorem Represents.raise (h : Represents m S) (hlt : m.height + 1 < mapTableDepth) :
    Represents
      { height := m.height + 1
        tables := if m.tables.isNull then .null else m.tables.raise
        height_lt := hlt } S := by
  have hheight : m.height < 4 := lt_of_succ_lt_succ hlt
  have hgrow : coverage (m.height + 1) = coverage m.height * 512 := by
    rw [coverage_eq, coverage_eq, pow_succ, mul_assoc]
  constructor
  · intro page hpage
    have := h.below page hpage
    simp only
    omega
  · intro page hpage
    simp only at hpage
    have hidx : tableIndex m.height (page * efiPageSize) = page / coverage m.height := by
      rw [tableIndex_eq hheight,
        show page * efiPageSize / 2 ^ 28 = page / 65536 by unfold efiPageSize; omega,
        Nat.div_div_eq_div_mul, ← coverage_eq]
      apply mod_eq_of_lt
      rw [Nat.div_lt_iff_lt_mul (coverage_pos)]
      omega
    unfold bitOf findGuardedMemoryMap
    rw [get?_raise_or_null, hidx]
    rcases lt_or_ge page (coverage m.height) with hlow | hhigh
    · rw [if_pos (div_eq_of_lt hlow)]
      exact h.bit page hlow
    · have hnonzero : page / coverage m.height ≠ 0 :=
        Nat.ne_of_gt (Nat.div_pos hhigh (coverage_pos))
      rw [if_neg hnonzero]
      constructor
      · intro hfalse
        exact absurd hfalse Bool.false_ne_true
      · intro hpage
        exact absurd (h.below page hpage) (not_lt.2 hhigh)

theorem Represents.grow (h : Represents m S) (address fuel : Nat) :
    Represents (growMap address fuel m) S := by
  induction fuel generalizing m with
  | zero => exact h
  | succ fuel ih =>
    rw [growMap]
    split
    next hgrow =>
      exact ih (h.raise hgrow.1)
    · exact h

theorem growMap_covers {address : Nat} (haddr : address < 2 ^ 64)
    (hfuel : mapTableDepth ≤ fuel + m.height) :
    address / efiPageSize < coverage (growMap address fuel m).height := by
  induction fuel generalizing m with
  | zero => exact absurd m.height_lt (by omega)
  | succ fuel ih =>
    rw [growMap]
    split
    · exact ih (by simp only; omega)
    next hstop =>
      rcases lt_or_ge m.height 4 with hlt | hge
      · have hzero : address >>> levelShift (mapTableDepth - (m.height + 1) - 1) = 0 := by
          by_contra hne
          exact hstop ⟨succ_lt_succ hlt, hne⟩
        rw [levelShift_eq hlt, shiftRight_eq_div_pow,
          div_eq_zero_iff_lt (Nat.two_pow_pos _)] at hzero
        rw [coverage_eq, Nat.div_lt_iff_lt_mul (by decide)]
        calc address < 2 ^ (28 + 9 * m.height) := hzero
          _ = 65536 * 512 ^ m.height * efiPageSize := by
            rw [pow_add, Nat.pow_mul, show efiPageSize = 4096 from rfl]
            ring
      · have hfour : m.height = 4 := le_antisymm (height_le) hge
        rw [hfour, coverage_eq]
        unfold efiPageSize
        omega

def painted (value : Bool) (range S : Set Nat) : Set Nat :=
  if value then S ∪ range else S \ range

theorem mem_painted {value : Bool} {range : Set Nat} :
    page ∈ painted value range S ↔ (page ∈ range ∧ value = true) ∨ (page ∉ range ∧ page ∈ S) := by
  cases value
  · simp [painted, and_comm]
  · simp only [painted, if_true, Set.mem_union, and_true]
    tauto

theorem painted_union (value : Bool) (a b S : Set Nat) :
    painted value (a ∪ b) S = painted value b (painted value a S) := by
  ext page
  simp only [mem_painted, Set.mem_union]
  tauto

theorem bitOf_update {address : Nat} (change : Words → Words)
    (haddr : address / efiPageSize < coverage m.height) (hpage : page < coverage m.height) :
    bitOf { m with tables := m.tables.update tableIndex (fun _ => 0) change address } page =
      if page / 65536 = address / efiPageSize / 65536 then
        bitAt (change ((findGuardedMemoryMap (page * efiPageSize) m).getD fun _ => 0))
          (page % 65536)
      else bitOf m page := by
  classical
  rw [coverage_eq] at haddr hpage
  have hpath : SamePath tableIndex m.height address (page * efiPageSize) ↔
      page / 65536 = address / efiPageSize / 65536 := by
    rw [samePath_iff (height_le),
      show page * efiPageSize / 2 ^ 28 = page / 65536 by unfold efiPageSize; omega,
      show address / 2 ^ 28 = address / efiPageSize / 65536 by unfold efiPageSize; omega,
      mod_eq_of_lt (Nat.div_lt_of_lt_mul haddr),
      mod_eq_of_lt (Nat.div_lt_of_lt_mul hpage)]
    exact eq_comm
  unfold bitOf findGuardedMemoryMap
  simp only [get?_update, hpath]
  rcases eq_or_ne (page / 65536) (address / efiPageSize / 65536) with hsame | hoth
  · rw [if_pos hsame, if_pos hsame]
    rfl
  · rw [if_neg hoth, if_neg hoth]

theorem bitOf_eq_getD :
    bitOf m page =
      bitAt ((findGuardedMemoryMap (page * efiPageSize) m).getD fun _ => 0) (page % 65536) := by
  unfold bitOf
  split <;> rename_i h <;> rw [h]
  · simp [bitAt]
  · rfl

theorem Represents.change (h : Represents m S) {address : Nat} {value : Bool}
    {change : Words → Words} (haddr : address < 2 ^ 64)
    (hchange : ∀ words, Overwritten value (address / efiPageSize % 65536) n words (change words))
    (hfit : address / efiPageSize % 65536 + n ≤ 65536) :
    Represents (changeGuardedMemoryMap address change m)
      (painted value {page | address / efiPageSize ≤ page ∧ page < address / efiPageSize + n}
        S) := by
  have hgrown := h.grow address mapTableDepth
  have hcov := growMap_covers (m := m) haddr (Nat.le_add_right mapTableDepth m.height)
  unfold changeGuardedMemoryMap
  generalize growMap address mapTableDepth m = m' at *
  have hunit : ∀ page, page < address / efiPageSize + n → address / efiPageSize ≤ page →
      page / 65536 = address / efiPageSize / 65536 := fun page _ _ => by omega
  constructor
  · intro page hpage
    rcases mem_painted.1 hpage with ⟨⟨hle, hlt⟩, -⟩ | ⟨-, hS⟩
    · have hsame := hunit page hlt hle
      rw [coverage_eq] at hcov ⊢
      have hquot := Nat.div_lt_of_lt_mul hcov
      rw [← hsame] at hquot
      exact (Nat.div_lt_iff_lt_mul (by decide)).1 hquot |>.trans_eq (mul_comm _ _)
    · exact hgrown.below page hS
  · intro page hpage
    rw [bitOf_update change hcov hpage, mem_painted, Set.mem_ofPred_eq]
    split
    next hsame =>
      have hrng : address / efiPageSize % 65536 ≤ page % 65536 ∧
          page % 65536 < address / efiPageSize % 65536 + n ↔
          address / efiPageSize ≤ page ∧ page < address / efiPageSize + n := by omega
      rw [hchange, if_congr hrng rfl rfl, ← bitOf_eq_getD]
      split
      next hin =>
        simp [hin]
      next hout =>
        rw [hgrown.bit page hpage]
        simp [hout]
    next hoth =>
      have hout : ¬ (address / efiPageSize ≤ page ∧ page < address / efiPageSize + n) :=
        fun hin => hoth (hunit page hin.2 hin.1)
      rw [hgrown.bit page hpage]
      simp [hout]

def pagesFrom (page n : Nat) : Set Nat :=
  {q | ∃ i < n, q = (page + i) % 2 ^ 52}

theorem pagesFrom_split (hk : k ≤ n) (hfit : page + k ≤ 2 ^ 52) :
    pagesFrom page n = {q | page ≤ q ∧ q < page + k} ∪ pagesFrom ((page + k) % 2 ^ 52) (n - k) := by
  ext q
  constructor
  · rintro ⟨i, hi, rfl⟩
    rcases lt_or_ge i k with hlt | hge
    · left
      exact ⟨by omega, by omega⟩
    · right
      refine ⟨i - k, by omega, ?_⟩
      rw [mod_add_mod, show page + k + (i - k) = page + i by omega]
  · rintro (⟨hle, hlt⟩ | ⟨i, hi, rfl⟩)
    · refine ⟨q - page, by omega, ?_⟩
      omega
    · refine ⟨k + i, by omega, ?_⟩
      rw [mod_add_mod, add_assoc]

theorem unitBits_spec {address : Nat} (haddr : address < 2 ^ 64) (hpgs : 0 < numberOfPages) :
    0 < unitBits address numberOfPages ∧ unitBits address numberOfPages ≤ numberOfPages ∧
      address / efiPageSize % 65536 + unitBits address numberOfPages ≤ 65536 ∧
      address / efiPageSize + unitBits address numberOfPages ≤ 2 ^ 52 ∧
      add64 address (shl64 (unitBits address numberOfPages) efiPageShift) / efiPageSize =
        (address / efiPageSize + unitBits address numberOfPages) % 2 ^ 52 := by
  have hbits : unitBits address numberOfPages =
      min (65536 - address / efiPageSize % 65536) numberOfPages := by
    unfold unitBits bitsToUnitEnd
    rw [mapBitIndex_eq, show mapBits = 65536 from rfl, show efiPageSize = 4096 from rfl]
    split <;> omega
  have hnext : ∀ k ≤ 65536, add64 address (shl64 k efiPageShift) / efiPageSize =
      (address / efiPageSize + k) % 2 ^ 52 := by
    intro k hk
    unfold add64 shl64 efiPageShift efiPageSize
    omega
  have hpage : address / efiPageSize < 2 ^ 52 := by
    unfold efiPageSize
    omega
  refine ⟨by omega, by omega, by omega, by omega, hnext _ (by omega)⟩

theorem word_bit_index (address : Nat) :
    64 * wordIndex address + mapEntryBitIndex address = address / efiPageSize % 65536 := by
  rw [wordIndex_eq, mapEntryBitIndex_eq, show efiPageSize = 4096 from rfl]
  omega

theorem Represents.writeLoop (value : Bool) {write : Nat → Nat → Nat → Words → Words}
    (hwr : ∀ address n bitMap words, Overwritten value
      (64 * bitMap + mapEntryBitIndex address) n words (write address n bitMap words))
    {address : Nat} (h : Represents m S) (haddr : address < 2 ^ 64)
    (hfuel : numberOfPages ≤ fuel) :
    Represents (writeGuardedMemoryBits write fuel address numberOfPages m)
      (painted value (pagesFrom (address / efiPageSize) numberOfPages) S) := by
  have hnone : ∀ page, painted value (pagesFrom page 0) S = S := by
    intro page
    ext q
    simp [mem_painted, pagesFrom]
  induction fuel generalizing m S address numberOfPages with
  | zero =>
    obtain rfl := le_zero.1 hfuel
    rw [hnone]
    exact h
  | succ fuel ih =>
    rw [writeGuardedMemoryBits]
    split
    next hpgs =>
      obtain ⟨hpos, hle, hunit, hspc, hnext⟩ := unitBits_spec haddr hpgs
      rw [pagesFrom_split hle hspc, painted_union, ← hnext]
      refine ih (h.change haddr ?_ hunit) (add64_lt) (by omega) ?_
      · intro words
        rw [← word_bit_index]
        exact hwr _ _ _ words
      · intro page
        ext q
        simp [mem_painted, pagesFrom]
    next hzero =>
      rw [Nat.eq_zero_of_not_pos hzero, hnone]
      exact h

inductive GuardCall
  | set (address numberOfPages : Nat)
  | clear (address numberOfPages : Nat)
  deriving DecidableEq, Repr

def GuardCall.address : GuardCall → Nat
  | .set address _ => address
  | .clear address _ => address

def GuardCall.run (m : GuardedMemoryMap) : GuardCall → GuardedMemoryMap
  | .set address numberOfPages => setGuardedMemoryBits address numberOfPages m
  | .clear address numberOfPages => clearGuardedMemoryBits address numberOfPages m

/-- What a call does to the set of guarded pages. -/
def GuardCall.apply (S : Set Nat) : GuardCall → Set Nat
  | .set address numberOfPages => S ∪ pagesFrom (address / efiPageSize) numberOfPages
  | .clear address numberOfPages => S \ pagesFrom (address / efiPageSize) numberOfPages

theorem Represents.run (h : Represents m S) {call : GuardCall} (haddr : call.address < 2 ^ 64) :
    Represents (call.run m) (call.apply S) := by
  cases call with
  | set address numberOfPages =>
    refine h.writeLoop true ?_ haddr le_rfl
    refine writeBits_overwritten stamps_or ?_
    intro i hi
    rw [BitVec.getLsbD_allOnes, decide_eq_true hi]
  | clear address numberOfPages =>
    refine h.writeLoop false ?_ haddr le_rfl
    exact writeBits_overwritten stamps_and_not (fun i _ => by simp)

theorem represents_initial : Represents initialMap ∅ := by
  constructor
  · intro page hpage
    exact absurd hpage (Set.notMem_empty page)
  · intro page _
    simp [bitOf, findGuardedMemoryMap, initialMap, Table.get?]

theorem run_represents {calls : List GuardCall} (h : Represents m S)
    (hcalls : ∀ call ∈ calls, call.address < 2 ^ 64) :
    Represents (calls.foldl GuardCall.run m) (calls.foldl GuardCall.apply S) := by
  induction calls generalizing m S with
  | nil => exact h
  | cons call calls ih =>
    exact ih (h.run (hcalls call (by simp))) (fun c hc => hcalls c (by simp [hc]))

section Reads

variable (m : GuardedMemoryMap)

theorem findGuardedMemoryMap_congr {address address' : Nat}
    (h : address / efiPageSize / 65536 = address' / efiPageSize / 65536) :
    findGuardedMemoryMap address m = findGuardedMemoryMap address' m := by
  apply get?_congr
  rw [samePath_iff (height_le)]
  unfold efiPageSize at h
  rw [show address / 2 ^ 28 = address' / 2 ^ 28 by omega]

theorem bitOf_add {address : Nat} (h : address / efiPageSize % 65536 + i < 65536) :
    bitOf m (address / efiPageSize + i) =
      match findGuardedMemoryMap address m with
      | none => false
      | some words => bitAt words (address / efiPageSize % 65536 + i) := by
  have hfind : findGuardedMemoryMap ((address / efiPageSize + i) * efiPageSize) m =
      findGuardedMemoryMap address m := by
    apply findGuardedMemoryMap_congr
    rw [Nat.mul_div_cancel _ (show 0 < efiPageSize by decide)]
    omega
  have hbit : (address / efiPageSize + i) % mapBits = address / efiPageSize % 65536 + i := by
    rw [show mapBits = 65536 from rfl]
    omega
  rw [bitOf, hfind, hbit]

theorem shifted_and_one_ne_zero (word : BitVec 64) (k : Nat) :
    word >>> k &&& 1 ≠ 0 ↔ word.getLsbD k = true := by
  have hand := BitVec.and_one_eq_setWidth_ofBool_getLsbD (x := word >>> k)
  rw [BitVec.getLsbD_ushiftRight, add_zero] at hand
  change word >>> k &&& 1#64 ≠ 0 ↔ _
  rw [hand]
  cases word.getLsbD k <;> decide

theorem getGuardMapBit_eq_one_iff (address : Nat) :
    getGuardMapBit address m = 1 ↔ bitOf m (address / efiPageSize) = true := by
  have hbit := bitOf_add m (show address / efiPageSize % 65536 + 0 < 65536 from
    mod_lt _ (by decide))
  rw [add_zero] at hbit
  rw [hbit, getGuardMapBit, add_zero]
  cases findGuardedMemoryMap address m with
  | none => simp
  | some words =>
    have hst := mapEntryBitIndex_lt address
    simp only [shifted_and_one_ne_zero]
    rw [← word_bit_index, bitAt_of_lt words hst]
    split <;> simp_all

theorem addUnitBits_getLsbD {address bits shift : Nat} (result : BitVec 64)
    (hbits : shift + bits ≤ 64)
    (hunit : address / efiPageSize % 65536 + bits ≤ 65536) (hi : i < 64) :
    (addUnitBits m address bits shift result).getLsbD i =
      (result.getLsbD i || (decide (shift ≤ i ∧ i < shift + bits) &&
        bitOf m (address / efiPageSize + (i - shift)))) := by
  unfold addUnitBits
  rcases lt_or_ge i shift with hlow | hlow
  · cases findGuardedMemoryMap address m with
    | none => simp [show ¬ shift ≤ i by omega]
    | some words => simp [show ¬ shift ≤ i by omega, hlow]
  rcases lt_or_ge i (shift + bits) with hlt | hge
  · rw [bitOf_add m (show address / efiPageSize % 65536 + (i - shift) < 65536 by omega)]
    cases findGuardedMemoryMap address m with
    | none => simp
    | some words =>
      simp only [BitVec.getLsbD_or, BitVec.getLsbD_shiftLeft,
        getBits_getLsbD (by omega : bits ≤ 64),
        word_bit_index]
      simp [hlow, not_lt.2 hlow, hlt, hi, show i - shift < bits by omega]
  · cases findGuardedMemoryMap address m with
    | none => simp [show ¬ i < shift + bits by omega]
    | some words =>
      simp only [BitVec.getLsbD_or, BitVec.getLsbD_shiftLeft,
        getBits_getLsbD (by omega : bits ≤ 64)]
      simp [show ¬ i < shift + bits by omega, show ¬ i - shift < bits by omega]

theorem readLoop_getLsbD {address shift : Nat} (result : BitVec 64)
    (haddr : address < 2 ^ 64) (hfuel : numberOfPages ≤ fuel)
    (hshift : shift + numberOfPages ≤ 64) (hi : i < 64) :
    (readGuardedMemoryBits m fuel address numberOfPages shift result).getLsbD i =
      (result.getLsbD i || (decide (shift ≤ i ∧ i < shift + numberOfPages) &&
        bitOf m ((address / efiPageSize + (i - shift)) % 2 ^ 52))) := by
  induction fuel generalizing address numberOfPages shift result with
  | zero =>
    obtain rfl := le_zero.1 hfuel
    rw [readGuardedMemoryBits, decide_eq_false (by omega), Bool.false_and, Bool.or_false]
  | succ fuel ih =>
    rw [readGuardedMemoryBits]
    split
    next hpgs =>
      obtain ⟨hpos, hle, hunit, hspc, hnext⟩ := unitBits_spec haddr hpgs
      generalize unitBits address numberOfPages = bits at *
      rw [ih _ (add64_lt) (by omega) (by omega), addUnitBits_getLsbD m result (by omega) hunit hi,
        hnext]
      rcases lt_or_ge i (shift + bits) with hlt | hge
      · rw [decide_eq_false (show ¬ (shift + bits ≤ i ∧ _) by omega), Bool.false_and, Bool.or_false]
        rcases lt_or_ge i shift with hlow | hlow
        · rw [decide_eq_false (show ¬ (shift ≤ i ∧ i < shift + bits) by omega),
            decide_eq_false (show ¬ (shift ≤ i ∧ i < shift + numberOfPages) by omega),
            Bool.false_and, Bool.false_and]
        · rw [decide_eq_true (show shift ≤ i ∧ i < shift + bits by omega),
            decide_eq_true (show shift ≤ i ∧ i < shift + numberOfPages by omega),
            mod_eq_of_lt (show address / efiPageSize + (i - shift) < 2 ^ 52 by omega)]
      · rw [decide_eq_false (show ¬ (shift ≤ i ∧ i < shift + bits) by omega), Bool.false_and,
          Bool.or_false, mod_add_mod,
          show address / efiPageSize + bits + (i - (shift + bits)) =
            address / efiPageSize + (i - shift) by omega,
          decide_eq_decide.2 (show shift + bits ≤ i ∧ i < shift + bits + (numberOfPages - bits) ↔
            shift ≤ i ∧ i < shift + numberOfPages by omega)]
    next hzero =>
      rw [decide_eq_false (by omega), Bool.false_and, Bool.or_false]

theorem guardedBits_getLsbD {address : Nat} (haddr : address < 2 ^ 64)
    (hpgs : numberOfPages ≤ 64) (hi : i < 64) :
    (getGuardedMemoryBits address numberOfPages m).getLsbD i =
      (decide (i < numberOfPages) && bitOf m ((address / efiPageSize + i) % 2 ^ 52)) := by
  rw [getGuardedMemoryBits, readLoop_getLsbD m 0 haddr le_rfl (by omega) hi]
  simp

end Reads

/-- A page that the map covers, or whose alias is not guarded. -/
def Readable (m : GuardedMemoryMap) (S : Set Nat) (page : Nat) : Prop :=
  page < coverage m.height ∨ page % coverage m.height ∉ S

/-- After any calls the two functions that read the bitmap answer for the set of the
pages set and not since cleared exactly where every page is readable. -/
theorem guardMap_faithful_iff {calls : List GuardCall}
    (hcalls : ∀ call ∈ calls, call.address < 2 ^ 64) {m : GuardedMemoryMap} {S : Set Nat}
    (hm : m = calls.foldl GuardCall.run initialMap) (hS : S = calls.foldl GuardCall.apply ∅)
    {address numberOfPages : Nat} (haddress : address < 2 ^ 64) (hpages : numberOfPages ≤ 64) :
    ((getGuardMapBit address m = 1 ↔ address / efiPageSize ∈ S) ↔
        Readable m S (address / efiPageSize)) ∧
      ((∀ i < 64, (getGuardedMemoryBits address numberOfPages m).getLsbD i = true ↔
          i < numberOfPages ∧ (address / efiPageSize + i) % 2 ^ 52 ∈ S) ↔
        ∀ i < numberOfPages, Readable m S ((address / efiPageSize + i) % 2 ^ 52)) := by
  have h : Represents m S := by
    rw [hm, hS]
    exact run_represents represents_initial hcalls
  refine ⟨?_, ?_⟩
  · rw [getGuardMapBit_eq_one_iff]
    exact h.faithful_iff _
  · constructor
    · intro hall i hi
      apply (h.faithful_iff _).mp
      have hbit := hall i (by omega)
      rw [guardedBits_getLsbD m haddress hpages (by omega), decide_eq_true hi,
        Bool.true_and] at hbit
      simpa [hi] using hbit
    · intro hall i hi
      rw [guardedBits_getLsbD m haddress hpages hi, Bool.and_eq_true, decide_eq_true_eq]
      exact and_congr_right fun hlt => (h.faithful_iff _).mpr (hall i hlt)

def crossingCalls : List GuardCall :=
  [.set 0xFFFF000 2, .clear 0x10000000 1]

theorem crossingCalls_read :
    (getGuardMapBit 0xFFFF000 (crossingCalls.foldl GuardCall.run initialMap) = 1 ↔
        0xFFFF ∈ crossingCalls.foldl GuardCall.apply ∅) ∧
      ∀ i < 64, (getGuardedMemoryBits 0xFFFF000 2
          (crossingCalls.foldl GuardCall.run initialMap)).getLsbD i = true ↔
        i < 2 ∧ (0xFFFF + i) % 2 ^ 52 ∈ crossingCalls.foldl GuardCall.apply ∅ := by
  have hheight : (crossingCalls.foldl GuardCall.run initialMap).height = 1 := by decide
  have hreadable : ∀ i < 2, Readable (crossingCalls.foldl GuardCall.run initialMap)
      (crossingCalls.foldl GuardCall.apply ∅) ((0xFFFF + i) % 2 ^ 52) := by
    intro i hi
    left
    rw [hheight, coverage_eq]
    omega
  have hfaithful := guardMap_faithful_iff
    (show ∀ call ∈ crossingCalls, call.address < 2 ^ 64 by decide) rfl rfl
    (show 0xFFFF000 < 2 ^ 64 by decide) (show 2 ≤ 64 by decide)
  exact ⟨hfaithful.1.mpr (hreadable 0 (by decide)), hfaithful.2.mpr hreadable⟩

/-- With one guarded page at address zero, the page 256 megabytes above it is read as
guarded. -/
theorem guardedZero_read_above :
    getGuardMapBit 0x10000000 ([GuardCall.set 0 1].foldl GuardCall.run initialMap) = 1 ∧
      getGuardedMemoryBits 0x10000000 1 ([GuardCall.set 0 1].foldl GuardCall.run initialMap) = 1 ∧
      0x10000000 / efiPageSize ∉ [GuardCall.set 0 1].foldl GuardCall.apply ∅ := by
  refine ⟨by decide, by decide, ?_⟩
  rintro (hempty | ⟨i, hi, hpage⟩)
  · exact hempty
  · unfold efiPageSize at hpage
    omega

end MuBasecore.GuardedPages
