import MuBasecore.PageAllocation

/-!
What `CoreFindFreePagesI` finds: the highest place that fits, unless the end of a low descriptor,
rounded down to the alignment, goes below zero.
-/

namespace MuBasecore.PageSearch

open EfiTypes Word64 MemoryTypes MemoryMap PageServices PageAllocation List Nat

/-- The bytes from `b` on lie in a free descriptor, from `low` on and below `top`. -/
structure FitsIn (top low bytes align : Nat) (e : MemoryMapEntry) (b : Nat) : Prop where
  free : Free e
  dvd : align ∣ b
  low_le : low ≤ b
  start_le : e.startAddress ≤ b
  end_le : b + bytes ≤ e.endAddress + 1
  top_le : b + bytes ≤ top

/-- The highest place that fits, 0 if there is none. -/
structure Highest (top low bytes align : Nat) (map : List MemoryMapEntry) (start : Nat) :
    Prop where
  fits : start ≠ 0 → ∃ e ∈ map, FitsIn top low bytes align e start
  highest : ∀ e ∈ map, ∀ b, FitsIn top low bytes align e b → b ≤ start

/-- A free descriptor that ends, or is cut, below the first multiple of the alignment. -/
structure Escapes (top low bytes align : Nat) (e : MemoryMapEntry) : Prop where
  free : Free e
  pos : 0 < e.startAddress
  start_lt : e.startAddress < top - 1
  low_le : low ≤ e.endAddress
  below : min (e.endAddress + 1) top < align
  enough : e.startAddress + bytes ≤ 2 ^ 64
  low_le_base : low + bytes ≤ 2 ^ 64

/-- A free descriptor of the whole address space: its size is counted as zero. -/
structure Whole (top low bytes : Nat) (e : MemoryMapEntry) : Prop where
  free : Free e
  start_eq : e.startAddress = 0
  end_eq : e.endAddress + 1 = 2 ^ 64
  top_eq : top = 2 ^ 64
  low_le : low + bytes ≤ 2 ^ 64

structure Sizes (top bytes align : Nat) : Prop where
  top_le : top ≤ 2 ^ 64
  pos : 0 < bytes
  lt : bytes < 2 ^ 64
  page_dvd : efiPageSize ∣ align
  dvd : align ∣ bytes
  word_dvd : align ∣ 2 ^ 64

/-- The entries are ranges that do not overlap. -/
structure Disjoint (map : List MemoryMapEntry) : Prop where
  valid : ∀ e ∈ map, e.startAddress ≤ e.endAddress ∧ e.endAddress < 2 ^ 64
  apart : ∀ d ∈ map, ∀ e ∈ map, d ≠ e →
    d.endAddress < e.startAddress ∨ e.endAddress < d.startAddress

variable {top low bytes align b : Nat} {e : MemoryMapEntry} {map : List MemoryMapEntry}

theorem Sizes.bounds (hsz : Sizes top bytes align) : 0 < align ∧ align ≤ bytes ∧ 1 < bytes := by
  have hpos : 0 < align := pos_of_dvd_of_pos hsz.word_dvd (by decide)
  have hle := le_of_dvd hsz.pos hsz.dvd
  have hpage : efiPageSize ≤ align := le_of_dvd hpos hsz.page_dvd
  unfold efiPageSize at hpage
  omega

section Descriptor

variable (hsz : Sizes top bytes align) (hend : e.endAddress < 2 ^ 64)

include hsz hend

theorem FitsIn.offers (h : FitsIn top low bytes align e b) :
    Whole top low bytes e ∨ Offers (top - 1) low bytes align e ∧
      b + bytes ≤ usableEnd (top - 1) align e + 1 := by
  obtain ⟨hpos, hle, hone⟩ := hsz.bounds
  obtain ⟨hfree, hdvd, hlow, hst, hfits, htop⟩ := h
  have hword := hsz.top_le
  rcases usableEnd_cases (show top - 1 < 2 ^ 64 by omega) hend hpos with
    ⟨heq, hc⟩ | ⟨-, hlt, heq⟩
  · rcases Nat.eq_zero_or_pos e.startAddress with hzero | hst'
    · exact .inl ⟨hfree, hzero, by omega, by omega, by omega⟩
    · refine .inr ⟨⟨hfree, by omega, by omega, by omega, ?_, ?_⟩, by omega⟩ <;>
        rw [heq, add64, sub64] <;> omega
  · have hdown : b + bytes ≤ usableEnd (top - 1) align e + 1 := by
      rw [heq, ← Nat.div_mul_cancel (Nat.dvd_add hdvd hsz.dvd)]
      exact Nat.mul_le_mul_right _ (Nat.div_le_div_right (by omega))
    have hcut := div_mul_le_self (min e.endAddress (top - 1) + 1) align
    refine .inr ⟨⟨hfree, by omega, by omega, by omega, ?_, ?_⟩, hdown⟩ <;>
      rw [add64, sub64] <;> omega

theorem Offers.fits (h : Offers (top - 1) low bytes align e) :
    Escapes top low bytes align e ∧ usableEnd (top - 1) align e + 1 = 2 ^ 64 ∨
      ∃ b, FitsIn top low bytes align e b ∧ b + bytes = usableEnd (top - 1) align e + 1 := by
  obtain ⟨hpos, hle, hone⟩ := hsz.bounds
  obtain ⟨hfree, hst, hlow, hst', henough, hbase⟩ := h
  have hword := hsz.top_le
  have hbyt := hsz.lt
  rcases usableEnd_cases (show top - 1 < 2 ^ 64 by omega) hend hpos with
    ⟨heq, hc⟩ | ⟨-, hlt, heq⟩
  · rw [heq, add64, sub64] at henough hbase
    rcases hc with hc | hc
    · exact .inr ⟨2 ^ 64 - bytes, ⟨hfree, Nat.dvd_sub hsz.word_dvd hsz.dvd, by omega,
        by omega, by omega, by omega⟩, by omega⟩
    · exact .inl ⟨⟨hfree, by omega, hst, hlow, by omega, by omega, by omega⟩, by omega⟩
  · have hcut := div_mul_le_self (min e.endAddress (top - 1) + 1) align
    have hdvd : align ∣ usableEnd (top - 1) align e + 1 := heq ▸ Nat.dvd_mul_left _ _
    rw [add64, sub64] at henough hbase
    exact .inr ⟨usableEnd (top - 1) align e + 1 - bytes, ⟨hfree,
      Nat.dvd_sub hdvd hsz.dvd, by omega, by omega, by omega, by omega⟩, by omega⟩

theorem Escapes.offers (h : Escapes top low bytes align e) :
    Offers (top - 1) low bytes align e ∧ usableEnd (top - 1) align e + 1 = 2 ^ 64 := by
  obtain ⟨hpos, -, hone⟩ := hsz.bounds
  obtain ⟨hfree, hst, htop, hlow, hbel, henough, hbase⟩ := h
  have hword := hsz.top_le
  rcases usableEnd_cases (show top - 1 < 2 ^ 64 by omega) hend hpos with
    ⟨heq, -⟩ | ⟨hge, -, -⟩
  · refine ⟨⟨hfree, htop, hlow, by omega, ?_, ?_⟩, by omega⟩ <;>
      rw [heq, add64, sub64] <;> omega
  · omega

end Descriptor

theorem Whole.fits (h : Whole top low bytes e) (hsz : Sizes top bytes align) :
    FitsIn top low bytes align e (2 ^ 64 - bytes) := by
  obtain ⟨hfree, hst, hend, htop, hlow⟩ := h
  have hlt := hsz.lt
  exact ⟨hfree, Nat.dvd_sub hsz.word_dvd hsz.dvd, by omega, by omega, by omega,
    by omega⟩

theorem Whole.not_offers (h : Whole top low bytes e) (hsz : Sizes top bytes align) :
    ¬ Offers (top - 1) low bytes align e := by
  intro hoff
  have henough := hoff.enough
  have hpos := hsz.pos
  obtain ⟨-, hst, hend, htop, -⟩ := h
  rcases usableEnd_cases (show top - 1 < 2 ^ 64 by omega) (show e.endAddress < 2 ^ 64 by omega)
    hsz.bounds.1 with
    ⟨heq, -⟩ | ⟨-, hlt, -⟩
  · rw [heq, add64, sub64] at henough
    omega
  · omega

section Search

variable {maxAddress pages : Nat} (hmax : maxAddress < 2 ^ 64)
  (htop : (maxAddress + 1) / efiPageSize * efiPageSize = top)
  (hbytes : pages * efiPageSize = bytes) (hsz : Sizes top bytes align)

include hmax htop hbytes hsz

/-- The search ends in the descriptor with the greatest end among those that pass its tests. -/
theorem findPages_offers (hend : ∀ e ∈ map, e.endAddress < 2 ^ 64) :
    coreFindFreePagesI maxAddress low pages align map = 0 ∧
        (∀ e ∈ map, ¬ Offers (top - 1) low bytes align e) ∨
      ∃ e ∈ map, Offers (top - 1) low bytes align e ∧
        (∀ d ∈ map, Offers (top - 1) low bytes align d →
          usableEnd (top - 1) align d ≤ usableEnd (top - 1) align e) ∧
        coreFindFreePagesI maxAddress low pages align map + bytes =
          usableEnd (top - 1) align e + 1 := by
  have hpages : pages ≠ 0 := by
    rintro rfl
    have := hsz.pos
    omega
  rcases findPages_cases hmax hpages hbytes hsz.lt
      (show (maxAddress + 1) / efiPageSize * efiPageSize - 1 = top - 1 by rw [htop]) with
    hnone | ⟨e, he, hoff, hall, heq⟩
  · exact .inl hnone
  obtain ⟨hst, -, -⟩ := hoff.start_eq hsz.pos
  have hfits := Offers.fits hsz (hend e he) hoff
  refine .inr ⟨e, he, hoff, hall, ?_⟩
  generalize sub64 (usableEnd (top - 1) align e) (sub64 bytes 1) = start at heq hst
  have hpage : start % efiPageSize = 0 := by
    apply mod_eq_zero_of_dvd
    apply Nat.dvd_trans hsz.page_dvd
    rcases hfits with ⟨-, htop⟩ | ⟨b, hb, htop⟩
    · rw [show start = 2 ^ 64 - bytes by omega]
      exact Nat.dvd_sub hsz.word_dvd hsz.dvd
    · rw [show start = b by omega]
      exact hb.dvd
  rw [heq, if_neg (not_not.2 hpage), hst]

/-- In memory that ends below the last address the search finds nothing, or a descriptor that
escapes, or a place. -/
theorem findPages_place (low : Nat) (hend : ∀ e ∈ map, e.endAddress + 1 < 2 ^ 64) :
    let start := coreFindFreePagesI maxAddress low pages align map
    start = 0 ∧ (∀ e ∈ map, ¬ Escapes top low bytes align e) ∧
        (∀ e ∈ map, ∀ b, FitsIn top low bytes align e b → b = 0) ∨
      start ≠ 0 ∧ ((∃ e ∈ map, Escapes top low bytes align e) ∧ start + bytes = 2 ^ 64 ∨
        (∀ e ∈ map, ¬ Escapes top low bytes align e) ∧
          ∃ e ∈ map, FitsIn top low bytes align e start) := by
  intro start
  have hlt : ∀ e ∈ map, e.endAddress < 2 ^ 64 := fun e he => by have := hend e he; omega
  have hfits : ∀ e ∈ map, ∀ b, FitsIn top low bytes align e b →
      Offers (top - 1) low bytes align e ∧ b + bytes ≤ usableEnd (top - 1) align e + 1 := by
    intro e he b hb
    refine (hb.offers hsz (hlt e he)).resolve_left fun hwhole => ?_
    have := hend e he
    have := hwhole.end_eq
    omega
  have hword := hsz.lt
  rcases findPages_offers hmax htop hbytes hsz hlt with
    ⟨hzero, hnone⟩ | ⟨e, he, hoff, hall, hstart⟩
  · refine .inl ⟨hzero, fun e he hesc => hnone e he (hesc.offers hsz (hlt e he)).1, ?_⟩
    intro e he b hb
    exact absurd (hfits e he b hb).1 (hnone e he)
  change start + bytes = _ at hstart
  rcases Offers.fits hsz (hlt e he) hoff with ⟨hesc, htop'⟩ | ⟨b, hb, htop'⟩
  · exact .inr ⟨by omega, .inl ⟨⟨e, he, hesc⟩, by omega⟩⟩
  obtain rfl : b = start := by omega
  have hnone : ∀ d ∈ map, ¬ Escapes top low bytes align d := by
    intro d hd hesc
    obtain ⟨hoff', hend'⟩ := hesc.offers hsz (hlt d hd)
    have := hall d hd hoff'
    have := hend e he
    have := hb.end_le
    omega
  rcases Nat.eq_zero_or_pos start with hzero | hpos
  · refine .inl ⟨hzero, hnone, ?_⟩
    intro d hd c hc
    obtain ⟨hoff', hle⟩ := hfits d hd c hc
    have := hall d hd hoff'
    omega
  · exact .inr ⟨by omega, .inr ⟨hnone, e, he, hb⟩⟩

end Search

/-- The search finds the highest place for the pages just if the map is not one descriptor of the
whole address space and no descriptor escapes, except where the pages fit at its very end. -/
theorem coreFindFreePagesI_highest_iff (maxAddress low pages k : Nat) (hmax : maxAddress < 2 ^ 64)
    (hk : 12 ≤ k) (hk' : k < 64) (hpgs : 0 < pages) (hlt : pages < 2 ^ 52)
    (hdvd : 2 ^ k ∣ pages * efiPageSize) (hmap : Disjoint map)
    (htop : (maxAddress + 1) / efiPageSize * efiPageSize = top)
    (hbytes : pages * efiPageSize = bytes) :
    Highest top low bytes (2 ^ k) map (coreFindFreePagesI maxAddress low pages (2 ^ k) map) ↔
      (∀ e ∈ map, ¬ Whole top low bytes e) ∧
        ((∃ e ∈ map, Escapes top low bytes (2 ^ k) e) →
          ∃ e ∈ map, FitsIn top low bytes (2 ^ k) e (2 ^ 64 - bytes)) := by
  have hsz : Sizes top bytes (2 ^ k) := by
    refine ⟨?_, ?_, ?_, Nat.pow_dvd_pow 2 hk, hbytes ▸ hdvd, Nat.pow_dvd_pow 2 (by omega)⟩ <;>
      unfold efiPageSize at * <;> omega
  have hword := hsz.lt
  have hpos := hsz.pos
  rcases findPages_offers hmax htop hbytes hsz fun e he => (hmap.valid e he).2 with
    ⟨hzero, hnone⟩ | ⟨e, he, hoff, hall, hst⟩
  · rw [hzero]
    refine ⟨fun h => ⟨fun e he hwh => ?_, ?_⟩, fun h => ⟨fun hne => absurd rfl hne, ?_⟩⟩
    · have hle := h.highest e he _ (hwh.fits hsz)
      omega
    · rintro ⟨e, he, hesc⟩
      exact absurd (hesc.offers hsz (hmap.valid e he).2).1 (hnone e he)
    · intro e he b hb
      rcases hb.offers hsz (hmap.valid e he).2 with hwh | ⟨hoff, -⟩
      · exact absurd hwh (h.1 e he)
      · exact absurd hoff (hnone e he)
  · have hend : usableEnd (top - 1) (2 ^ k) e < 2 ^ 64 := sub64_lt
    have hval := hmap.valid e he
    have hfits := Offers.fits hsz hval.2 hoff
    generalize coreFindFreePagesI maxAddress low pages (2 ^ k) map = start at hst ⊢
    refine ⟨fun h => ⟨fun d hd hwh => ?_, ?_⟩, fun h => ⟨fun _ => ?_, ?_⟩⟩
    · have hne : d ≠ e := by
        rintro rfl
        exact hwh.not_offers hsz hoff
      have hapart := hmap.apart d hd e he hne
      have hst := hwh.start_eq
      have hend := hwh.end_eq
      omega
    · rintro ⟨d, hd, hesc⟩
      obtain ⟨hoff₂, htop⟩ := hesc.offers hsz (hmap.valid d hd).2
      have hle := hall d hd hoff₂
      rw [show 2 ^ 64 - bytes = start by omega]
      exact h.fits (by omega)
    · rcases hfits with ⟨hesc, htop⟩ | ⟨b, hb, htop⟩
      · rw [show start = 2 ^ 64 - bytes by omega]
        exact h.2 ⟨e, he, hesc⟩
      · rw [show start = b by omega]
        exact ⟨e, he, hb⟩
    · intro d hd b hb
      rcases hb.offers hsz (hmap.valid d hd).2 with hwh | ⟨hoff₂, hle⟩
      · exact absurd hwh (h.1 d hd)
      · have := hall d hd hoff₂
        omega

def freePages (first last : Nat) : MemoryMapEntry :=
  ⟨⟨.conventionalMemory, first, last, 0⟩, none⟩

/-- Three ranges offer the two pages; the place is at the end of the second one. -/
theorem twoPages_highest :
    let map := [freePages 0x10000 0x2ffff, freePages 0x60000 0x6ffff, freePages 0x40000 0x4ffff]
    coreFindFreePagesI 0xfffff 0 2 (2 ^ 12) map = 0x6e000 ∧
      Highest 0x100000 0 0x2000 (2 ^ 12) map (coreFindFreePagesI 0xfffff 0 2 (2 ^ 12) map) := by
  intro map
  refine ⟨by decide, (coreFindFreePagesI_highest_iff 0xfffff 0 2 12 (by decide) (by decide)
    (by decide) (by decide) (by decide) (by decide) ⟨by decide, by decide⟩ rfl rfl).2 ⟨?_, ?_⟩⟩
  · intro e he hwh
    exact absurd hwh.top_eq (by decide)
  · rintro ⟨e, he, hesc⟩
    have hbel : ∀ e ∈ map, ¬ min (e.endAddress + 1) 0x100000 < 2 ^ 12 := by decide
    exact absurd hesc.below (hbel e he)

/-- With one free page, sixteen are found at the end of the address space. -/
theorem lowPage_escapes : Disjoint [freePages 0x1000 0x1fff] ∧
    coreFindFreePagesI (2 ^ 64 - 1) 0 16 (2 ^ 16) [freePages 0x1000 0x1fff] = 2 ^ 64 - 0x10000 ∧
    ¬ Highest (2 ^ 64) 0 0x10000 (2 ^ 16) [freePages 0x1000 0x1fff] (2 ^ 64 - 0x10000) := by
  refine ⟨⟨by decide, by decide⟩, by decide, fun h => ?_⟩
  obtain ⟨e, he, hfits⟩ := h.fits (by decide)
  have hend := hfits.end_le
  rw [mem_singleton.1 he] at hend
  exact absurd hend (by decide)

end MuBasecore.PageSearch
