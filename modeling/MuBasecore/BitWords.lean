import Mathlib

/-!
Bits in an array of words: bit `i` is bit `i % w` of word `i / w`. A run of bits
is given one value by masks in its first and last word and by filling the words
between them.
-/

namespace MuBasecore.BitWords

open Function BitVec Nat

variable {w : Nat}

def bitAt (words : Nat → BitVec w) (i : Nat) : Bool :=
  (words (i / w)).getLsbD (i % w)

/-- The lowest `n` bits, for `n < w`. -/
def lowMask (w n : Nat) : BitVec w :=
  1#w <<< n - 1

theorem getLsbD_lowMask {n i : Nat} (h : n < w) : (lowMask w n).getLsbD i = decide (i < n) := by
  have hpow : 2 ^ n < 2 ^ w := Nat.pow_lt_pow_right (by decide) h
  have hpos : 1 ≤ 2 ^ n := Nat.one_le_two_pow
  have hone : 1 < 2 ^ w := Nat.one_lt_two_pow (by omega)
  have hmask : (lowMask w n).toNat = 2 ^ n - 1 := by
    rw [lowMask, toNat_sub, toNat_shiftLeft, toNat_ofNat, Nat.mod_eq_of_lt hone,
      Nat.shiftLeft_eq, one_mul, Nat.mod_eq_of_lt hpow]
    have hval : (1 : BitVec w).toNat = 1 := by
      exact Nat.mod_eq_of_lt hone
    rw [hval, show 2 ^ w - 1 + 2 ^ n = 2 ^ n - 1 + 2 ^ w by omega, add_mod_right,
      Nat.mod_eq_of_lt (by omega)]
  rw [getLsbD, hmask, testBit_two_pow_sub_one]

/-- The bits from `first` on, `n` of them, have the value; the others are as
before. -/
def Overwritten (value : Bool) (first n : Nat) (words words' : Nat → BitVec w) : Prop :=
  ∀ i, bitAt words' i = if first ≤ i ∧ i < first + n then value else bitAt words i

theorem overwritten_zero (value : Bool) (first : Nat) (words : Nat → BitVec w) :
    Overwritten value first 0 words words := by
  intro i
  rw [if_neg (by omega)]

variable {value : Bool}

theorem Overwritten.trans {first next n m : Nat} {a b c : Nat → BitVec w}
    (h : Overwritten value first n a b) (h' : Overwritten value next m b c)
    (hnext : 0 < m → next = first + n) : Overwritten value first (n + m) a c := by
  intro i
  rw [h', h]
  split
  · rw [if_pos (by omega)]
  split
  · rw [if_pos (by omega)]
  · rw [if_neg (by omega)]

def Stamps (value : Bool) (combine : BitVec w → BitVec w → BitVec w) : Prop :=
  ∀ word mask i, i < w →
    (combine word mask).getLsbD i = if mask.getLsbD i then value else word.getLsbD i

theorem stamps_or : Stamps true fun word mask : BitVec w => word ||| mask := by
  intro word mask i _
  rw [getLsbD_or]
  cases mask.getLsbD i <;> simp

theorem stamps_and_not : Stamps false fun word mask : BitVec w => word &&& ~~~mask := by
  intro word mask i hi
  rw [getLsbD_and, getLsbD_not]
  cases mask.getLsbD i <;> simp [hi]

theorem overwritten_stamp {combine : BitVec w → BitVec w → BitVec w}
    (h : Stamps value combine) {mask : BitVec w} {start n : Nat}
    (hmask : ∀ i, mask.getLsbD i = decide (start ≤ i ∧ i < start + n)) (hfit : start + n ≤ w)
    (words : Nat → BitVec w) (k : Nat) (hw : 0 < w) :
    Overwritten value (w * k + start) n words (update words k (combine (words k) mask)) := by
  intro i
  have hdiv := div_add_mod i w
  have hmod := mod_lt i hw
  unfold bitAt
  rcases eq_or_ne (i / w) k with rfl | hne
  · rw [update_self, h _ _ _ hmod, hmask]
    simp only [decide_eq_true_eq]
    exact if_congr (by omega) rfl rfl
  · rw [update_of_ne hne, if_neg]
    rintro ⟨hle, hlt⟩
    apply hne
    rw [Nat.div_eq_iff hw]
    constructor
    · rw [Nat.mul_comm]
      omega
    · rw [Nat.mul_comm]
      omega

theorem overwritten_fill {fill : BitVec w} (h : ∀ i < w, fill.getLsbD i = value)
    (words : Nat → BitVec w) (k q : Nat) (hw : 0 < w) :
    Overwritten value (w * k) (w * q) words
      (fun j => if k ≤ j ∧ j < k + q then fill else words j) := by
  intro i
  have hmod := mod_lt i hw
  have hlow : k ≤ i / w ↔ w * k ≤ i := by rw [Nat.le_div_iff_mul_le hw, Nat.mul_comm]
  have hhigh : i / w < k + q ↔ i < w * k + w * q := by
    rw [Nat.div_lt_iff_lt_mul hw, Nat.mul_comm, Nat.mul_add]
  simp only [bitAt, hlow, hhigh]
  split
  · exact h _ hmod
  · rfl

end MuBasecore.BitWords
