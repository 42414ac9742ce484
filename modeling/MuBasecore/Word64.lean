import Mathlib

/-!
Unsigned 64-bit arithmetic on natural numbers. A value is a natural number
below `2 ^ 64`; every operation that can leave that range is reduced, so that
a wrap-around is visible in the model exactly where the machine has one.
-/

namespace MuBasecore.Word64

open Nat

def add64 (a b : Nat) : Nat :=
  (a + b) % 2 ^ 64

def sub64 (a b : Nat) : Nat :=
  (2 ^ 64 - b + a) % 2 ^ 64

def shl64 (a count : Nat) : Nat :=
  (a * 2 ^ count) % 2 ^ 64

/-- The value with its low `count` bits cleared. -/
def alignDown (a count : Nat) : Nat :=
  a / 2 ^ count * 2 ^ count

/-- The last byte of the range of `length` bytes at `base`, computed as the
machine computes `base + length - 1`. -/
def lastByte (base length : Nat) : Nat :=
  sub64 (add64 base length) 1

variable {a b count : Nat}

theorem add64_lt : add64 a b < 2 ^ 64 :=
  mod_lt _ (by decide)

theorem sub64_lt : sub64 a b < 2 ^ 64 :=
  mod_lt _ (by decide)

theorem add64_eq (h : a + b < 2 ^ 64) : add64 a b = a + b :=
  mod_eq_of_lt h

theorem sub64_eq (ha : a < 2 ^ 64) (hab : b ≤ a) : sub64 a b = a - b := by
  unfold sub64
  omega

theorem lastByte_eq {base length : Nat} (hlen : 0 < length)
    (h : base + length ≤ 2 ^ 64) : lastByte base length = base + length - 1 := by
  unfold lastByte sub64 add64
  omega

theorem lastByte_wrap {base length : Nat} (hbase : base < 2 ^ 64)
    (hlen : length < 2 ^ 64) (h : 2 ^ 64 < base + length) :
    lastByte base length + 2 ^ 64 = base + length - 1 ∧ lastByte base length + 1 < base := by
  unfold lastByte sub64 add64
  omega

theorem alignDown_le (a count : Nat) : alignDown a count ≤ a :=
  div_mul_le_self a (2 ^ count)

theorem lt_alignDown_add (a count : Nat) : a < alignDown a count + 2 ^ count := by
  have hpos : 0 < 2 ^ count := Nat.two_pow_pos count
  have hmod : a % 2 ^ count < 2 ^ count := mod_lt _ hpos
  have hdiv := div_add_mod a (2 ^ count)
  unfold alignDown
  rw [Nat.mul_comm] at hdiv
  omega

theorem dvd_alignDown : 2 ^ count ∣ alignDown a count :=
  Nat.dvd_mul_left _ _

theorem le_alignDown (hdvd : 2 ^ count ∣ b) (hle : b ≤ a) : b ≤ alignDown a count := by
  obtain ⟨k, rfl⟩ := hdvd
  rw [alignDown, Nat.mul_comm]
  exact Nat.mul_le_mul_right _ ((Nat.le_div_iff_mul_le (Nat.two_pow_pos count)).2 (by
    rw [Nat.mul_comm]
    exact hle))

theorem alignDown_le_of_lt (hdvd : 2 ^ count ∣ b) (hlt : a < b + 2 ^ count) :
    alignDown a count ≤ b := by
  obtain ⟨k, rfl⟩ := hdvd
  have hdiv : a / 2 ^ count < k + 1 := by
    rw [Nat.div_lt_iff_lt_mul (Nat.two_pow_pos count), succ_mul, Nat.mul_comm k]
    exact hlt
  rw [alignDown, Nat.mul_comm (2 ^ count) k]
  exact Nat.mul_le_mul_right _ (by omega)

end MuBasecore.Word64
