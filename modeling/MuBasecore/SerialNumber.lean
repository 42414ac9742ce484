import Mathlib

/-!
Counters of a fixed width that wrap around: numbers that are less than half of
the range apart are compared by the sign of their difference.
-/

namespace MuBasecore.SerialNumber

open BitVec

variable {w : Nat}

/-- The counter after `n` steps from `base`. -/
def numberAt (base : BitVec w) (n : Nat) : BitVec w :=
  base + BitVec.ofNat w n

def Close (w a b : Nat) : Prop :=
  2 * a < 2 * b + 2 ^ w ∧ 2 * b < 2 * a + 2 ^ w

variable {a b : Nat}

theorem Close.symm (h : Close w a b) : Close w b a :=
  ⟨h.2, h.1⟩

section

variable (base : BitVec w)

theorem numberAt_add (n k : Nat) : numberAt base (n + k) = numberAt base n + BitVec.ofNat w k := by
  rw [numberAt, numberAt, ofNat_add, add_assoc]

theorem numberAt_sub (a b : Nat) :
    numberAt base a - numberAt base b = BitVec.ofNat w a - BitVec.ofNat w b := by
  rw [numberAt, numberAt, add_sub_add_left_eq_sub]

theorem toInt_numberAt_sub (h : Close w a b) :
    (numberAt base a - numberAt base b).toInt = (a : Int) - b := by
  have hofNat : ∀ n : Nat, (BitVec.ofNat w n).toInt = (n : Int).bmod (2 ^ w) := fun n => by
    rw [toInt_eq_toNat_bmod, toNat_ofNat, Int.natCast_mod, Int.emod_bmod]
  rw [numberAt_sub, toInt_sub, hofNat, hofNat, Int.bmod_sub_bmod, Int.sub_bmod_bmod]
  obtain ⟨h₁, h₂⟩ := h
  refine Int.bmod_eq_of_le_mul_two ?_ ?_
  · omega
  · omega

theorem toNat_numberAt_sub (hle : b ≤ a) (hlt : a < b + 2 ^ w) :
    (numberAt base a - numberAt base b).toNat = a - b := by
  obtain ⟨d, rfl⟩ := Nat.exists_eq_add_of_le hle
  have hsub : numberAt base (b + d) - numberAt base b = BitVec.ofNat w d := by
    rw [numberAt_add, add_sub_cancel_left]
  rw [hsub, toNat_ofNat, Nat.mod_eq_of_lt (by omega)]
  omega

theorem numberAt_inj (hle : b ≤ a) (hlt : a < b + 2 ^ w) :
    numberAt base a = numberAt base b ↔ a = b := by
  refine ⟨fun h => ?_, fun h => by rw [h]⟩
  have hdist := toNat_numberAt_sub base hle hlt
  rw [h, sub_self] at hdist
  change 0 = a - b at hdist
  omega

end

end MuBasecore.SerialNumber
