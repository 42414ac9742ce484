import Mathlib

/-!
A buffer of slots, and the contents of a range of them.
-/

namespace MuBasecore.SlotBuffer

open List

variable {α : Type*}

/-- The contents of `n` slots. -/
def slotRange (slots : Nat → α) (i n : Nat) : List α :=
  (List.range n).map fun j => slots (i + j)

theorem length_slotRange (slots : Nat → α) (i n : Nat) : (slotRange slots i n).length = n := by
  simp [slotRange]

theorem slotRange_add (slots : Nat → α) (i n m : Nat) :
    slotRange slots i (n + m) = slotRange slots i n ++ slotRange slots (i + n) m := by
  simp only [slotRange, range_add, map_append, map_map]
  congr 2
  funext j
  simp [Nat.add_assoc]

theorem slotRange_congr {slots slots' : Nat → α} {i n : Nat}
    (h : ∀ j, i ≤ j → j < i + n → slots j = slots' j) :
    slotRange slots i n = slotRange slots' i n := by
  apply map_congr_left
  intro j hj
  rw [mem_range] at hj
  exact h _ (by omega) (by omega)

end MuBasecore.SlotBuffer
