import Mathlib

/-!
Computations that are given a number of rounds and return nothing if the rounds
do not suffice: a computation returns a value if it does so from some number of
rounds on and returns nothing with fewer.
-/

namespace MuBasecore.RoundedLoop

variable {α β : Type}

/-- The loop returns `r` once it has enough rounds. -/
def Returns (f : Nat → Option α) (r : α) : Prop :=
  ∃ k, ∀ n, f n = if k ≤ n then some r else none

variable {f : Nat → Option α} {r : α}

theorem Returns.exists_rounds (h : Returns f r) : ∃ n, f n = some r := by
  obtain ⟨k, hk⟩ := h
  exact ⟨k, by rw [hk, if_pos (Nat.le_refl k)]⟩

theorem Returns.eq_of_some {x : α} (h : Returns f r) {n : Nat} (hx : f n = some x) : x = r := by
  obtain ⟨k, hk⟩ := h
  rw [hk] at hx
  split at hx
  · exact (Option.some.inj hx).symm
  · cases hx

theorem returns_const (r : α) : Returns (fun _ => some r) r :=
  ⟨0, fun n => by rw [if_pos (Nat.zero_le n)]⟩

theorem Returns.map (h : Returns f r) (g : α → β) : Returns (fun n => (f n).map g) (g r) := by
  obtain ⟨k, hk⟩ := h
  refine ⟨k, fun n => ?_⟩
  dsimp only
  rw [hk]
  split <;> rfl

theorem Returns.bind {g : Nat → α → Option β} {s : β}
    (h : Returns f r) (hg : Returns (fun n => g n r) s) :
    Returns (fun n => (f n).bind (g n)) s := by
  obtain ⟨k, hk⟩ := h
  obtain ⟨k', hk'⟩ := hg
  refine ⟨max k k', fun n => ?_⟩
  dsimp only at hk' ⊢
  rw [hk]
  by_cases hn : k ≤ n
  · rw [if_pos hn]
    change g n r = _
    rw [hk']
    simp only [Nat.max_le, hn, true_and]
  · rw [if_neg hn, if_neg (fun hmax => hn (Nat.le_trans (Nat.le_max_left k k') hmax))]
    rfl

theorem Returns.succ {g : Nat → Option α} (hzero : f 0 = none)
    (hsucc : ∀ n, f (n + 1) = g n) (h : Returns g r) : Returns f r := by
  obtain ⟨k, hk⟩ := h
  refine ⟨k + 1, fun n => ?_⟩
  cases n with
  | zero => rw [hzero, if_neg (Nat.not_succ_le_zero k)]
  | succ n => simp [hsucc, hk]

end MuBasecore.RoundedLoop
