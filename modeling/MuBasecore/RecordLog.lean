import Mathlib

/-!
A log of self-delimiting records in a memory: the record that starts at an address
says how long it is, and the next record starts where it ends. The log ends at the
first address where no record starts, or at a given stop.
-/

namespace MuBasecore.RecordLog

open List

variable {β : Type*}

/-- How the length of a record is read from its own bytes. Records start at multiples
of `unit`. -/
structure Format (β : Type*) where
  unit : Nat
  length : (Nat → β) → Nat → Option Nat
  length_pos : ∀ {m a n}, length m a = some n → 0 < n
  dvd_length : ∀ {m a n}, unit ∣ a → length m a = some n → unit ∣ n
  length_copy : ∀ {m m' a a' n}, unit ∣ a → unit ∣ a' → length m a = some n →
    (∀ i < n, m' (a' + i) = m (a + i)) → length m' a' = some n

variable (F : Format β)

def walk (m : Nat → β) (stop : Nat) : Nat → Nat → List Nat × Nat
  | 0, a => ([], a)
  | fuel + 1, a =>
    if a < stop then
      match F.length m a with
      | some n => (a :: (walk m stop fuel (a + n)).1, (walk m stop fuel (a + n)).2)
      | none => ([], a)
    else ([], a)

inductive Log (m : Nat → β) (stop : Nat) : Nat → List Nat → Nat → Prop
  | nil {a : Nat} (h : a < stop → F.length m a = none) : Log m stop a [] a
  | cons {a n e : Nat} {l : List Nat} (ha : a < stop) (hn : F.length m a = some n)
      (hl : Log m stop (a + n) l e) : Log m stop a (a :: l) e

variable {F} {m m' : Nat → β} {stop a e : Nat} {l : List Nat} {fuel e' x : Nat} {l' : List Nat}

theorem log_walk (F : Format β) :
    ∀ {a : Nat}, stop ≤ a + fuel →
      Log F m stop a (walk F m stop fuel a).1 (walk F m stop fuel a).2 := by
  induction fuel with
  | zero =>
    intro a ha
    exact .nil fun h => absurd h (by omega)
  | succ fuel ih =>
    intro a ha
    rw [walk]
    by_cases hstop : a < stop
    · rw [if_pos hstop]
      cases hn : F.length m a with
      | none => exact .nil fun _ => hn
      | some n =>
        have hpos := F.length_pos hn
        exact .cons hstop hn (ih (by omega))
    · rw [if_neg hstop]
      exact .nil fun h => absurd h hstop

variable (h : Log F m stop a l e)
include h

theorem Log.unique (h' : Log F m stop a l' e') : l = l' ∧ e = e' := by
  induction h generalizing l' e' with
  | nil hnone =>
    cases h' with
    | nil => exact ⟨rfl, rfl⟩
    | cons ha hn => rw [hnone ha] at hn; cases hn
  | cons ha hn hl ih =>
    cases h' with
    | nil hnone => rw [hnone ha] at hn; cases hn
    | cons _ hn' hl' =>
      rw [hn] at hn'
      cases hn'
      obtain ⟨rfl, rfl⟩ := ih hl'
      exact ⟨rfl, rfl⟩

theorem Log.walk_eq (hfuel : stop ≤ a + fuel) : walk F m stop fuel a = (l, e) := by
  obtain ⟨hl, he⟩ := (log_walk F hfuel).unique h
  rw [← hl, ← he]

theorem Log.le : a ≤ e := by
  induction h with
  | nil => exact Nat.le_refl _
  | cons ha hn hl ih => omega

theorem Log.add_length_le : a + l.length ≤ e := by
  induction h with
  | nil => exact Nat.le_refl _
  | cons ha hn hl ih =>
    have := F.length_pos hn
    rw [length_cons]
    omega

theorem Log.dvd (ha : F.unit ∣ a) : F.unit ∣ e := by
  induction h with
  | nil => exact ha
  | cons _ hn hl ih => exact ih (Nat.dvd_add ha (F.dvd_length ha hn))

theorem Log.of_mem (hx : x ∈ l) : a ≤ x ∧ x < stop ∧ ∃ n, F.length m x = some n ∧ x + n ≤ e := by
  induction h with
  | nil => cases hx
  | cons ha hn hl ih =>
    rcases mem_cons.1 hx with rfl | hx
    · exact ⟨Nat.le_refl _, ha, _, hn, hl.le⟩
    · obtain ⟨hax, hstop, n, hn, he⟩ := ih hx
      exact ⟨by omega, hstop, n, hn, he⟩

theorem Log.dvd_of_mem (ha : F.unit ∣ a) (hx : x ∈ l) : F.unit ∣ x := by
  induction h with
  | nil => cases hx
  | cons _ hn hl ih =>
    rcases mem_cons.1 hx with rfl | hx
    · exact ha
    · exact ih (Nat.dvd_add ha (F.dvd_length ha hn)) hx

theorem Log.pairwise : l.Pairwise fun x y => ∀ n, F.length m x = some n → x + n ≤ y := by
  induction h with
  | nil => exact .nil
  | cons ha hn hl ih =>
    refine .cons ?_ ih
    intro y hy n hn'
    rw [hn] at hn'
    cases hn'
    exact (hl.of_mem hy).1

theorem Log.nodup : l.Nodup := by
  apply h.pairwise.imp_of_mem
  rintro x y hx hy hxy rfl
  obtain ⟨_, _, n, hn, _⟩ := h.of_mem hx
  have hpos := F.length_pos hn
  have := hxy n hn
  omega

theorem Log.apart {y : Nat} (hx : x ∈ l) (hy : y ∈ l) (hxy : x ≠ y) :
    (∀ n, F.length m x = some n → x + n ≤ y) ∨ ∀ n, F.length m y = some n → y + n ≤ x := by
  induction h with
  | nil => cases hx
  | cons ha hn hl ih =>
    rcases mem_cons.1 hx with rfl | hx'
    · rcases mem_cons.1 hy with rfl | hy'
      · exact absurd rfl hxy
      · refine .inl fun n hn' => ?_
        rw [hn] at hn'
        cases hn'
        exact (hl.of_mem hy').1
    · rcases mem_cons.1 hy with rfl | hy'
      · refine .inr fun n hn' => ?_
        rw [hn] at hn'
        cases hn'
        exact (hl.of_mem hx').1
      · exact ih hx' hy'

theorem Log.append (hlen : ∀ x ∈ l, F.length m' x = F.length m x)
    (h' : Log F m' stop e l' e') : Log F m' stop a (l ++ l') e' := by
  induction h with
  | nil => exact h'
  | cons ha hn hl ih =>
    refine .cons ha ?_ (ih ?_ h')
    · rw [hlen _ mem_cons_self, hn]
    · intro x hx
      exact hlen x (mem_cons_of_mem _ hx)

theorem Log.extend {stop' : Nat} (hstop : stop ≤ stop')
    (hend : F.length m e = none) : Log F m stop' a l e := by
  induction h with
  | nil => exact .nil fun _ => hend
  | cons ha hn hl ih => exact .cons (by omega) hn (ih hend)

theorem Log.length_eq_of_agree (ha : F.unit ∣ a)
    (hm : ∀ i, a ≤ i → i < e → m' i = m i) (hx : x ∈ l) :
    F.length m' x = F.length m x := by
  obtain ⟨hax, _, n, hn, he⟩ := h.of_mem hx
  rw [hn]
  have hdvd := h.dvd_of_mem ha hx
  exact F.length_copy hdvd hdvd hn fun i hi => hm _ (by omega) (by omega)

end MuBasecore.RecordLog
