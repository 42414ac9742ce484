import Mathlib

/-!
The first element of a list with the smallest score, found by one pass that stops at
an element whose score is zero. An element may have no score.
-/

namespace MuBasecore.FirstMinimum

universe u

variable {α : Type u} (score : α → Option Nat)

/-- The better of the best so far and an element with a score at index `i`. -/
def better (i s : Nat) : Option (Nat × Nat) → Nat × Nat
  | none => (i, s)
  | some (k, t) => if s < t then (i, s) else (k, t)

/-- The pass from index `i` on, with the best index and score so far. -/
def scan : List α → Nat → Option (Nat × Nat) → Option (Nat × Nat)
  | [], _, best => best
  | a :: l, i, best =>
    match score a with
    | none => scan l (i + 1) best
    | some s =>
      let best' := better i s best
      if best'.2 = 0 then some best' else scan l (i + 1) (some best')

structure IsFirst (l : List α) (i s : Nat) : Prop where
  attained : (l[i]?).bind score = some s
  le : ∀ j t : Nat, (l[j]?).bind score = some t → s ≤ t
  first : ∀ j : Nat, (l[j]?).bind score = some s → i ≤ j

def Best (l : List α) : Option (Nat × Nat) → Prop
  | none => ∀ j : Nat, (l[j]?).bind score = none
  | some (i, s) => IsFirst score l i s

variable {score} {l l' : List α} {i s : Nat}

theorem getElem?_bind_append (a : α) (j : Nat) :
    ((l ++ [a])[j]?).bind score =
      if j = l.length then score a else (l[j]?).bind score := by
  rcases Nat.lt_trichotomy j l.length with hj | hj | hj
  · rw [List.getElem?_append_left hj, if_neg (by omega)]
  · subst hj
    rw [if_pos rfl, List.getElem?_concat_length]
    rfl
  · rw [if_neg (by omega), List.getElem?_eq_none (by simp; omega),
      List.getElem?_eq_none (by omega)]

theorem lt_length_of_score {j t : Nat} (h : (l[j]?).bind score = some t) : j < l.length := by
  by_contra hj
  rw [List.getElem?_eq_none (by omega)] at h
  cases h

variable {best : Option (Nat × Nat)} {a : α}

theorem Best.append_none (h : Best score l best)
    (ha : score a = none) : Best score (l ++ [a]) best := by
  have hsame : ∀ j : Nat, ((l ++ [a])[j]?).bind score = (l[j]?).bind score := by
    intro j
    rw [getElem?_bind_append]
    split
    case isTrue hj => rw [ha, hj, List.getElem?_eq_none (Nat.le_refl _)]; rfl
    case isFalse => rfl
  cases best with
  | none =>
    intro j
    rw [hsame]
    exact h j
  | some b =>
    obtain ⟨i, s⟩ := b
    refine ⟨?_, ?_, ?_⟩
    · rw [hsame]
      exact h.attained
    · intro j t hj
      rw [hsame] at hj
      exact h.le j t hj
    · intro j hj
      rw [hsame] at hj
      exact h.first j hj

theorem Best.append_some (h : Best score l best) (ha : score a = some s) :
    Best score (l ++ [a]) (some (better l.length s best)) := by
  have hlast : ((l ++ [a])[l.length]?).bind score = some s := by
    rw [getElem?_bind_append, if_pos rfl, ha]
  have hspl : ∀ j t : Nat, ((l ++ [a])[j]?).bind score = some t →
      (j = l.length ∧ t = s) ∨ (l[j]?).bind score = some t := by
    intro j t hj
    rw [getElem?_bind_append] at hj
    split at hj
    case isTrue heq =>
      rw [ha] at hj
      exact .inl ⟨heq, (Option.some.inj hj).symm⟩
    case isFalse => exact .inr hj
  cases best with
  | none =>
    refine ⟨hlast, ?_, ?_⟩
    · intro j t hj
      rcases hspl j t hj with ⟨_, rfl⟩ | hj
      · exact Nat.le_refl _
      · rw [h j] at hj
        cases hj
    · intro j hj
      rcases hspl j s hj with ⟨rfl, _⟩ | hj
      · exact Nat.le_refl _
      · rw [h j] at hj
        cases hj
  | some b =>
    obtain ⟨k, t⟩ := b
    have hk := lt_length_of_score h.attained
    rw [better]
    split
    case isTrue hlt =>
      refine ⟨hlast, ?_, ?_⟩
      · intro j u hj
        rcases hspl j u hj with ⟨_, rfl⟩ | hj
        · exact Nat.le_refl _
        · have := h.le j u hj
          omega
      · intro j hj
        rcases hspl j s hj with ⟨rfl, _⟩ | hj
        · exact Nat.le_refl _
        · have := h.le j s hj
          omega
    case isFalse hlt =>
      refine ⟨?_, ?_, ?_⟩
      · rw [getElem?_bind_append, if_neg (by omega)]
        exact h.attained
      · intro j u hj
        rcases hspl j u hj with ⟨_, rfl⟩ | hj
        · omega
        · exact h.le j u hj
      · intro j hj
        rcases hspl j t hj with ⟨rfl, _⟩ | hj
        · omega
        · exact h.first j hj

theorem IsFirst.append_of_zero (h : IsFirst score l i 0) (l' : List α) :
    IsFirst score (l ++ l') i 0 := by
  have hi := lt_length_of_score h.attained
  refine ⟨?_, fun _ _ _ => Nat.zero_le _, ?_⟩
  · rw [List.getElem?_append_left hi]
    exact h.attained
  · intro j hj
    by_contra hlt
    rw [List.getElem?_append_left (by omega)] at hj
    exact hlt (h.first j hj)

theorem scan_best (h : Best score l best) : Best score (l ++ l') (scan score l' l.length best) := by
  induction l' generalizing l best with
  | nil => simpa [scan] using h
  | cons a l' ih =>
    have hlen : (l ++ [a]).length = l.length + 1 := by simp
    rw [scan, List.append_cons]
    cases ha : score a with
    | none =>
      have hrest := ih (h.append_none ha)
      rwa [hlen] at hrest
    | some s =>
      have hstep := h.append_some ha
      dsimp only
      generalize better l.length s best = best' at hstep ⊢
      obtain ⟨k, t⟩ := best'
      split
      case isTrue hzero =>
        subst hzero
        exact IsFirst.append_of_zero hstep l'
      case isFalse =>
        have hrest := ih hstep
        rwa [hlen] at hrest

theorem scan_spec (score : α → Option Nat) (l : List α) : Best score l (scan score l 0 none) := by
  have hnil : Best score [] none := fun j => by simp
  have hscan : Best score ([] ++ l) (scan score l ([] : List α).length none) := scan_best hnil
  simpa using hscan

end MuBasecore.FirstMinimum
