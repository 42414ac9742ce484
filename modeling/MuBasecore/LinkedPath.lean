import Mathlib

/-!
Paths of a structure in which every node names the next one: the nodes that are
met from a first node until another one is reached.
-/

namespace MuBasecore.LinkedPath

open List

variable {α : Type}

/-- From `a` the nodes of the list are met in this order, and `b` comes next. -/
def Path (next : α → α) : α → List α → α → Prop
  | a, [], b => a = b
  | a, x :: l, b => a = x ∧ Path next (next x) l b

variable {l : List α} {next : α → α} {a b : α}

theorem path_append {l₁ l₂ : List α} :
    Path next a (l₁ ++ l₂) b ↔ ∃ m, Path next a l₁ m ∧ Path next m l₂ b := by
  induction l₁ generalizing a with
  | nil =>
    constructor
    · intro h
      exact ⟨a, rfl, h⟩
    · rintro ⟨m, rfl, h⟩
      exact h
  | cons x l ih =>
    constructor
    · rintro ⟨hx, h⟩
      obtain ⟨m, h₁, h₂⟩ := ih.1 h
      exact ⟨m, ⟨hx, h₁⟩, h₂⟩
    · rintro ⟨m, ⟨hx, h₁⟩, h₂⟩
      exact ⟨hx, ih.2 ⟨m, h₁, h₂⟩⟩

theorem Path.congr {next' : α → α} (h : Path next a l b)
    (hsame : ∀ x ∈ l, next' x = next x) : Path next' a l b := by
  induction l generalizing a with
  | nil => exact h
  | cons x l ih =>
    obtain ⟨hx, h⟩ := h
    refine ⟨hx, ?_⟩
    rw [hsame x mem_cons_self]
    exact ih h fun y hy => hsame y (mem_cons_of_mem x hy)

theorem Path.redirect {next' : α → α} {x : α}
    (h : Path next a (l ++ [x]) b) (hsame : ∀ y ∈ l, next' y = next y) :
    Path next' a (l ++ [x]) (next' x) := by
  obtain ⟨m, hfr, hm⟩ := path_append.1 h
  exact path_append.2 ⟨m, hfr.congr hsame, hm.1, rfl⟩

theorem Path.end_eq {b' : α} (h : Path next a l b) (h' : Path next a l b') : b = b' := by
  induction l generalizing a with
  | nil => exact h.symm.trans h'
  | cons x l ih => exact ih h.2 h'.2

theorem Path.unique (stop : α → Prop) {b' : α} {l' : List α}
    (h : Path next a l b) (h' : Path next a l' b') (hl : ∀ x ∈ l, ¬ stop x)
    (hl' : ∀ x ∈ l', ¬ stop x) (hb : stop b) (hb' : stop b') : l = l' := by
  induction l generalizing a l' with
  | nil =>
    cases l' with
    | nil => rfl
    | cons y l' => exact absurd (h'.1 ▸ h ▸ hb) (hl' y mem_cons_self)
  | cons x l ih =>
    cases l' with
    | nil => exact absurd (h.1 ▸ h' ▸ hb') (hl x mem_cons_self)
    | cons y l' =>
      obtain ⟨rfl, h⟩ := h
      obtain ⟨rfl, h'⟩ := h'
      rw [ih h h' (fun z hz => hl z (mem_cons_of_mem _ hz))
        (fun z hz => hl' z (mem_cons_of_mem _ hz))]

theorem Path.nodup (stop : α → Prop)
    (h : Path next a l b) (hl : ∀ x ∈ l, ¬ stop x) (hb : stop b) : l.Nodup := by
  induction l generalizing a with
  | nil => exact nodup_nil
  | cons x l ih =>
    have hrest : ∀ y ∈ l, ¬ stop y := fun y hy => hl y (mem_cons_of_mem x hy)
    refine nodup_cons.2 ⟨fun hx => ?_, ih h.2 hrest⟩
    -- a second visit of `x` would be followed by the same nodes once more
    obtain ⟨front, back, hspl⟩ := append_of_mem hx
    obtain ⟨m, _, hm⟩ := path_append.1 (hspl ▸ h.2)
    have hback : ∀ y ∈ back, ¬ stop y := fun y hy =>
      hrest y (hspl ▸ mem_append_right front (mem_cons_of_mem x hy))
    have hsame : l = back := h.2.unique stop hm.2 hrest hback hb hb
    have hlen := congrArg length hspl
    rw [hsame, length_append, length_cons] at hlen
    omega

end MuBasecore.LinkedPath
