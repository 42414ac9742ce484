import Mathlib

/-!
Stretches of positions that come in ascending order, and a list of them in which a stretch
that goes on where the last one ends is joined to it. The label of a stretch is that of its
first position; how labels go on from position to position is a parameter.
-/

namespace MuBasecore.StretchMerge

open List

universe u

structure Stretch (α : Type u) where
  first : Nat
  length : Nat
  label : α
deriving DecidableEq

structure Progress (α : Type u) where
  after : Nat → α → α
  after_zero : ∀ a, after 0 a = a
  after_add : ∀ m n a, after (m + n) a = after n (after m a)

variable {α : Type u} (P : Progress α) {l : List (Stretch α)} {s t : Stretch α} {p : Nat} {a : α}

def Before (s t : Stretch α) : Prop :=
  s.first + s.length ≤ t.first

def Stretch.Has (s : Stretch α) (p : Nat) (a : α) : Prop :=
  s.first ≤ p ∧ p < s.first + s.length ∧ P.after (p - s.first) s.label = a

def At (l : List (Stretch α)) (p : Nat) (a : α) : Prop :=
  ∃ s ∈ l, s.Has P p a

def Continues (s t : Stretch α) : Prop :=
  s.first + s.length = t.first ∧ P.after s.length s.label = t.label

instance [DecidableEq α] : DecidableRel (Continues P) :=
  fun _ _ => inferInstanceAs (Decidable (_ ∧ _))

def push [DecidableEq α] : List (Stretch α) → Stretch α → List (Stretch α)
  | [], s => [s]
  | t :: l, s =>
    if Continues P t s then ⟨t.first, t.length + s.length, t.label⟩ :: l else s :: t :: l

theorem at_nil : ¬ At P [] p a := by
  rintro ⟨s, hs, -⟩
  cases hs

theorem at_cons : At P (s :: l) p a ↔ s.Has P p a ∨ At P l p a :=
  exists_mem_cons_iff ..

theorem at_flatMap {ι : Type*} {is : List ι} {f : ι → List (Stretch α)} :
    At P (is.flatMap f) p a ↔ ∃ i ∈ is, At P (f i) p a := by
  constructor
  · rintro ⟨s, hs, hhas⟩
    obtain ⟨i, hi, hs⟩ := mem_flatMap.1 hs
    exact ⟨i, hi, s, hs, hhas⟩
  · rintro ⟨i, hi, s, hs, hhas⟩
    exact ⟨s, mem_flatMap.2 ⟨i, hi, hs⟩, hhas⟩

theorem has_join (h : Continues P t s) :
    (⟨t.first, t.length + s.length, t.label⟩ : Stretch α).Has P p a ↔
      t.Has P p a ∨ s.Has P p a := by
  obtain ⟨hend, hlab⟩ := h
  constructor
  · rintro ⟨hfst, hlast, hafter⟩
    dsimp only at hfst hlast hafter
    rcases lt_or_ge p s.first with hp | hp
    · exact .inl ⟨hfst, by omega, hafter⟩
    · refine .inr ⟨hp, by omega, ?_⟩
      rw [← hlab, ← P.after_add, ← hafter]
      congr 1
      omega
  · rintro (⟨hfst, hlast, hafter⟩ | ⟨hfst, hlast, hafter⟩)
    · exact ⟨hfst, by dsimp only; omega, hafter⟩
    · refine ⟨by dsimp only; omega, by dsimp only; omega, ?_⟩
      rw [← hafter, ← hlab, ← P.after_add]
      congr 1
      dsimp only
      omega

/-- Newest first, the stretches end one before the other, none goes on where the one before
it ends, and all of them end at the bound at the latest. -/
structure Merged (bound : Nat) (l : List (Stretch α)) : Prop where
  before : l.Pairwise fun s t => Before t s
  maximal : l.IsChain fun s t => ¬ Continues P t s
  bounded : ∀ s ∈ l, s.first + s.length ≤ bound

theorem merged_nil (bound : Nat) : Merged P bound [] :=
  ⟨.nil, .nil, fun _ h => nomatch h⟩

variable {P}

variable {bound : Nat}

theorem Merged.mono {bound' : Nat} (h : Merged P bound l) (hle : bound ≤ bound') :
    Merged P bound' l :=
  ⟨h.before, h.maximal, fun s hs => le_trans (h.bounded s hs) hle⟩

variable [DecidableEq α]

variable (P) in
theorem at_push : At P (push P l s) p a ↔ At P l p a ∨ s.Has P p a := by
  cases l with
  | nil =>
    rw [push, at_cons]
    exact or_comm
  | cons t l =>
    rw [push]
    split
    next hcont =>
      rw [at_cons, at_cons, has_join P hcont]
      tauto
    · rw [at_cons]
      exact or_comm

theorem Merged.push (h : Merged P bound l) (hs : bound ≤ s.first) :
    Merged P (s.first + s.length) (push P l s) := by
  cases l with
  | nil =>
    refine ⟨pairwise_singleton _ _, isChain_singleton _, ?_⟩
    intro r hr
    rw [mem_singleton.1 hr]
  | cons t l =>
    obtain ⟨htl, hl⟩ := pairwise_cons.1 h.before
    rw [StretchMerge.push]
    split
    next hcont =>
      refine ⟨pairwise_cons.2 ⟨htl, hl⟩, ?_, ?_⟩
      · -- only the end of the stretch in front has moved
        cases l with
        | nil => exact isChain_singleton _
        | cons r l =>
          obtain ⟨hr, hrest⟩ := isChain_cons_cons.1 h.maximal
          exact isChain_cons_cons.2 ⟨hr, hrest⟩
      · intro r hr
        rcases mem_cons.1 hr with rfl | hr
        · have hend := hcont.1
          dsimp only
          omega
        · have hbd := h.bounded r (mem_cons_of_mem _ hr)
          omega
    next hcont =>
      refine ⟨pairwise_cons.2 ⟨?_, h.before⟩, isChain_cons_cons.2 ⟨hcont, h.maximal⟩, ?_⟩
      · intro r hr
        exact le_trans (h.bounded r hr) hs
      · intro r hr
        rcases mem_cons.1 hr with rfl | hr
        · exact le_rfl
        · have hbd := h.bounded r hr
          omega

theorem foldl_push {pieces : List (Stretch α)} {upper : Nat} (h : Merged P bound l)
    (hle : bound ≤ upper) (hpts : pieces.Pairwise Before)
    (hrng : ∀ s ∈ pieces, bound ≤ s.first ∧ s.first + s.length ≤ upper) :
    Merged P upper (pieces.foldl (StretchMerge.push P) l) ∧
      ∀ p a, At P (pieces.foldl (StretchMerge.push P) l) p a ↔ At P l p a ∨ At P pieces p a := by
  induction pieces generalizing l bound with
  | nil =>
    refine ⟨h.mono hle, fun p a => ?_⟩
    exact ⟨.inl, fun h => h.resolve_right (at_nil P)⟩
  | cons s pieces ih =>
    obtain ⟨hs, hpts⟩ := pairwise_cons.1 hpts
    obtain ⟨hfst, hlast⟩ := hrng s (mem_cons_self ..)
    obtain ⟨hmrg, hat⟩ := ih (h.push hfst) hlast hpts fun t ht =>
      ⟨hs t ht, (hrng t (mem_cons_of_mem _ ht)).2⟩
    refine ⟨hmrg, fun p a => ?_⟩
    rw [foldl_cons, hat, at_push, at_cons, or_assoc]

end MuBasecore.StretchMerge
