import Mathlib

/-!
Machines with a stack of frames. The frame on top says what may happen next: the
state changes and the frame is replaced by others. `Spec n s stack Q` says that in
every run of at most `n` steps from the stack, each frame finds the state as `Good`
asks when it comes to the top, and that `Q` holds once the stack is empty.
-/

namespace MuBasecore.CallStack

variable {σ φ : Type}

structure Config (σ φ : Type) where
  state : σ
  stack : List φ

section Machine

variable (resume : σ → φ → σ → List φ → Prop)

/-- The frame on top is resumed, and may call others. -/
inductive Step : Config σ φ → Config σ φ → Prop
  | step {s s' : σ} {f : φ} {fs : List φ} (rest : List φ) (h : resume s f s' fs) :
      Step ⟨s, f :: rest⟩ ⟨s', fs ++ rest⟩

abbrev Reaches : Config σ φ → Config σ φ → Prop :=
  Relation.ReflTransGen (Step resume)

variable (Good : σ → φ → Prop)

def Spec : Nat → σ → List φ → (σ → Prop) → Prop
  | _, s, [], Q => Q s
  | 0, s, f :: _, _ => Good s f
  | n + 1, s, f :: rest, Q =>
    Good s f ∧ ∀ s' fs, resume s f s' fs → Spec n s' (fs ++ rest) Q

end Machine

variable {resume : σ → φ → σ → List φ → Prop} {Good : σ → φ → Prop} {P Q : σ → Prop}
  {s : σ} {f : φ} {fs gs : List φ} {n m : Nat}

theorem spec_nil (h : Q s) : Spec resume Good n s [] Q := by
  cases n with
  | zero => exact h
  | succ n => exact h

theorem spec_zero (h : Good s f) : Spec resume Good 0 s (f :: fs) Q :=
  h

theorem spec_frame (hgood : Good s f) (h : ∀ s' fs, resume s f s' fs → Spec resume Good n s' fs Q) :
    Spec resume Good (n + 1) s [f] Q := by
  refine ⟨hgood, ?_⟩
  intro s' fs hstep
  rw [List.append_nil]
  exact h s' fs hstep

theorem Spec.mono (h : Spec resume Good n s fs Q) (hle : m ≤ n) : Spec resume Good m s fs Q := by
  induction n generalizing m s fs with
  | zero =>
    obtain rfl := Nat.le_zero.1 hle
    exact h
  | succ n ih =>
    cases fs with
    | nil => exact spec_nil h
    | cons f fs =>
      cases m with
      | zero => exact spec_zero h.1
      | succ m =>
        refine ⟨h.1, ?_⟩
        intro s' gs hstep
        exact ih (h.2 s' gs hstep) (Nat.le_of_succ_le_succ hle)

theorem Spec.append (h : Spec resume Good n s fs P)
    (h' : ∀ s', P s' → Spec resume Good n s' gs Q) : Spec resume Good n s (fs ++ gs) Q := by
  induction n generalizing s fs with
  | zero =>
    cases fs with
    | nil => exact h' s h
    | cons f fs => exact spec_zero h
  | succ n ih =>
    cases fs with
    | nil => exact h' s h
    | cons f fs =>
      refine ⟨h.1, ?_⟩
      intro s' fs' hstep
      change Spec resume Good n s' (fs' ++ (fs ++ gs)) Q
      rw [← List.append_assoc]
      exact ih (h.2 s' fs' hstep) fun s'' hs'' => (h' s'' hs'').mono (Nat.le_succ n)

theorem Spec.cons (h : Spec resume Good n s [f] P)
    (h' : ∀ s', P s' → Spec resume Good n s' gs Q) : Spec resume Good n s (f :: gs) Q := by
  exact h.append h'

theorem Spec.imp (h : Spec resume Good n s fs P) (hPQ : ∀ s', P s' → Q s') :
    Spec resume Good n s fs Q := by
  rw [← List.append_nil fs]
  exact h.append fun s' hs' => spec_nil (hPQ s' hs')

theorem Spec.sound {c : Config σ φ} (h : ∀ n, Spec resume Good n s fs Q)
    (hrun : Reaches resume ⟨s, fs⟩ c) : ∀ n, Spec resume Good n c.state c.stack Q := by
  induction hrun with
  | refl => exact h
  | tail _ hstep ih =>
    cases hstep with
    | step rest hresume =>
      intro n
      exact (ih (n + 1)).2 _ _ hresume

variable {s' : σ}

theorem Spec.good {rest : List φ} (h : ∀ n, Spec resume Good n s fs Q)
    (hrun : Reaches resume ⟨s, fs⟩ ⟨s', f :: rest⟩) : Good s' f :=
  Spec.sound h hrun 0

theorem Spec.returns (h : ∀ n, Spec resume Good n s fs Q)
    (hrun : Reaches resume ⟨s, fs⟩ ⟨s', []⟩) : Q s' :=
  Spec.sound h hrun 0

end MuBasecore.CallStack
