import Mathlib

/-!
Tables of tables. A key is looked up level by level: `index n` picks the entry of
a table whose entries are tables of height `n`.
-/

namespace MuBasecore.RadixTable

open Function

universe u v

inductive Table (α : Type u) : Nat → Type u
  | null {n : Nat} : Table α n
  | leaf (a : α) : Table α 0
  | node {n : Nat} (entries : Nat → Table α n) : Table α (n + 1)

variable {α : Type u} {κ : Type v}

def Table.isNull {n : Nat} : Table α n → Bool
  | .null => true
  | _ => false

/-- The leaf of a table of height zero; a new one is `empty`. -/
def Table.content (empty : α) : Table α 0 → α
  | .null => empty
  | .leaf a => a

def Table.entries {n : Nat} : Table α (n + 1) → Nat → Table α n
  | .null => fun _ => .null
  | .node entries => entries

def Table.raise {n : Nat} (t : Table α n) : Table α (n + 1) :=
  .node (Function.update (fun _ => .null) 0 t)

variable (index : Nat → κ → Nat)

def Table.get? (key : κ) : {n : Nat} → Table α n → Option α
  | _, .null => none
  | _, .leaf a => some a
  | n + 1, .node entries => get? key (entries (index n key))

def Table.update (empty : α) (f : α → α) (key : κ) : (n : Nat) → Table α n → Table α n
  | 0, t => .leaf (f (t.content empty))
  | n + 1, t =>
    .node (Function.update t.entries (index n key)
      (update empty f key n (t.entries (index n key))))

def SamePath (n : Nat) (key key' : κ) : Prop :=
  ∀ i < n, index i key = index i key'

variable {index} {n : Nat} {key' : κ} {key : κ}

theorem samePath_succ :
    SamePath index (n + 1) key key' ↔ SamePath index n key key' ∧ index n key = index n key' := by
  constructor
  · intro h
    exact ⟨fun i hi => h i (Nat.lt_succ_of_lt hi), h n (Nat.lt_succ_self n)⟩
  · rintro ⟨h, hn⟩ i hi
    rcases Nat.lt_succ_iff_lt_or_eq.1 hi with hi | rfl
    · exact h i hi
    · exact hn

theorem get?_entries (key : κ) (t : Table α (n + 1)) :
    (t.entries (index n key)).get? index key = t.get? index key := by
  cases t with
  | null => rfl
  | node entries => rfl

theorem get?_congr (h : SamePath index n key key') (t : Table α n) :
    t.get? index key = t.get? index key' := by
  induction n with
  | zero => cases t <;> rfl
  | succ n ih =>
    obtain ⟨hlow, htop⟩ := samePath_succ.1 h
    rw [← get?_entries, ← get?_entries, htop]
    exact ih hlow _

theorem get?_update_self (empty : α) (f : α → α) (key : κ) (t : Table α n) :
    (t.update index empty f key).get? index key = some (f ((t.get? index key).getD empty)) := by
  induction n with
  | zero => cases t <;> rfl
  | succ n ih =>
    rw [← get?_entries, ← get?_entries]
    change (update t.entries (index n key) _ (index n key)).get? index key = _
    rw [update_self]
    exact ih _

theorem get?_update_of_not_samePath (empty : α) (f : α → α)
    (h : ¬ SamePath index n key key') (t : Table α n) :
    (t.update index empty f key).get? index key' = t.get? index key' := by
  induction n with
  | zero => exact absurd (fun i hi => absurd hi (Nat.not_lt_zero i)) h
  | succ n ih =>
    rw [← get?_entries, ← get?_entries]
    change (update t.entries (index n key) _ (index n key')).get? index key' = _
    rcases eq_or_ne (index n key') (index n key) with heq | hne
    · rw [heq, update_self]
      exact ih (fun hlow => h (samePath_succ.2 ⟨hlow, heq.symm⟩)) _
    · rw [update_of_ne hne]

theorem get?_update [Decidable (SamePath index n key key')] (empty : α)
    (f : α → α) (t : Table α n) :
    (t.update index empty f key).get? index key' =
      if SamePath index n key key' then some (f ((t.get? index key').getD empty))
      else t.get? index key' := by
  split
  next h =>
    rw [← get?_congr h, ← get?_congr h]
    exact get?_update_self empty f key t
  next h =>
    exact get?_update_of_not_samePath empty f h t

theorem get?_raise (key : κ) (t : Table α n) :
    t.raise.get? index key = if index n key = 0 then t.get? index key else none := by
  change (update (fun _ => Table.null) 0 t (index n key)).get? index key = _
  split
  next h =>
    rw [h, update_self]
  next h =>
    rw [update_of_ne h]
    rfl

end MuBasecore.RadixTable
