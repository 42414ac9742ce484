import Mathlib

/-!
Notifications that may be interrupted by newer ones. Each object has a counter; a
notification counts it up, remembers the value, and goes on after a callback only if
the counter still has that value. The objects belong to keys. Under what condition a key
never sees an older notification after a newer one is shown for any such system.
-/

namespace MuBasecore.NestedNotify

open Function List Nat List

/-- What an update does not change of a value. -/
theorem apply_update_of_eq {α β : Type*} {f : Nat → α} {i : Nat} {v : α} (g : α → β)
    (h : g v = g (f i)) (x : Nat) : g (update f i v x) = g (f x) := by
  rcases eq_or_ne x i with rfl | hx
  · rw [update_self, h]
  · rw [update_of_ne hx]

variable {κ : Type*}

structure Frame (κ : Type*) where
  object : Nat
  key : κ
  event : Nat
  depth : Nat
  calling : Bool

/-- The counters, the running notifications (the innermost first), the number of the
next one, and the callbacks that were made so far (the latest first). -/
structure State (κ : Type*) where
  counter : Nat → Nat
  stack : List (Frame κ)
  nextEvent : Nat
  trace : List (κ × Nat)

def State.Active (s : State κ) (f : Frame κ) : Prop := s.counter f.object = f.depth

def State.QuietBut (s : State κ) (k : κ) (object : Nat) : Prop :=
  ∀ f ∈ s.stack, f.key = k → f.object ≠ object → ¬ s.Active f

def State.AtCall (s : State κ) : Prop := ∀ f ∈ s.stack.head?, f.calling = true

def State.enter (s : State κ) (object : Nat) (k : κ) : State κ where
  counter := Function.update s.counter object (s.counter object + 1)
  stack := ⟨object, k, s.nextEvent, s.counter object + 1, false⟩ :: s.stack
  nextEvent := s.nextEvent + 1
  trace := s.trace

def State.invoke (s : State κ) (f : Frame κ) (rest : List (Frame κ)) : State κ :=
  { s with
    stack := { f with calling := true } :: rest
    trace := (f.key, f.event) :: s.trace }

def State.resume (s : State κ) (f : Frame κ) (rest : List (Frame κ)) : State κ :=
  { s with stack := { f with calling := false } :: rest }

def State.leave (s : State κ) (f : Frame κ) (rest : List (Frame κ)) : State κ :=
  { s with
    counter := if f.depth = 1 then Function.update s.counter f.object 0 else s.counter
    stack := rest }

def State.clear (s : State κ) (object : Nat) : State κ :=
  { s with counter := Function.update s.counter object 0 }

def State.skip (s : State κ) : State κ := { s with nextEvent := s.nextEvent + 1 }

/-- Each key is notified of its events in their order. -/
def Ordered (trace : List (κ × Nat)) : Prop :=
  trace.Pairwise fun later earlier => later.1 = earlier.1 → earlier.2 ≤ later.2

instance [DecidableEq κ] (trace : List (κ × Nat)) : Decidable (Ordered trace) :=
  inferInstanceAs (Decidable (List.Pairwise _ _))

structure Inv (s : State κ) : Prop where
  nested : s.stack.Pairwise fun f g => f.object = g.object → g.depth < f.depth
  le_counter : ∀ f ∈ s.stack, f.depth ≤ s.counter f.object
  pos : ∀ f ∈ s.stack, 1 ≤ f.depth
  -- only the innermost notification of a key may be active
  single : s.stack.Pairwise fun f g => f.key = g.key → ¬ s.Active g
  running : ∀ f ∈ s.stack.head?, f.calling = false → s.Active f
  waiting : ∀ f ∈ s.stack.tail, f.calling = true
  event_lt : ∀ f ∈ s.stack, f.event < s.nextEvent
  trace_lt : ∀ t ∈ s.trace, t.2 < s.nextEvent
  newest : ∀ f ∈ s.stack, s.Active f → ∀ t ∈ s.trace, t.1 = f.key → t.2 ≤ f.event
  ordered : Ordered s.trace

variable {s : State κ} {f : Frame κ} {rest : List (Frame κ)} {calling : Bool}
  {object' nextEvent : Nat} {counter : Nat → Nat} {g : Frame κ} {trace : List (κ × Nat)}
  {object : Nat} {k : κ}

section Steps

variable (hinv : Inv s)
include hinv

theorem Inv.active_of_enter (hg : g ∈ s.stack) (hact : (s.enter object k).Active g) :
    g.object ≠ object ∧ s.Active g := by
  rw [State.Active, State.enter] at hact
  dsimp only at hact
  by_cases hobj : g.object = object
  · have hle := hinv.le_counter g hg
    rw [hobj] at hact hle
    rw [update_self] at hact
    omega
  · rw [update_of_ne hobj] at hact
    exact ⟨hobj, hact⟩

theorem Inv.enter (hcall : s.AtCall) (hqt : s.QuietBut k object) : Inv (s.enter object k) := by
  have hactive : ∀ g ∈ s.stack, (s.enter object k).Active g → g.object ≠ object ∧ s.Active g :=
    fun g hg hact => hinv.active_of_enter hg hact
  refine ⟨?_, ?_, ?_, ?_, ?_, ?_, ?_, ?_, ?_, hinv.ordered⟩
  · refine .cons (fun g hg hobj => ?_) hinv.nested
    have hle := hinv.le_counter g hg
    dsimp only at hobj ⊢
    rw [← hobj] at hle
    omega
  · intro g hg
    rcases mem_cons.1 hg with rfl | hg
    · change s.counter object + 1 ≤ update s.counter object _ object
      simp
    · have hle := hinv.le_counter g hg
      change g.depth ≤ update s.counter object _ g.object
      by_cases hobj : g.object = object
      · rw [hobj] at hle ⊢
        rw [update_self]
        omega
      · rwa [update_of_ne hobj]
  · intro g hg
    rcases mem_cons.1 hg with rfl | hg
    · exact succ_le_succ (Nat.zero_le _)
    · exact hinv.pos g hg
  · refine .cons (fun g hg hkey hact => ?_) (hinv.single.imp_of_mem ?_)
    · obtain ⟨hobj, hact⟩ := hactive g hg hact
      exact hqt g hg hkey.symm hobj hact
    · intro f g _ hg hold hkey hact
      exact hold hkey (hactive g hg hact).2
  · intro g hg _
    obtain ⟨⟩ := hg
    exact update_self _ _ _
  · intro g hg
    cases hstk : s.stack with
    | nil =>
      rw [State.enter, hstk] at hg
      cases hg
    | cons f rest =>
      rw [State.enter, hstk] at hg
      rcases mem_cons.1 hg with rfl | hg
      · exact hcall g (by rw [hstk]; rfl)
      · exact hinv.waiting g (by rw [hstk]; exact hg)
  · intro g hg
    rcases mem_cons.1 hg with rfl | hg
    · exact lt_succ_self _
    · exact lt_succ_of_lt (hinv.event_lt g hg)
  · intro t ht
    exact lt_succ_of_lt (hinv.trace_lt t ht)
  · intro g hg hact t ht hkey
    rcases mem_cons.1 hg with rfl | hg
    · exact Nat.le_of_lt (hinv.trace_lt t ht)
    · exact hinv.newest g hg (hactive g hg hact).2 t ht hkey

section

variable (hstk : s.stack = f :: rest)
include hstk

theorem Inv.setCalling (hactive : calling = false → s.Active f) :
    Inv { s with stack := { f with calling := calling } :: rest } := by
  have hf : f ∈ s.stack := hstk ▸ mem_cons_self
  have hmem : ∀ g ∈ rest, g ∈ s.stack := fun g hg => hstk ▸ mem_cons_of_mem _ hg
  have hnest := hinv.nested
  have hsingle := hinv.single
  rw [hstk] at hnest hsingle
  refine ⟨?_, ?_, ?_, ?_, ?_, ?_, ?_, hinv.trace_lt, ?_, hinv.ordered⟩
  · obtain ⟨hhead, htail⟩ := pairwise_cons.1 hnest
    exact .cons hhead htail
  · intro g hg
    rcases mem_cons.1 hg with rfl | hg
    · exact hinv.le_counter f hf
    · exact hinv.le_counter g (hmem g hg)
  · intro g hg
    rcases mem_cons.1 hg with rfl | hg
    · exact hinv.pos f hf
    · exact hinv.pos g (hmem g hg)
  · obtain ⟨hhead, htail⟩ := pairwise_cons.1 hsingle
    exact .cons hhead htail
  · intro g hg hnot
    obtain ⟨⟩ := hg
    exact hactive hnot
  · intro g hg
    exact hinv.waiting g (by rw [hstk]; exact hg)
  · intro g hg
    rcases mem_cons.1 hg with rfl | hg
    · exact hinv.event_lt f hf
    · exact hinv.event_lt g (hmem g hg)
  · intro g hg hact t ht hkey
    rcases mem_cons.1 hg with rfl | hg
    · exact hinv.newest f hf hact t ht hkey
    · exact hinv.newest g (hmem g hg) hact t ht hkey

theorem Inv.record (hactive : s.Active f) :
    Inv { s with trace := (f.key, f.event) :: s.trace } := by
  have hf : f ∈ s.stack := hstk ▸ mem_cons_self
  have hsingle := hinv.single
  rw [hstk] at hsingle
  refine ⟨hinv.nested, hinv.le_counter, hinv.pos, hinv.single, hinv.running, hinv.waiting,
    hinv.event_lt, ?_, ?_, ?_⟩
  · intro t ht
    rcases mem_cons.1 ht with rfl | ht
    · exact hinv.event_lt f hf
    · exact hinv.trace_lt t ht
  · intro g hg hact t ht hkey
    rcases mem_cons.1 ht with rfl | ht
    · have hg' : g ∈ f :: rest := hstk ▸ hg
      rcases mem_cons.1 hg' with rfl | hg'
      · exact Nat.le_refl _
      · exact absurd hact ((pairwise_cons.1 hsingle).1 g hg' hkey)
    · exact hinv.newest g hg hact t ht hkey
  · exact .cons (fun t ht hkey => hinv.newest f hf hactive t ht hkey.symm) hinv.ordered

theorem Inv.invoke (hcalls : f.calling = false) : Inv (s.invoke f rest) := by
  have hactive : s.Active f := hinv.running f (by rw [hstk]; rfl) hcalls
  have hrec := hinv.record hstk hactive
  exact hrec.setCalling hstk fun h => nomatch h

theorem Inv.resume (hactive : s.Active f) : Inv (s.resume f rest) :=
  hinv.setCalling hstk fun _ => hactive

theorem Inv.leave_counter
    (hg : g ∈ rest) : (s.leave f rest).counter g.object = s.counter g.object := by
  rw [State.leave]
  split
  case isTrue hone =>
    have hnest := hinv.nested
    rw [hstk] at hnest
    have hne : g.object ≠ f.object := by
      intro hobj
      have hlt := (pairwise_cons.1 hnest).1 g hg hobj.symm
      have hpos := hinv.pos g (hstk ▸ mem_cons_of_mem _ hg)
      omega
    exact update_of_ne hne _ _
  case isFalse => rfl

theorem Inv.leave : Inv (s.leave f rest) := by
  have hmem : ∀ g ∈ rest, g ∈ s.stack := fun g hg => hstk ▸ mem_cons_of_mem _ hg
  have hcounter : ∀ g ∈ rest, (s.leave f rest).counter g.object = s.counter g.object :=
    fun g hg => hinv.leave_counter hstk hg
  have hactive : ∀ g ∈ rest, (s.leave f rest).Active g → s.Active g := by
    intro g hg hact
    rw [State.Active, hcounter g hg] at hact
    exact hact
  have hnest := hinv.nested
  have hsingle := hinv.single
  rw [hstk] at hnest hsingle
  refine ⟨(pairwise_cons.1 hnest).2, ?_, fun g hg => hinv.pos g (hmem g hg), ?_, ?_, ?_,
    fun g hg => hinv.event_lt g (hmem g hg), hinv.trace_lt, ?_, hinv.ordered⟩
  · intro g hg
    rw [hcounter g hg]
    exact hinv.le_counter g (hmem g hg)
  · apply (pairwise_cons.1 hsingle).2.imp_of_mem
    intro g g' _ hg' hold hkey hact
    exact hold hkey (hactive g' hg' hact)
  · -- the notification below waits for a callback
    intro g hg hnot
    have hwait := hinv.waiting g (by rw [hstk]; exact mem_of_mem_head? hg)
    rw [hwait] at hnot
    cases hnot
  · intro g hg
    exact hinv.waiting g (by rw [hstk]; exact mem_of_mem_tail hg)
  · intro g hg hact t ht hkey
    exact hinv.newest g (hmem g hg) (hactive g hg hact) t ht hkey

end

theorem Inv.clear (hnew : ∀ f ∈ s.stack, f.object ≠ object) :
    Inv (s.clear object) := by
  have hcounter : ∀ g ∈ s.stack, (s.clear object).counter g.object = s.counter g.object :=
    fun g hg => update_of_ne (hnew g hg) _ _
  have hactive : ∀ g ∈ s.stack, (s.clear object).Active g ↔ s.Active g := by
    intro g hg
    rw [State.Active, State.Active, hcounter g hg]
  refine ⟨hinv.nested, ?_, hinv.pos, ?_, ?_, hinv.waiting, hinv.event_lt, hinv.trace_lt, ?_,
    hinv.ordered⟩
  · intro g hg
    rw [hcounter g hg]
    exact hinv.le_counter g hg
  · apply hinv.single.imp_of_mem
    intro g g' _ hg' hold hkey hact
    exact hold hkey ((hactive g' hg').1 hact)
  · intro g hg hnot
    exact (hactive g (mem_of_mem_head? hg)).2 (hinv.running g hg hnot)
  · intro g hg hact t ht hkey
    exact hinv.newest g hg ((hactive g hg).1 hact) t ht hkey

theorem Inv.skip : Inv s.skip :=
  ⟨hinv.nested, hinv.le_counter, hinv.pos, hinv.single, hinv.running, hinv.waiting,
    fun f hf => lt_succ_of_lt (hinv.event_lt f hf),
    fun t ht => lt_succ_of_lt (hinv.trace_lt t ht), hinv.newest, hinv.ordered⟩

end Steps

section

variable (hqt : s.QuietBut k object)
include hqt

theorem State.QuietBut.enter (hinv : Inv s)
    {k' : κ} (hsame : k' = k → object' = object) : (s.enter object' k').QuietBut k object := by
  intro g hg hkey hobj hact
  rcases mem_cons.1 hg with rfl | hg
  · exact hobj (hsame hkey)
  · exact hqt g hg hkey hobj (hinv.active_of_enter hg hact).2

theorem State.QuietBut.setCalling (hstk : s.stack = f :: rest) :
    State.QuietBut { s with stack := { f with calling := calling } :: rest, trace := trace }
      k object := by
  intro g hg hkey hobj hact
  rcases mem_cons.1 hg with rfl | hg
  · exact hqt f (hstk ▸ mem_cons_self) hkey hobj hact
  · exact hqt g (hstk ▸ mem_cons_of_mem _ hg) hkey hobj hact

theorem State.QuietBut.leave (hinv : Inv s)
    (hstk : s.stack = f :: rest) : (s.leave f rest).QuietBut k object := by
  intro g hg hkey hobj hact
  rw [State.Active, hinv.leave_counter hstk hg] at hact
  exact hqt g (hstk ▸ mem_cons_of_mem _ hg) hkey hobj hact

theorem State.QuietBut.clear
    (hnew : ∀ f ∈ s.stack, f.object ≠ object') : (s.clear object').QuietBut k object := by
  intro g hg hkey hobj hact
  rw [State.Active, State.clear] at hact
  dsimp only at hact
  rw [update_of_ne (hnew g hg)] at hact
  exact hqt g hg hkey hobj hact

end

theorem inv_start :
    Inv (⟨counter, [], nextEvent, []⟩ : State κ) where
  nested := .nil
  le_counter f hf := by cases hf
  pos f hf := by cases hf
  single := .nil
  running f hf := by cases hf
  waiting f hf := by cases hf
  event_lt f hf := by cases hf
  trace_lt t ht := by cases ht
  newest f hf := by cases hf
  ordered := .nil

structure Objects (κ : Type*) where
  keyOf : Nat → κ
  next : Nat
  listed : List Nat

structure Registered (o : Objects κ) (s : State κ) : Prop where
  inv : Inv s
  frame_lt : ∀ f ∈ s.stack, f.object < o.next
  listed_lt : ∀ e ∈ o.listed, e < o.next
  unique : ∀ e ∈ o.listed, ∀ e' ∈ o.listed, o.keyOf e = o.keyOf e' → e = e'
  quiet : ∀ e ∈ o.listed, s.QuietBut (o.keyOf e) e

section Registered

variable {o : Objects κ}

theorem registered_start (hlt : ∀ e ∈ o.listed, e < o.next)
    (huniq : ∀ e ∈ o.listed, ∀ e' ∈ o.listed, o.keyOf e = o.keyOf e' → e = e') :
    Registered o (⟨counter, [], nextEvent, []⟩ : State κ) where
  inv := inv_start
  frame_lt f hf := by cases hf
  listed_lt := hlt
  unique := huniq
  quiet e _ f hf := by cases hf

section Actions

variable (hreg : Registered o s)
include hreg

section

variable (hstk : s.stack = f :: rest)
include hstk

theorem Registered.leave :
    Registered o (s.leave f rest) where
  inv := hreg.inv.leave hstk
  frame_lt g hg := hreg.frame_lt g (hstk ▸ mem_cons_of_mem _ hg)
  listed_lt := hreg.listed_lt
  unique := hreg.unique
  quiet e he := (hreg.quiet e he).leave hreg.inv hstk

theorem Registered.setTop
    (hinv : Inv { s with stack := { f with calling := calling } :: rest, trace := trace }) :
    Registered o { s with stack := { f with calling := calling } :: rest, trace := trace } where
  inv := hinv
  frame_lt g hg := by
    rcases mem_cons.1 hg with rfl | hg
    · exact hreg.frame_lt f (hstk ▸ mem_cons_self)
    · exact hreg.frame_lt g (hstk ▸ mem_cons_of_mem _ hg)
  listed_lt := hreg.listed_lt
  unique := hreg.unique
  quiet e he := (hreg.quiet e he).setCalling hstk

theorem Registered.invoke (hcalls : f.calling = false) : Registered o (s.invoke f rest) :=
  hreg.setTop hstk (hreg.inv.invoke hstk hcalls)

theorem Registered.resume (hactive : s.Active f) : Registered o (s.resume f rest) :=
  hreg.setTop hstk (hreg.inv.resume hstk hactive)

end

theorem Registered.skip : Registered o s.skip :=
  ⟨hreg.inv.skip, hreg.frame_lt, hreg.listed_lt, hreg.unique, hreg.quiet⟩

theorem Registered.enter (hcall : s.AtCall) {e : Nat} (he : e < o.next)
    (hqt : s.QuietBut (o.keyOf e) e)
    (honly : ∀ x ∈ o.listed, o.keyOf x = o.keyOf e → x = e) :
    Registered o (s.enter e (o.keyOf e)) where
  inv := hreg.inv.enter hcall hqt
  frame_lt g hg := by
    rcases mem_cons.1 hg with rfl | hg
    · exact he
    · exact hreg.frame_lt g hg
  listed_lt := hreg.listed_lt
  unique := hreg.unique
  quiet x hx := (hreg.quiet x hx).enter hreg.inv fun hkey => (honly x hx hkey.symm).symm

theorem Registered.unlist {listed : List Nat} (hsub : listed ⊆ o.listed) :
    Registered { o with listed := listed } s where
  inv := hreg.inv
  frame_lt := hreg.frame_lt
  listed_lt e he := hreg.listed_lt e (hsub he)
  unique e he e' he' := hreg.unique e (hsub he) e' (hsub he')
  quiet e he := hreg.quiet e (hsub he)

end Actions

def Objects.create (o : Objects κ) (k : κ) : Objects κ where
  keyOf := Function.update o.keyOf o.next k
  next := o.next + 1
  listed := o.listed ++ [o.next]

theorem Registered.create (hreg : Registered o s) (hnew : ∀ e ∈ o.listed, o.keyOf e ≠ k)
    (hqt : ∀ f ∈ s.stack, f.key = k → ¬ s.Active f) :
    Registered (o.create k) (s.clear o.next) := by
  have hfresh : ∀ f ∈ s.stack, f.object ≠ o.next := fun f hf => Nat.ne_of_lt (hreg.frame_lt f hf)
  have hold : ∀ e ∈ o.listed, update o.keyOf o.next k e = o.keyOf e := fun e he =>
    update_of_ne (Nat.ne_of_lt (hreg.listed_lt e he)) _ _
  refine ⟨hreg.inv.clear hfresh, ?_, ?_, ?_, ?_⟩
  · intro f hf
    exact lt_succ_of_lt (hreg.frame_lt f hf)
  · intro e he
    rcases mem_append.1 he with he | he
    · exact lt_succ_of_lt (hreg.listed_lt e he)
    · rw [mem_singleton.1 he]
      exact lt_succ_self _
  · intro e he e' he' heq
    change update o.keyOf o.next k e = update o.keyOf o.next k e' at heq
    rcases mem_append.1 he with he | he
    · rw [hold e he] at heq
      rcases mem_append.1 he' with he' | he'
      · rw [hold e' he'] at heq
        exact hreg.unique e he e' he' heq
      · rw [mem_singleton.1 he', update_self] at heq
        exact absurd heq (hnew e he)
    · rw [mem_singleton.1 he] at heq ⊢
      rw [update_self] at heq
      rcases mem_append.1 he' with he' | he'
      · rw [hold e' he'] at heq
        exact absurd heq.symm (hnew e' he')
      · exact (mem_singleton.1 he').symm
  · intro e he
    change (s.clear o.next).QuietBut (update o.keyOf o.next k e) e
    rcases mem_append.1 he with he | he
    · rw [hold e he]
      exact (hreg.quiet e he).clear hfresh
    · rw [mem_singleton.1 he, update_self]
      refine State.QuietBut.clear ?_ hfresh
      exact fun g hg hkey _ => hqt g hg hkey

end Registered

end MuBasecore.NestedNotify
