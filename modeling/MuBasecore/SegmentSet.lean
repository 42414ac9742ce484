import Mathlib

/-!
Collections of labelled segments of natural numbers, kept in lists whose order
does not matter. A segment can be added, in which case it takes over its
neighbours with the same label, and a part of a segment can be cut out.
-/

namespace MuBasecore.SegmentSet

open List

variable {n : Nat}

/-- The numbers from `first` up to and including `last`, with a label. -/
structure Segment (κ : Type*) where
  first : Nat
  last : Nat
  label : κ
  deriving DecidableEq, Repr

variable {κ : Type*}

def Segment.Has (s : Segment κ) (n : Nat) : Prop :=
  s.first ≤ n ∧ n ≤ s.last

/-- The segment is made of units below the bound. -/
structure Segment.Fits (unit bound : Nat) (s : Segment κ) : Prop where
  le : s.first ≤ s.last
  first_dvd : unit ∣ s.first
  last_dvd : unit ∣ s.last + 1
  lt : s.last < bound

def Segment.Apart (a b : Segment κ) : Prop :=
  a.last < b.first ∨ b.last < a.first

def Segment.Unmergeable (a b : Segment κ) : Prop :=
  a.label = b.label → a.last + 1 ≠ b.first ∧ b.last + 1 ≠ a.first

variable {a b : Segment κ}

theorem Segment.Apart.symm (h : a.Apart b) : b.Apart a :=
  Or.symm h

instance : Std.Symm (Segment.Apart (κ := κ)) :=
  ⟨fun _ _ => Segment.Apart.symm⟩

theorem Segment.Unmergeable.symm (h : a.Unmergeable b) : b.Unmergeable a :=
  fun hlab => And.symm (h hlab.symm)

instance : Std.Symm (Segment.Unmergeable (κ := κ)) :=
  ⟨fun _ _ => Segment.Unmergeable.symm⟩

def Holds (l : List (Segment κ)) (n : Nat) (k : κ) : Prop :=
  ∃ s ∈ l, s.Has n ∧ s.label = k

def Covers (l : List (Segment κ)) (n : Nat) : Prop :=
  ∃ s ∈ l, s.Has n

structure Laid (l : List (Segment κ)) : Prop where
  apart : l.Pairwise Segment.Apart
  unmergeable : l.Pairwise Segment.Unmergeable

variable {l : List (Segment κ)}

theorem covers_iff_holds : Covers l n ↔ ∃ k, Holds l n k := by
  constructor
  · rintro ⟨s, hs, hn⟩
    exact ⟨s.label, s, hs, hn, rfl⟩
  · rintro ⟨k, s, hs, hn, -⟩
    exact ⟨s, hs, hn⟩

variable {l' : List (Segment κ)}

theorem covers_append :
    Covers (l ++ l') n ↔ Covers l n ∨ Covers l' n := by
  simp only [Covers, mem_append, or_and_right, exists_or]

variable {k : κ}

theorem holds_append :
    Holds (l ++ l') n k ↔ Holds l n k ∨ Holds l' n k := by
  simp only [Holds, mem_append, or_and_right, exists_or]

variable {s : Segment κ}

theorem holds_cons :
    Holds (s :: l) n k ↔ s.Has n ∧ s.label = k ∨ Holds l n k := by
  simp [Holds]

theorem covers_cons :
    Covers (s :: l) n ↔ s.Has n ∨ Covers l n := by
  simp [Covers]

theorem holds_perm (h : l.Perm l') :
    Holds l n k ↔ Holds l' n k := by
  simp only [Holds, h.mem_iff]

theorem covers_perm (h : l.Perm l') : Covers l n ↔ Covers l' n := by
  simp only [Covers, h.mem_iff]

theorem apart_perm (h : l.Perm l') :
    l.Pairwise Segment.Apart ↔ l'.Pairwise Segment.Apart :=
  h.pairwise_iff Segment.Apart.symm

theorem laid_perm (h : l.Perm l') : Laid l ↔ Laid l' := by
  have hunmerge := h.pairwise_iff (R := Segment.Unmergeable) Segment.Unmergeable.symm
  constructor
  · intro hl
    exact ⟨(apart_perm h).1 hl.apart, hunmerge.1 hl.unmergeable⟩
  · intro hl
    exact ⟨(apart_perm h).2 hl.apart, hunmerge.2 hl.unmergeable⟩

theorem laid_sublist (h : l.Sublist l') (hl : Laid l') : Laid l :=
  ⟨hl.apart.sublist h, hl.unmergeable.sublist h⟩

theorem laid_cons :
    Laid (s :: l) ↔ (∀ d ∈ l, s.Apart d ∧ s.Unmergeable d) ∧ Laid l := by
  constructor
  · intro h
    obtain ⟨hap, hrest⟩ := pairwise_cons.1 h.apart
    obtain ⟨hunmerge, hrest'⟩ := pairwise_cons.1 h.unmergeable
    exact ⟨fun d hd => ⟨hap d hd, hunmerge d hd⟩, hrest, hrest'⟩
  · rintro ⟨hs, hl⟩
    exact ⟨pairwise_cons.2 ⟨fun d hd => (hs d hd).1, hl.apart⟩,
      pairwise_cons.2 ⟨fun d hd => (hs d hd).2, hl.unmergeable⟩⟩

theorem apart_iff_not_has (ha : a.first ≤ a.last) (hb : b.first ≤ b.last) :
    a.Apart b ↔ ∀ n, a.Has n → ¬ b.Has n := by
  unfold Segment.Apart Segment.Has
  constructor
  · intro h n
    omega
  · intro h
    have hlow := h a.first ⟨Nat.le_refl _, ha⟩
    have hhigh := h b.first
    omega

variable {k' : κ} {new : Segment κ}

/-- Neighbours with one label would be one segment, so a run of addresses with one label lies
in one segment. -/
theorem Laid.within (h : Laid l) {m : Nat} (hle : m ≤ n)
    (hall : ∀ i, m ≤ i → i ≤ n → Holds l i k) :
    ∃ s ∈ l, s.label = k ∧ s.first ≤ m ∧ n ≤ s.last := by
  obtain ⟨s, hs, hm, hlabel⟩ := hall m le_rfl hle
  refine ⟨s, hs, hlabel, hm.1, ?_⟩
  by_contra hlast
  have hm := hm.2
  obtain ⟨d, hd, hnext, hlabel'⟩ := hall (s.last + 1) (by omega) (by omega)
  have hne : s ≠ d := by
    rintro rfl
    have := hnext.2
    omega
  have hapart := h.apart.forall hs hd hne
  have hunmerge := h.unmergeable.forall hs hd hne (hlabel.trans hlabel'.symm)
  simp only [Segment.Apart, Segment.Has] at *
  omega

theorem holds_unique (h : l.Pairwise Segment.Apart)
    (hk : Holds l n k) (hk' : Holds l n k') : k = k' := by
  induction l with
  | nil => simp [Holds] at hk
  | cons s l ih =>
    obtain ⟨hs, hl⟩ := pairwise_cons.1 h
    have hdisj : s.Has n → ∀ k, ¬ Holds l n k := by
      rintro hn k ⟨d, hd, hdn, -⟩
      have := hs d hd
      unfold Segment.Apart Segment.Has at *
      omega
    rcases holds_cons.1 hk with ⟨hn, hlab⟩ | hrest <;>
      rcases holds_cons.1 hk' with ⟨hn', hlab'⟩ | hrest'
    · exact hlab.symm.trans hlab'
    · exact absurd hrest' (hdisj hn k')
    · exact absurd hrest (hdisj hn' k)
    · exact ih hl hrest hrest'

variable {bound unit : Nat}

section Absorb

variable [DecidableEq κ]

/-- The new segment takes over the neighbours with its label, one after the
other; the result is the grown segment and the segments that are left. -/
def absorb (new : Segment κ) : List (Segment κ) → Segment κ × List (Segment κ)
  | [] => (new, [])
  | s :: l =>
    if s.label = new.label ∧ s.last + 1 = new.first then
      absorb { new with first := s.first } l
    else if s.label = new.label ∧ s.first = new.last + 1 then
      absorb { new with last := s.last } l
    else
      let rest := absorb new l
      (rest.1, s :: rest.2)

theorem absorb_cons_cases (new s : Segment κ) (l : List (Segment κ)) :
    (s.label = new.label ∧ s.last + 1 = new.first ∧
        absorb new (s :: l) = absorb { new with first := s.first } l) ∨
      (s.label = new.label ∧ s.first = new.last + 1 ∧
        absorb new (s :: l) = absorb { new with last := s.last } l) ∨
      (new.Unmergeable s ∧ absorb new (s :: l) = ((absorb new l).1, s :: (absorb new l).2)) := by
  rw [absorb]
  split
  next h =>
    exact .inl ⟨h.1, h.2, rfl⟩
  split
  next h =>
    exact .inr (.inl ⟨h.1, h.2, rfl⟩)
  next hbel habv =>
    refine .inr (.inr ⟨?_, rfl⟩)
    intro hlab
    exact ⟨fun h => habv ⟨hlab.symm, h.symm⟩, fun h => hbel ⟨hlab.symm, h⟩⟩

theorem absorb_sublist (new : Segment κ) (l : List (Segment κ)) : (absorb new l).2.Sublist l := by
  induction l generalizing new with
  | nil => exact List.Sublist.refl []
  | cons s l ih =>
    rcases absorb_cons_cases new s l with ⟨-, -, heq⟩ | ⟨-, -, heq⟩ | ⟨-, heq⟩
    · rw [heq]
      exact (ih _).cons s
    · rw [heq]
      exact (ih _).cons s
    · rw [heq]
      exact (ih new).cons_cons s

theorem absorb_fits (hnew : new.Fits unit bound) (hl : ∀ s ∈ l, s.Fits unit bound) :
    (absorb new l).1.Fits unit bound := by
  induction l generalizing new with
  | nil => exact hnew
  | cons s l ih =>
    have hs := hl s (by simp)
    have hrest : ∀ d ∈ l, d.Fits unit bound := fun d hd => hl d (by simp [hd])
    rcases absorb_cons_cases new s l with ⟨-, hlast, heq⟩ | ⟨-, hfst, heq⟩ | ⟨-, heq⟩
    · rw [heq]
      refine ih ⟨?_, hs.first_dvd, hnew.last_dvd, hnew.lt⟩ hrest
      have := hs.le
      have := hnew.le
      simp only
      omega
    · rw [heq]
      refine ih ⟨?_, hnew.first_dvd, hs.last_dvd, hs.lt⟩ hrest
      have := hs.le
      have := hnew.le
      simp only
      omega
    · rw [heq]
      exact ih hnew hrest

theorem absorb_holds (hnew : new.first ≤ new.last) (hl : ∀ s ∈ l, s.first ≤ s.last) :
    Holds ((absorb new l).1 :: (absorb new l).2) n k ↔ Holds (new :: l) n k := by
  induction l generalizing new with
  | nil => rfl
  | cons s l ih =>
    have hs := hl s (by simp)
    have hrest : ∀ d ∈ l, d.first ≤ d.last := fun d hd => hl d (by simp [hd])
    rcases absorb_cons_cases new s l with
      ⟨hlab, hmeet, heq⟩ | ⟨hlab, hmeet, heq⟩ | ⟨-, heq⟩
    case inr.inr =>
      rw [heq]
      have := ih hnew hrest
      simp only [holds_cons] at this ⊢
      tauto
    all_goals
      rw [heq, ih (by simp only; omega) hrest]
      simp only [holds_cons, hlab, Segment.Has]
      rw [← or_assoc, ← or_and_right]
      apply or_congr_left
      apply and_congr_left'
      omega

/-- The grown segment overlaps none of the segments that are left and could be
merged with none of them. The segments of `seen` are those the walk has passed. -/
theorem absorb_spec (seen : List (Segment κ))
    (hnew : new.first ≤ new.last) (hprop : ∀ d ∈ seen ++ l, d.first ≤ d.last)
    (hap : ∀ d ∈ seen ++ l, new.Apart d) (hlaid : Laid (seen ++ l))
    (hseen : ∀ d ∈ seen, new.Unmergeable d) :
    ∀ d ∈ seen ++ (absorb new l).2, (absorb new l).1.Apart d ∧ (absorb new l).1.Unmergeable d := by
  induction l generalizing new seen with
  | nil =>
    intro d hd
    rw [absorb, append_nil] at hd
    exact ⟨hap d (by simpa using hd), hseen d hd⟩
  | cons s l ih =>
    have hmid : (seen ++ s :: l).Perm (s :: (seen ++ l)) := perm_middle
    obtain ⟨hs, hrest⟩ := laid_cons.1 ((laid_perm hmid).1 hlaid)
    have hmem : ∀ d ∈ seen ++ l, d ∈ seen ++ s :: l := fun d hd =>
      hmid.mem_iff.2 (mem_cons_of_mem s hd)
    have hsProper : s.first ≤ s.last := hprop s (by simp)
    rcases absorb_cons_cases new s l with
      ⟨hlab, hmeet, heq⟩ | ⟨hlab, hmeet, heq⟩ | ⟨hunmerge, heq⟩
    case inr.inr =>
      rw [heq]
      have hcons : seen ++ s :: l = seen ++ [s] ++ l := by simp
      have := ih (seen ++ [s]) hnew (hcons ▸ hprop) (hcons ▸ hap) (hcons ▸ hlaid)
        (fun d hd => by
          rcases mem_append.1 hd with hd | hd
          · exact hseen d hd
          · rw [mem_singleton.1 hd]
            exact hunmerge)
      simpa using this
    -- grown upwards or downwards, the segment ends on one side as `s` does
    all_goals
      rw [heq]
      apply ih seen (by simp only; omega) (fun d hd => hprop d (hmem d hd)) _ hrest
      · intro d hd hdlabel
        have hds := (hs d (by simp [hd])).2 (hlab.trans hdlabel)
        have hdnew := hseen d hd hdlabel
        first
        | exact ⟨hdnew.1, hds.2⟩
        | exact ⟨hds.1, hdnew.2⟩
      · intro d hd
        have hdApart := hap d (hmem d hd)
        have hds := (hs d hd).1
        have hdProper := hprop d (hmem d hd)
        simp only [Segment.Apart] at *
        omega

theorem absorb_laid (hnew : new.first ≤ new.last)
    (hprop : ∀ d ∈ l, d.first ≤ d.last) (hap : ∀ d ∈ l, new.Apart d) (hlaid : Laid l) :
    Laid ((absorb new l).1 :: (absorb new l).2) :=
  laid_cons.2 ⟨absorb_spec [] hnew hprop hap hlaid (by simp),
    laid_sublist (absorb_sublist new l) hlaid⟩

end Absorb

section Cut

/-- What is left of a segment once the numbers from `a` to `b` are cut out. -/
def cut (s : Segment κ) (a b : Nat) : List (Segment κ) :=
  (if s.first < a then [{ s with last := a - 1 }] else []) ++
    (if b < s.last then [{ s with first := b + 1 }] else [])

variable {a b : Nat}

theorem mem_cut {d : Segment κ} :
    d ∈ cut s a b ↔ s.first < a ∧ d = { s with last := a - 1 } ∨
      b < s.last ∧ d = { s with first := b + 1 } := by
  simp [cut]

theorem cut_holds (ha : s.first ≤ a) (hab : a ≤ b) (hb : b ≤ s.last) :
    Holds (cut s a b) n k ↔ (s.Has n ∧ s.label = k) ∧ ¬ (a ≤ n ∧ n ≤ b) := by
  constructor
  · rintro ⟨d, hd, hn, rfl⟩
    rcases mem_cut.1 hd with ⟨hlt, rfl⟩ | ⟨hlt, rfl⟩
    · simp only [Segment.Has] at hn
      exact ⟨⟨⟨hn.1, by omega⟩, rfl⟩, by omega⟩
    · simp only [Segment.Has] at hn
      exact ⟨⟨⟨by omega, hn.2⟩, rfl⟩, by omega⟩
  · rintro ⟨⟨hn, rfl⟩, hout⟩
    simp only [Segment.Has] at hn
    by_cases hlow : n < a
    · exact ⟨_, mem_cut.2 (.inl ⟨by omega, rfl⟩), ⟨hn.1, by simp only; omega⟩, rfl⟩
    · exact ⟨_, mem_cut.2 (.inr ⟨by omega, rfl⟩), ⟨by simp only; omega, hn.2⟩, rfl⟩

theorem cut_fits (hs : s.Fits unit bound) (hab : a ≤ b) (hb : b ≤ s.last)
    (haDvd : unit ∣ a) (hbDvd : unit ∣ b + 1) :
    ∀ d ∈ cut s a b, d.Fits unit bound := by
  intro d hd
  have hlt := hs.lt
  rcases mem_cut.1 hd with ⟨hfst, rfl⟩ | ⟨hlast, rfl⟩
  · refine ⟨by simp only; omega, hs.first_dvd, ?_, by simp only; omega⟩
    rwa [Nat.sub_add_cancel (by omega)]
  · exact ⟨by simp only; omega, hbDvd, hs.last_dvd, hlt⟩

theorem cut_apart (k : κ) : ∀ d ∈ cut s a b, (Segment.mk a b k).Apart d := by
  intro d hd
  rcases mem_cut.1 hd with ⟨hlt, rfl⟩ | ⟨hlt, rfl⟩
  · exact .inr (by simp only; omega)
  · exact .inl (by simp only; omega)

theorem cut_proper : ∀ d ∈ cut s a b, d.first ≤ d.last := by
  intro d hd
  rcases mem_cut.1 hd with ⟨hlt, rfl⟩ | ⟨hlt, rfl⟩
  · simp only
    omega
  · simp only
    omega

theorem cut_laid (ha : s.first ≤ a) (hab : a ≤ b) (hb : b ≤ s.last)
    (hprop : ∀ d ∈ l, d.first ≤ d.last) (hlaid : Laid (s :: l)) :
    Laid (cut s a b ++ l) := by
  obtain ⟨hs, hl⟩ := laid_cons.1 hlaid
  have hpiece : ∀ d ∈ cut s a b, ∀ x ∈ l, d.Apart x ∧ d.Unmergeable x := by
    intro d hd x hx
    obtain ⟨hap, hunmerge⟩ := hs x hx
    have hx' := hprop x hx
    simp only [Segment.Apart, Segment.Unmergeable] at *
    rcases mem_cut.1 hd with ⟨hlt, rfl⟩ | ⟨hlt, rfl⟩
    all_goals
      refine ⟨by simp only; omega, ?_⟩
      intro hlab
      have := hunmerge hlab
      simp only
      omega
  have hpts : Laid (cut s a b) := by
    unfold cut
    split <;> split
    · refine laid_cons.2 ⟨?_, ⟨pairwise_singleton _ _, pairwise_singleton _ _⟩⟩
      intro d hd
      rw [mem_singleton.1 hd]
      refine ⟨.inl (by simp only; omega), ?_⟩
      intro _
      simp only
      omega
    · exact ⟨pairwise_singleton _ _, pairwise_singleton _ _⟩
    · exact ⟨pairwise_singleton _ _, pairwise_singleton _ _⟩
    · exact ⟨List.Pairwise.nil, List.Pairwise.nil⟩
  exact ⟨pairwise_append.2 ⟨hpts.apart, hl.apart, fun d hd x hx => (hpiece d hd x hx).1⟩,
    pairwise_append.2 ⟨hpts.unmergeable, hl.unmergeable, fun d hd x hx => (hpiece d hd x hx).2⟩⟩

end Cut

section Relabel

variable {l pieces : List (Segment κ)} {a b : Nat} (hperm : pieces.Perm (cut s a b ++ l))
include hperm

theorem relabel_proper (hprop : ∀ d ∈ s :: l, d.first ≤ d.last) :
    ∀ d ∈ pieces, d.first ≤ d.last := by
  intro d hd
  rcases mem_append.1 (hperm.mem_iff.1 hd) with hd | hd
  · exact cut_proper d hd
  · exact hprop d (by simp [hd])

theorem relabel_fits (hab : a ≤ b) (hb : b ≤ s.last) (haDvd : unit ∣ a)
    (hbDvd : unit ∣ b + 1) (hfits : ∀ d ∈ s :: l, d.Fits unit bound) :
    ∀ d ∈ pieces, d.Fits unit bound := by
  intro d hd
  rcases mem_append.1 (hperm.mem_iff.1 hd) with hd | hd
  · exact cut_fits (hfits s (by simp)) hab hb haDvd hbDvd d hd
  · exact hfits d (by simp [hd])

theorem relabel_apart (k : κ) (ha : s.first ≤ a) (hb : b ≤ s.last) (hlaid : Laid (s :: l)) :
    ∀ d ∈ pieces, (Segment.mk a b k).Apart d := by
  obtain ⟨hs, -⟩ := laid_cons.1 hlaid
  intro d hd
  rcases mem_append.1 (hperm.mem_iff.1 hd) with hd | hd
  · exact cut_apart k d hd
  · have := (hs d hd).1
    simp only [Segment.Apart] at *
    omega

theorem relabel_pieces_laid (ha : s.first ≤ a) (hab : a ≤ b) (hb : b ≤ s.last)
    (hprop : ∀ d ∈ s :: l, d.first ≤ d.last) (hlaid : Laid (s :: l)) :
    Laid pieces :=
  (laid_perm hperm).2 (cut_laid ha hab hb (fun d hd => hprop d (by simp [hd])) hlaid)

theorem relabel_pieces_holds (k : κ) (ha : s.first ≤ a) (hab : a ≤ b) (hb : b ≤ s.last)
    (hlaid : Laid (s :: l)) :
    Holds (⟨a, b, k⟩ :: pieces) n k' ↔
      (a ≤ n ∧ n ≤ b) ∧ k = k' ∨ ¬ (a ≤ n ∧ n ≤ b) ∧ Holds (s :: l) n k' := by
  obtain ⟨hs, -⟩ := laid_cons.1 hlaid
  have hout : Holds l n k' → ¬ (a ≤ n ∧ n ≤ b) := by
    rintro ⟨d, hd, hn, -⟩
    have := (hs d hd).1
    simp only [Segment.Apart, Segment.Has] at *
    omega
  rw [holds_cons, holds_perm hperm, holds_append, cut_holds ha hab hb, holds_cons]
  change (a ≤ n ∧ n ≤ b) ∧ k = k' ∨ _ ↔ _
  tauto

theorem relabel_covers (k : κ) (ha : s.first ≤ a) (hab : a ≤ b) (hb : b ≤ s.last)
    (hlaid : Laid (s :: l)) :
    Covers (⟨a, b, k⟩ :: pieces) n ↔ Covers (s :: l) n := by
  simp only [covers_iff_holds, relabel_pieces_holds hperm k ha hab hb hlaid]
  constructor
  · rintro ⟨k', ⟨hn, -⟩ | ⟨-, hk'⟩⟩
    · exact ⟨s.label, holds_cons.2 (.inl ⟨by simp only [Segment.Has]; omega, rfl⟩)⟩
    · exact ⟨k', hk'⟩
  · rintro ⟨k', hk'⟩
    by_cases hn : a ≤ n ∧ n ≤ b
    · exact ⟨k, .inl ⟨hn, rfl⟩⟩
    · exact ⟨k', .inr ⟨hn, hk'⟩⟩

end Relabel

section Territory

structure Spread (unit bound : Nat) (l : List (Segment κ)) : Prop where
  fits : ∀ d ∈ l, d.Fits unit bound
  apart : l.Pairwise Segment.Apart

structure Territory (unit bound : Nat) (held reserve : List (Segment κ)) : Prop where
  spread : Spread unit bound (held ++ reserve)
  unmergeable : held.Pairwise Segment.Unmergeable

variable {unit bound : Nat} {held held' reserve reserve' : List (Segment κ)}

theorem Spread.perm (h : Spread unit bound l) (hperm : l.Perm l') :
    Spread unit bound l' :=
  ⟨fun d hd => h.fits d (hperm.mem_iff.2 hd), (apart_perm hperm).1 h.apart⟩

theorem Spread.cons (h : Spread unit bound l) (hs : s.Fits unit bound)
    (hfree : ∀ n, s.Has n → ¬ Covers l n) : Spread unit bound (s :: l) := by
  refine ⟨?_, pairwise_cons.2 ⟨?_, h.apart⟩⟩
  · intro d hd
    rcases mem_cons.1 hd with rfl | hd
    · exact hs
    · exact h.fits d hd
  · intro d hd
    rw [apart_iff_not_has hs.le (h.fits d hd).le]
    intro n hn hdn
    exact hfree n hn ⟨d, hd, hdn⟩

section

variable (h : Territory unit bound held reserve)
include h

theorem Territory.laid : Laid held :=
  ⟨(pairwise_append.1 h.spread.apart).1, h.unmergeable⟩

theorem Territory.fits : ∀ d ∈ held, d.Fits unit bound :=
  fun d hd => h.spread.fits d (mem_append_left reserve hd)

theorem Territory.proper : ∀ d ∈ held, d.first ≤ d.last :=
  fun d hd => (h.fits d hd).le

theorem Territory.perm (hheld : held.Perm held')
    (hresv : reserve.Perm reserve') : Territory unit bound held' reserve' :=
  ⟨h.spread.perm (hheld.append hresv), ((laid_perm hheld).1 h.laid).unmergeable⟩

end

theorem Spread.replace (h : Spread unit bound (held ++ reserve))
    (hfits : ∀ d ∈ held', d.Fits unit bound) (hlaid : Laid held')
    (hcov : ∀ n, Covers held' n ↔ Covers held n) : Territory unit bound held' reserve := by
  obtain ⟨-, hresv, hcross⟩ := pairwise_append.1 h.apart
  have hrest : ∀ d ∈ reserve, d.Fits unit bound := fun d hd =>
    h.fits d (mem_append_right held hd)
  refine ⟨⟨?_, pairwise_append.2 ⟨hlaid.apart, hresv, ?_⟩⟩, hlaid.unmergeable⟩
  · intro d hd
    rcases mem_append.1 hd with hd | hd
    · exact hfits d hd
    · exact hrest d hd
  · intro d hd x hx
    rw [apart_iff_not_has (hfits d hd).le (hrest x hx).le]
    intro n hn hx'
    obtain ⟨c, hc, hcn⟩ := (hcov n).1 ⟨d, hd, hn⟩
    have hap := hcross c hc x hx
    simp only [Segment.Apart, Segment.Has] at *
    omega

variable [DecidableEq κ]

theorem Territory.absorb (h : Territory unit bound held (s :: reserve)) :
    Territory unit bound ((absorb s held).1 :: (absorb s held).2) reserve := by
  have hspr : Spread unit bound ((s :: held) ++ reserve) := h.spread.perm perm_middle
  have hs := hspr.fits s (by simp)
  obtain ⟨hap, -⟩ := pairwise_cons.1 hspr.apart
  apply hspr.replace
  · intro d hd
    rcases mem_cons.1 hd with rfl | hd
    · exact absorb_fits hs h.fits
    · exact h.fits d ((absorb_sublist s held).subset hd)
  · exact absorb_laid hs.le h.proper (fun d hd => hap d (mem_append_left _ hd)) h.laid
  · intro n
    simp only [covers_iff_holds, absorb_holds hs.le h.proper]

section Relabel

variable {pieces : List (Segment κ)} {a b : Nat} (k : κ)
  (h : Territory unit bound (s :: held) reserve)
  (ha : s.first ≤ a) (hab : a ≤ b) (hb : b ≤ s.last) (haDvd : unit ∣ a)
  (hbDvd : unit ∣ b + 1) (hperm : pieces.Perm (cut s a b ++ held))

include h ha hab hb haDvd hbDvd hperm

omit [DecidableEq κ] in
theorem Territory.relabel_spread : Spread unit bound (⟨a, b, k⟩ :: pieces) := by
  have hpts := relabel_fits hperm hab hb haDvd hbDvd h.fits
  have hlt := (h.fits s (by simp)).lt
  refine ⟨?_, pairwise_cons.mpr ⟨relabel_apart hperm k ha hb h.laid, ?_⟩⟩
  · intro d hd
    rcases mem_cons.mp hd with rfl | hd
    · exact ⟨hab, haDvd, hbDvd, by simp only; omega⟩
    · exact hpts d hd
  · exact (relabel_pieces_laid hperm ha hab hb h.proper h.laid).apart

theorem Territory.relabel :
    Territory unit bound
      ((SegmentSet.absorb ⟨a, b, k⟩ pieces).1 :: (SegmentSet.absorb ⟨a, b, k⟩ pieces).2)
      reserve := by
  have hspr := h.relabel_spread k ha hab hb haDvd hbDvd hperm
  have hnew := hspr.fits ⟨a, b, k⟩ (by simp)
  have hpts : ∀ d ∈ pieces, d.Fits unit bound := fun d hd => hspr.fits d (by simp [hd])
  have hprop := relabel_proper hperm h.proper
  apply h.spread.replace
  · intro d hd
    rcases mem_cons.1 hd with rfl | hd
    · exact absorb_fits hnew hpts
    · exact hpts d ((absorb_sublist _ _).subset hd)
  · exact absorb_laid hab hprop (relabel_apart hperm k ha hb h.laid)
      (relabel_pieces_laid hperm ha hab hb h.proper h.laid)
  · intro n
    rw [← relabel_covers hperm k ha hab hb h.laid]
    simp only [covers_iff_holds]
    apply exists_congr
    intro k'
    exact absorb_holds (show (Segment.mk a b k).first ≤ (Segment.mk a b k).last from hab) hprop

omit haDvd hbDvd in
theorem Territory.relabel_holds :
    Holds ((SegmentSet.absorb ⟨a, b, k⟩ pieces).1 :: (SegmentSet.absorb ⟨a, b, k⟩ pieces).2) n k' ↔
      (a ≤ n ∧ n ≤ b) ∧ k = k' ∨ ¬ (a ≤ n ∧ n ≤ b) ∧ Holds (s :: held) n k' := by
  rw [absorb_holds hab (relabel_proper hperm h.proper)]
  exact relabel_pieces_holds hperm k ha hab hb h.laid

end Relabel

end Territory

end MuBasecore.SegmentSet
