import Mathlib

/-!
Lists of spans of natural numbers that follow each other, with gaps but without
overlap, and the insertion of a span into such a list: what the list has of it
already is cut off, and what lies inside of it is removed.
-/

namespace MuBasecore.SpanList

open List

structure Span where
  start : Nat
  stop : Nat
deriving DecidableEq, Repr

def Span.length (s : Span) : Nat :=
  s.stop - s.start

def Span.Mem (s : Span) (i : Nat) : Prop :=
  s.start ≤ i ∧ i < s.stop

variable {α : Type} {s x y : Span} {a hi i lo : Nat} {l : List Span}

/-- The spans are not empty and follow each other from `lo` up to `hi`. -/
def Within : Nat → Nat → List Span → Prop
  | lo, hi, [] => lo ≤ hi
  | lo, hi, s :: l => lo ≤ s.start ∧ s.start < s.stop ∧ Within s.stop hi l

def Covers (l : List Span) (i : Nat) : Prop :=
  ∃ s ∈ l, s.Mem i

def total (l : List Span) : Nat :=
  (l.map Span.length).sum

def slice {α : Type} (xs : List α) (s : Span) : List α :=
  (xs.drop s.start).take s.length

theorem length_slice {xs : List α} (h : s.stop ≤ xs.length) : (slice xs s).length = s.length := by
  rw [slice, length_take, length_drop, Span.length]
  omega

theorem slice_drop (xs : List α) (s : Span) (n : Nat) :
    (slice xs s).drop n = slice xs ⟨s.start + n, s.stop⟩ := by
  rw [slice, slice, drop_take, drop_drop, Span.length, Span.length]
  congr 1
  dsimp only
  omega

variable {stop : Nat} {front back : List Span}

theorem slice_take (xs : List α) (h : stop ≤ s.stop) :
    (slice xs s).take (stop - s.start) = slice xs ⟨s.start, stop⟩ := by
  rw [slice, slice, take_take, Span.length, Span.length]
  congr 1
  dsimp only
  omega

theorem slice_append (xs : List α) {b c : Nat} (hab : a ≤ b) (hbc : b ≤ c) :
    slice xs ⟨a, b⟩ ++ slice xs ⟨b, c⟩ = slice xs ⟨a, c⟩ := by
  have hspl : c - a = (b - a) + (c - b) := by omega
  have hdrop : a + (b - a) = b := by omega
  simp only [slice, Span.length]
  rw [hspl, take_add, drop_drop, hdrop]

theorem within_append {xs ys : List Span} :
    Within lo hi (xs ++ ys) ↔ ∃ middle, Within lo middle xs ∧ Within middle hi ys := by
  induction xs generalizing lo with
  | nil =>
    constructor
    · intro h
      exact ⟨lo, le_refl lo, h⟩
    · rintro ⟨middle, hle, h⟩
      cases ys with
      | nil => exact hle.trans h
      | cons y ys => exact ⟨hle.trans h.1, h.2⟩
  | cons x xs ih =>
    constructor
    · rintro ⟨hlo, hlt, h⟩
      obtain ⟨middle, hxs, hys⟩ := ih.1 h
      exact ⟨middle, ⟨hlo, hlt, hxs⟩, hys⟩
    · rintro ⟨middle, ⟨hlo, hlt, hxs⟩, hys⟩
      exact ⟨hlo, hlt, ih.2 ⟨middle, hxs, hys⟩⟩

section

variable (h : Within lo hi l)
include h

theorem Within.le : lo ≤ hi := by
  induction l generalizing lo with
  | nil => exact h
  | cons s l ih =>
    have := ih h.2.2
    have := h.1
    have := h.2.1
    omega

theorem Within.mono {lo' hi' : Nat} (hlo : lo' ≤ lo) (hhi : hi ≤ hi') : Within lo' hi' l := by
  induction l generalizing lo lo' with
  | nil => exact hlo.trans (h.trans hhi)
  | cons s l ih => exact ⟨hlo.trans h.1, h.2.1, ih h.2.2 le_rfl⟩

theorem Within.mem (hs : s ∈ l) : lo ≤ s.start ∧ s.start < s.stop ∧ s.stop ≤ hi := by
  obtain ⟨xs, ys, rfl⟩ := append_of_mem hs
  obtain ⟨middle, hxs, hmid, hlt, hys⟩ := within_append.1 h
  exact ⟨hxs.le.trans hmid, hlt, hys.le⟩

theorem Within.pairwise : l.Pairwise fun a b => a.start < b.start ∧ a.stop ≤ b.start := by
  induction l generalizing lo with
  | nil => exact List.Pairwise.nil
  | cons s l ih =>
    refine pairwise_cons.2 ⟨fun t ht => ?_, ih h.2.2⟩
    have hle := (h.2.2.mem ht).1
    exact ⟨h.2.1.trans_le hle, hle⟩

end

theorem Within.stop_last (h : Within lo hi (l ++ [s])) : Within lo s.stop (l ++ [s]) := by
  obtain ⟨middle, hl, hs, hlt, _⟩ := within_append.1 h
  exact within_append.2 ⟨middle, hl, hs, hlt, le_rfl⟩

theorem covers_append {xs ys : List Span} : Covers (xs ++ ys) i ↔ Covers xs i ∨ Covers ys i := by
  simp only [Covers, mem_append, or_and_right, exists_or]

theorem covers_cons : Covers (s :: l) i ↔ s.Mem i ∨ Covers l i := by
  simp [Covers]

theorem not_covers_nil : ¬ Covers [] i := by
  rintro ⟨s, hs, _⟩
  exact not_mem_nil hs

theorem Within.covers (h : Within lo hi l) (hcvr : Covers l i) : lo ≤ i ∧ i < hi := by
  obtain ⟨s, hs, hmem⟩ := hcvr
  obtain ⟨hlo, _, hstop⟩ := h.mem hs
  exact ⟨hlo.trans hmem.1, hmem.2.trans_le hstop⟩

@[simp]
theorem total_nil : total [] = 0 :=
  rfl

@[simp]
theorem total_cons : total (s :: l) = s.length + total l :=
  rfl

@[simp]
theorem total_append (xs ys : List Span) : total (xs ++ ys) = total xs + total ys := by
  simp [total]

theorem Within.total_le (h : Within lo hi l) : lo + total l ≤ hi := by
  induction l generalizing lo with
  | nil => exact h
  | cons s l ih =>
    have hrest := ih h.2.2
    have := h.1
    have := h.2.1
    rw [total_cons, Span.length]
    omega

theorem Within.total_eq_iff (h : Within lo hi l) :
    lo + total l = hi ↔ ∀ i, lo ≤ i → i < hi → Covers l i := by
  induction l generalizing lo with
  | nil =>
    constructor
    · intro heq i hlo hlt
      rw [total_nil] at heq
      omega
    · intro hall
      by_contra hne
      have hle : lo ≤ hi := h
      rw [total_nil] at hne
      exact not_covers_nil (hall lo (le_refl lo) (by omega))
  | cons s l ih =>
    obtain ⟨hlo, hlt, hl⟩ := h
    have hrest := hl.total_le
    rw [total_cons, Span.length]
    constructor
    · intro heq i hli hih
      rw [covers_cons]
      by_cases hs : i < s.stop
      · exact .inl ⟨by omega, hs⟩
      · exact .inr ((ih hl).1 (by omega) i (by omega) hih)
    · intro hall
      have hst : s.start = lo := by
        have hcov := hall lo (le_refl lo) (by omega)
        rw [covers_cons] at hcov
        rcases hcov with hmem | hcov
        · exact le_antisymm hmem.1 hlo
        · have := (hl.covers hcov).1
          omega
      have := (ih hl).2 fun i hli hih => by
        have hcov := hall i (by omega) hih
        rw [covers_cons] at hcov
        rcases hcov with hmem | hcov
        · have := hmem.2
          omega
        · exact hcov
      omega

theorem Within.flatten_slice (xs : List α) (h : Within lo hi l) (htotal : lo + total l = hi) :
    (l.map (slice xs)).flatten = slice xs ⟨lo, hi⟩ := by
  induction l generalizing lo with
  | nil =>
    rw [total_nil, Nat.add_zero] at htotal
    simp [slice, Span.length, htotal]
  | cons s l ih =>
    obtain ⟨hlo, hlt, hl⟩ := h
    have hrest := hl.total_le
    rw [total_cons, Span.length] at htotal
    have hst : s.start = lo := by omega
    rw [map_cons, flatten_cons, ih hl (by omega), ← hst]
    exact slice_append xs (le_of_lt hlt) hl.le

def cutFront (front : List Span) (x : Span) : Option Span :=
  match front.getLast? with
  | none => some x
  | some p =>
    if x.start < p.stop then
      if x.stop ≤ p.stop then none else some ⟨p.stop, x.stop⟩
    else some x

def cutBack (back : List Span) (x : Span) : Option Span :=
  match back with
  | [] => some x
  | n :: _ =>
    if n.start < x.stop then
      if n.start ≤ x.start then none else some ⟨x.start, n.start⟩
    else some x

/-- The spans that begin no later than `a`. -/
def before (a : Nat) (l : List Span) : List Span :=
  l.takeWhile fun s => s.start ≤ a

/-- The other spans, which begin behind `a`. -/
def after (a : Nat) (l : List Span) : List Span :=
  l.dropWhile fun s => s.start ≤ a

/-- The spans that begin behind `a`, without those that end up to `stop`. -/
def behind (a stop : Nat) (l : List Span) : List Span :=
  (after a l).dropWhile fun s => s.stop ≤ stop

def insertSpan (x : Span) (l : List Span) : List Span :=
  match cutFront (before x.start l) x with
  | none => l
  | some y =>
    before x.start l ++ (cutBack (behind x.start y.stop l) y).toList ++ behind x.start y.stop l

theorem within_of_starts {lo' : Nat} (h : Within lo hi l)
    (hstarts : ∀ s ∈ l, lo' ≤ s.start) (hle : lo' ≤ hi) : Within lo' hi l := by
  cases l with
  | nil => exact hle
  | cons s l => exact ⟨hstarts s mem_cons_self, h.2⟩

theorem cutFront_spec {middle : Nat}
    (h : Within lo middle front) (hfr : ∀ s ∈ front, s.start ≤ x.start)
    (hlo : lo ≤ x.start) (hx : x.start < x.stop) :
    match cutFront front x with
    | none => ∀ i, x.Mem i → Covers front i
    | some y => y.stop = x.stop ∧ y.start < y.stop ∧ (y.start = x.start ∨ y.start ≤ middle) ∧
        Within lo y.start front ∧
        ∀ i, x.Mem i ∨ Covers front i ↔ y.Mem i ∨ Covers front i := by
  rcases eq_nil_or_concat front with rfl | ⟨init, p, rfl⟩
  · exact ⟨rfl, hx, .inl rfl, hlo, fun i => Iff.rfl⟩
  · rw [concat_eq_append] at h hfr ⊢
    have hp := hfr p (by simp)
    have hlast := h.stop_last
    have hcvr : ∀ i, p.Mem i → Covers (init ++ [p]) i := fun i hi => ⟨p, by simp, hi⟩
    rw [cutFront, getLast?_concat]
    dsimp only
    split_ifs with hover hall
    · intro i hi
      exact hcvr i ⟨hp.trans hi.1, hi.2.trans_le hall⟩
    · refine ⟨rfl, Nat.lt_of_not_le hall, .inr (h.mem (by simp)).2.2, hlast,
        fun i => ⟨?_, ?_⟩⟩
      · rintro (hi | hi)
        · by_cases hp' : i < p.stop
          · exact .inr (hcvr i ⟨hp.trans hi.1, hp'⟩)
          · exact .inl ⟨Nat.le_of_not_lt hp', hi.2⟩
        · exact .inr hi
      · rintro (hi | hi)
        · exact .inl ⟨le_trans (le_of_lt hover) hi.1, hi.2⟩
        · exact .inr hi
    · exact ⟨rfl, hx, .inl rfl, hlast.mono le_rfl (Nat.le_of_not_lt hover), fun i => Iff.rfl⟩

theorem dropWhile_within (h : Within lo hi back) :
    Within lo hi (back.dropWhile fun s => s.stop ≤ stop) ∧
      (∀ n rest, (back.dropWhile fun s => s.stop ≤ stop) = n :: rest → stop < n.stop) ∧
      ∀ i, Covers back i → stop ≤ i → Covers (back.dropWhile fun s => s.stop ≤ stop) i := by
  induction back generalizing lo with
  | nil => exact ⟨h, fun n rest heq => by simp at heq, fun i hi _ => hi⟩
  | cons s l ih =>
    by_cases hs : s.stop ≤ stop
    · rw [dropWhile_cons_of_pos (by simpa using hs)]
      obtain ⟨hwithin, hnext, hcvr⟩ := ih h.2.2
      refine ⟨hwithin.mono (h.1.trans (le_of_lt h.2.1)) le_rfl, hnext,
        fun i hi hstop => hcvr i ?_ hstop⟩
      rcases covers_cons.1 hi with hmem | hmem
      · have := hmem.2
        omega
      · exact hmem
    · rw [dropWhile_cons_of_neg (by simpa using hs)]
      refine ⟨h, fun n rest heq => ?_, fun i hi _ => hi⟩
      rw [cons.injEq] at heq
      rw [← heq.1]
      omega

theorem cutBack_spec (h : Within y.start hi back) (hy : y.start < y.stop) (hhi : y.stop ≤ hi)
    (hnext : ∀ n rest, back = n :: rest → y.stop < n.stop) :
    match cutBack back y with
    | none => ∀ i, y.Mem i → Covers back i
    | some z => z.start = y.start ∧ z.start < z.stop ∧ Within z.stop hi back ∧
        ∀ i, y.Mem i ∨ Covers back i ↔ z.Mem i ∨ Covers back i := by
  cases back with
  | nil => exact ⟨rfl, hy, hhi, fun i => Iff.rfl⟩
  | cons n rest =>
    have hstop := hnext n rest rfl
    have hcvr : ∀ i, n.Mem i → Covers (n :: rest) i := fun i hi => ⟨n, mem_cons_self, hi⟩
    rw [cutBack]
    split_ifs with hover hall
    · intro i hi
      exact hcvr i ⟨hall.trans hi.1, hi.2.trans hstop⟩
    · refine ⟨rfl, Nat.lt_of_not_le hall, ⟨le_rfl, h.2⟩, fun i => ⟨?_, ?_⟩⟩
      · rintro (hi | hi)
        · by_cases hn : i < n.start
          · exact .inl ⟨hi.1, hn⟩
          · exact .inr (hcvr i ⟨Nat.le_of_not_lt hn, hi.2.trans hstop⟩)
        · exact .inr hi
      · rintro (hi | hi)
        · exact .inl ⟨hi.1, hi.2.trans hover⟩
        · exact .inr hi
    · exact ⟨rfl, hy, ⟨Nat.le_of_not_lt hover, h.2⟩, fun i => Iff.rfl⟩

theorem before_append_after (a : Nat) (l : List Span) : before a l ++ after a l = l :=
  takeWhile_append_dropWhile

theorem start_le_before : ∀ s ∈ before a l, s.start ≤ a := by
  intro s hs
  simpa using mem_takeWhile_imp hs

theorem lt_start_of_after (h : Within lo hi l) : ∀ s ∈ after a l, a < s.start := by
  induction l generalizing lo with
  | nil => intro s hs; simp [after] at hs
  | cons t l ih =>
    by_cases ht : t.start ≤ a
    · rw [after, dropWhile_cons_of_pos (by simpa using ht)]
      exact ih h.2.2
    · rw [after, dropWhile_cons_of_neg (by simpa using ht)]
      intro s hs
      rcases mem_cons.1 hs with rfl | hs
      · exact Nat.lt_of_not_le ht
      · have := (h.2.2.mem hs).1
        have := h.2.1
        omega

theorem mem_of_before (hs : s ∈ before a l) : s ∈ l :=
  (takeWhile_sublist _).subset hs

theorem mem_of_behind (hs : s ∈ behind a stop l) : s ∈ after a l ∧ s ∈ l :=
  ⟨(dropWhile_sublist _).subset hs, (dropWhile_sublist _).subset ((dropWhile_sublist _).subset hs)⟩

section

variable (h : Within lo hi l)
include h

theorem mem_before_iff (hs : s ∈ l) : s ∈ before a l ↔ s.start ≤ a := by
  refine ⟨start_le_before s, fun hle => ?_⟩
  rw [← before_append_after a l, mem_append] at hs
  exact hs.resolve_right fun hs => absurd (lt_start_of_after h s hs) (not_lt.2 hle)

theorem Within.split (a : Nat) :
    ∃ middle, Within lo middle (before a l) ∧ Within middle hi (after a l) :=
  within_append.1 (by rwa [before_append_after])

/-- The place of a span that is not there already: in front of it the list ends
where it begins, and behind it the first span reaches further than it does. -/
theorem cut_place (hlo : lo ≤ x.start) (hx : x.start < x.stop) (hhi : x.stop ≤ hi)
    (hcut : cutFront (before x.start l) x = some y) :
    y.stop = x.stop ∧ y.start < y.stop ∧ Within lo y.start (before x.start l) ∧
      Within y.start hi (behind x.start y.stop l) ∧
      (∀ n rest, behind x.start y.stop l = n :: rest → y.stop < n.stop) ∧
      ∀ i, x.Mem i ∨ Covers l i ↔
        Covers (before x.start l) i ∨ (y.Mem i ∨ Covers (behind x.start y.stop l) i) := by
  obtain ⟨middle, hfr, hback⟩ := h.split x.start
  have hspec := cutFront_spec hfr start_le_before hlo hx
  rw [hcut] at hspec
  obtain ⟨hstop, hy, hst, hfr', hfrontCovers⟩ := hspec
  have hback' : Within y.start hi (after x.start l) := by
    refine within_of_starts hback (fun s hs => ?_) (by omega)
    rcases hst with hst | hst
    · exact hst.symm ▸ le_of_lt (lt_start_of_after h s hs)
    · exact hst.trans (hback.mem hs).1
  obtain ⟨hrest, hnext, hdropped⟩ := dropWhile_within hback'
  refine ⟨hstop, hy, hfr', hrest, hnext, fun i => ?_⟩
  have hlist : Covers l i ↔ Covers (before x.start l) i ∨ Covers (after x.start l) i := by
    rw [← covers_append, before_append_after]
  have hrestCovers : y.Mem i ∨ Covers (after x.start l) i ↔
      y.Mem i ∨ Covers (behind x.start y.stop l) i := by
    constructor
    · rintro (hi | hi)
      · exact .inl hi
      · by_cases hyi : i < y.stop
        · exact .inl ⟨(hback'.covers hi).1, hyi⟩
        · exact .inr (hdropped i hi (Nat.le_of_not_lt hyi))
    · rintro (hi | ⟨s, hs, hi⟩)
      · exact .inl hi
      · exact .inr ⟨s, (mem_of_behind hs).1, hi⟩
  rw [hlist, ← hrestCovers, ← or_assoc, hfrontCovers, or_assoc, or_left_comm]

theorem covers_of_cutFront_none
    (hlo : lo ≤ x.start) (hx : x.start < x.stop) (hcut : cutFront (before x.start l) x = none)
    (hi : x.Mem i) : Covers l i := by
  obtain ⟨middle, hfr, _⟩ := h.split x.start
  have hspec := cutFront_spec hfr start_le_before hlo hx
  rw [hcut] at hspec
  obtain ⟨s, hs, hmem⟩ := hspec i hi
  exact ⟨s, mem_of_before hs, hmem⟩

end

theorem insertSpan_of_none (h : cutFront (before x.start l) x = none) : insertSpan x l = l := by
  rw [insertSpan, h]

theorem insertSpan_of_some (h : cutFront (before x.start l) x = some y) :
    insertSpan x l = before x.start l ++
      ((cutBack (behind x.start y.stop l) y).toList ++ behind x.start y.stop l) := by
  rw [insertSpan, h, ← append_assoc]

theorem insertSpan_spec (h : Within lo hi l)
    (hlo : lo ≤ x.start) (hx : x.start < x.stop) (hhi : x.stop ≤ hi) :
    Within lo hi (insertSpan x l) ∧ ∀ i, Covers (insertSpan x l) i ↔ x.Mem i ∨ Covers l i := by
  cases hcut : cutFront (before x.start l) x with
  | none =>
    rw [insertSpan_of_none hcut]
    refine ⟨h, fun i => ⟨.inr, ?_⟩⟩
    rintro (hi | hi)
    · exact covers_of_cutFront_none h hlo hx hcut hi
    · exact hi
  | some y =>
    obtain ⟨hstop, hy, hfr, hrest, hnext, hall⟩ := cut_place h hlo hx hhi hcut
    have hspec := cutBack_spec hrest hy (by omega) hnext
    rw [insertSpan_of_some hcut]
    revert hspec
    cases cutBack (behind x.start y.stop l) y with
    | none =>
      intro hspec
      refine ⟨within_append.2 ⟨y.start, hfr, hrest⟩, fun i => ?_⟩
      rw [covers_append, hall, or_iff_right_of_imp (hspec i)]
      rfl
    | some z =>
      rintro ⟨hzstart, hz, hwithin, hzCovers⟩
      refine ⟨within_append.2 ⟨y.start, hfr, hzstart.ge, hz, hwithin⟩, fun i => ?_⟩
      rw [covers_append, hall, hzCovers, ← covers_cons]
      rfl

/-- No span of the list begins inside of the new one and reaches further, unless
it comes directly behind a span that begins no later than the new one. -/
def Fits (l : List Span) (x : Span) : Prop :=
  ∀ n ∈ l, x.start < n.start → n.start < x.stop →
    n.stop ≤ x.stop ∨ ∃ p ∈ l, p.start ≤ x.start ∧ p.stop = n.start

instance (l : List Span) (x : Span) : Decidable (Fits l x) :=
  inferInstanceAs (Decidable (∀ n ∈ l, _ → _ → _ ∨ ∃ p ∈ l, _ ∧ _))

theorem cutFront_start (h : cutFront front x = some y) :
    y.start = x.start ∨ ∃ p ∈ front, p.stop = y.start := by
  rw [cutFront] at h
  cases hlast : front.getLast? with
  | none =>
    rw [hlast] at h
    exact .inl (congrArg Span.start (Option.some.inj h)).symm
  | some p =>
    rw [hlast] at h
    dsimp only at h
    split_ifs at h
    · exact .inr ⟨p, mem_of_getLast? hlast, congrArg Span.start (Option.some.inj h)⟩
    · exact .inl (congrArg Span.start (Option.some.inj h)).symm

section

variable (h : Within lo hi l) (hlo : lo ≤ x.start) (hx : x.start < x.stop)
include h hlo hx

theorem fits_iff (hhi : x.stop ≤ hi) (hcut : cutFront (before x.start l) x = some y) :
    Fits l x ↔ ∀ n rest, behind x.start y.stop l = n :: rest → n.start < y.stop →
      n.start ≤ y.start := by
  obtain ⟨hstop, hy, hfr, hrest, hnext, _⟩ := cut_place h hlo hx hhi hcut
  constructor
  · intro hfits n rest heq hin
    obtain ⟨hn, hnl⟩ := mem_of_behind (heq ▸ mem_cons_self : n ∈ behind x.start y.stop l)
    have hrch := hnext n rest heq
    rcases hfits n hnl (lt_start_of_after h n hn) (by omega) with hshrt | ⟨p, hp, hpstart, hpstop⟩
    · omega
    · have := (hfr.mem ((mem_before_iff h hp).2 hpstart)).2.2
      omega
  · intro hkeeps n hn hst hin
    by_contra hnot
    rw [not_or] at hnot
    have hmem : n ∈ behind x.start y.stop l := by
      rw [← before_append_after x.start l, mem_append] at hn
      have hback := hn.resolve_left fun hn =>
        absurd (start_le_before n hn) (not_le.2 hst)
      rw [← takeWhile_append_dropWhile (p := fun s => decide (s.stop ≤ y.stop))
        (l := after x.start l), mem_append] at hback
      refine hback.resolve_left fun hback => hnot.1 ?_
      rw [← hstop]
      simpa using mem_takeWhile_imp hback
    -- the first span behind the place is `n` itself
    obtain ⟨m, rest, heq⟩ := exists_cons_of_ne_nil (ne_nil_of_mem hmem)
    have hrch := hnext m rest heq
    rw [heq] at hmem hrest
    rcases mem_cons.1 hmem with rfl | hr
    · have hle := hkeeps n rest heq (by omega)
      have hlow := hrest.1
      rcases cutFront_start hcut with hsame | ⟨p, hp, hpstop⟩
      · omega
      · exact hnot.2 ⟨p, mem_of_before hp, start_le_before p hp, by omega⟩
    · have := (hrest.2.2.mem hr).1
      omega

theorem fits_of_cutFront_none (hcut : cutFront (before x.start l) x = none) : Fits l x := by
  obtain ⟨middle, hfr, hback⟩ := h.split x.start
  have hspec := cutFront_spec hfr start_le_before hlo hx
  rw [hcut] at hspec
  intro n hn hst hin
  -- the number at which `n` begins is in a span that begins earlier
  rw [← before_append_after x.start l, mem_append] at hn
  have hn := hn.resolve_left fun hn => absurd (start_le_before n hn) (not_le.2 hst)
  have := (hfr.covers (hspec n.start ⟨le_of_lt hst, hin⟩)).2
  have := (hback.mem hn).1
  omega

end

end MuBasecore.SpanList
