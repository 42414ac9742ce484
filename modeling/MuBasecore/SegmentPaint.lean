import MuBasecore.SegmentSet

/-!
Painting a range of a collection of segments. A brush changes certain labels
inside its range; segments that stick out of the range are split, and neighbours
with one label are joined again. Painting one segment after the other until none
is left ends, and never needs more than two additional segments.
-/

namespace MuBasecore.SegmentPaint

open SegmentSet List

variable {κ : Type*} {l l' : List (Segment κ)}

section Substitute

variable {unit bound : Nat} {before olds news behind : List (Segment κ)}

theorem spread_substitute (h : Spread unit bound (before ++ olds ++ behind))
    (hfits : ∀ d ∈ news, d.Fits unit bound) (hap : news.Pairwise Segment.Apart)
    (hcov : ∀ n, Covers news n ↔ Covers olds n) :
    Spread unit bound (before ++ news ++ behind) := by
  obtain ⟨hleft, hback, hcrossBehind⟩ := pairwise_append.1 h.apart
  obtain ⟨hpre, -, hcrossBefore⟩ := pairwise_append.1 hleft
  have hrest : ∀ d ∈ before ++ behind, d.Fits unit bound := by
    intro d hd
    apply h.fits
    rcases mem_append.1 hd with hd | hd <;> simp [hd]
  have hcross : ∀ x ∈ before ++ behind, ∀ d ∈ news, x.Apart d := by
    intro x hx d hd
    rw [apart_iff_not_has (hrest x hx).le (hfits d hd).le]
    intro n hn hdn
    obtain ⟨c, hc, hcn⟩ := (hcov n).1 ⟨d, hd, hdn⟩
    have hap : x.Apart c := by
      rcases mem_append.1 hx with hx | hx
      · exact hcrossBefore x hx c hc
      · exact (hcrossBehind c (mem_append_right _ hc) x hx).symm
    simp only [Segment.Apart, Segment.Has] at *
    omega
  refine ⟨?_, pairwise_append.2 ⟨pairwise_append.2 ⟨hpre, hap, ?_⟩, hback, ?_⟩⟩
  · intro d hd
    simp only [mem_append] at hd
    rcases hd with (hd | hd) | hd
    · exact hrest d (by simp [hd])
    · exact hfits d hd
    · exact hrest d (by simp [hd])
  · exact fun x hx d hd => hcross x (by simp [hx]) d hd
  · intro d hd x hx
    rcases mem_append.1 hd with hd | hd
    · exact hcrossBehind d (by simp [hd]) x hx
    · exact (hcross x (by simp [hx]) d hd).symm

theorem spread_sublist (h : Spread unit bound l) (hl : l'.Sublist l) : Spread unit bound l' :=
  ⟨fun d hd => h.fits d (hl.subset hd), h.apart.sublist hl⟩

theorem spread_relabel (f : Segment κ → κ) (h : Spread unit bound l) :
    Spread unit bound (l.map fun s => { s with label := f s }) := by
  refine ⟨?_, pairwise_map.2 h.apart⟩
  intro d hd
  obtain ⟨s, hs, rfl⟩ := mem_map.1 hd
  obtain ⟨hle, hfst, hlast, hlt⟩ := h.fits s hs
  exact ⟨hle, hfst, hlast, hlt⟩

end Substitute

variable {n : Nat} {k : κ} {bound unit : Nat} {behind : List (Segment κ)} {a b : Segment κ}

section Coalesce

def join (a b : Segment κ) : Segment κ :=
  { a with last := b.last }

theorem join_holds (ha : a.first ≤ a.last) (hb : b.first ≤ b.last)
    (hlab : a.label = b.label) (hnext : a.last + 1 = b.first) :
    Holds [join a b] n k ↔ Holds [a, b] n k := by
  simp only [holds_cons, Segment.Has, join, hlab]
  have hnil : ¬ Holds ([] : List (Segment κ)) n k := by simp [Holds]
  by_cases hk : b.label = k
  · simp only [hk, and_true, hnil, or_false]
    omega
  · simp [hk, hnil]

theorem covers_congr_of_holds (h : ∀ n k, Holds l n k ↔ Holds l' n k)
    (n : Nat) : Covers l n ↔ Covers l' n := by
  simp only [covers_iff_holds, h]

structure Respread (unit bound : Nat) (l l' : List (Segment κ)) : Prop where
  spread : Spread unit bound l'
  holds : ∀ n k, Holds l' n k ↔ Holds l n k

theorem spread_join (before : List (Segment κ)) (h : Spread unit bound (before ++ [a, b] ++ behind))
    (hlab : a.label = b.label) (hnext : a.last + 1 = b.first) :
    Respread unit bound (before ++ [a, b] ++ behind) (before ++ [join a b] ++ behind) := by
  have ha := h.fits a (by simp)
  have hb := h.fits b (by simp)
  have hhold : ∀ n k, Holds [join a b] n k ↔ Holds [a, b] n k := fun n k =>
    join_holds ha.le hb.le hlab hnext
  refine ⟨spread_substitute h ?_ (pairwise_singleton _ _) (covers_congr_of_holds hhold), ?_⟩
  · intro d hd
    obtain rfl := mem_singleton.1 hd
    have hle := ha.le
    have hle' := hb.le
    exact ⟨by simp only [join]; omega, ha.first_dvd, hb.last_dvd, hb.lt⟩
  · intro n k
    simp only [holds_append, hhold]

variable [DecidableEq κ]

def coalesceInto (s : Segment κ) : List (Segment κ) → List (Segment κ)
  | [] => [s]
  | d :: l =>
    if s.label = d.label ∧ s.last + 1 = d.first then coalesceInto (join s d) l
    else s :: coalesceInto d l

def coalesce : List (Segment κ) → List (Segment κ)
  | [] => []
  | s :: l => coalesceInto s l

theorem coalesceInto_spread (before : List (Segment κ)) {s : Segment κ}
    (h : Spread unit bound (before ++ s :: l)) :
    Respread unit bound (before ++ s :: l) (before ++ coalesceInto s l) := by
  induction l generalizing before s with
  | nil => exact ⟨h, fun _ _ => Iff.rfl⟩
  | cons d l ih =>
    rw [coalesceInto]
    split
    next hjoin =>
      have hspl : before ++ s :: d :: l = before ++ [s, d] ++ l := by simp
      rw [hspl] at h ⊢
      obtain ⟨hspr, hhold⟩ := spread_join _ h hjoin.1 hjoin.2
      rw [append_assoc, singleton_append] at hspr hhold
      obtain ⟨hspr', hhold'⟩ := ih before hspr
      exact ⟨hspr', fun n k => (hhold' n k).trans (hhold n k)⟩
    · rw [append_cons before s (d :: l)] at h ⊢
      rw [append_cons before s (coalesceInto d l)]
      exact ih (before ++ [s]) h

theorem coalesce_spread (h : Spread unit bound l) : Respread unit bound l (coalesce l) := by
  cases l with
  | nil => exact ⟨h, fun _ _ => Iff.rfl⟩
  | cons s l => exact coalesceInto_spread [] h

theorem coalesce_sum_le {w : Segment κ → Nat} (l : List (Segment κ))
    (hw : ∀ a b : Segment κ, a.label = b.label → a.last + 1 = b.first →
      w (join a b) ≤ w a + w b) : ((coalesce l).map w).sum ≤ (l.map w).sum := by
  have hinto : ∀ (l : List (Segment κ)) (s : Segment κ),
      ((coalesceInto s l).map w).sum ≤ w s + (l.map w).sum := by
    intro l
    induction l with
    | nil =>
      intro s
      simp [coalesceInto]
    | cons d l ih =>
      intro s
      rw [coalesceInto]
      simp only [map_cons, sum_cons]
      split
      next hjoin =>
        have hsum := ih (join s d)
        have hless := hw s d hjoin.1 hjoin.2
        omega
      · have hsum := ih d
        simp only [map_cons, sum_cons]
        omega
  cases l with
  | nil => exact Nat.le_refl _
  | cons s l =>
    rw [map_cons, sum_cons]
    exact hinto l s

end Coalesce

structure Brush (κ : Type*) where
  first : Nat
  last : Nat
  paints : κ → Bool
  color : κ → κ

variable {d : Segment κ}

namespace Brush

variable (b : Brush κ) {s : Segment κ} {l : List (Segment κ)}

structure Proper (unit : Nat) : Prop where
  le : b.first ≤ b.last
  first_dvd : unit ∣ b.first
  last_dvd : unit ∣ b.last + 1
  fixed : ∀ k, b.paints k = true → b.paints (b.color k) = false

def relabel (n : Nat) (k : κ) : κ :=
  if b.paints k = true ∧ b.first ≤ n ∧ n ≤ b.last then b.color k else k

def Touches (s : Segment κ) : Prop :=
  b.paints s.label = true ∧ s.first ≤ b.last ∧ b.first ≤ s.last

instance : DecidablePred b.Touches :=
  fun _ => inferInstanceAs (Decidable (_ ∧ _))

def pieces (s : Segment κ) : List (Segment κ) :=
  (if s.first < b.first then [{ s with last := b.first - 1 }] else []) ++
    ⟨max s.first b.first, min s.last b.last, b.color s.label⟩ ::
    (if b.last < s.last then [{ s with first := b.last + 1 }] else [])

theorem pieces_holds (htch : b.Touches s) :
    Holds (b.pieces s) n k ↔ s.Has n ∧ b.relabel n s.label = k := by
  obtain ⟨hpaint, hlow, hhigh⟩ := htch
  have hnil : ¬ Holds ([] : List (Segment κ)) n k := by simp [Holds]
  have hbel : Holds (if s.first < b.first then [{ s with last := b.first - 1 }] else []) n k ↔
      (s.first ≤ n ∧ n < b.first) ∧ s.label = k := by
    split
    · simp only [holds_cons, hnil, or_false, Segment.Has]
      refine and_congr_left fun _ => ?_
      omega
    · simp only [hnil, false_iff]
      omega
  have habv : Holds (if b.last < s.last then [{ s with first := b.last + 1 }] else []) n k ↔
      (b.last < n ∧ n ≤ s.last) ∧ s.label = k := by
    split
    · simp only [holds_cons, hnil, or_false, Segment.Has]
      refine and_congr_left fun _ => ?_
      omega
    · simp only [hnil, false_iff]
      omega
  rw [pieces, holds_append, holds_cons, hbel, habv, relabel]
  simp only [hpaint, true_and, Segment.Has, Nat.max_le, Nat.le_min]
  split
  next hin =>
    constructor
    · rintro (⟨h, -⟩ | ⟨h, hk⟩ | ⟨h, -⟩)
      · omega
      · exact ⟨⟨h.1.1, h.2.1⟩, hk⟩
      · omega
    · rintro ⟨h, hk⟩
      exact .inr (.inl ⟨⟨⟨h.1, hin.1⟩, h.2, hin.2⟩, hk⟩)
  next hout =>
    constructor
    · rintro (⟨h, hk⟩ | ⟨h, -⟩ | ⟨h, hk⟩)
      · exact ⟨by omega, hk⟩
      · exact absurd ⟨h.1.2, h.2.2⟩ hout
      · exact ⟨by omega, hk⟩
    · rintro ⟨h, hk⟩
      by_cases hlt : n < b.first
      · exact .inl ⟨⟨h.1, hlt⟩, hk⟩
      · exact .inr (.inr ⟨by omega, hk⟩)

theorem mem_pieces : d ∈ b.pieces s ↔ (s.first < b.first ∧ d = { s with last := b.first - 1 }) ∨
      d = ⟨max s.first b.first, min s.last b.last, b.color s.label⟩ ∨
      (b.last < s.last ∧ d = { s with first := b.last + 1 }) := by
  simp [pieces]

theorem pieces_fits (hb : b.Proper unit) (hs : s.Fits unit bound)
    (htch : b.Touches s) : ∀ d ∈ b.pieces s, d.Fits unit bound := by
  obtain ⟨-, hlow, hhigh⟩ := htch
  obtain ⟨hle, hfst, hlast, -⟩ := hb
  obtain ⟨hsle, hsfirst, hslast, hlt⟩ := hs
  intro d hd
  rcases b.mem_pieces.1 hd with ⟨hless, rfl⟩ | rfl | ⟨hless, rfl⟩
  · refine ⟨by simp only; omega, hsfirst, ?_, by simp only; omega⟩
    rwa [Nat.sub_add_cancel (by omega)]
  · refine ⟨by simp only; omega, ?_, ?_, by simp only; omega⟩
    · rcases Nat.le_total s.first b.first with h | h
      · rwa [Nat.max_eq_right h]
      · rwa [Nat.max_eq_left h]
    · rcases Nat.le_total s.last b.last with h | h
      · rwa [Nat.min_eq_left h]
      · rwa [Nat.min_eq_right h]
  · exact ⟨by simp only; omega, hlast, hslast, hlt⟩

theorem pieces_apart (hle : b.first ≤ b.last) : (b.pieces s).Pairwise Segment.Apart := by
  have habv : ∀ d ∈ (if b.last < s.last then [{ s with first := b.last + 1 }] else []),
      d.first = b.last + 1 := by
    intro d hd
    rw [mem_singleton.1 (mem_ite_nil_right.1 hd).2]
  have hbel : ∀ d ∈ (if s.first < b.first then [{ s with last := b.first - 1 }] else []),
      d.last + 1 = b.first := by
    intro d hd
    obtain ⟨hless, hd⟩ := mem_ite_nil_right.1 hd
    rw [mem_singleton.1 hd]
    simp only
    omega
  simp only [pieces, pairwise_append, pairwise_cons]
  refine ⟨by split <;> simp, ⟨?_, by split <;> simp⟩, ?_⟩
  · intro d hd
    have := habv d hd
    unfold Segment.Apart
    simp only
    omega
  · intro d hd x hx
    have := hbel d hd
    unfold Segment.Apart
    rcases mem_cons.1 hx with rfl | hx
    · simp only
      omega
    · have := habv x hx
      omega

theorem spread_pieces {before : List (Segment κ)} (hb : b.Proper unit)
    (h : Spread unit bound (before ++ s :: behind)) (htch : b.Touches s) :
    Spread unit bound (before ++ b.pieces s ++ behind) := by
  rw [append_cons] at h
  refine spread_substitute h (b.pieces_fits hb (h.fits s (by simp)) htch)
    (b.pieces_apart hb.le) ?_
  intro n
  simp only [covers_iff_holds, b.pieces_holds htch, holds_cons]
  simp [Holds]

def Image (l : List (Segment κ)) (n : Nat) (k : κ) : Prop :=
  ∃ k', Holds l n k' ∧ b.relabel n k' = k

theorem relabel_relabel (hb : b.Proper unit) (n : Nat) (k : κ) :
    b.relabel n (b.relabel n k) = b.relabel n k := by
  unfold relabel
  split
  next h =>
    rw [if_neg]
    simp [hb.fixed k h.1]
  · rfl

theorem image_paint (hb : b.Proper unit) (htch : b.Touches s)
    (before behind : List (Segment κ)) (n : Nat) (k : κ) :
    b.Image (before ++ b.pieces s ++ behind) n k ↔ b.Image (before ++ s :: behind) n k := by
  unfold Image
  simp only [holds_append, holds_cons, b.pieces_holds htch]
  constructor
  · rintro ⟨k', (hk' | ⟨hn, rfl⟩) | hk', rfl⟩
    · exact ⟨k', .inl hk', rfl⟩
    · exact ⟨s.label, .inr (.inl ⟨hn, rfl⟩), (b.relabel_relabel hb n _).symm⟩
    · exact ⟨k', .inr (.inr hk'), rfl⟩
  · rintro ⟨k', hk' | ⟨hn, rfl⟩ | hk', rfl⟩
    · exact ⟨k', .inl (.inl hk'), rfl⟩
    · exact ⟨b.relabel n s.label, .inl (.inr ⟨hn, rfl⟩), b.relabel_relabel hb n _⟩
    · exact ⟨k', .inr hk', rfl⟩

theorem image_iff_holds (h : ∀ s ∈ l, ¬ b.Touches s) (n : Nat) (k : κ) :
    b.Image l n k ↔ Holds l n k := by
  have hfix : ∀ k', Holds l n k' → b.relabel n k' = k' := by
    rintro k' ⟨s, hs, hn, rfl⟩
    rw [relabel, if_neg]
    rintro ⟨hpaint, hlow, hhigh⟩
    exact h s hs ⟨hpaint, Nat.le_trans hn.1 hhigh, Nat.le_trans hlow hn.2⟩
  constructor
  · rintro ⟨k', hk', rfl⟩
    rwa [hfix k' hk']
  · intro hk
    exact ⟨k, hk, hfix k hk⟩

section Measure

def pending (l : List (Segment κ)) : Nat :=
  (l.map fun s => if b.Touches s then 1 else 0).sum

def weight (s : Segment κ) : Nat :=
  1 + (if b.paints s.label = true ∧ s.first < b.first ∧ b.first ≤ s.last then 1 else 0) +
    (if b.paints s.label = true ∧ s.first ≤ b.last ∧ b.last < s.last then 1 else 0)

def potential (l : List (Segment κ)) : Nat :=
  (l.map b.weight).sum

theorem length_le_potential (l : List (Segment κ)) : l.length ≤ b.potential l := by
  induction l with
  | nil => exact Nat.le_refl 0
  | cons s l ih =>
    simp only [potential, map_cons, sum_cons, length_cons] at ih ⊢
    have : 1 ≤ b.weight s := by
      unfold weight
      omega
    omega

theorem pending_le_length (l : List (Segment κ)) : b.pending l ≤ l.length := by
  induction l with
  | nil => exact Nat.le_refl 0
  | cons s l ih =>
    simp only [pending, map_cons, sum_cons, length_cons] at ih ⊢
    split <;> omega

theorem sum_le_one_of_has {m : Nat} {p : Segment κ → Prop}
    [DecidablePred p] (hp : ∀ s, p s → s.Has m) (h : l.Pairwise Segment.Apart) :
    (l.map fun s => if p s then 1 else 0).sum ≤ 1 := by
  induction l with
  | nil => simp
  | cons s l ih =>
    obtain ⟨hs, hl⟩ := pairwise_cons.1 h
    simp only [map_cons, sum_cons]
    by_cases hps : p s
    · have hzero : (l.map fun d => if p d then 1 else 0).sum = 0 := by
        apply sum_eq_zero
        intro x hx
        obtain ⟨d, hd, rfl⟩ := mem_map.1 hx
        rw [if_neg]
        intro hpd
        have hm := hp s hps
        have hm' := hp d hpd
        have hap := hs d hd
        simp only [Segment.Apart, Segment.Has] at *
        omega
      exact Nat.le_of_eq (by rw [if_pos hps, hzero])
    · rw [if_neg hps, Nat.zero_add]
      exact ih hl

theorem potential_le (h : l.Pairwise Segment.Apart) : b.potential l ≤ l.length + 2 := by
  have hlow := sum_le_one_of_has (m := b.first)
    (p := fun s => b.paints s.label = true ∧ s.first < b.first ∧ b.first ≤ s.last)
    (fun s hs => ⟨Nat.le_of_lt hs.2.1, hs.2.2⟩) h
  have hhigh := sum_le_one_of_has (m := b.last)
    (p := fun s => b.paints s.label = true ∧ s.first ≤ b.last ∧ b.last < s.last)
    (fun s hs => ⟨hs.2.1, Nat.le_of_lt hs.2.2⟩) h
  have hsum : b.potential l = l.length +
      (l.map fun s => if b.paints s.label = true ∧ s.first < b.first ∧ b.first ≤ s.last
        then 1 else 0).sum +
      (l.map fun s => if b.paints s.label = true ∧ s.first ≤ b.last ∧ b.last < s.last
        then 1 else 0).sum := by
    unfold potential weight
    rw [sum_map_add, sum_map_add]
    simp
  omega

theorem potential_append (l l' : List (Segment κ)) :
    b.potential (l ++ l') = b.potential l + b.potential l' := by
  simp [potential]

theorem potential_cons : b.potential (s :: l) = b.weight s + b.potential l :=
  sum_cons

theorem pending_append (l l' : List (Segment κ)) :
    b.pending (l ++ l') = b.pending l + b.pending l' := by
  simp [pending]

section

variable (hb : b.Proper unit) (htch : b.Touches s)
include hb htch

theorem potential_pieces : b.potential (b.pieces s) ≤ b.weight s := by
  obtain ⟨hpaint, hlow, hhigh⟩ := htch
  have hle := hb.le
  have hfixed := hb.fixed _ hpaint
  have hmid : b.weight ⟨max s.first b.first, min s.last b.last, b.color s.label⟩ = 1 := by
    simp [weight, hfixed]
  have hbel : b.potential (if s.first < b.first then [{ s with last := b.first - 1 }] else []) ≤
      if s.first < b.first then 1 else 0 := by
    split
    · simp only [potential, weight, map_cons, map_nil, sum_cons, sum_nil]
      rw [if_neg (by omega), if_neg (by omega)]
      omega
    · exact Nat.le_refl 0
  have habv : b.potential (if b.last < s.last then [{ s with first := b.last + 1 }] else []) ≤
      if b.last < s.last then 1 else 0 := by
    split
    · simp only [potential, weight, map_cons, map_nil, sum_cons, sum_nil]
      rw [if_neg (by omega), if_neg (by omega)]
      omega
    · exact Nat.le_refl 0
  have hweight : b.weight s = 1 + (if s.first < b.first then 1 else 0) +
      (if b.last < s.last then 1 else 0) := by
    simp [weight, hpaint, hlow, hhigh]
  rw [pieces, potential_append, potential_cons, hmid, hweight]
  omega

theorem pending_pieces : b.pending (b.pieces s) = 0 := by
  have hfixed := hb.fixed _ htch.1
  apply sum_eq_zero
  intro x hx
  obtain ⟨d, hd, rfl⟩ := mem_map.1 hx
  rw [if_neg]
  rintro ⟨hpaint, hlow, hhigh⟩
  rcases b.mem_pieces.1 hd with ⟨hless, rfl⟩ | rfl | ⟨hless, rfl⟩
  · simp only at hhigh
    omega
  · simp [hfixed] at hpaint
  · simp only at hlow
    omega

theorem potential_paint (before behind : List (Segment κ)) :
    b.potential (before ++ b.pieces s ++ behind) ≤ b.potential (before ++ s :: behind) := by
  have hpcs := b.potential_pieces hb htch
  rw [potential_append, potential_append, potential_append, potential_cons]
  omega

theorem pending_paint (before behind : List (Segment κ)) :
    b.pending (before ++ b.pieces s ++ behind) < b.pending (before ++ s :: behind) := by
  have hpcs := b.pending_pieces hb htch
  have hone : b.pending (s :: behind) = 1 + b.pending behind := by
    simp [pending, if_pos htch]
  rw [pending_append, pending_append, pending_append, hone]
  omega

end

section

variable (hb : b.Proper unit) (hlab : s.label = d.label) (hnext : s.last + 1 = d.first)
include hb hlab hnext

theorem weight_join : b.weight (join s d) ≤ b.weight s + b.weight d := by
  have hle := hb.le
  unfold weight join
  rw [hlab]
  by_cases hpaint : b.paints d.label = true
  · simp only [hpaint, true_and]
    split <;> split <;> split <;> split <;> split <;> split <;> omega
  · simp [hpaint]

theorem touches_join :
    (if b.Touches (join s d) then 1 else 0) ≤
      (if b.Touches s then 1 else 0) + (if b.Touches d then 1 else 0) := by
  by_cases htch : b.Touches (join s d)
  · rw [if_pos htch]
    obtain ⟨hpaint, hlow, hhigh⟩ := htch
    have hone : b.Touches s ∨ b.Touches d := by
      unfold Touches
      simp only [join] at hpaint hlow hhigh
      rw [← hlab]
      have hle := hb.le
      simp only [hpaint, true_and]
      omega
    rcases hone with h | h
    · rw [if_pos h]
      omega
    · rw [if_pos h]
      omega
  · rw [if_neg htch]
    exact Nat.zero_le _

end

variable [DecidableEq κ]

theorem potential_coalesce (hb : b.Proper unit) (l : List (Segment κ)) :
    b.potential (coalesce l) ≤ b.potential l :=
  coalesce_sum_le l fun _ _ => b.weight_join hb

theorem pending_coalesce (hb : b.Proper unit) (l : List (Segment κ)) :
    b.pending (coalesce l) ≤ b.pending l :=
  coalesce_sum_le l fun _ _ => b.touches_join hb

theorem image_coalesce (h : Spread unit bound l) (n : Nat) (k : κ) :
    b.Image (coalesce l) n k ↔ b.Image l n k := by
  simp only [Image, (coalesce_spread h).2]

end Measure

end Brush

end MuBasecore.SegmentPaint
