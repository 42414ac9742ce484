import Mathlib

/-!
Lists of labelled segments of natural numbers. A segment is any value with a
first and a last number and a label; `Tiles` says that the segments of a list
follow each other without gap or overlap, `Separated` that no two neighbours
carry one label.
-/

namespace MuBasecore.SegmentList

open List Option

variable {lower upper : Nat} {ε κ : Type*} (first last : ε → Nat) (label : ε → κ)

/-- The segments follow each other without gap or overlap and cover exactly
the numbers from `lower` up to, but not including, `upper`. -/
def Tiles : Nat → Nat → List ε → Prop
  | lower, upper, [] => lower = upper
  | lower, upper, e :: es =>
    first e = lower ∧ first e ≤ last e ∧ Tiles (last e + 1) upper es

def Separated (l : List ε) : Prop :=
  l.IsChain fun a b => label a ≠ label b

variable {first last label} {n : Nat} {l xs es : List ε} {e : ε}

theorem tiles_le (h : Tiles first last lower upper l) : lower ≤ upper := by
  induction l generalizing lower with
  | nil => exact le_of_eq h
  | cons e es ih =>
    obtain ⟨hfst, hle, hrest⟩ := h
    have := ih hrest
    omega

theorem tiles_append {ys : List ε} :
    Tiles first last lower upper (xs ++ ys) ↔
      ∃ middle, Tiles first last lower middle xs ∧ Tiles first last middle upper ys := by
  induction xs generalizing lower with
  | nil => simp [Tiles]
  | cons e es ih =>
    simp only [cons_append, Tiles, ih]
    constructor
    · rintro ⟨hfst, hle, middle, hes, hys⟩
      exact ⟨middle, ⟨hfst, hle, hes⟩, hys⟩
    · rintro ⟨middle, ⟨hfst, hle, hes⟩, hys⟩
      exact ⟨hfst, hle, middle, hes, hys⟩

theorem tiles_singleton :
    Tiles first last lower upper [e] ↔
      first e = lower ∧ first e ≤ last e ∧ last e + 1 = upper := by
  simp [Tiles]

variable {a b : ε}

section

variable (h : Tiles first last lower upper l)
include h

theorem tiles_mem (he : e ∈ l) : lower ≤ first e ∧ first e ≤ last e ∧ last e < upper := by
  induction l generalizing lower with
  | nil => simp at he
  | cons d ds ih =>
    obtain ⟨hfst, hle, hrest⟩ := h
    rcases mem_cons.1 he with rfl | he
    · have := tiles_le hrest
      omega
    · have := ih hrest he
      omega

theorem tiles_pairwise : l.Pairwise fun a b => last a < first b := by
  induction l generalizing lower with
  | nil => exact List.Pairwise.nil
  | cons e es ih =>
    obtain ⟨hfst, hle, hrest⟩ := h
    refine List.Pairwise.cons ?_ (ih hrest)
    intro d hd
    have := tiles_mem hrest hd
    omega

theorem tiles_getElem_lt {i j : Nat} (hij : i < j) (ha : l[i]? = some a)
    (hb : l[j]? = some b) : last a < first b := by
  obtain ⟨hi, rfl⟩ := List.getElem?_eq_some_iff.1 ha
  obtain ⟨hj, rfl⟩ := List.getElem?_eq_some_iff.1 hb
  exact List.pairwise_iff_getElem.1 (tiles_pairwise h) i j hi hj hij

theorem tiles_getElem_le {i j : Nat} (hij : i ≤ j) (ha : l[i]? = some a)
    (hb : l[j]? = some b) : first a ≤ first b ∧ last a ≤ last b := by
  rcases lt_or_eq_of_le hij with hij | rfl
  · have := tiles_getElem_lt h hij ha hb
    have := tiles_mem h (mem_of_getElem? ha)
    have := tiles_mem h (mem_of_getElem? hb)
    omega
  · rw [some.inj (ha.symm.trans hb)]
    exact ⟨le_refl _, le_refl _⟩

theorem tiles_eq_of_mem (ha : a ∈ l) (hb : b ∈ l)
    (hna : first a ≤ n ∧ n ≤ last a) (hnb : first b ≤ n ∧ n ≤ last b) : a = b := by
  obtain ⟨i, hi⟩ := List.getElem?_of_mem ha
  obtain ⟨j, hj⟩ := List.getElem?_of_mem hb
  rcases Nat.lt_trichotomy i j with hij | rfl | hij
  · have := tiles_getElem_lt h hij hi hj
    omega
  · exact some.inj (hi.symm.trans hj)
  · have := tiles_getElem_lt h hij hj hi
    omega

end

theorem tiles_extremes {d : ε} (h : Tiles first last lower upper (e :: es)) (hd : d ∈ e :: es) :
    last e ≤ last d ∧ first d ≤ first ((e :: es).getLast (by simp)) := by
  induction es generalizing e d lower with
  | nil =>
    rw [mem_singleton.1 hd]
    exact ⟨le_refl _, le_refl _⟩
  | cons c cs ih =>
    have hrest : Tiles first last (last e + 1) upper (c :: cs) := h.2.2
    rw [getLast_cons (by simp)]
    rcases mem_cons.1 hd with rfl | hd
    · have hc := (ih hrest (d := c) (by simp)).2
      have := h.2.1
      have := hrest.1
      exact ⟨le_refl _, by omega⟩
    · have hmem := tiles_mem hrest hd
      exact ⟨by omega, (ih hrest hd).2⟩

theorem tiles_getLast (h : Tiles first last lower upper (e :: es)) :
    last ((e :: es).getLast (by simp)) + 1 = upper := by
  induction es generalizing e lower with
  | nil => exact h.2.2
  | cons c cs ih =>
    rw [getLast_cons (by simp)]
    exact ih h.2.2

theorem exists_mem_of_tiles
    (h : Tiles first last lower upper l) (hlo : lower ≤ n) (hup : n < upper) :
    ∃ e ∈ l, first e ≤ n ∧ n ≤ last e := by
  induction l generalizing lower with
  | nil =>
    have : lower = upper := h
    omega
  | cons d ds ih =>
    obtain ⟨hfst, hle, hrest⟩ := h
    by_cases hn : n ≤ last d
    · exact ⟨d, by simp, by omega, hn⟩
    · obtain ⟨e, he, hmem⟩ := ih hrest (by omega)
      exact ⟨e, by simp [he], hmem⟩

/-- The tiling of a non-empty range, read off neighbour by neighbour: the first
segment starts at `lower`, each one starts right after its predecessor, and the
last one ends right below `upper`. -/
theorem tiles_iff_isChain (hl : l ≠ []) :
    Tiles first last lower upper l ↔
      l.head?.map first = some lower ∧ (∀ e ∈ l, first e ≤ last e) ∧
        l.IsChain (fun a b => first b = last a + 1) ∧
        l.getLast?.map (fun e => last e + 1) = some upper := by
  induction l generalizing lower with
  | nil => exact absurd rfl hl
  | cons e es ih =>
    cases es with
    | nil =>
      simp [Tiles, head?_cons]
    | cons d ds =>
      rw [Tiles, ih (by simp)]
      simp only [head?_cons, map_some, some.injEq,
        mem_cons, forall_eq_or_imp, isChain_cons_cons,
        getLast?_cons_cons]
      tauto

theorem sum_length_le (start : ε → Nat) {length : ε → Nat}
    (hdisj : l.Pairwise fun x y =>
      start x + length x ≤ start y ∨ start y + length y ≤ start x)
    (hlo : ∀ x ∈ l, lower ≤ start x) (hup : ∀ x ∈ l, start x + length x ≤ upper) :
    (l.map length).sum ≤ upper - lower := by
  have hnd : (l.flatMap fun x => range' (start x) (length x)).Nodup := by
    refine nodup_flatMap.2 ⟨fun x _ => nodup_range', hdisj.imp ?_⟩
    intro x y hxy n hx hy
    rw [mem_range'_1] at hx hy
    omega
  have hsub : (l.flatMap fun x => range' (start x) (length x)).toFinset ⊆
      Finset.Ico lower upper := by
    intro n hn
    obtain ⟨x, hx, hmem⟩ := mem_flatMap.1 (mem_toFinset.1 hn)
    rw [mem_range'_1] at hmem
    have := hlo x hx
    have := hup x hx
    rw [Finset.mem_Ico]
    omega
  have hcard := Finset.card_le_card hsub
  rw [toFinset_card_of_nodup hnd, length_flatMap, Nat.card_Ico] at hcard
  simpa using hcard

theorem separated_append {ys : List ε} :
    Separated label (xs ++ ys) ↔
      Separated label xs ∧ Separated label ys ∧
        ∀ x ∈ xs.getLast?, ∀ y ∈ ys.head?, label x ≠ label y :=
  isChain_append

theorem separated_reverse : Separated label l.reverse ↔ Separated label l := by
  unfold Separated
  rw [isChain_reverse]
  simp only [ne_comm]

theorem separated_concat_congr (hab : label a = label b)
    (h : Separated label (xs ++ [a])) : Separated label (xs ++ [b]) := by
  rw [separated_append] at h ⊢
  refine ⟨h.1, List.IsChain.singleton b, ?_⟩
  intro x hx y hy
  have hy' : b = y := by simpa using hy
  subst hy'
  rw [← hab]
  exact h.2.2 x hx a (by simp)

theorem separated_cons_congr (hab : label a = label b)
    (h : Separated label (a :: xs)) : Separated label (b :: xs) := by
  cases xs with
  | nil => exact List.IsChain.singleton b
  | cons x xs =>
    rw [Separated, isChain_cons_cons] at h ⊢
    exact ⟨hab ▸ h.1, h.2⟩

end MuBasecore.SegmentList
