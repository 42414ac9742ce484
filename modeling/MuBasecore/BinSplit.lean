import MuBasecore.GetMemoryMap
import MuBasecore.MemoryMapRuns
import MuBasecore.SegmentPaint

/-!
The first half of `CoreGetMemoryMap`: the copy of the memory map, and the bins of
the special memory types painted over its free memory.
-/

namespace MuBasecore.BinSplit

open EfiTypes Word64 SegmentSet SegmentPaint MemoryTypes MemoryMap PageServices MemoryMapLayout
open MemoryMapRuns GetMemoryMap List

def descriptorSegment (d : MemoryDescriptor) : Segment MemoryLabel where
  first := d.physicalStart
  last := d.physicalStart + d.numberOfPages * efiPageSize - 1
  label := (d.type, d.attributes)

def descriptorSegments (map : List MemoryDescriptor) : List (Segment MemoryLabel) :=
  map.map descriptorSegment

@[simp] theorem descSegs_nil : descriptorSegments [] = [] :=
  rfl

@[simp] theorem descSegs_cons (d : MemoryDescriptor) (ds : List MemoryDescriptor) :
    descriptorSegments (d :: ds) = descriptorSegment d :: descriptorSegments ds :=
  rfl

@[simp] theorem descSegs_append (xs ys : List MemoryDescriptor) :
    descriptorSegments (xs ++ ys) = descriptorSegments xs ++ descriptorSegments ys :=
  map_append

@[simp] theorem length_descSegs (map : List MemoryDescriptor) :
    (descriptorSegments map).length = map.length :=
  length_map _

structure Bounded (d : MemoryDescriptor) : Prop where
  pos : 0 < d.numberOfPages
  aligned : efiPageSize ∣ d.physicalStart
  le : d.physicalStart + d.numberOfPages * efiPageSize ≤ memoryEnd

section Descriptors

variable {d e : MemoryDescriptor} {l : List (Segment MemoryLabel)}

theorem bounded_of_spread (h : Spread efiPageSize memoryEnd l) (hd : descriptorSegment d ∈ l) :
    Bounded d := by
  obtain ⟨hle, hfst, hlast, hlt⟩ := h.fits _ hd
  simp only [descriptorSegment] at *
  refine ⟨?_, hfst, ?_⟩ <;> unfold memoryEnd efiPageSize at * <;> omega

theorem Bounded.lt (h : Bounded d) : d.numberOfPages < 2 ^ 52 := by
  have hle := h.le
  unfold memoryEnd efiPageSize at hle
  omega

theorem Bounded.size_eq (h : Bounded d) : d.size = d.numberOfPages * efiPageSize := by
  have hlt := h.lt
  unfold MemoryDescriptor.size shl64 efiPageShift efiPageSize
  omega

theorem Bounded.entryEnd_eq (h : Bounded d) :
    sub64 (add64 d.physicalStart d.size) 1 =
      d.physicalStart + d.numberOfPages * efiPageSize - 1 := by
  rw [h.size_eq]
  obtain ⟨hpos, -, hle⟩ := h
  unfold sub64 add64 memoryEnd efiPageSize at *
  omega

theorem size_eq_iff (h : Spread efiPageSize memoryEnd l) (hd : descriptorSegment d ∈ l)
    (he : descriptorSegment e ∈ l) :
    (add64 d.physicalStart d.size = e.physicalStart ↔
      (descriptorSegment d).last + 1 = (descriptorSegment e).first) ∧
    (sub64 e.physicalStart d.size = d.physicalStart ↔
      (descriptorSegment d).last + 1 = (descriptorSegment e).first) := by
  have hbd := bounded_of_spread h hd
  rw [hbd.size_eq]
  obtain ⟨hpos, -, hle⟩ := hbd
  obtain ⟨hpos', -, hle'⟩ := bounded_of_spread h he
  simp only [descriptorSegment] at *
  unfold add64 sub64 memoryEnd efiPageSize at *
  constructor <;> omega

theorem join_descSeg (hd : Bounded d) (he : Bounded e)
    (hnext : (descriptorSegment d).last + 1 = (descriptorSegment e).first) :
    descriptorSegment { d with numberOfPages := add64 d.numberOfPages e.numberOfPages } =
      join (descriptorSegment d) (descriptorSegment e) := by
  have hsum : add64 d.numberOfPages e.numberOfPages = d.numberOfPages + e.numberOfPages := by
    have := hd.lt
    have := he.lt
    unfold add64
    omega
  have hpos := hd.pos
  simp only [descriptorSegment, join, hsum, Segment.mk.injEq, true_and, and_true] at *
  unfold efiPageSize at *
  omega

end Descriptors

variable {ds : List MemoryDescriptor} {attrs : AttributeMask} {n : Nat} {d : MemoryDescriptor}

theorem mergeNext_eq_coalesceInto
    (h : Spread efiPageSize memoryEnd (descriptorSegments (d :: ds))) :
    descriptorSegments (mergeNext d ds) =
      coalesceInto (descriptorSegment d) (descriptorSegments ds) := by
  induction ds generalizing d with
  | nil => rfl
  | cons next rest ih =>
    have hd := bounded_of_spread (d := d) h (by simp)
    have hnext := bounded_of_spread (d := next) h (by simp)
    have htest := (size_eq_iff (d := d) (e := next) h (by simp) (by simp)).1
    have hlab : (descriptorSegment d).label = (descriptorSegment next).label ↔
        d.type = next.type ∧ d.attributes = next.attributes := by
      simp [descriptorSegment]
    rw [descSegs_cons, coalesceInto, mergeNext]
    simp only [htest, hlab, and_assoc]
    split
    next hmerge =>
      have hjoin := join_descSeg hd hnext hmerge.2.2
      rw [ih, hjoin]
      rw [descSegs_cons, hjoin]
      exact (spread_join [] h (hlab.2 ⟨hmerge.1, hmerge.2.1⟩) hmerge.2.2).1
    · rw [descSegs_cons, ih]
      exact spread_sublist h (sublist_cons_self _ _)

variable {map : List MemoryDescriptor}

theorem merge_eq_coalesce (h : Spread efiPageSize memoryEnd (descriptorSegments map)) :
    descriptorSegments (mergeMemoryMap map) = coalesce (descriptorSegments map) := by
  cases map with
  | nil => rfl
  | cons d ds => exact mergeNext_eq_coalesceInto h

theorem merge_spread (before : List (Segment MemoryLabel))
    (h : Spread efiPageSize memoryEnd (before ++ descriptorSegments map ++ [descriptorSegment d])) :
    Respread efiPageSize memoryEnd (before ++ descriptorSegments map ++ [descriptorSegment d])
      (before ++ descriptorSegments (mergeMemoryMapDescriptor d map)) := by
  induction map generalizing before with
  | nil =>
    rw [descSegs_nil, append_nil] at h ⊢
    exact ⟨h, fun _ _ => Iff.rfl⟩
  | cons e es ih =>
    have he := bounded_of_spread (d := e) h (by simp)
    have hd := bounded_of_spread (d := d) h (by simp)
    have habv := (size_eq_iff (d := e) (e := d) h (by simp) (by simp)).1
    have hbel := (size_eq_iff (d := d) (e := e) h (by simp) (by simp)).2
    have hskip : Respread efiPageSize memoryEnd
        (before ++ descriptorSegments (e :: es) ++ [descriptorSegment d])
        (before ++ descriptorSegments (e :: mergeMemoryMapDescriptor d es)) := by
      simp only [descSegs_cons] at h ⊢
      rw [append_cons before _ (descriptorSegments es)] at h ⊢
      rw [append_cons before _ (descriptorSegments (mergeMemoryMapDescriptor d es))]
      exact ih _ h
    have hjoin : ∀ a b merged, (descriptorSegment a).label = (descriptorSegment b).label →
        (descriptorSegment a).last + 1 = (descriptorSegment b).first →
        descriptorSegment merged = join (descriptorSegment a) (descriptorSegment b) →
        [descriptorSegment a, descriptorSegment b].Perm [descriptorSegment e, descriptorSegment d] →
        Respread efiPageSize memoryEnd
          (before ++ descriptorSegments (e :: es) ++ [descriptorSegment d])
          (before ++ descriptorSegments (merged :: es)) := by
      intro a b merged hlab hnext hmrg hpair
      have hperm : (before ++ descriptorSegments (e :: es) ++ [descriptorSegment d]).Perm
          (before ++ [descriptorSegment a, descriptorSegment b] ++ descriptorSegments es) := by
        rw [append_assoc, append_assoc]
        apply List.Perm.append_left
        refine List.Perm.trans ?_ (hpair.symm.append_right _)
        exact List.Perm.cons _ perm_append_comm
      obtain ⟨hspr, hhold⟩ := spread_join _ (h.perm hperm) hlab hnext
      rw [descSegs_cons merged, hmrg, append_cons before (join _ _)]
      exact ⟨hspr, fun n k => (hhold n k).trans (holds_perm hperm).symm⟩
    rw [mergeMemoryMapDescriptor]
    split
    · exact hskip
    rename_i htype
    split
    · exact hskip
    rename_i hattr
    have hlab : (descriptorSegment e).label = (descriptorSegment d).label := by
      simp only [descriptorSegment, not_not.1 htype, not_not.1 hattr]
    split
    next hnext =>
      exact hjoin e d _ hlab (habv.1 hnext) (join_descSeg he hd (habv.1 hnext)) (List.Perm.refl _)
    split
    next hnext =>
      refine hjoin d e _ hlab.symm (hbel.1 hnext) ?_ (List.Perm.swap _ _ _)
      rw [← join_descSeg hd he (hbel.1 hnext)]
      simp only [descriptorSegment, not_not.1 htype, not_not.1 hattr, add64, add_comm]
    · exact hskip

theorem length_merge (d : MemoryDescriptor) (map : List MemoryDescriptor) :
    (mergeMemoryMapDescriptor d map).length ≤ map.length + 1 := by
  induction map with
  | nil => exact le_refl 1
  | cons e es ih =>
    rw [mergeMemoryMapDescriptor]
    split <;> [skip; split <;> [skip; split <;> [skip; split]]] <;>
      simp only [length_cons] <;> omega

variable {type : EfiMemoryType}

section Split

def binBrush (type : EfiMemoryType) (binStart binEnd : Nat) : Brush MemoryLabel where
  first := binStart
  last := binEnd
  paints := fun k => k.1 == .conventionalMemory
  color := fun k => (type, runtimeAttribute type k.2)

def Adjusted (k : MemoryLabel) : Prop :=
  runtimeAttribute k.1 k.2 = k.2

variable {binStart binEnd : Nat}

theorem runtimeAttribute_idem {type' : EfiMemoryType} (hnamed : type.named = true)
    (attributes : AttributeMask) :
    runtimeAttribute type (runtimeAttribute type' attributes) =
      runtimeAttribute type attributes := by
  have hset : (attributes ||| efiMemoryRuntime) ||| efiMemoryRuntime =
      attributes ||| efiMemoryRuntime := by
    rw [BitVec.or_assoc, BitVec.or_self]
  have hclear : (attributes ||| efiMemoryRuntime) &&& ~~~efiMemoryRuntime =
      attributes &&& ~~~efiMemoryRuntime := by
    ext i hi
    simp only [BitVec.getElem_and, BitVec.getElem_or, BitVec.getElem_not]
    cases efiMemoryRuntime[i] <;> simp
  have hset' : (attributes &&& ~~~efiMemoryRuntime) ||| efiMemoryRuntime =
      attributes ||| efiMemoryRuntime := by
    ext i hi
    simp only [BitVec.getElem_and, BitVec.getElem_or, BitVec.getElem_not]
    cases efiMemoryRuntime[i] <;> simp
  have hclear' : (attributes &&& ~~~efiMemoryRuntime) &&& ~~~efiMemoryRuntime =
      attributes &&& ~~~efiMemoryRuntime := by
    rw [BitVec.and_assoc, BitVec.and_self]
  unfold runtimeAttribute
  cases type.runtime <;> cases type'.named <;> cases type'.runtime <;>
    simp [hnamed, hset, hclear, hset', hclear']

theorem binBrush_proper (hle : binStart ≤ binEnd) (hst : efiPageSize ∣ binStart)
    (hend : efiPageSize ∣ binEnd + 1) (htype : type ≠ .conventionalMemory) :
    (binBrush type binStart binEnd).Proper efiPageSize :=
  ⟨hle, hst, hend, fun _ _ => by simpa [binBrush] using htype⟩

theorem segment_sizeToPages {first last size : Nat} {k : EfiMemoryType}
    (hfst : efiPageSize ∣ first) (hlast : efiPageSize ∣ last + 1)
    (hsize : first + size = last + 1) :
    descriptorSegment ⟨k, first, sizeToPages size, attrs⟩ = ⟨first, last, (k, attrs)⟩ := by
  have hdvd : efiPageSize ∣ size := (Nat.dvd_add_right hfst).1 (hsize ▸ hlast)
  simp only [descriptorSegment, sizeToPages_mul_of_dvd hdvd, Segment.mk.injEq, true_and, and_true]
  omega

structure Ready (map : List MemoryDescriptor) : Prop where
  spread : Spread efiPageSize memoryEnd (descriptorSegments map)
  adjusted : ∀ n k, Holds (descriptorSegments map) n k → Adjusted k

section

variable (h : Ready map)
include h

theorem Ready.bounded (hd : d ∈ map) : Bounded d :=
  bounded_of_spread h.spread (mem_map_of_mem hd)

theorem Ready.adjusted_mem (hd : d ∈ map) : Adjusted (d.type, d.attributes) := by
  have hle := (h.spread.fits _ (mem_map_of_mem hd)).le
  exact h.adjusted d.physicalStart _ ⟨_, mem_map_of_mem hd, ⟨le_rfl, hle⟩, rfl⟩

theorem Ready.merge : Ready (mergeMemoryMap map) := by
  obtain ⟨hspr, hhold⟩ := coalesce_spread h.spread
  rw [← merge_eq_coalesce h.spread] at hspr hhold
  exact ⟨hspr, fun n k hk => h.adjusted n k ((hhold n k).1 hk)⟩

end

section

variable {b : Brush MemoryLabel} (hbin : b = binBrush type binStart binEnd)
include hbin

theorem splitEntry_none (h : ¬ b.Touches (descriptorSegment d)) (hd : Bounded d) :
    splitEntry type binStart binEnd d = none := by
  subst hbin
  have hentryEnd := hd.entryEnd_eq
  unfold splitEntry
  split
  · rfl
  rename_i htype
  simp only [Brush.Touches, binBrush, descriptorSegment, not_not.1 htype, beq_self_eq_true,
    true_and] at h
  rw [if_pos (by omega)]

theorem splitEntry_pieces {last : Nat} (hb : b.Proper efiPageSize)
    (hadjusted : Adjusted (d.type, d.attributes))
    (hseg : descriptorSegment d = ⟨d.physicalStart, last, (d.type, d.attributes)⟩)
    (hentryEnd : sub64 (add64 d.physicalStart d.size) 1 = last)
    (hfits : (descriptorSegment d).Fits efiPageSize memoryEnd)
    (htch : b.Touches (descriptorSegment d)) :
    ∃ pieces, splitEntry type binStart binEnd d = some pieces ∧
      descriptorSegments pieces = b.pieces (descriptorSegment d) := by
  subst hbin
  obtain ⟨hbin, hst, hend, -⟩ := hb
  change binStart ≤ binEnd at hbin
  rw [hseg] at hfits htch ⊢
  obtain ⟨hpaint, hlow, hhigh⟩ := htch
  change d.physicalStart ≤ binEnd at hlow
  change binStart ≤ last at hhigh
  have htype : d.type = .conventionalMemory := of_decide_eq_true hpaint
  obtain ⟨hle, haln, hlastDvd, hlt⟩ := hfits
  simp only [memoryEnd, efiPageSize] at hle haln hlastDvd hlt
  rw [htype, Adjusted] at hadjusted
  have hback : ∀ attributes, runtimeAttribute .conventionalMemory
      (runtimeAttribute type attributes) = runtimeAttribute .conventionalMemory attributes :=
    fun attributes => runtimeAttribute_idem rfl attributes
  unfold splitEntry Brush.pieces binBrush
  simp only [htype, hentryEnd, ne_eq, not_true_eq_false, if_false]
  rw [if_neg (by omega)]
  have haboveSegment : binEnd < last → descriptorSegment
      { type := .conventionalMemory
        physicalStart := add64 binEnd 1
        numberOfPages := sizeToPages (sub64 last binEnd)
        attributes := runtimeAttribute .conventionalMemory (runtimeAttribute type d.attributes) } =
      ⟨binEnd + 1, last, (.conventionalMemory, d.attributes)⟩ := by
    intro habv
    rw [hback, hadjusted, add64_eq (by omega)]
    exact segment_sizeToPages hend hlastDvd (by unfold sub64; omega)
  by_cases hbel : d.physicalStart < binStart
  · rw [if_neg (by omega), if_pos hbel, if_pos hbel]
    have hbelowSegment : descriptorSegment
        { type := .conventionalMemory
          physicalStart := d.physicalStart
          numberOfPages := sizeToPages (sub64 binStart d.physicalStart)
          attributes := d.attributes } =
        ⟨d.physicalStart, binStart - 1, (.conventionalMemory, d.attributes)⟩ :=
      segment_sizeToPages haln (by rwa [Nat.sub_add_cancel (by omega)])
        (by unfold sub64; omega)
    by_cases habv : binEnd < last
    · rw [if_pos habv, if_pos habv, max_eq_right (by omega), min_eq_right (by omega)]
      refine ⟨_, rfl, congrArg₂ cons hbelowSegment
        (congrArg₂ cons ?_ (congrArg₂ cons (haboveSegment habv) rfl))⟩
      exact segment_sizeToPages hst hend
        (show binStart + _ = binEnd + 1 by unfold sub64 add64; omega)
    · rw [if_neg habv, if_neg habv, max_eq_right (by omega), min_eq_left (by omega)]
      refine ⟨_, rfl, congrArg₂ cons hbelowSegment (congrArg₂ cons ?_ rfl)⟩
      exact segment_sizeToPages hst hlastDvd
        (show binStart + _ = last + 1 by unfold sub64 add64; omega)
  · rw [if_neg hbel, max_eq_left (by omega)]
    by_cases habv : binEnd < last
    · rw [if_neg (by omega), if_neg hbel, if_pos habv, if_pos habv,
        min_eq_right (by omega)]
      refine ⟨_, rfl, congrArg₂ cons ?_ (congrArg₂ cons (haboveSegment habv) rfl)⟩
      exact segment_sizeToPages haln hend
        (show d.physicalStart + _ = binEnd + 1 by unfold sub64 add64; omega)
    · rw [if_pos (by omega), if_neg hbel, if_neg habv, min_eq_left (by omega),
        nil_append]
      refine ⟨_, rfl, congrArg₂ cons ?_ rfl⟩
      have hlast := congrArg Segment.last hseg
      simp only [descriptorSegment, setEfiMemoryDescriptorType, Segment.mk.injEq, and_true,
        true_and] at hlast ⊢
      exact hlast

theorem Ready.splitEntry_of_touches (h : Ready map) (hd : d ∈ map) (hb : b.Proper efiPageSize)
    (htch : b.Touches (descriptorSegment d)) :
    ∃ pieces, splitEntry type binStart binEnd d = some pieces ∧
      descriptorSegments pieces = b.pieces (descriptorSegment d) :=
  splitEntry_pieces hbin hb (h.adjusted_mem hd) rfl (h.bounded hd).entryEnd_eq
    (h.spread.fits _ (mem_map_of_mem hd)) htch

theorem splitFirstEntry_cases (h : Ready map) (hds : ds ⊆ map) (hb : b.Proper efiPageSize) :
    splitFirstEntry type binStart binEnd ds = none ∧
        (∀ s ∈ descriptorSegments ds, ¬ b.Touches s) ∨
      ∃ before d behind pieces, ds = before ++ d :: behind ∧
        splitFirstEntry type binStart binEnd ds = some (before ++ pieces ++ behind) ∧
        b.Touches (descriptorSegment d) ∧
        descriptorSegments pieces = b.pieces (descriptorSegment d) := by
  induction ds with
  | nil => exact .inl ⟨rfl, by simp⟩
  | cons d ds ih =>
    have hd : d ∈ map := hds mem_cons_self
    rw [splitFirstEntry]
    by_cases htch : b.Touches (descriptorSegment d)
    · obtain ⟨pieces, hsome, hpts⟩ := h.splitEntry_of_touches hbin hd hb htch
      rw [hsome]
      exact .inr ⟨[], d, ds, pieces, rfl, rfl, htch, hpts⟩
    · rw [splitEntry_none hbin htch (h.bounded hd)]
      rcases ih (subset_of_cons_subset hds) with ⟨hnone, hrest⟩ |
        ⟨before, e, behind, pieces, rfl, hsome, he, hpts⟩
      · rw [hnone]
        refine .inl ⟨rfl, ?_⟩
        simp only [descSegs_cons, mem_cons, forall_eq_or_imp]
        exact ⟨htch, hrest⟩
      · rw [hsome]
        exact .inr ⟨d :: before, e, behind, pieces, rfl, rfl, he, hpts⟩

theorem Ready.paint {before behind pieces : List MemoryDescriptor}
    (h : Ready (before ++ d :: behind)) (hb : b.Proper efiPageSize)
    (hnamed : type.named = true) (htch : b.Touches (descriptorSegment d))
    (hpts : descriptorSegments pieces = b.pieces (descriptorSegment d)) :
    Ready (before ++ pieces ++ behind) := by
  have hspr := h.spread
  rw [descSegs_append, descSegs_cons] at hspr
  refine ⟨?_, ?_⟩
  · rw [descSegs_append, descSegs_append, hpts]
    exact Brush.spread_pieces _ hb hspr htch
  · intro n k hk
    rw [descSegs_append, descSegs_append, hpts, holds_append, holds_append,
      Brush.pieces_holds _ htch] at hk
    have hold : ∀ k', Holds (descriptorSegments before) n k' ∨
        (descriptorSegment d).Has n ∧ (descriptorSegment d).label = k' ∨
        Holds (descriptorSegments behind) n k' → Adjusted k' := by
      intro k' hk'
      apply h.adjusted n k'
      rw [descSegs_append, descSegs_cons, holds_append, holds_cons]
      exact hk'
    rcases hk with (hk | ⟨hn, rfl⟩) | hk
    · exact hold k (.inl hk)
    · rw [hbin, Brush.relabel]
      split
      · exact runtimeAttribute_idem hnamed _
      · exact hold _ (.inr (.inl ⟨hn, rfl⟩))
    · exact hold k (.inr (.inr hk))

theorem splitLoop_eq {memoryMapSize fuel : Nat} (h : Ready map)
    (hb : b.Proper efiPageSize) (hnamed : type.named = true)
    (hfuel : b.pending (descriptorSegments map) < fuel)
    (hroom : descriptorSize * b.potential (descriptorSegments map) ≤ memoryMapSize) :
    ∃ map' bufferSize, splitLoop memoryMapSize type binStart binEnd fuel map =
        .map map' bufferSize ∧ Ready map' ∧
      map'.length ≤ b.potential (descriptorSegments map) ∧
      ∀ n k, Holds (descriptorSegments map') n k ↔ b.Image (descriptorSegments map) n k := by
  induction fuel generalizing map with
  | zero => omega
  | succ fuel ih =>
    have hmrg := h.merge
    have hsegs := merge_eq_coalesce h.spread
    have hpot := b.potential_coalesce hb (descriptorSegments map)
    have hpend := b.pending_coalesce hb (descriptorSegments map)
    have himage := b.image_coalesce h.spread
    rw [← hsegs] at hpot hpend himage
    rw [splitLoop]
    rcases splitFirstEntry_cases hbin hmrg (List.Subset.refl _) hb with ⟨hnone, hclean⟩ |
      ⟨before, d, behind, pieces, hspl, hsome, htch, hpts⟩
    · rw [hnone]
      refine ⟨_, _, rfl, hmrg, ?_, ?_⟩
      · have hlen := b.length_le_potential (descriptorSegments (mergeMemoryMap map))
        rw [length_descSegs] at hlen
        omega
      · intro n k
        rw [← himage, Brush.image_iff_holds _ hclean]
    · rw [hspl] at hmrg
      have hpainted := hmrg.paint hbin hb hnamed htch hpts
      have hsegs' : descriptorSegments (before ++ pieces ++ behind) =
          descriptorSegments before ++ b.pieces (descriptorSegment d) ++
            descriptorSegments behind := by
        rw [descSegs_append, descSegs_append, hpts]
      have hpot' := b.potential_paint hb htch (descriptorSegments before)
        (descriptorSegments behind)
      have hpend' := b.pending_paint hb htch (descriptorSegments before)
        (descriptorSegments behind)
      have himage' := b.image_paint hb htch (descriptorSegments before)
        (descriptorSegments behind)
      rw [← hsegs', ← descSegs_cons, ← descSegs_append, ← hspl]
        at hpot' hpend'
      simp only [← hsegs', ← descSegs_cons, ← descSegs_append, ← hspl] at himage'
      have hlen := b.length_le_potential (descriptorSegments (before ++ pieces ++ behind))
      rw [length_descSegs] at hlen
      have hmul := Nat.mul_le_mul_left descriptorSize (hpot'.trans hpot)
      have hchk : ¬ descriptorSize * (before ++ pieces ++ behind).length > memoryMapSize :=
        Nat.not_lt_of_le (le_trans (Nat.mul_le_mul_left descriptorSize hlen) (hmul.trans hroom))
      rw [hsome]
      simp only [checkRoom, if_neg hchk, Assembly.bind]
      obtain ⟨map', bufferSize, hloop, hrdy, hlen', hhold⟩ :=
        ih hpainted (by omega) (hmul.trans hroom)
      refine ⟨map', bufferSize, hloop, hrdy, by omega, ?_⟩
      intro n k
      rw [hhold, himage', himage]

end

end Split

section Build

variable {memoryMapSize bufferSize : Nat}

theorem foldl_addDescriptor (ds map : List MemoryDescriptor)
    (h : Spread efiPageSize memoryEnd (descriptorSegments ds ++ descriptorSegments map))
    (hroom : descriptorSize * (map.length + ds.length) ≤ memoryMapSize) :
    ∃ map', ds.foldl (addDescriptor memoryMapSize) (.map map bufferSize) = .map map' bufferSize ∧
      Spread efiPageSize memoryEnd (descriptorSegments map') ∧
      map'.length ≤ map.length + ds.length ∧
      ∀ n k, Holds (descriptorSegments map') n k ↔
        Holds (descriptorSegments ds ++ descriptorSegments map) n k := by
  induction ds generalizing map with
  | nil => exact ⟨map, rfl, h, le_rfl, fun _ _ => Iff.rfl⟩
  | cons d ds ih =>
    have hperm : (descriptorSegments (d :: ds) ++ descriptorSegments map).Perm
        (descriptorSegments ds ++ descriptorSegments map ++ [descriptorSegment d]) := by
      exact (perm_append_singleton _ _).symm
    obtain ⟨hspr, hhold⟩ := merge_spread _ (h.perm hperm)
    have hlen := length_merge d map
    rw [length_cons] at hroom ⊢
    have hchk : ¬ descriptorSize * (mergeMemoryMapDescriptor d map).length > memoryMapSize :=
      Nat.not_lt_of_le (le_trans (Nat.mul_le_mul_left _ (by omega)) hroom)
    obtain ⟨map', hfold, hspr', hlen', hhold'⟩ := ih _ hspr
      (le_trans (Nat.mul_le_mul_left _ (by omega)) hroom)
    refine ⟨map', ?_, hspr', by omega, ?_⟩
    · rw [foldl_cons, addDescriptor, Assembly.bind, checkRoom, if_neg hchk]
      exact hfold
    · intro n k
      rw [hhold', hhold, holds_perm hperm]

theorem segment_entry {e : MemoryMapEntry} {l : List (Segment MemoryLabel)}
    (h : Spread efiPageSize memoryEnd l) (he : rangeSegment e.toMemoryRange ∈ l) :
    descriptorSegment (entryDescriptor e) =
      { rangeSegment e.toMemoryRange with
        label := (e.type, runtimeAttribute e.type e.attributes) } := by
  obtain ⟨hle, hfst, hlast, hlt⟩ := h.fits _ he
  simp only [rangeSegment, memoryEnd, efiPageSize] at hle hfst hlast hlt
  exact segment_sizeToPages hfst hlast
    (show e.startAddress + _ = e.endAddress + 1 by unfold sub64 add64; omega)

theorem buildMap_eq {map : List MemoryMapEntry} (h : Spread efiPageSize memoryEnd (segments map))
    (hroom : descriptorSize * map.length ≤ memoryMapSize) :
    ∃ map', buildMap memoryMapSize bufferSize map = .map map' bufferSize ∧ Ready map' ∧
      map'.length ≤ map.length ∧
      ∀ n k, Holds (descriptorSegments map') n k ↔ ∃ e ∈ map,
        (e.startAddress ≤ n ∧ n ≤ e.endAddress) ∧
          (e.type, runtimeAttribute e.type e.attributes) = k := by
  have hsegs : descriptorSegments (map.map entryDescriptor) =
      (segments map).map fun s =>
        { s with label := (s.label.1, runtimeAttribute s.label.1 s.label.2) } := by
    unfold descriptorSegments segments
    rw [map_map, map_map]
    apply map_congr_left
    intro e he
    exact segment_entry h (mem_map_of_mem he)
  have hspr := spread_relabel (fun s => (s.label.1, runtimeAttribute s.label.1 s.label.2)) h
  rw [← hsegs] at hspr
  obtain ⟨map', hfold, hspr', hlen, hhold⟩ := foldl_addDescriptor
    (map.map entryDescriptor) [] (by simpa using hspr) (by simpa using hroom)
  have hhold' : ∀ n k, Holds (descriptorSegments map') n k ↔ ∃ e ∈ map,
      (e.startAddress ≤ n ∧ n ≤ e.endAddress) ∧
        (e.type, runtimeAttribute e.type e.attributes) = k := by
    intro n k
    rw [hhold, descSegs_nil, append_nil, hsegs]
    unfold segments
    simp only [Holds, map_map, mem_map, exists_exists_and_eq_and, Function.comp]
    rfl
  refine ⟨map', hfold, ⟨hspr', ?_⟩, by simpa using hlen, hhold'⟩
  intro n k hk
  obtain ⟨e, -, -, rfl⟩ := (hhold' n k).1 hk
  unfold Adjusted
  cases hnamed : e.type.named with
  | true => exact runtimeAttribute_idem hnamed _
  | false => simp [runtimeAttribute, hnamed]

end Build

variable {s : MemoryState}

section Bins

variable {types : List EfiMemoryType}

def InBin (s : MemoryState) (type : EfiMemoryType) (n : Nat) : Prop :=
  hasBin s type = true ∧ (s.memoryTypeStatistics type).baseAddress ≤ n ∧
    n ≤ (s.memoryTypeStatistics type).maximumAddress

/-- The bins are whole pages and disjoint. -/
structure ProperBins (s : MemoryState) : Prop where
  le : ∀ type, hasBin s type = true →
    (s.memoryTypeStatistics type).baseAddress ≤ (s.memoryTypeStatistics type).maximumAddress
  base_dvd : ∀ type, hasBin s type = true →
    efiPageSize ∣ (s.memoryTypeStatistics type).baseAddress
  maximum_dvd : ∀ type, hasBin s type = true →
    efiPageSize ∣ (s.memoryTypeStatistics type).maximumAddress + 1
  disjoint : ∀ type type', hasBin s type = true → hasBin s type' = true → type ≠ type' →
    (s.memoryTypeStatistics type).maximumAddress < (s.memoryTypeStatistics type').baseAddress ∨
      (s.memoryTypeStatistics type').maximumAddress < (s.memoryTypeStatistics type).baseAddress

def binOf (s : MemoryState) (type : EfiMemoryType) : Brush MemoryLabel :=
  binBrush type (s.memoryTypeStatistics type).baseAddress
    (s.memoryTypeStatistics type).maximumAddress

theorem special_of_hasBin (h : hasBin s type = true) :
    type.named = true ∧ type ≠ .conventionalMemory ∧ type ∈ namedMemoryTypes := by
  have hspecial : type.special = true := (Bool.and_eq_true_iff.1 h).1
  cases type with
  | other code => simp [EfiMemoryType.special] at hspecial
  | _ => first | exact absurd hspecial (by decide) | decide

theorem ProperBins.proper (h : ProperBins s) (hbin : hasBin s type = true) :
    (binOf s type).Proper efiPageSize :=
  binBrush_proper (h.le type hbin) (h.base_dvd type hbin) (h.maximum_dvd type hbin)
    (special_of_hasBin hbin).2.1

def paintBins (s : MemoryState) (types : List EfiMemoryType) (n : Nat) (k : MemoryLabel) :
    MemoryLabel :=
  types.foldl (fun k type => if hasBin s type then (binOf s type).relabel n k else k) k

theorem foldl_splitBin (types : List EfiMemoryType) {memoryMapSize : Nat} (bufferSize : Nat)
    (hbins : ProperBins s) (h : Ready map)
    (hroom : descriptorSize * (map.length + 2 * types.countP (hasBin s)) ≤ memoryMapSize) :
    ∃ map' bufferSize', types.foldl (splitBin memoryMapSize s) (.map map bufferSize) =
        .map map' bufferSize' ∧ Ready map' ∧
      map'.length ≤ map.length + 2 * types.countP (hasBin s) ∧
      ∀ n k, Holds (descriptorSegments map') n k ↔
        ∃ k', Holds (descriptorSegments map) n k' ∧ paintBins s types n k' = k := by
  induction types generalizing map bufferSize with
  | nil =>
    refine ⟨map, bufferSize, rfl, h, le_rfl, fun n k => ?_⟩
    simp [paintBins]
  | cons type types ih =>
    rw [countP_cons] at hroom ⊢
    rw [foldl_cons, splitBin]
    cases hbin : hasBin s type with
    | false =>
      simp only [hbin, Bool.false_eq_true, if_false, add_zero] at hroom ⊢
      obtain ⟨map', bufferSize', hfold, hrdy, hlen, hhold⟩ :=
        ih bufferSize h hroom
      refine ⟨map', bufferSize', hfold, hrdy, hlen, fun n k => ?_⟩
      rw [hhold]
      simp [paintBins, hbin]
    | true =>
      simp only [hbin, if_true] at hroom ⊢
      have hprop := hbins.proper hbin
      have hpot := (binOf s type).potential_le h.spread.apart
      have hpend := (binOf s type).pending_le_length (descriptorSegments map)
      rw [length_descSegs] at hpot hpend
      obtain ⟨map₁, bufferSize₁, hloop, hrdy₁, hlen₁, hhold₁⟩ := splitLoop_eq rfl h hprop
        (special_of_hasBin hbin).1 (Nat.lt_succ_of_le hpend)
        (le_trans (Nat.mul_le_mul_left _ (show _ ≤ map.length +
          2 * (types.countP (hasBin s) + 1) from hpot.trans (by omega))) hroom)
      change map₁.length ≤ (binOf s type).potential _ at hlen₁
      rw [Assembly.bind, hloop]
      obtain ⟨map', bufferSize', hfold, hrdy, hlen, hhold⟩ := ih bufferSize₁ hrdy₁
        (le_trans (Nat.mul_le_mul_left _ (by omega)) hroom)
      refine ⟨map', bufferSize', hfold, hrdy, by omega, fun n k => ?_⟩
      simp only [hhold, hhold₁, Brush.Image, paintBins, foldl_cons, hbin, if_true]
      constructor
      · rintro ⟨k₁, ⟨k', hk', rfl⟩, rfl⟩
        exact ⟨k', hk', rfl⟩
      · rintro ⟨k', hk', rfl⟩
        exact ⟨_, ⟨k', hk', rfl⟩, rfl⟩

theorem paintBins_of_not_inBin {k : MemoryLabel}
    (h : k.1 = .conventionalMemory → ∀ type ∈ types, ¬ InBin s type n) :
    paintBins s types n k = k := by
  induction types with
  | nil => rfl
  | cons type types ih =>
    have hstep : (if hasBin s type then (binOf s type).relabel n k else k) = k := by
      split
      next hbin =>
        rw [Brush.relabel, if_neg]
        rintro ⟨hpaint, hn⟩
        exact h (of_decide_eq_true hpaint) type mem_cons_self ⟨hbin, hn⟩
      · rfl
    rw [paintBins, foldl_cons, hstep]
    exact ih fun htype other hoth => h htype other (mem_cons_of_mem _ hoth)

theorem paintBins_of_inBin (hbins : ProperBins s) (htype : type ∈ types) (hin : InBin s type n) :
    paintBins s types n (.conventionalMemory, attrs) = (type, runtimeAttribute type attrs) := by
  induction types with
  | nil => exact absurd htype (by simp)
  | cons first types ih =>
    rw [paintBins, foldl_cons]
    by_cases heq : first = type
    · subst heq
      have hstep : (if hasBin s first then
          (binOf s first).relabel n (.conventionalMemory, attrs)
          else (.conventionalMemory, attrs)) = (first, runtimeAttribute first attrs) := by
        rw [if_pos hin.1, Brush.relabel, if_pos ⟨rfl, hin.2⟩]
        rfl
      rw [hstep]
      exact paintBins_of_not_inBin fun hconventional =>
        absurd hconventional (special_of_hasBin hin.1).2.1
    · have hstep : (if hasBin s first then
          (binOf s first).relabel n (.conventionalMemory, attrs)
          else (.conventionalMemory, attrs)) = (.conventionalMemory, attrs) := by
        split
        next hbin =>
          rw [Brush.relabel, if_neg]
          rintro ⟨-, hlow, hhigh⟩
          have hdisj := hbins.disjoint first type hbin hin.1 heq
          obtain ⟨-, hlow', hhigh'⟩ := hin
          simp only [binOf, binBrush] at hlow hhigh
          omega
        · rfl
      rw [hstep]
      exact ih ((mem_cons.1 htype).resolve_left (Ne.symm heq))

end Bins

/-- What the first half of `CoreGetMemoryMap` has to say about a byte: free memory in
the bin of a special type has that type, and other memory the type it has in the
memory map, each with the runtime attribute of the type. -/
def Reported (s : MemoryState) (n : Nat) (k : MemoryLabel) : Prop :=
  ∃ e ∈ s.memoryMap, (e.startAddress ≤ n ∧ n ≤ e.endAddress) ∧
    ((∃ type, e.type = .conventionalMemory ∧ InBin s type n ∧
        k = (type, runtimeAttribute type e.attributes)) ∨
      ¬ (e.type = .conventionalMemory ∧ ∃ type, InBin s type n) ∧
        k = (e.type, runtimeAttribute e.type e.attributes))

/-- The descriptors are whole pages, disjoint, and say what the state says. -/
structure Faithful (s : MemoryState) (map : List MemoryDescriptor) : Prop where
  pages : ∀ d ∈ map, 0 < d.numberOfPages ∧ efiPageSize ∣ d.physicalStart ∧
    d.physicalStart + d.numberOfPages * efiPageSize ≤ 2 ^ 64
  disjoint : map.Pairwise fun d e =>
    d.physicalStart + d.numberOfPages * efiPageSize ≤ e.physicalStart ∨
      e.physicalStart + e.numberOfPages * efiPageSize ≤ d.physicalStart
  reported : ∀ n k, (∃ d ∈ map, d.physicalStart ≤ n ∧
    n < d.physicalStart + d.numberOfPages * efiPageSize ∧ (d.type, d.attributes) = k) ↔
      Reported s n k

variable {p : Platform}

theorem Ready.faithful (h : Ready map)
    (hreported : ∀ n k, Holds (descriptorSegments map) n k ↔ Reported s n k) :
    Faithful s map := by
  refine ⟨?_, ?_, ?_⟩
  · intro d hd
    obtain ⟨hpos, haln, hle⟩ := h.bounded hd
    exact ⟨hpos, haln, le_trans hle (Nat.sub_le _ _)⟩
  · refine (pairwise_map.1 h.spread.apart).imp_of_mem ?_
    intro d e hd he hap
    simp only [Segment.Apart, descriptorSegment] at hap
    omega
  · intro n k
    rw [← hreported]
    unfold Holds descriptorSegments
    simp only [mem_map, exists_exists_and_eq_and]
    apply exists_congr
    intro d
    apply and_congr_right
    intro hd
    have hpos := (h.bounded hd).pos
    simp only [Segment.Has, descriptorSegment, and_assoc]
    apply and_congr_right
    intro _
    apply and_congr_left
    intro _
    unfold efiPageSize
    omega

/-- The copy of the memory map with the bins painted over it: the loops end, the
buffer is large enough all along, and the result is what is to be reported. -/
theorem splitBins_faithful {memoryMapSize : Nat} (h : Reachable p s) (hbins : ProperBins s)
    (hroom : descriptorSize * (s.memoryMap.length + 2 * namedMemoryTypes.countP (hasBin s)) ≤
      memoryMapSize) :
    ∃ map bufferSize,
      splitBins memoryMapSize s (buildMap memoryMapSize (requiredSize s) s.memoryMap) =
        .map map bufferSize ∧ Faithful s map ∧
      map.length ≤ s.memoryMap.length + 2 * namedMemoryTypes.countP (hasBin s) := by
  have hspread : Spread efiPageSize memoryEnd (segments s.memoryMap) :=
    spread_sublist (reachable_sound h).spread (sublist_append_left _ _)
  obtain ⟨map₀, hbuild, hready₀, hlength₀, hholds₀⟩ := buildMap_eq hspread
    (le_trans (Nat.mul_le_mul_left _ (Nat.le_add_right _ _)) hroom)
  obtain ⟨map, bufferSize, hsplit, hready, hlength, hholds⟩ := foldl_splitBin namedMemoryTypes
    (requiredSize s) hbins hready₀ (le_trans (Nat.mul_le_mul_left _ (by omega)) hroom)
  refine ⟨map, bufferSize, ?_, hready.faithful ?_, by omega⟩
  · rw [hbuild]
    exact hsplit
  intro n k
  rw [hholds]
  simp only [hholds₀]
  constructor
  · rintro ⟨k', ⟨e, he, hn, rfl⟩, rfl⟩
    refine ⟨e, he, hn, ?_⟩
    by_cases hin : e.type = .conventionalMemory ∧ ∃ type, InBin s type n
    · obtain ⟨htype, type, hin⟩ := hin
      refine Or.inl ⟨type, htype, hin, ?_⟩
      rw [htype, paintBins_of_inBin hbins (special_of_hasBin hin.1).2.2 hin,
        runtimeAttribute_idem (special_of_hasBin hin.1).1]
    · refine Or.inr ⟨hin, paintBins_of_not_inBin ?_⟩
      intro htype type _ hin'
      exact hin ⟨htype, type, hin'⟩
  · rintro ⟨e, he, hn, ⟨type, htype, hin, rfl⟩ | ⟨hin, rfl⟩⟩
    · refine ⟨_, ⟨e, he, hn, rfl⟩, ?_⟩
      rw [htype, paintBins_of_inBin hbins (special_of_hasBin hin.1).2.2 hin,
        runtimeAttribute_idem (special_of_hasBin hin.1).1]
    · refine ⟨_, ⟨e, he, hn, rfl⟩, paintBins_of_not_inBin ?_⟩
      intro htype type _ hin'
      exact hin ⟨htype, type, hin'⟩

def withBin (s : MemoryState) : MemoryState :=
  { s with
    memoryTypeStatistics := fun type =>
      { baseAddress := 0x2000
        maximumAddress := 0x3FFF
        currentNumberOfPages := 0
        numberOfPages := if type = .runtimeServicesData then 2 else 0
        informationIndex := 0 } }

theorem withBin_properBins : ProperBins (withBin s) := by
  have honly : ∀ type, hasBin (withBin s) type = true → type = .runtimeServicesData := by
    intro type htype
    by_contra hne
    simp [hasBin, withBin, hne] at htype
  refine ⟨fun _ _ => show 0x2000 ≤ 0x3FFF by decide, fun _ _ => show 4096 ∣ 0x2000 by decide,
    fun _ _ => show 4096 ∣ 0x3FFF + 1 by decide, ?_⟩
  intro type type' htype htype' hne
  exact absurd ((honly type htype).trans (honly type' htype').symm) hne

theorem lowMemory_splitBins_faithful : ∃ s, Reachable samplePlatform (withBin s) ∧
    s.memoryMap = lowMemoryMap ∧ ∃ map bufferSize,
      splitBins 192 (withBin s) (buildMap 192 (requiredSize (withBin s)) s.memoryMap) =
        .map map bufferSize ∧ Faithful (withBin s) map := by
  obtain ⟨s, hrun, hmap, -⟩ := addLowMemory_run
  have hreach := added_reachable (by decide) (by decide) hrun
  have hreach' : Reachable samplePlatform (withBin s) := by
    obtain ⟨gcd, hspread, hsteps⟩ := hreach
    exact ⟨gcd, hspread, hsteps.tail (Step.environment rfl
      (reachable_sound (added_reachable (by decide) (by decide) hrun)).spread)⟩
  have hroom : descriptorSize * ((withBin s).memoryMap.length +
      2 * namedMemoryTypes.countP (hasBin (withBin s))) ≤ 192 := by
    have hcount : namedMemoryTypes.countP (hasBin (withBin s)) = 1 := rfl
    rw [hcount, show (withBin s).memoryMap = lowMemoryMap from hmap]
    decide
  obtain ⟨map, bufferSize, hsplit, hfaithful, -⟩ :=
    splitBins_faithful hreach' (withBin_properBins) hroom
  exact ⟨s, hreach', hmap, map, bufferSize, hsplit, hfaithful⟩

end MuBasecore.BinSplit
