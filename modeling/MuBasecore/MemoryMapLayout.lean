import MuBasecore.PageServices
import MuBasecore.SegmentSet

/-!
The layout of the memory map: its descriptors are page-aligned, do not overlap
and are merged wherever they can be, and the operations keep it that way.
-/

namespace MuBasecore.MemoryMapLayout

open EfiTypes Word64 SegmentSet GcdMap MemoryTypes MemoryMap PageServices List

abbrev MemoryLabel := EfiMemoryType × AttributeMask

variable {e : MemoryMapEntry} {l : List (Segment MemoryLabel)} {last start : Nat}
  {s s' : MemoryState} {before behind : List MemoryMapEntry}

def rangeSegment (r : MemoryRange) : Segment MemoryLabel where
  first := r.startAddress
  last := r.endAddress
  label := (r.type, r.attributes)

def segments (map : List MemoryMapEntry) : List (Segment MemoryLabel) :=
  map.map fun e => rangeSegment e.toMemoryRange

/-- The memory that `PromoteMemoryResource` would add. -/
def reserve (p : Platform) (map : List GcdMapEntry) : List (Segment MemoryLabel) :=
  (map.filter (promotable p)).map fun e => rangeSegment (promotedRange (promoteEntry p e))

/-- Memory ends in front of the last page of the 64-bit addresses. The GCD map, which all but
the first of the ranges that are added come from, ends at or below `2 ^ 63 - 1`; the first one
ends at or below `MAX_UINT64`, rounded down to a page. -/
def memoryEnd : Nat :=
  2 ^ 64 - efiPageSize

def Sound (p : Platform) (s : MemoryState) : Prop :=
  Territory efiPageSize memoryEnd (segments s.memoryMap) (reserve p s.gcd.memorySpaceMap)

@[simp] theorem segments_cons (e : MemoryMapEntry) (es : List MemoryMapEntry) :
    segments (e :: es) = rangeSegment e.toMemoryRange :: segments es :=
  rfl

@[simp] theorem segments_append (xs ys : List MemoryMapEntry) :
    segments (xs ++ ys) = segments xs ++ segments ys :=
  map_append

variable {type : EfiMemoryType} {es : List MemoryMapEntry} {r : MemoryRange} {p : Platform}

theorem rangeSegment_label_eq {e : MemoryRange} {attributes : AttributeMask} :
    (rangeSegment e).label = (type, attributes) ↔ e.type = type ∧ e.attributes = attributes := by
  simp [rangeSegment]

/-- The address behind a segment does not wrap. -/
theorem lt_of_spread (h : Spread efiPageSize memoryEnd l) : ∀ d ∈ l, d.last + 1 < 2 ^ 64 := by
  intro d hd
  have hlt := (h.fits d hd).lt
  unfold memoryEnd efiPageSize at hlt
  omega

theorem end_lt_of_sound {p : Platform} {s : MemoryState} (h : Sound p s) {e : MemoryMapEntry}
    (he : e ∈ s.memoryMap) : e.endAddress + 1 < 2 ^ 64 :=
  lt_of_spread h.spread (rangeSegment e.toMemoryRange) (mem_append_left _ (mem_map_of_mem he))

theorem absorb_eq_absorbAdjacent {attrs : AttributeMask} (hlast : last + 1 < 2 ^ 64)
    (h : ∀ d ∈ segments es, d.last + 1 < 2 ^ 64) :
    absorb ⟨start, last, (type, attrs)⟩ (segments es) =
      (⟨(absorbAdjacent type attrs start last es).startAddress,
          (absorbAdjacent type attrs start last es).endAddress, (type, attrs)⟩,
        segments (absorbAdjacent type attrs start last es).kept) := by
  induction es generalizing start last with
  | nil => rfl
  | cons e es ih =>
    obtain ⟨he, hes⟩ := forall_mem_cons.1 (segments_cons e es ▸ h)
    change e.endAddress + 1 < 2 ^ 64 at he
    rw [segments_cons]
    have hbel : e.type = type ∧ e.attributes = attrs ∧ add64 e.endAddress 1 = start ↔
        (rangeSegment e.toMemoryRange).label = (type, attrs) ∧
          (rangeSegment e.toMemoryRange).last + 1 = start := by
      rw [rangeSegment_label_eq, and_assoc, add64_eq he]
      rfl
    have habv : e.type = type ∧ e.attributes = attrs ∧ e.startAddress = add64 last 1 ↔
        (rangeSegment e.toMemoryRange).label = (type, attrs) ∧
          (rangeSegment e.toMemoryRange).first = last + 1 := by
      rw [rangeSegment_label_eq, and_assoc, add64_eq hlast]
      rfl
    rw [absorb, absorbAdjacent]
    by_cases hcase : (rangeSegment e.toMemoryRange).label = (type, attrs) ∧
        (rangeSegment e.toMemoryRange).last + 1 = start
    · rw [if_pos hcase, if_pos (hbel.2 hcase)]
      exact ih hlast hes
    rw [if_neg hcase, if_neg (fun hc => hcase (hbel.1 hc))]
    by_cases hcase' : (rangeSegment e.toMemoryRange).label = (type, attrs) ∧
        (rangeSegment e.toMemoryRange).first = last + 1
    · rw [if_pos hcase', if_pos (habv.2 hcase')]
      exact ih he hes
    · rw [if_neg hcase', if_neg (fun hc => hcase' (habv.1 hc))]
      simp only [ih hlast hes, segments_cons]

theorem coreAddRange_eq_some
    (hunw : ∀ d ∈ rangeSegment r :: segments s.memoryMap, d.last + 1 < 2 ^ 64)
    (h : coreAddRange r s = some s') :
    ∃ map depth free,
      s' = { s with
        memoryMap := map
        mapDepth := depth
        freeEntries := free
        memoryMapKey := s.memoryMapKey + 1 } ∧
      (segments map).Perm
        ((absorb (rangeSegment r) (segments s.memoryMap)).1 ::
          (absorb (rangeSegment r) (segments s.memoryMap)).2) := by
  simp only [coreAddRange, pushRange] at h
  split at h
  · obtain ⟨⟩ := h
    refine ⟨_, _, _, rfl, ?_⟩
    rw [show rangeSegment r = ⟨r.startAddress, r.endAddress, (r.type, r.attributes)⟩ from rfl]
    obtain ⟨hlast, hmap⟩ := forall_mem_cons.1 hunw
    change r.endAddress + 1 < 2 ^ 64 at hlast
    rw [absorb_eq_absorbAdjacent hlast hmap, segments_append]
    exact perm_append_comm
  · simp at h

theorem splitFirst_eq_some {test : MemoryMapEntry → Bool}
    (h : splitFirst test es = some (before, e, behind)) :
    es = before ++ e :: behind ∧ test e = true := by
  induction es generalizing before with
  | nil => simp [splitFirst] at h
  | cons d ds ih =>
    rw [splitFirst] at h
    split at h
    next htest =>
      obtain ⟨⟩ := h
      exact ⟨rfl, htest⟩
    split at h
    · simp at h
    next before' d' behind' hrest =>
      obtain ⟨⟩ := h
      obtain ⟨heq, htest⟩ := ih hrest
      exact ⟨by rw [heq, cons_append], htest⟩

theorem pullRange_eq_some (hst : e.startAddress ≤ start)
    (hle : start ≤ last) (hlast : last ≤ e.endAddress) (hend : e.endAddress < 2 ^ 64)
    (h : pullRange before e behind start last s = some s') :
    ∃ map depth free, s' = { s with memoryMap := map, mapDepth := depth, freeEntries := free } ∧
      (segments map).Perm
        (cut (rangeSegment e.toMemoryRange) start last ++ segments (before ++ behind)) := by
  unfold pullRange removeMemoryMapEntry pushRange at h
  have hfst : (rangeSegment e.toMemoryRange).first = e.startAddress := rfl
  have hseglast : (rangeSegment e.toMemoryRange).last = e.endAddress := rfl
  unfold cut
  rw [hfst, hseglast]
  split at h
  next heq =>
    rw [if_neg (by omega)]
    split at h
    next hnil =>
      have hwh : last = e.endAddress := by
        unfold add64 at hnil
        omega
      obtain ⟨⟩ := h
      refine ⟨_, s.mapDepth, _, rfl, ?_⟩
      rw [if_neg (by omega)]
      exact List.Perm.refl _
    next hne =>
      have hlt : last < e.endAddress := by
        by_contra hge
        apply hne
        rw [show last = e.endAddress by omega]
      obtain ⟨⟩ := h
      refine ⟨_, s.mapDepth, s.freeEntries, rfl, ?_⟩
      rw [if_pos hlt, add64_eq (by omega), segments_append, segments_append, segments_cons]
      exact perm_middle
  next hne =>
    rw [if_pos (by omega)]
    have hsub : sub64 start 1 = start - 1 := sub64_eq (by omega) (by omega)
    split at h
    next heq =>
      rw [if_neg (by omega)]
      split at h
      next hnil =>
        rw [hsub, add64_eq (by omega)] at hnil
        omega
      · obtain ⟨⟩ := h
        refine ⟨_, s.mapDepth, s.freeEntries, rfl, ?_⟩
        rw [hsub, segments_append, segments_append, segments_cons]
        exact perm_middle
    next hcenter =>
      rw [if_pos (by omega)]
      split at h
      · obtain ⟨⟩ := h
        refine ⟨_, _, s.freeEntries, rfl, ?_⟩
        rw [hsub, add64_eq (by omega), segments_append, segments_append, segments_append,
          segments_cons]
        exact (perm_append_comm.trans (perm_middle.cons _)).trans (List.Perm.swap _ _ _)
      · simp at h

theorem coreAddRange_sound
    (hsnd : Territory efiPageSize memoryEnd (segments s.memoryMap)
      (rangeSegment r :: reserve p s.gcd.memorySpaceMap))
    (h : coreAddRange r s = some s') :
    Sound p s' ∧ s'.gcd = s.gcd ∧ s'.gcdMemoryLocked = s.gcdMemoryLocked ∧
      ∀ n k, Holds (segments s'.memoryMap) n k ↔
        Holds (rangeSegment r :: segments s.memoryMap) n k := by
  have hspr : Spread efiPageSize memoryEnd
      (rangeSegment r :: segments s.memoryMap ++ reserve p s.gcd.memorySpaceMap) :=
    hsnd.spread.perm perm_middle
  have hunw := fun d hd => lt_of_spread hspr d (mem_append_left _ hd)
  obtain ⟨map, depth, free, rfl, hperm⟩ := coreAddRange_eq_some hunw h
  refine ⟨hsnd.absorb.perm hperm.symm (List.Perm.refl _), rfl, rfl, ?_⟩
  intro n k
  rw [holds_perm hperm]
  exact absorb_holds (hspr.fits _ (by simp)).le hsnd.proper

theorem updateStatistics_eq (c : Conversion) (e : MemoryRange) (start pages : Nat) :
    ∃ statistics information,
      c.updateStatistics e start pages s =
        { s with memoryTypeStatistics := statistics, informationPages := information } := by
  cases c with
  | toAttributes attrs => exact ⟨s.memoryTypeStatistics, s.informationPages, rfl⟩
  | toType newType =>
    simp only [Conversion.updateStatistics, updateMemoryStatistics, setCurrentNumberOfPages]
    repeat' split
    all_goals exact ⟨_, _, rfl⟩

theorem convertRange_sound {c : Conversion} {pages : Nat} {s₁ : MemoryState} (hsnd : Sound p s)
    (hmap : s.memoryMap = before ++ e :: behind) (hst : e.startAddress ≤ start)
    (hle : start ≤ last) (hlast : last ≤ e.endAddress) (hstartDvd : efiPageSize ∣ start)
    (hlastDvd : efiPageSize ∣ last + 1)
    (hpull : pullRange before e behind start last
      (c.updateStatistics e.toMemoryRange start pages s) = some s₁)
    (hadd : coreAddRange (c.range e.toMemoryRange start last) s₁ = some s') :
    Sound p s' ∧ s'.gcd = s.gcd ∧ s'.gcdMemoryLocked = s.gcdMemoryLocked ∧
      ∀ n k, Holds (segments s'.memoryMap) n k ↔
        (start ≤ n ∧ n ≤ last) ∧ (rangeSegment (c.range e.toMemoryRange start last)).label = k ∨
          ¬ (start ≤ n ∧ n ≤ last) ∧ Holds (segments s.memoryMap) n k := by
  have hmid : (segments s.memoryMap).Perm
      (rangeSegment e.toMemoryRange :: segments (before ++ behind)) := by
    rw [hmap, segments_append, segments_append, segments_cons]
    exact perm_middle
  have hterr := hsnd.perm hmid (List.Perm.refl _)
  have hend : e.endAddress + 1 < 2 ^ 64 :=
    lt_of_spread hterr.spread (rangeSegment e.toMemoryRange) (by simp)
  obtain ⟨statistics, information, heq⟩ :=
    updateStatistics_eq c e.toMemoryRange start pages
  rw [heq] at hpull
  obtain ⟨map, depth, free, rfl, hperm⟩ := pullRange_eq_some hst hle hlast (by omega) hpull
  have hrng : rangeSegment (c.range e.toMemoryRange start last) =
      ⟨start, last, (rangeSegment (c.range e.toMemoryRange start last)).label⟩ := by
    cases c <;> rfl
  have hspr := hterr.relabel_spread
    (rangeSegment (c.range e.toMemoryRange start last)).label hst hle hlast hstartDvd hlastDvd
    hperm
  have hunw := lt_of_spread hspr
  rw [← hrng] at hunw
  obtain ⟨map', depth', free', rfl, hperm'⟩ := coreAddRange_eq_some hunw hadd
  rw [hrng] at hperm'
  refine ⟨(hterr.relabel _ hst hle hlast hstartDvd hlastDvd hperm).perm hperm'.symm
    (List.Perm.refl _), rfl, rfl, ?_⟩
  intro n k
  rw [holds_perm hperm', holds_perm hmid]
  exact hterr.relabel_holds _ hst hle hlast hperm

end MuBasecore.MemoryMapLayout
