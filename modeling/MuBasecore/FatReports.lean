import MuBasecore.FatWalks

/-!
`FatOFilePosition` on any content of the table, and exactly which chains all of
the walks return from and report as corrupt.
-/

namespace MuBasecore.FatReports

open FatTable FatSpace FatChains FatRuns FatWalks LinkedPath RoundedLoop List Nat

variable {l : List Nat} {v : FatVolume} {cluster n position s size start : Nat} {m : Nat}
  {w u : FatVolume} {front : List Nat}

theorem seekCluster_along (pos : Nat)
    (hpath : Path (fatGetFatEntry v) cluster l m) (hwalked : ∀ c ∈ l, chainCorrupt c = false)
    (hlow : pos + l.length * v.clusterSize ≤ position) (hposition : position < uintnSize) :
    ∃ w, SameTable v w ∧ ∀ out,
      Returns (fun rounds =>
        seekCluster rounds w position (pos + l.length * v.clusterSize) m) out →
      Returns (fun rounds => seekCluster rounds v position pos cluster) out := by
  induction l generalizing v cluster pos with
  | nil =>
    obtain rfl := hpath
    refine ⟨v, ⟨SameShape.refl v, rfl, rfl, rfl, rfl, rfl⟩, fun out hret => ?_⟩
    rwa [length_nil, zero_mul] at hret
  | cons c l ih =>
    obtain ⟨rfl, hpath⟩ := hpath
    have hload := sameTable_load v cluster
    have hexpand : pos + (cluster :: l).length * v.clusterSize =
        pos + v.clusterSize + l.length * v.clusterSize := by
      rw [length_cons, add_mul, one_mul]
      omega
    rw [hexpand] at hlow
    have hnext : (pos + v.clusterSize) % uintnSize = pos + v.clusterSize :=
      mod_eq_of_lt (by omega)
    have hmore : pos + v.clusterSize ≤ position := by omega
    obtain ⟨w, hw, hrest⟩ := ih (v := fatLoadFatEntry v cluster)
      (pos + v.clusterSize) (hpath.congr fun d _ => hload.get d)
      (fun d hd => hwalked d (mem_cons_of_mem _ hd))
      (by rw [hload.clusterSize]; exact hlow)
    refine ⟨w, sameTable_trans hload hw, fun out hret => ?_⟩
    rw [hexpand, ← hload.clusterSize] at hret
    refine Returns.succ rfl (fun n => ?_) (hrest out (hload.clusterSize ▸ hret))
    have hc := hwalked cluster mem_cons_self
    simp [seekCluster, hmore, hc, hnext]

theorem seekCluster_found (position pos : Nat)
    (hpath : Path (fatGetFatEntry v) cluster l m) (hwalked : ∀ c ∈ l, chainCorrupt c = false)
    (hlow : pos + l.length * v.clusterSize ≤ position)
    (hhigh : position < pos + (l.length + 1) * v.clusterSize)
    (hbd : pos + (l.length + 1) * v.clusterSize < uintnSize) :
    ∃ w, SameTable v w ∧
      Returns (fun rounds => seekCluster rounds v position pos cluster)
        (some (pos + l.length * v.clusterSize, m), w) := by
  obtain ⟨w, hw, hwalk⟩ := seekCluster_along pos hpath hwalked hlow (by omega)
  refine ⟨w, hw, hwalk _ (Returns.succ rfl (fun n => ?_) (returns_const _))⟩
  rw [add_mul _ 1, one_mul, ← add_assoc] at hhigh hbd
  have hstop : ¬ (pos + l.length * v.clusterSize + w.clusterSize) % uintnSize ≤ position := by
    rw [hw.clusterSize, mod_eq_of_lt hbd]
    omega
  simp [seekCluster, hstop]

theorem seekCluster_corrupt (pos : Nat)
    (hpath : Path (fatGetFatEntry v) cluster l s) (hwalked : ∀ c ∈ l, chainCorrupt c = false)
    (hstop : chainCorrupt s = true)
    (hlow : pos + (l.length + 1) * v.clusterSize ≤ position)
    (hbd : position < uintnSize) :
    ∃ w, Returns (fun rounds => seekCluster rounds v position pos cluster) (none, w) := by
  rw [add_mul _ 1, one_mul, ← add_assoc] at hlow
  obtain ⟨w, hw, hwalk⟩ := seekCluster_along pos hpath hwalked (by omega) hbd
  refine ⟨w, hwalk _ (Returns.succ rfl (fun n => ?_) (returns_const _))⟩
  have hmore : (pos + l.length * v.clusterSize + w.clusterSize) % uintnSize ≤ position := by
    rw [hw.clusterSize, mod_eq_of_lt (by omega)]
    exact hlow
  simp [seekCluster, hmore, hstop]

theorem extendRun_returns (v : FatVolume) (cluster run posLimit : Nat)
    (hclus : cluster ≤ v.maxCluster + 2) :
    ∃ r, Returns (fun rounds => extendRun rounds v cluster run posLimit) r := by
  induction hd : v.maxCluster + 2 - cluster generalizing v cluster run with
  | zero =>
    have hout : ¬ (fatGetFatEntry v cluster = cluster + 1 ∧ run < posLimit) := by
      have hsml := maxCluster_small v
      rw [getFatEntry_outside (by omega), clusterLast, uintnSize]
      omega
    refine ⟨_, Returns.succ rfl (fun n => ?_) (returns_const (run, fatLoadFatEntry v cluster))⟩
    simp [extendRun, hout]
  | succ d ih =>
    by_cases hmore : fatGetFatEntry v cluster = cluster + 1 ∧ run < posLimit
    · have hmax := (sameTable_load v cluster).maxCluster
      obtain ⟨r, hr⟩ := ih (fatLoadFatEntry v cluster) (cluster + 1)
        ((run + v.clusterSize) % uintnSize) (by omega) (by omega)
      refine ⟨r, Returns.succ rfl (fun n => ?_) hr⟩
      simp [extendRun, hmore]
    · refine ⟨_, Returns.succ rfl (fun n => ?_) (returns_const (run, fatLoadFatEntry v cluster))⟩
      simp [extendRun, hmore]

theorem fatOFilePosition_eq (rounds : Nat) (v : FatVolume) (start size position posLimit : Nat) :
    fatOFilePosition rounds v (openedFile start size) position posLimit =
      (seekCluster rounds v position 0 start).bind fun sought =>
        match sought with
        | (none, w) => some (.volumeCorrupted, openedFile start size, w)
        | (some (pos, cluster), w) =>
          if cluster < minCluster ∨ w.maxCluster + 1 < cluster then
            some (.volumeCorrupted, openedFile start size, w)
          else
            (if endOfFatChain cluster then
              some ((pos + w.clusterSize) % uintnSize - position, w)
            else extendRun rounds w cluster ((pos + w.clusterSize) % uintnSize - position)
              posLimit).map fun r => (.success, { openedFile start size with
                posDisk := (w.firstClusterPos + (cluster - minCluster) * w.clusterSize +
                  (position - pos)) % uintnSize
                fileCurrentCluster := cluster
                position := pos
                posRem := r.1 }, r.2) := by
  have hrestart : position < (openedFile start size).position ∨
      (openedFile start size).fileCluster = (openedFile start size).fileCurrentCluster :=
    .inr rfl
  have hroot : (openedFile start size).isFixedRootDir = false := rfl
  have hcluster : (openedFile start size).fileCluster = start := rfl
  simp only [fatOFilePosition, hroot, Bool.false_eq_true, if_false, hrestart, if_true]
  rw [hcluster]
  rcases seekCluster rounds v position 0 start with _ | ⟨_ | ⟨pos, cluster⟩, w⟩
  · rfl
  · rfl
  · rfl

variable {posLimit : Nat}

theorem fatOFilePosition_corrupt
    (h : Returns (fun rounds => seekCluster rounds v position 0 start) (none, w)) :
    Returns (fun rounds => fatOFilePosition rounds v (openedFile start size) position posLimit)
      (.volumeCorrupted, openedFile start size, w) := by
  simp only [fatOFilePosition_eq]
  exact h.bind (returns_const _)

theorem fatOFilePosition_found {pos : Nat}
    (size posLimit : Nat) (h : Returns (fun rounds => seekCluster rounds v position 0 start)
      (some (pos, m), w)) :
    ∃ r, Returns (fun rounds => fatOFilePosition rounds v (openedFile start size) position
        posLimit) r ∧ (r.1 = .volumeCorrupted ↔ ¬ w.InRange m) := by
  simp only [fatOFilePosition_eq]
  by_cases hm : w.InRange m
  · have hin : ¬ (m < minCluster ∨ w.maxCluster + 1 < m) := by
      have := hm.1
      have := hm.2
      omega
    have hnotend : endOfFatChain m = false := by
      simpa using not_end_of_inRange hm
    obtain ⟨run, hrun⟩ := extendRun_returns w m
      ((pos + w.clusterSize) % uintnSize - position) posLimit (le_succ_of_le hm.2)
    refine ⟨(.success, { openedFile start size with
      posDisk := (w.firstClusterPos + (m - minCluster) * w.clusterSize +
        (position - pos)) % uintnSize
      fileCurrentCluster := m
      position := pos
      posRem := run.1 }, run.2), h.bind ?_, ?_⟩
    · simp only [hin, hnotend, if_false, Bool.false_eq_true]
      exact hrun.map _
    · simp [hm]
  · have houtside : m < minCluster ∨ w.maxCluster + 1 < m := by
      rw [FatVolume.InRange] at hm
      omega
    refine ⟨(.volumeCorrupted, openedFile start size, w), h.bind ?_, ?_⟩
    · simp only [houtside, if_true]
      exact returns_const _
    · simp [hm]

theorem position_bounds (v : FatVolume) (position : Nat) :
    position / v.clusterSize * v.clusterSize ≤ position ∧
      position < (position / v.clusterSize + 1) * v.clusterSize := by
  refine ⟨div_mul_le_self position v.clusterSize, ?_⟩
  rw [mul_comm]
  exact lt_mul_div_succ position (clusterSize_pos v)

theorem seekCluster_walk (h : Walk v start l s) (hposition : position < uintnSize) :
    (l.length < position / v.clusterSize ∧
        ∃ w, Returns (fun rounds => seekCluster rounds v position 0 start) (none, w)) ∨
      ∃ front back m w pos, l = front ++ back ∧ front.length = position / v.clusterSize ∧
        Path (fatGetFatEntry v) start front m ∧ Path (fatGetFatEntry v) m back s ∧
        SameTable v w ∧
        Returns (fun rounds => seekCluster rounds v position 0 start) (some (pos, m), w) := by
  obtain ⟨hlow, hhigh⟩ := position_bounds v position
  have hlng := h.length_le
  rcases lt_or_ge l.length (position / v.clusterSize) with hlong | hshrt
  · refine .inl ⟨hlong, seekCluster_corrupt 0 h.path h.walked h.stops ?_ hposition⟩
    have : (l.length + 1) * v.clusterSize ≤ position / v.clusterSize * v.clusterSize :=
      Nat.mul_le_mul_right _ hlong
    omega
  · refine .inr ?_
    obtain ⟨front, back, hspl, hfr⟩ : ∃ front back, l = front ++ back ∧
        front.length = position / v.clusterSize :=
      ⟨_, _, (take_append_drop (position / v.clusterSize) l).symm, length_take_of_le hshrt⟩
    have hpath := h.path
    rw [hspl] at hpath
    obtain ⟨m, hm, hback⟩ := path_append.1 hpath
    have hbd := walk_bytes_lt v (n := position / v.clusterSize + 1) (by omega)
    obtain ⟨w, hw, hret⟩ := seekCluster_found position 0 hm
      (fun c hc => h.walked c (hspl ▸ mem_append_left back hc))
      (by rw [hfr, Nat.zero_add]; exact hlow) (by rw [hfr, Nat.zero_add]; exact hhigh)
      (by rw [hfr, Nat.zero_add]; exact hbd)
    exact ⟨front, back, m, w, _, hspl, hfr, hm, hback, hw, hret⟩

theorem leavesWithin_same (hu : SameContents v u)
    (h : LeavesWithin v start n) : LeavesWithin u start n := by
  obtain ⟨l, x, hlng, hrng, hpath, hx, hend⟩ := h
  exact ⟨l, x, hlng, fun c hc => (hu.inRange_iff).2 (hrng c hc),
    hpath.congr fun c _ => hu.get c, fun h => hx ((hu.inRange_iff).1 h), hend⟩

theorem fatOFilePosition_handled (h : HandledBy u start l s) (hposition : position < uintnSize) :
    ∃ r, Returns (fun rounds => fatOFilePosition rounds u (openedFile start size) position
        posLimit) r ∧
      (LeavesWithin u start (position / u.clusterSize) → r.1 = .volumeCorrupted) := by
  obtain ⟨l', s', hwalk, hl', _⟩ := h.walk
  rcases seekCluster_walk hwalk hposition with ⟨_, w, hnone⟩ |
    ⟨front, back, m, w, startPos, hspl, hfr, hm, hback, hw, hfnd⟩
  · exact ⟨_, fatOFilePosition_corrupt hnone, fun _ => rfl⟩
  · obtain ⟨r, hret, hr⟩ := fatOFilePosition_found size posLimit hfnd
    refine ⟨r, hret, fun hleaves => hr.2 fun hrng => ?_⟩
    obtain ⟨p, x, hp, hprange, hppath, hx, _⟩ := hleaves
    -- the chain leaves the volume behind `l`, so the cluster `m` is further on
    have hpl : p = l := Path.unique (fun c => ¬ u.InRange c) hppath h.2.1
      (fun c hc => not_not.2 (hprange c hc)) (fun c hc => not_not.2 (h.1 c hc)) hx h.not_inRange
    rw [hpl, ← hfr] at hp
    cases back with
    | nil =>
      rw [show m = s' from hback] at hrng
      exact not_inRange_of_corrupt hwalk.stops hrng
    | cons y back =>
      have hlng := congrArg length hspl
      rw [length_append, length_cons] at hlng
      rcases hl' with rfl | rfl
      · omega
      · rw [length_append, length_singleton] at hlng
        have hfl : front.length = l.length := by omega
        obtain ⟨_, hone⟩ := append_inj hspl hfl.symm
        rw [cons.injEq] at hone
        rw [hback.1, ← hone.1] at hrng
        exact absurd hrng.1 (by decide)

theorem end_of_not_sound (h : HandledBy v start l s) (hsnd : ¬ Sound v start) :
    ¬ endOfFatChain s = true ∧ start ≠ clusterFree :=
  ⟨fun hend => hsnd (.inr ⟨l, h.ends_of_sound hend⟩), fun hst => hsnd (.inl hst)⟩

theorem walksOk_of_handled (h : Handled v start) : WalksOk v start size := by
  obtain ⟨l, s, h⟩ := h
  constructor
  · intro u hu
    by_cases hst : start = 0
    · refine reports_of_returns (r := (0, u)) ?_ fun _ => rfl
      simp only [fatPhysicalDirSize, hst, ne_eq, not_true_eq_false, if_false]
      exact returns_const _
    · obtain ⟨l', s', hwalk, _, hends⟩ := (h.same hu).walk
      obtain ⟨r, hret, hr⟩ := dirSizeLoop_walk 0 hwalk.path hwalk.walked hwalk.stops
      refine reports_of_returns (r := r) ?_ fun hsnd => hr (hends (end_of_not_sound h hsnd).1)
      simp only [fatPhysicalDirSize, ne_eq, hst, not_false_eq_true, if_true]
      exact hret
  · intro u hu newSize
    obtain ⟨r, hret, hr⟩ := fatGrowEof_handled newSize (h.same hu)
    refine reports_of_returns hret ?_
    rintro ⟨hsnd, hsml, hmore⟩
    obtain ⟨hend, hst⟩ := end_of_not_sound h hsnd
    refine hr hend hst hsml ?_
    rw [fatSizeToClusters, fatSizeToClusters, hu.clusterSize]
    exact hmore
  · intro u hu
    obtain ⟨r, hret, hr⟩ := fatShrinkEof_handled (openedFile start size) (h.same hu)
    refine reports_of_returns hret fun hsnd => ?_
    obtain ⟨hend, hst⟩ := end_of_not_sound h hsnd
    exact hr hend hst
  · intro u hu
    obtain ⟨r, hret, hr⟩ := fatFreeClusters_handled (h.same hu)
    exact reports_of_returns hret fun hsnd => hr (end_of_not_sound h hsnd).1
  · intro u hu position hposition posLimit
    obtain ⟨r, hret, hr⟩ :=
      fatOFilePosition_handled (h.same hu) hposition
    refine reports_of_returns hret fun hleaves => hr ?_
    rw [hu.clusterSize]
    exact leavesWithin_same hu hleaves

theorem dirSizeLoop_walked {rounds : Nat}
    {r : Nat × FatVolume} (h : dirSizeLoop rounds v cluster size = some r) :
    ∃ l s, Path (fatGetFatEntry v) cluster l s ∧ (∀ c ∈ l, chainCorrupt c = false) ∧
      chainCorrupt s = true ∧ (endOfFatChain s = true →
        r.1 % uintnSize = (size + l.length * v.clusterSize) % uintnSize) := by
  induction rounds generalizing v cluster size with
  | zero => cases h
  | succ rounds ih =>
    rw [dirSizeLoop] at h
    split at h
    next hend =>
      refine ⟨[], cluster, rfl, fun c hc => absurd hc not_mem_nil, corrupt_of_end hend, fun _ => ?_⟩
      rw [← Option.some.inj h, length_nil, zero_mul, add_zero]
    next hend =>
      split at h
      next hcorr =>
        exact ⟨[], cluster, rfl, fun c hc => absurd hc not_mem_nil, hcorr,
          fun hend' => absurd hend' hend⟩
      next hcorr =>
        have hload := sameTable_load v cluster
        obtain ⟨l, s, hpath, hwalked, hs, hsize⟩ := ih h
        refine ⟨cluster :: l, s, ⟨rfl, hpath.congr fun d _ => (hload.get d).symm⟩, ?_, hs,
          fun hend' => ?_⟩
        · intro c hc
          rcases mem_cons.1 hc with rfl | hc
          · simpa using hcorr
          · exact hwalked c hc
        · rw [hsize hend', mod_add_mod, hload.clusterSize, length_cons, add_mul,
            one_mul, add_assoc, add_comm v.clusterSize]

theorem exists_first_outside (v : FatVolume) (l : List Nat) :
    (∀ c ∈ l, v.InRange c) ∨
      ∃ front x back, l = front ++ x :: back ∧ (∀ c ∈ front, v.InRange c) ∧ ¬ v.InRange x := by
  induction l with
  | nil => exact .inl fun c hc => absurd hc not_mem_nil
  | cons y l ih =>
    by_cases hy : v.InRange y
    · rcases ih with hall | ⟨front, x, back, rfl, hfr, hx⟩
      · exact .inl (forall_mem_cons.2 ⟨hy, hall⟩)
      · exact .inr ⟨y :: front, x, back, rfl, forall_mem_cons.2 ⟨hy, hfr⟩, hx⟩
    · exact .inr ⟨[], y, l, rfl, fun c hc => absurd hc not_mem_nil, hy⟩

theorem not_sound_of_leaves (hst : start ≠ clusterFree)
    (h : LeavesWithin v start n) : ¬ Sound v start := by
  obtain ⟨l, x, _, hrng, hpath, hx, hend⟩ := h
  rintro (hfree | ⟨l', hrng', e, he, hpath'⟩)
  · exact hst hfree
  · have hsame : l = l' := Path.unique (fun c => ¬ v.InRange c) hpath hpath'
      (fun c hc => not_not.2 (hrng c hc)) (fun c hc => not_not.2 (hrng' c hc)) hx
      (not_inRange_of_corrupt (corrupt_of_end he))
    rw [hsame] at hpath
    exact hend (hpath.end_eq hpath' ▸ he)

theorem dirSize_ne_zero (hpos : n ≠ 0) (hn : n ≤ v.maxCluster + 4)
    (h : size % uintnSize = (0 + n * v.clusterSize) % uintnSize) : size ≠ 0 := by
  rintro rfl
  rw [Nat.zero_add, mod_eq_of_lt (walk_bytes_lt v hn), zero_mod] at h
  have := Nat.mul_pos (Nat.pos_of_ne_zero hpos) (clusterSize_pos v)
  omega

theorem path_outside {x : Nat}
    (hx : v.maxCluster + 1 < x) (hpath : Path (fatGetFatEntry v) (fatGetFatEntry v x) l s)
    (hwalked : ∀ c ∈ l, chainCorrupt c = false) : l = [] ∧ endOfFatChain s = true := by
  rw [getFatEntry_outside hx] at hpath
  cases l with
  | nil =>
    obtain rfl := hpath
    exact ⟨rfl, by decide⟩
  | cons c l =>
    have hc := hwalked c mem_cons_self
    rw [← hpath.1] at hc
    exact absurd hc (by decide)

theorem reserved_leads_outside (h : WalksOk v start size) (hrng : ∀ c ∈ front, v.InRange c)
    (hlng : front.length ≤ v.maxCluster + 2) (hpath : Path (fatGetFatEntry v) start front 1) :
    ¬ v.InRange (fatGetFatEntry v 1) := by
  intro hin
  have hwalked : ∀ c ∈ front ++ [1], chainCorrupt c = false := by
    intro c hc
    rcases mem_append.1 hc with hc | hc
    · exact not_corrupt_of_inRange (hrng c hc)
    · rw [mem_singleton.1 hc]
      decide
  have hlen : (front ++ [1]).length = front.length + 1 := by simp
  have hbd := walk_bytes_lt v (n := front.length + 1 + 1) (by omega)
  have hpos := clusterSize_pos v
  have hexpand : (front.length + 1 + 1) * v.clusterSize =
      (front.length + 1) * v.clusterSize + v.clusterSize := by
    rw [add_mul _ 1, one_mul]
  obtain ⟨w, hw, hsought⟩ := seekCluster_found ((front.length + 1) * v.clusterSize) 0
    (path_append.2 ⟨1, hpath, rfl, rfl⟩ : Path (fatGetFatEntry v) start (front ++ [1])
      (fatGetFatEntry v 1)) hwalked (by rw [hlen]; omega) (by rw [hlen]; omega)
    (by rw [hlen]; omega)
  obtain ⟨r, hret, hr⟩ := fatOFilePosition_found size 0 hsought
  obtain ⟨rounds, hrnd⟩ := hret.exists_rounds
  have hrep := (h.oFilePosition v ⟨SameShape.refl v, rfl⟩ _ (by omega) 0).reports rounds r
    hrnd ⟨front, 1, by rw [Nat.mul_div_cancel _ hpos]; omega, hrng, hpath,
      fun hone => absurd hone.1 (by decide), by decide⟩
  exact hr.1 hrep ((hw.inRange_iff).2 hin)

def cleanVolume (v : FatVolume) : FatVolume :=
  { v with fatDirty := false, dirtyValue := 0xFFFFFFFF }

theorem reserved_not_rewritten
    (h : WalksOk v start size) (hsnd : ¬ Sound v start) (hrng : ∀ c ∈ front, v.InRange c)
    (hnd : front.Nodup) (hpath : Path (fatGetFatEntry v) start front 1) :
    front = [] ∨ v.fatType = .fat12 := by
  by_contra hnot
  rw [not_or] at hnot
  have hsame : SameContents v (cleanVolume v) := ⟨⟨rfl, rfl, rfl⟩, rfl⟩
  obtain ⟨u', _, _, hdirty, hret⟩ := fatFreeClusters_path (u := cleanVolume v)
    (fun c hc => (hsame.inRange_iff).2 (hrng c hc)) hnd (hpath.congr fun c _ => hsame.get c)
  have hone : endOfFatChain (fatGetFatEntry u' 1) = true := by
    rw [hdirty hnot.1 hnot.2 rfl rfl]
    decide
  obtain ⟨rounds, hrnd⟩ :=
    (hret _ (fatFreeClusters_reserved (fatFreeClusters_end hone))).exists_rounds
  have hrep := (h.freeClusters _ hsame).reports rounds _ hrnd hsnd
  cases hrep

theorem handled_of_walksOk (h : WalksOk v start size) : Handled v start := by
  by_cases hst : start = 0
  · exact ⟨[], start, fun c hc => absurd hc not_mem_nil, rfl, .inr (.inl (.inl hst))⟩
  obtain ⟨⟨rounds, r, hr⟩, hrep⟩ := h.physicalDirSize v ⟨SameShape.refl v, rfl⟩
  replace hrep := hrep rounds r hr
  have hloop : dirSizeLoop rounds v start 0 = some r := by
    rw [fatPhysicalDirSize, if_pos hst] at hr
    exact hr
  obtain ⟨l, s, hpath, hwalked, hs, hsize⟩ := dirSizeLoop_walked hloop
  rcases exists_first_outside v l with hall | ⟨front, x, back, rfl, hfr, hx⟩
  · refine ⟨l, s, hall, hpath, ?_⟩
    by_cases hend : endOfFatChain s = true
    · exact .inl hend
    · exact .inr (.inl (stopMark_of_corrupt hs hend))
  have hnd : (front ++ x :: back).Nodup := Path.nodup (fun c => chainCorrupt c = true)
    hpath (fun c hc => by simp [hwalked c hc]) hs
  have hfrontNodup : front.Nodup := (nodup_append.1 hnd).1
  obtain ⟨y, hfrontPath, hxy, hback⟩ := path_append.1 hpath
  subst hxy
  have hlng : front.length ≤ v.maxCluster + 2 :=
    nodup_length_le hfrontNodup fun c hc => (hfr c hc).2
  have hyWalked : chainCorrupt y = false := hwalked y (by simp)
  have hbackWalked : ∀ c ∈ back, chainCorrupt c = false := fun c hc => hwalked c (by simp [hc])
  have hsnd : ¬ Sound v start := by
    refine not_sound_of_leaves hst (n := front.length)
      ⟨front, y, le_rfl, hfr, hfrontPath, hx, fun hend => ?_⟩
    rw [corrupt_of_end hend] at hyWalked
    cases hyWalked
  have hzero : r.1 = 0 := hrep hsnd
  -- with the end in sight behind at most two such numbers the size is not zero
  have hnotEnd : back.length ≤ 1 → ¬ endOfFatChain s = true := by
    intro hshrt hend
    refine dirSize_ne_zero (n := (front ++ y :: back).length) ?_ ?_ (hsize hend) hzero
    · simp
    · rw [length_append, length_cons]
      omega
  have hone : y = 1 := by
    rw [chainCorrupt, decide_eq_false_iff_not, clusterFree] at hyWalked
    rw [FatVolume.InRange, minCluster] at hx
    by_contra hne
    obtain ⟨hnil, hend⟩ := path_outside (v := v) (x := y) (by omega) hback hbackWalked
    exact hnotEnd (by simp [hnil]) hend
  subst hone
  have houtside := reserved_leads_outside h hfr hlng hfrontPath
  refine ⟨front, 1, hfr, hfrontPath, .inr (.inr ⟨rfl, ?_,
    reserved_not_rewritten h hsnd hfr hfrontNodup hfrontPath⟩)⟩
  cases back with
  | nil =>
    obtain rfl := hback
    exact stopMark_of_corrupt hs (hnotEnd (by simp))
  | cons z back =>
    exfalso
    obtain ⟨rfl, hback⟩ := hback
    have hzWalked := hbackWalked _ mem_cons_self
    rw [chainCorrupt, decide_eq_false_iff_not, clusterFree] at hzWalked
    rw [FatVolume.InRange, minCluster] at houtside
    have hzone : fatGetFatEntry v 1 ≠ 1 := by
      intro hz
      rw [hz] at hnd
      exact absurd (nodup_append.1 hnd).2.1 (by simp)
    obtain ⟨hnil, hend⟩ := path_outside (v := v) (x := fatGetFatEntry v 1) (by omega) hback
      fun c hc => hbackWalked c (mem_cons_of_mem _ hc)
    exact hnotEnd (by simp [hnil]) hend

/-- The walks return and report corrupt chains exactly on those chains that run
through the volume up to their end or to one of the two marks. -/
theorem walksOk_iff_handled (v : FatVolume) (start size : Nat) :
    WalksOk v start size ↔ Handled v start :=
  ⟨handled_of_walksOk, walksOk_of_handled⟩

def cyclicVolume : FatVolume :=
  { smallVolume with
    fat := fun i => [0xF8#8, 0xFF#8, 0xFF#8, 0x02#8, 0xF0#8, 0xFF#8].getD i 0#8 }

theorem dirSizeLoop_cyclic (hc : chainCorrupt cluster = false)
    (hnext : fatGetFatEntry v cluster = cluster) (rounds size : Nat) :
    dirSizeLoop rounds v cluster size = none := by
  induction rounds generalizing v size with
  | zero => rfl
  | succ rounds ih =>
    have hend : ¬ endOfFatChain cluster = true := by
      intro hend
      rw [corrupt_of_end hend] at hc
      cases hc
    rw [dirSizeLoop, if_neg hend, if_neg (by simp [hc]), hnext]
    exact ih (((sameTable_load v cluster).get cluster).trans hnext) _

theorem findLastCluster_cyclic (hc : v.InRange cluster)
    (hnext : fatGetFatEntry v cluster = cluster) (rounds : Nat) (found : LastCluster) :
    findLastCluster rounds v cluster found = none := by
  induction rounds generalizing v found with
  | zero => rfl
  | succ rounds ih =>
    have hin := hc.not_outside
    have hload := sameTable_load v cluster
    simp only [findLastCluster, not_end_of_inRange hc, hin, if_false, Bool.false_eq_true, hnext]
    exact ih ((hload.inRange_iff).2 hc) ((hload.get cluster).trans hnext) _

/-- On a chain that leads back to itself neither the size of a directory nor the
growth of a file is ever finished. -/
theorem cyclicVolume_never_returns :
    fatGetFatEntry cyclicVolume 2 = 2 ∧
      (∀ rounds, fatPhysicalDirSize rounds cyclicVolume 2 = none) ∧
      ∀ rounds, fatGrowEof rounds cyclicVolume (openedFile 2 512) 1024 = none := by
  have hnext : fatGetFatEntry cyclicVolume 2 = 2 := by decide
  refine ⟨hnext, fun rounds => ?_, fun rounds => ?_⟩
  · exact dirSizeLoop_cyclic (by decide) hnext rounds 0
  · have hsearch : searchLastCluster rounds cyclicVolume (openedFile 2 512) 1 = none := by
      have hlast := findLastCluster_cyclic (by decide) hnext rounds ⟨false, 0, 0⟩
      exact congrArg (Option.map _) hlast
    have hgrow : growChain rounds cyclicVolume (openedFile 2 512) 1 2 = none := by
      rw [growChain, hsearch]
      rfl
    exact congrArg (fun grown => Option.bind grown _) hgrow

end MuBasecore.FatReports
