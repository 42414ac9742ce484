import MuBasecore.FatRuns

/-!
The walks over a cluster chain on any content of the table, corrupt ones
included: when they return, and when they report that the chain is corrupt.
-/

namespace MuBasecore.FatWalks

open FatTable FatSpace FatChains LinkedPath RoundedLoop List

variable {u v w : FatVolume} {c cluster n s start : Nat} {l : List Nat} {oFile : OFile}

def openedFile (start size : Nat) : OFile where
  fileSize := size
  fileCluster := start
  fileCurrentCluster := start
  fileLastCluster := 0
  dirty := false
  isFixedRootDir := false
  position := 0
  posDisk := 0
  posRem := 0

structure SameContents (v u : FatVolume) : Prop extends SameShape v u where
  fat : u.fat = v.fat

/-- The file is empty, or its links end. -/
def Sound (v : FatVolume) (start : Nat) : Prop :=
  start = clusterFree ∨ ∃ l, Links v start l

/-- The chain meets a number outside of the volume that is no end mark, at most
`n` links from its start. -/
def LeavesWithin (v : FatVolume) (start n : Nat) : Prop :=
  ∃ l x, l.length ≤ n ∧ (∀ c ∈ l, v.InRange c) ∧ Path (fatGetFatEntry v) start l x ∧
    ¬ v.InRange x ∧ ¬ endOfFatChain x = true

structure Reports {α : Type} (f : Nat → Option α) (bad : Prop) (report : α → Prop) : Prop where
  returns : ∃ rounds r, f rounds = some r
  reports : ∀ rounds r, f rounds = some r → bad → report r

/-- All walks return and report a corrupt chain: those over the whole chain if
it is not sound, and `FatOFilePosition` if it leaves the volume on the way to
the position. -/
structure WalksOk (v : FatVolume) (start size : Nat) : Prop where
  physicalDirSize : ∀ u, SameContents v u →
    Reports (fun rounds => fatPhysicalDirSize rounds u start) (¬ Sound v start)
      fun r => r.1 = 0
  growEof : ∀ u, SameContents v u → ∀ newSize,
    Reports (fun rounds => fatGrowEof rounds u (openedFile start size) newSize)
      (¬ Sound v start ∧ newSize ≤ 0xFFFFFFFF ∧
        fatSizeToClusters v size < fatSizeToClusters v newSize)
      fun r => r.1 = .volumeCorrupted
  shrinkEof : ∀ u, SameContents v u →
    Reports (fun rounds => fatShrinkEof rounds u (openedFile start size)) (¬ Sound v start)
      fun r => r.1 = .volumeCorrupted
  freeClusters : ∀ u, SameContents v u →
    Reports (fun rounds => fatFreeClusters rounds u start) (¬ Sound v start)
      fun r => r.1 = .volumeCorrupted
  oFilePosition : ∀ u, SameContents v u → ∀ position < uintnSize, ∀ posLimit,
    Reports (fun rounds => fatOFilePosition rounds u (openedFile start size) position posLimit)
      (LeavesWithin v start (position / v.clusterSize))
      fun r => r.1 = .volumeCorrupted

def StopMark (cluster : Nat) : Prop :=
  cluster = clusterFree ∨ cluster = clusterSpecial

/-- The chain runs through the clusters `l` of the volume up to `s`, which ends
it, is one of the marks, or is the reserved second entry with such a mark, which
must not have been changed with the dirty bit on the way. -/
def HandledBy (v : FatVolume) (start : Nat) (l : List Nat) (s : Nat) : Prop :=
  (∀ c ∈ l, v.InRange c) ∧ Path (fatGetFatEntry v) start l s ∧
    (endOfFatChain s = true ∨ StopMark s ∨
      (s = 1 ∧ StopMark (fatGetFatEntry v 1) ∧ (l = [] ∨ v.fatType = .fat12)))

def Handled (v : FatVolume) (start : Nat) : Prop :=
  ∃ l s, HandledBy v start l s

theorem reports_of_returns {α : Type} {f : Nat → Option α} {r : α} {bad : Prop}
    {report : α → Prop} (h : Returns f r) (hr : bad → report r) : Reports f bad report := by
  refine ⟨?_, fun rounds x hx hbad => ?_⟩
  · obtain ⟨rounds, hrnd⟩ := h.exists_rounds
    exact ⟨rounds, r, hrnd⟩
  · rw [h.eq_of_some hx]
    exact hr hbad

theorem SameContents.get (h : SameContents v u) (index : Nat) :
    fatGetFatEntry u index = fatGetFatEntry v index :=
  getFatEntry_congr h.toSameShape (by rw [h.fat])

theorem corrupt_of_end (h : endOfFatChain c = true) : chainCorrupt c = true := by
  rw [endOfFatChain, decide_eq_true_eq] at h
  rw [chainCorrupt, decide_eq_true_eq]
  omega

theorem corrupt_stopMark (h : StopMark c) : chainCorrupt c = true := by
  rw [chainCorrupt, decide_eq_true_eq]
  rcases h with h | h
  · exact .inl h
  · exact .inr h.ge

theorem not_end_of_stopMark (h : StopMark c) : endOfFatChain c = false := by
  rcases h with rfl | rfl <;> decide

theorem stopMark_of_corrupt (h : chainCorrupt c = true)
    (hend : ¬ endOfFatChain c = true) : StopMark c := by
  rw [endOfFatChain, decide_eq_true_eq] at hend
  rw [chainCorrupt, decide_eq_true_eq] at h
  rcases h with h | h
  · exact .inl h
  · exact .inr (by omega)

theorem not_inRange_of_corrupt (h : chainCorrupt c = true) : ¬ v.InRange c := by
  intro hrng
  rw [not_corrupt_of_inRange hrng] at h
  cases h

theorem HandledBy.same (hu : SameContents v u)
    (h : HandledBy v start l s) : HandledBy u start l s := by
  obtain ⟨hrng, hpath, hs⟩ := h
  refine ⟨fun c hc => (hu.inRange_iff).2 (hrng c hc), hpath.congr fun c _ => hu.get c, ?_⟩
  rw [hu.get, hu.fatType]
  exact hs

theorem HandledBy.nodup (h : HandledBy v start l s) : l.Nodup := by
  obtain ⟨hrng, hpath, hs⟩ := h
  refine Path.nodup (fun c => ¬ v.InRange c) hpath (fun c hc => not_not.2 (hrng c hc)) ?_
  rcases hs with hs | hs | ⟨rfl, _⟩
  · exact not_inRange_of_corrupt (corrupt_of_end hs)
  · exact not_inRange_of_corrupt (corrupt_stopMark hs)
  · exact fun hrng => absurd hrng.1 (by decide)

theorem HandledBy.ends_of_sound
    (h : HandledBy v start l s) (hends : endOfFatChain s = true) : Links v start l :=
  ⟨h.1, s, hends, h.2.1⟩

structure Walk (v : FatVolume) (start : Nat) (l : List Nat) (s : Nat) : Prop where
  path : Path (fatGetFatEntry v) start l s
  walked : ∀ c ∈ l, chainCorrupt c = false
  stops : chainCorrupt s = true
  small : ∀ c ∈ l, c ≤ v.maxCluster + 1

theorem HandledBy.walk (h : HandledBy v start l s) :
    ∃ l' s', Walk v start l' s' ∧ (l' = l ∨ l' = l ++ [1]) ∧
      (¬ endOfFatChain s = true → ¬ endOfFatChain s' = true) := by
  obtain ⟨hrng, hpath, hs⟩ := h
  have hwalked : ∀ c ∈ l, chainCorrupt c = false := fun c hc => not_corrupt_of_inRange (hrng c hc)
  have hsml : ∀ c ∈ l, c ≤ v.maxCluster + 1 := fun c hc => (hrng c hc).2
  rcases hs with hs | hs | ⟨rfl, hs, _⟩
  · exact ⟨l, s, ⟨hpath, hwalked, corrupt_of_end hs, hsml⟩, .inl rfl, id⟩
  · exact ⟨l, s, ⟨hpath, hwalked, corrupt_stopMark hs, hsml⟩, .inl rfl, id⟩
  · refine ⟨l ++ [1], fatGetFatEntry v 1, ⟨path_append.2 ⟨1, hpath, rfl, rfl⟩, ?_,
      corrupt_stopMark hs, ?_⟩, .inr rfl, fun _ => by simp [not_end_of_stopMark hs]⟩
    · intro c hc
      rcases mem_append.1 hc with hc | hc
      · exact hwalked c hc
      · rw [mem_singleton.1 hc]
        decide
    · intro c hc
      rcases mem_append.1 hc with hc | hc
      · exact hsml c hc
      · rw [mem_singleton.1 hc]
        omega

theorem Walk.nodup (h : Walk v start l s) : l.Nodup := by
  refine Path.nodup (fun c => chainCorrupt c = true) h.path (fun c hc => ?_) h.stops
  rw [h.walked c hc]
  decide

theorem nodup_length_le (hnd : l.Nodup)
    (hsml : ∀ c ∈ l, c ≤ v.maxCluster + 1) : l.length ≤ v.maxCluster + 2 := by
  have hsub : l ⊆ range (v.maxCluster + 2) := by
    intro c hc
    rw [mem_range]
    have := hsml c hc
    omega
  have := (subperm_of_subset hnd hsub).length_le
  rwa [length_range] at this

theorem Walk.length_le (h : Walk v start l s) : l.length ≤ v.maxCluster + 2 :=
  nodup_length_le h.nodup h.small

theorem walk_bytes_lt (v : FatVolume) (h : n ≤ v.maxCluster + 4) :
    n * v.clusterSize < uintnSize := by
  have hsml := maxCluster_small v
  have hsize : v.clusterSize ≤ 2 ^ 19 := Nat.pow_le_pow_right (by decide) v.alignment_le
  calc n * v.clusterSize ≤ 2 ^ 29 * 2 ^ 19 := Nat.mul_le_mul (by omega) hsize
    _ < uintnSize := by decide

theorem dirSizeLoop_walk (size : Nat)
    (hpath : Path (fatGetFatEntry v) cluster l s) (hwalked : ∀ c ∈ l, chainCorrupt c = false)
    (hstop : chainCorrupt s = true) :
    ∃ r, Returns (fun rounds => dirSizeLoop rounds v cluster size) r ∧
      (¬ endOfFatChain s = true → r.1 = 0) := by
  induction l generalizing v cluster size with
  | nil =>
    obtain rfl := hpath
    by_cases hend : endOfFatChain cluster = true
    · refine ⟨(size, v), Returns.succ rfl (fun n => ?_) (returns_const _), fun h => absurd hend h⟩
      simp [dirSizeLoop, hend]
    · refine ⟨(0, v), Returns.succ rfl (fun n => ?_) (returns_const _), fun _ => rfl⟩
      simp [dirSizeLoop, hend, hstop]
  | cons c l ih =>
    obtain ⟨rfl, hpath⟩ := hpath
    have hc := hwalked cluster mem_cons_self
    have hnotend : ¬ endOfFatChain cluster = true := by
      intro hend
      rw [corrupt_of_end hend] at hc
      cases hc
    have hload := sameTable_load v cluster
    obtain ⟨r, hret, hr⟩ := ih (v := fatLoadFatEntry v cluster)
      ((size + v.clusterSize) % uintnSize) (hpath.congr fun d _ => hload.get d)
      (fun d hd => hwalked d (mem_cons_of_mem _ hd))
    refine ⟨r, Returns.succ rfl (fun n => ?_) hret, hr⟩
    simp [dirSizeLoop, hnotend, hc]

theorem fatFreeClusters_path {m : Nat} (hrng : ∀ c ∈ l, u.InRange c) (hnd : l.Nodup)
    (hpath : Path (fatGetFatEntry u) cluster l m) :
    ∃ u', SameShape u u' ∧
      (l = [] ∨ u.fatType = .fat12 ∨ u.fatDirty = true → fatGetFatEntry u' 1 = fatGetFatEntry u 1) ∧
      (l ≠ [] → u.fatType ≠ .fat12 → u.fatDirty = false → u.dirtyValue = 0xFFFFFFFF →
        fatGetFatEntry u' 1 = clusterLast) ∧
      ∀ r, Returns (fun rounds => fatFreeClusters rounds u' m) r →
        Returns (fun rounds => fatFreeClusters rounds u cluster) r := by
  induction l generalizing u cluster with
  | nil =>
    obtain rfl := hpath
    exact ⟨u, SameShape.refl u, fun _ => rfl, fun h => absurd rfl h, fun r h => h⟩
  | cons c l ih =>
    obtain ⟨rfl, hpath⟩ := hpath
    obtain ⟨hnot, hnd⟩ := nodup_cons.1 hnd
    have hc := hrng cluster mem_cons_self
    have hload := sameTable_load u cluster
    have hc' : (fatLoadFatEntry u cluster).InRange cluster := (hload.inRange_iff).2 hc
    obtain ⟨w, hw⟩ : ∃ w, w = (fatSetFatEntry (fatLoadFatEntry u cluster) cluster
      clusterFree).2 := ⟨_, rfl⟩
    have hshp : SameShape u w := hw ▸ hload.toSameShape.trans (sameShape_set _ _ _)
    have hget : ∀ d ∈ l, fatGetFatEntry w d = fatGetFatEntry u d := by
      intro d hd
      have hdrange := hrng d (mem_cons_of_mem _ hd)
      rw [hw, get_set_ne hc' hdrange.1 (fun heq => hnot (heq ▸ hd)), hload.get]
    obtain ⟨u', hshp', hkeep, hdirty, hret⟩ := ih (u := w)
      (fun d hd => (hshp.inRange_iff).2 (hrng d (mem_cons_of_mem _ hd))) hnd
      (hpath.congr hget)
    have hwdirty : w.fatDirty = (u.fatDirty || u.fatType != .fat12) := by
      rw [hw, set_fatDirty hc', hload.fatDirty, hload.fatType]
    refine ⟨u', hshp.trans hshp', ?_, ?_, fun r hr => ?_⟩
    · intro h
      have hcase : u.fatType = .fat12 ∨ u.fatDirty = true :=
        h.resolve_left (cons_ne_nil _ _)
      have hstep : fatGetFatEntry w 1 = fatGetFatEntry u 1 := by
        rw [hw, get_set_reserved hc' _ (by rw [hload.fatType, hload.fatDirty]; exact hcase),
          hload.get]
      refine (hkeep ?_).trans hstep
      rcases hcase with hcase | hcase
      · exact .inr (.inl (hshp.fatType.trans hcase))
      · exact .inr (.inr (by rw [hwdirty, hcase]; rfl))
    · intro _ htype hclean hvl
      have hstep : fatGetFatEntry w 1 = clusterLast := by
        rw [hw]
        exact get_set_dirty hc' _ (by rwa [hload.fatType]) (by rwa [hload.fatDirty])
          (by rwa [hload.dirtyValue])
      refine (hkeep (.inr (.inr ?_))).trans hstep
      rw [hwdirty]
      simp [htype]
    · refine Returns.succ rfl (fun n => ?_) (hret r hr)
      simp [fatFreeClusters, not_end_of_inRange hc, not_corrupt_of_inRange hc, hw]

theorem fatFreeClusters_end (h : endOfFatChain c = true) :
    Returns (fun rounds => fatFreeClusters rounds u c) (.success, u) := by
  refine Returns.succ rfl (fun n => ?_) (returns_const _)
  simp [fatFreeClusters, h]

theorem fatFreeClusters_mark (u : FatVolume) (h : StopMark c) :
    Returns (fun rounds => fatFreeClusters rounds u c) (.volumeCorrupted, u) := by
  refine Returns.succ rfl (fun n => ?_) (returns_const _)
  simp [fatFreeClusters, not_end_of_stopMark h, corrupt_stopMark h]

variable {r : FatStatus × FatVolume}

theorem fatFreeClusters_reserved
    (h : Returns (fun rounds => fatFreeClusters rounds (fatLoadFatEntry u 1)
      (fatGetFatEntry u 1)) r) :
    Returns (fun rounds => fatFreeClusters rounds u 1) r := by
  refine Returns.succ rfl (fun n => ?_) h
  rfl

theorem fatFreeClusters_handled (h : HandledBy u cluster l s) :
    ∃ r, Returns (fun rounds => fatFreeClusters rounds u cluster) r ∧
      (¬ endOfFatChain s = true → r.1 = .volumeCorrupted) := by
  have hnd := h.nodup
  obtain ⟨hrng, hpath, hs⟩ := h
  obtain ⟨u', _, hkeep, _, hret⟩ := fatFreeClusters_path hrng hnd hpath
  rcases hs with hs | hs | ⟨rfl, hs, hcase⟩
  · exact ⟨_, hret _ (fatFreeClusters_end hs), fun hnot => absurd hs hnot⟩
  · exact ⟨_, hret _ (fatFreeClusters_mark u' hs), fun _ => rfl⟩
  · have hone : fatGetFatEntry u' 1 = fatGetFatEntry u 1 :=
      hkeep (hcase.imp_right .inl)
    rw [← hone] at hs
    exact ⟨_, hret _ (fatFreeClusters_reserved (fatFreeClusters_mark _ hs)), fun _ => rfl⟩

theorem walkLinks_stops (lastCluster : Nat)
    (hpath : Path (fatGetFatEntry v) start l s) (hwalked : ∀ c ∈ l, chainCorrupt c = false)
    (hstop : chainCorrupt s = true) (hn : l.length < n) :
    ∃ w, walkLinks n v start lastCluster = (none, w) := by
  obtain ⟨k, rfl⟩ : ∃ k, n = k + 1 := ⟨n - 1, by omega⟩
  induction l generalizing v start k lastCluster with
  | nil =>
    obtain rfl := hpath
    exact ⟨v, by rw [walkLinks, hstop, if_pos rfl]⟩
  | cons c l ih =>
    obtain ⟨rfl, hpath⟩ := hpath
    have hload := sameTable_load v start
    rw [length_cons] at hn
    obtain ⟨j, rfl⟩ : ∃ j, k = j + 1 := ⟨k - 1, by omega⟩
    obtain ⟨w, hw⟩ := ih (v := fatLoadFatEntry v start) start
      (hpath.congr fun d _ => hload.get d) (fun d hd => hwalked d (mem_cons_of_mem _ hd))
      j (by omega)
    refine ⟨w, ?_⟩
    rw [walkLinks, hwalked start mem_cons_self]
    simpa using hw

theorem fatShrinkEof_corrupt (hsize : fatSizeToClusters u oFile.fileSize ≠ 0)
    (h : walkLinks (fatSizeToClusters u oFile.fileSize) u oFile.fileCluster clusterFree
      = (none, w)) :
    Returns (fun rounds => fatShrinkEof rounds u oFile) (.volumeCorrupted, oFile, w) := by
  simp only [fatShrinkEof, ne_eq, hsize, not_false_eq_true, if_true, h]
  exact returns_const _

theorem fatShrinkEof_freeing {m x : Nat} (hsize : fatSizeToClusters u oFile.fileSize ≠ 0)
    (h : walkLinks (fatSizeToClusters u oFile.fileSize) u oFile.fileCluster clusterFree
      = (some (m, x), w))
    (hfree : Returns (fun rounds => fatFreeClusters rounds (fatSetFatEntry w x clusterLast).2 m)
      r) :
    ∃ oFile', Returns (fun rounds => fatShrinkEof rounds u oFile) (r.1, oFile', r.2) := by
  refine ⟨{ oFile with
    fileCurrentCluster := oFile.fileCluster
    fileLastCluster := x
    dirty := true }, ?_⟩
  simp only [fatShrinkEof, ne_eq, hsize, not_false_eq_true, if_true, h]
  exact hfree.map _

theorem HandledBy.cut (h : HandledBy u start l s) (hn : n < l.length) :
    ∃ x rest m w, walkLinks (n + 1) u start clusterFree = (some (m, x), w) ∧
      HandledBy (fatSetFatEntry w x clusterLast).2 m rest s := by
  have hnd := h.nodup
  obtain ⟨hrng, hpath, hs⟩ := h
  obtain ⟨init, x, rest, m, w, rfl, _, hw, hwalk, hwrange, hrest, hcut⟩ :=
    shrink_cut hrng hnd hpath hn
  refine ⟨x, rest, m, w, hwalk, fun c hc => (hcut.shape.inRange_iff).2 (hrng c (by simp [hc])),
    hrest, ?_⟩
  rcases hs with hs | hs | ⟨rfl, hs, hcase⟩
  · exact .inl hs
  · exact .inr (.inl hs)
  · have htype : u.fatType = .fat12 := by
      rcases hcase with hcase | hcase
      · simp at hcase
      · exact hcase
    have hone : fatGetFatEntry (fatSetFatEntry w x clusterLast).2 1 = fatGetFatEntry u 1 := by
      rw [get_set_reserved hwrange _ (.inl (hw.fatType.trans htype)), hw.get]
    refine .inr (.inr ⟨rfl, ?_, .inr (hcut.shape.fatType.trans htype)⟩)
    rw [hone]
    exact hs

theorem fatShrinkEof_handled (oFile : OFile) (h : HandledBy u oFile.fileCluster l s) :
    ∃ r, Returns (fun rounds => fatShrinkEof rounds u oFile) r ∧
      (¬ endOfFatChain s = true → oFile.fileCluster ≠ clusterFree → r.1 = .volumeCorrupted) := by
  cases hn : fatSizeToClusters u oFile.fileSize with
  | zero =>
    by_cases hst : oFile.fileCluster = clusterFree
    · refine ⟨(.success, oFile, u), ?_, fun _ hne => absurd hst hne⟩
      simp only [fatShrinkEof, hn, ne_eq, not_true_eq_false, if_false, hst, if_true]
      exact returns_const _
    · obtain ⟨r, hret, hr⟩ := fatFreeClusters_handled h
      refine ⟨(r.1, { oFile with
        fileCluster := clusterFree
        fileCurrentCluster := clusterFree
        fileLastCluster := clusterFree
        dirty := true }, r.2), ?_, fun hnot _ => hr hnot⟩
      simp only [fatShrinkEof, hn, ne_eq, not_true_eq_false, if_false, hst]
      exact hret.map _
  | succ n =>
    have hsize : fatSizeToClusters u oFile.fileSize ≠ 0 := by omega
    by_cases hcut : n < l.length
    · obtain ⟨x, rest, m, w, hwalk, hhand⟩ := h.cut hcut
      obtain ⟨r, hret, hr⟩ := fatFreeClusters_handled hhand
      obtain ⟨oFile', hshrink⟩ := fatShrinkEof_freeing hsize (hn ▸ hwalk) hret
      exact ⟨_, hshrink, fun hnot _ => hr hnot⟩
    · obtain ⟨hrng, hpath, hs⟩ := h
      have hwalked : ∀ c ∈ l, chainCorrupt c = false := fun c hc =>
        not_corrupt_of_inRange (hrng c hc)
      by_cases hmark : chainCorrupt s = true
      · obtain ⟨w, hw⟩ := walkLinks_stops (n := n + 1) clusterFree hpath hwalked hmark (by omega)
        exact ⟨_, fatShrinkEof_corrupt hsize (hn ▸ hw), fun _ _ => rfl⟩
      · -- the walk gets to the reserved entry
        obtain ⟨rfl, hs, _⟩ : s = 1 ∧ StopMark (fatGetFatEntry u 1) ∧
            (l = [] ∨ u.fatType = .fat12) := by
          rcases hs with hs | hs | hs
          · exact absurd (corrupt_of_end hs) hmark
          · exact absurd (corrupt_stopMark hs) hmark
          · exact hs
        have hpath' : Path (fatGetFatEntry u) oFile.fileCluster (l ++ [1])
            (fatGetFatEntry u 1) := path_append.2 ⟨1, hpath, rfl, rfl⟩
        have hwalk' : ∀ c ∈ l ++ [1], chainCorrupt c = false := by
          intro c hc
          rcases mem_append.1 hc with hc | hc
          · exact hwalked c hc
          · rw [mem_singleton.1 hc]
            decide
        by_cases hlast : n = l.length
        · obtain ⟨w, hw, hwalk⟩ := walkLinks_path clusterFree hwalk' hpath'
          have hlen : (l ++ [1]).length = n + 1 := by simp [hlast]
          have hgetLast : (l ++ [1]).getLastD clusterFree = 1 := by simp
          rw [hlen, hgetLast] at hwalk
          have hfree := fatFreeClusters_mark (fatSetFatEntry w 1 clusterLast).2 hs
          obtain ⟨oFile', hshrink⟩ := fatShrinkEof_freeing hsize (hn ▸ hwalk) hfree
          exact ⟨_, hshrink, fun _ _ => rfl⟩
        · obtain ⟨w, hw⟩ := walkLinks_stops (n := n + 1) clusterFree hpath' hwalk'
            (corrupt_stopMark hs) (by rw [length_append, length_singleton]; omega)
          exact ⟨_, fatShrinkEof_corrupt hsize (hn ▸ hw), fun _ _ => rfl⟩

theorem findLastCluster_leaves (found : LastCluster) (hrng : ∀ c ∈ l, v.InRange c)
    (hpath : Path (fatGetFatEntry v) cluster l s) (hs : ¬ v.InRange s)
    (hend : ¬ endOfFatChain s = true) :
    ∃ found' w, SameTable v w ∧ found'.corrupt = true ∧
      Returns (fun rounds => findLastCluster rounds v cluster found) (found', w) := by
  induction l generalizing v cluster found with
  | nil =>
    obtain rfl := hpath
    have hout : cluster < minCluster ∨ v.maxCluster + 1 < cluster := by
      rw [FatVolume.InRange] at hs
      omega
    refine ⟨{ found with corrupt := true }, v, ⟨SameShape.refl v, rfl, rfl, rfl, rfl, rfl⟩, rfl,
      Returns.succ rfl (fun n => ?_) (returns_const _)⟩
    simp [findLastCluster, hend, hout]
  | cons c l ih =>
    obtain ⟨rfl, hpath⟩ := hpath
    have hc := hrng cluster mem_cons_self
    have hload := sameTable_load v cluster
    obtain ⟨found', w, hw, hcorr, hret⟩ := ih (v := fatLoadFatEntry v cluster)
      { found with clusterCount := found.clusterCount + 1, fileLastCluster := cluster }
      (fun d hd => (hload.inRange_iff).2 (hrng d (mem_cons_of_mem _ hd)))
      (hpath.congr fun d _ => hload.get d) (fun h => hs ((hload.inRange_iff).1 h))
    refine ⟨found', w, sameTable_trans hload hw, hcorr, Returns.succ rfl (fun n => ?_) hret⟩
    have hin := hc.not_outside
    simp [findLastCluster, not_end_of_inRange hc, hin]

theorem HandledBy.not_inRange (h : HandledBy v start l s) : ¬ v.InRange s := by
  rcases h.2.2 with hs | hs | ⟨rfl, _⟩
  · exact not_inRange_of_corrupt (corrupt_of_end hs)
  · exact not_inRange_of_corrupt (corrupt_stopMark hs)
  · exact fun hrng => absurd hrng.1 (by decide)

theorem HandledBy.table (hw : SameTable v w) (h : HandledBy v start l s) : HandledBy w start l s :=
  h.same ⟨hw.toSameShape, hw.fat⟩

theorem handledBy_fileChain (h : FileChain v start l) : ∃ s, HandledBy v start l s := by
  rcases h with ⟨rfl, rfl⟩ | ⟨_, hrng, e, he, hpath⟩
  · exact ⟨clusterFree, fun c hc => absurd hc not_mem_nil, rfl, .inr (.inl (.inl rfl))⟩
  · exact ⟨e, hrng, hpath, .inl he⟩

theorem fatGrowEof_returns {newSize : Nat} (hsml : ¬ 0xFFFFFFFF < newSize)
    (hmore : fatSizeToClusters u oFile.fileSize < fatSizeToClusters u newSize)
    {status : FatStatus} {oFile' : OFile}
    (h : Returns (fun rounds => growChain rounds u oFile (fatSizeToClusters u oFile.fileSize)
      (fatSizeToClusters u newSize)) (status, oFile', w))
    (hhand : ∃ l s, HandledBy w oFile'.fileCluster l s) :
    ∃ r, Returns (fun rounds => fatGrowEof rounds u oFile newSize) r ∧ r.1 = status := by
  by_cases hstat : status = .success
  · refine ⟨(.success, { oFile' with fileSize := newSize, dirty := true }, w), ?_, hstat.symm⟩
    simp only [fatGrowEof, hsml, if_false, hmore, if_true]
    refine h.bind ?_
    simp only [hstat, if_true]
    exact returns_const _
  · obtain ⟨l, s, hhand⟩ := hhand
    obtain ⟨r, hshrink, _⟩ := fatShrinkEof_handled _ hhand
    refine ⟨(status, r.2), ?_, rfl⟩
    simp only [fatGrowEof, hsml, if_false, hmore, if_true]
    refine h.bind ?_
    simp only [hstat, if_false]
    exact hshrink.map _

theorem growLoop_handled (n : Nat)
    (hch : FileChain w oFile.fileCluster l) (hlast : oFile.fileLastCluster = l.getLastD 0) :
    ∃ status oFile' v', Returns (fun rounds => growLoop rounds n w oFile oFile.fileLastCluster)
        (status, oFile', v') ∧ ∃ l' s', HandledBy v' oFile'.fileCluster l' s' := by
  have hlastOk : LastOk oFile l := by
    rcases lastCluster_cases hch with ⟨rfl, hzero⟩ | ⟨front, x, rfl, hx, _⟩
    · exact .inl (hlast.trans hzero)
    · refine .inr ?_
      rw [hlast, hx]
      simp
  obtain ⟨status, oFile', v', added, hret, hgrown, _⟩ := growLoop_spec n hch hlastOk
  rw [← hlast] at hret
  exact ⟨status, oFile', v', hret, _, handledBy_fileChain hgrown.chain⟩

theorem growLoop_end (hend : endOfFatChain oFile.fileCluster = true) :
    ∃ status oFile' v', Returns (fun rounds => growLoop rounds n w oFile 0) (status, oFile', v') ∧
      ∃ l' s', HandledBy v' oFile'.fileCluster l' s' := by
  have hkept : ∀ u : FatVolume, ∃ l' s', HandledBy u oFile.fileCluster l' s' := fun u =>
    ⟨[], oFile.fileCluster, fun c hc => absurd hc not_mem_nil, rfl, .inl hend⟩
  cases n with
  | zero => exact ⟨.success, oFile, w, returns_const _, hkept w⟩
  | succ n =>
    obtain ⟨c, u, halloc, hu, hc⟩ := fatAllocateCluster_spec w
    suffices hround : ∃ status oFile' v',
        Returns (fun rounds => growRound (growLoop rounds n) oFile 0 c u)
          (status, oFile', v') ∧ ∃ l' s', HandledBy v' oFile'.fileCluster l' s' by
      obtain ⟨status, oFile', v', hret, hhand⟩ := hround
      exact ⟨status, oFile', v', halloc.bind hret, hhand⟩
    rcases hc with rfl | ⟨hmax, hfree⟩
    · refine ⟨.volumeFull, oFile, u, ?_, hkept u⟩
      exact returns_const _
    · have hnotend : endOfFatChain c = false := by
        have hsml := maxCluster_small w
        rw [endOfFatChain, decide_eq_false_iff_not, clusterSpecial, clusterSpecialExt, uintnSize]
        omega
      by_cases hmin : c < minCluster
      · refine ⟨.volumeCorrupted, oFile, u, ?_, hkept u⟩
        simp only [growRound, hnotend, hmin, true_or, if_true, Bool.false_eq_true, if_false]
        exact returns_const _
      · have hrng : w.InRange c := ⟨by omega, hmax⟩
        have hin : ¬ (c < minCluster ∨ u.maxCluster + 1 < c) := by
          rw [hu.shape.maxCluster]
          omega
        have hgrown := grown_first oFile hu hrng hfree
        obtain ⟨status, oFile', v', hret, hhand⟩ :=
          growLoop_handled n hgrown.chain (by simp)
        refine ⟨status, oFile', v', ?_, hhand⟩
        simp only [growRound, hnotend, hin, Bool.false_eq_true, if_false, ne_eq, not_true_eq_false]
        exact hret

variable {size : Nat}

theorem search_handled (h : HandledBy u start l s) (curSize : Nat) :
    ∃ status oFile' w,
      Returns (fun rounds => searchLastCluster rounds u (openedFile start size) curSize)
        (status, oFile', w) ∧
      oFile'.fileCluster = start ∧ SameTable u w ∧
      (status = .success →
        (∃ l', FileChain w oFile'.fileCluster l' ∧ oFile'.fileLastCluster = l'.getLastD 0) ∨
          (endOfFatChain oFile'.fileCluster = true ∧ oFile'.fileLastCluster = 0)) ∧
      (¬ endOfFatChain s = true → start ≠ 0 → status = .volumeCorrupted) := by
  by_cases hst : start = 0
  · subst hst
    refine ⟨.success, openedFile 0 size, u, returns_const _, rfl,
      ⟨SameShape.refl u, rfl, rfl, rfl, rfl, rfl⟩, fun _ => .inl ⟨[], .inl ⟨rfl, rfl⟩, rfl⟩,
      fun _ hne => absurd rfl hne⟩
  · have hfind : ∀ found w, Returns (fun rounds => findLastCluster rounds u start ⟨false, 0, 0⟩)
        (found, w) → Returns (fun rounds => searchLastCluster rounds u (openedFile start size)
          curSize) (if found.corrupt = true ∨ found.clusterCount ≠ curSize then .volumeCorrupted
            else .success, { openedFile start size with
              fileLastCluster := found.fileLastCluster }, w) := by
      intro found w hfnd
      have hcond : (openedFile start size).fileCluster ≠ 0 ∧
          (openedFile start size).fileLastCluster = 0 := ⟨hst, rfl⟩
      simp only [searchLastCluster, hcond, ne_eq, not_false_eq_true, and_self, if_true]
      exact hfnd.map _
    by_cases hend : endOfFatChain s = true
    · have hlnk : Links u start l := h.ends_of_sound hend
      obtain ⟨w, hw, hret⟩ := findLastCluster_links ⟨false, 0, 0⟩ hlnk
      refine ⟨_, _, w, hfind _ w hret, rfl, hw, fun _ => ?_, fun hnot => absurd hend hnot⟩
      by_cases hnil : l = []
      · subst hnil
        obtain rfl : start = s := h.2.1
        exact .inr ⟨hend, rfl⟩
      · exact .inl ⟨l, .inr ⟨hnil, hlnk.congr hw.toSameShape fun c _ => hw.get c⟩, rfl⟩
    · obtain ⟨found, w, hw, hcorr, hret⟩ :=
        findLastCluster_leaves ⟨false, 0, 0⟩ h.1 h.2.1 h.not_inRange hend
      refine ⟨_, _, w, hfind found w hret, rfl, hw, fun hstat => ?_, fun _ _ => ?_⟩
      · simp [hcorr] at hstat
      · simp [hcorr]

theorem fatGrowEof_handled (newSize : Nat) (h : HandledBy u start l s) :
    ∃ r, Returns (fun rounds => fatGrowEof rounds u (openedFile start size) newSize) r ∧
      (¬ endOfFatChain s = true → start ≠ 0 → newSize ≤ 0xFFFFFFFF →
        fatSizeToClusters u size < fatSizeToClusters u newSize → r.1 = .volumeCorrupted) := by
  by_cases hlarge : 0xFFFFFFFF < newSize
  · refine ⟨(.unsupported, openedFile start size, u), ?_, fun _ _ hsml => by omega⟩
    simp only [fatGrowEof, hlarge, if_true]
    exact returns_const _
  · by_cases hmore : fatSizeToClusters u size < fatSizeToClusters u newSize
    · obtain ⟨status, oFile', w, hfind, hst, hw, hfnd, hcorr⟩ :=
        search_handled h (fatSizeToClusters u size)
      have hhand : ∃ l' s', HandledBy w oFile'.fileCluster l' s' := by
        rw [hst]
        exact ⟨l, s, h.table hw⟩
      by_cases hstat : status = .success
      · obtain ⟨status₂, oFile₂, v₂, hloop, hhand₂⟩ : ∃ status₂ oFile₂ v₂,
            Returns (fun rounds => growLoop rounds
              (fatSizeToClusters u newSize - fatSizeToClusters u size) w oFile'
                oFile'.fileLastCluster) (status₂, oFile₂, v₂) ∧
              ∃ l' s', HandledBy v₂ oFile₂.fileCluster l' s' := by
          rcases hfnd hstat with ⟨l', hch, hlast⟩ | ⟨hend, hzero⟩
          · exact growLoop_handled _ hch hlast
          · rw [hzero]
            exact growLoop_end hend
        have hgrow : Returns (fun rounds => growChain rounds u (openedFile start size)
            (fatSizeToClusters u size) (fatSizeToClusters u newSize)) (status₂, oFile₂, v₂) := by
          refine hfind.bind ?_
          simp only [hstat, if_true]
          exact hloop
        obtain ⟨r, hret, hr⟩ := fatGrowEof_returns hlarge hmore hgrow hhand₂
        refine ⟨r, hret, fun hnot hne => ?_⟩
        rw [hcorr hnot hne] at hstat
        cases hstat
      · have hgrow : Returns (fun rounds => growChain rounds u (openedFile start size)
            (fatSizeToClusters u size) (fatSizeToClusters u newSize)) (status, oFile', w) := by
          refine hfind.bind ?_
          simp only [hstat, if_false]
          exact returns_const _
        obtain ⟨r, hret, hr⟩ := fatGrowEof_returns hlarge hmore hgrow hhand
        exact ⟨r, hret, fun hnot hne _ _ => hr.trans (hcorr hnot hne)⟩
    · refine ⟨(.success, { openedFile start size with fileSize := newSize, dirty := true }, u), ?_,
        fun _ _ _ hless => absurd hless hmore⟩
      have hsame : ¬ fatSizeToClusters u (openedFile start size).fileSize <
          fatSizeToClusters u newSize := hmore
      simp only [fatGrowEof, hlarge, if_false, hsame]
      exact returns_const _

end MuBasecore.FatWalks
