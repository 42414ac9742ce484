import MuBasecore.FatSpace
import MuBasecore.LinkedPath
import MuBasecore.RoundedLoop

/-!
The cluster chain of a file as a list, and what freeing, allocating, shrinking
and growing do to it and to the free cluster count.
-/

namespace MuBasecore.FatChains

open FatTable FatSpace LinkedPath RoundedLoop List Nat

variable {v v' v₁ v₂ w : FatVolume} {c i start value x : Nat} {l l' : List Nat} {oFile : OFile}

def Links (v : FatVolume) (start : Nat) (l : List Nat) : Prop :=
  (∀ c ∈ l, v.InRange c) ∧ ∃ e, endOfFatChain e = true ∧ Path (fatGetFatEntry v) start l e

def FileChain (v : FatVolume) (start : Nat) (l : List Nat) : Prop :=
  (l = [] ∧ start = clusterFree) ∨ (l ≠ [] ∧ Links v start l)

theorem not_end_of_inRange (h : v.InRange c) : ¬ endOfFatChain c = true := by
  have := not_endOfFatChain_of_inRange h
  simp only [endOfFatChain, decide_eq_true_eq]
  omega

theorem not_corrupt_of_inRange (h : v.InRange c) : chainCorrupt c = false := by
  have hspecial := not_endOfFatChain_of_inRange h
  have hmin : 2 ≤ c := h.1
  rw [chainCorrupt, decide_eq_false_iff_not]
  change ¬ (c = 0 ∨ clusterSpecial ≤ c)
  omega

theorem ne_free_of_end {e : Nat} (h : endOfFatChain e = true) : e ≠ clusterFree := by
  rintro rfl
  exact absurd h (by decide)

theorem Links.nodup (h : Links v start l) : l.Nodup := by
  obtain ⟨hrng, e, he, hpath⟩ := h
  exact hpath.nodup _ (fun c hc => not_end_of_inRange (hrng c hc)) he

theorem FileChain.inRange (h : FileChain v start l) : ∀ c ∈ l, v.InRange c := by
  rcases h with ⟨rfl, _⟩ | ⟨_, h⟩
  · exact fun c hc => absurd hc not_mem_nil
  · exact h.1

theorem FileChain.nodup (h : FileChain v start l) : l.Nodup := by
  rcases h with ⟨rfl, _⟩ | ⟨_, h⟩
  · exact nodup_nil
  · exact h.nodup

theorem FileChain.links (h : FileChain v start l) (hne : l ≠ []) : Links v start l :=
  (h.resolve_left fun h => hne h.1).2

theorem Links.start_ne_free (h : Links v start l) (hne : l ≠ []) : start ≠ clusterFree := by
  obtain ⟨c, l, rfl⟩ := exists_cons_of_ne_nil hne
  obtain ⟨hrng, e, _, rfl, _⟩ := h
  have hmin : 2 ≤ start := (hrng start mem_cons_self).1
  change start ≠ 0
  omega

theorem Links.congr (hshp : SameShape v v')
    (h : Links v start l) (hsame : ∀ c ∈ l, fatGetFatEntry v' c = fatGetFatEntry v c) :
    Links v' start l := by
  obtain ⟨hrng, e, he, hpath⟩ := h
  exact ⟨fun c hc => (hshp.inRange_iff).2 (hrng c hc), e, he, hpath.congr hsame⟩

theorem FileChain.congr (hshp : SameShape v v')
    (h : FileChain v start l) (hsame : ∀ c ∈ l, fatGetFatEntry v' c = fatGetFatEntry v c) :
    FileChain v' start l := by
  rcases h with h | ⟨hne, h⟩
  · exact .inl h
  · exact .inr ⟨hne, h.congr hshp hsame⟩

theorem Links.get_ne_free (h : Links v start l)
    (hc : c ∈ l) : fatGetFatEntry v c ≠ clusterFree := by
  obtain ⟨hrng, e, he, hpath⟩ := h
  obtain ⟨front, back, rfl⟩ := append_of_mem hc
  obtain ⟨m, _, hm⟩ := path_append.1 hpath
  have hnext := hm.2
  cases back with
  | nil =>
    rw [show fatGetFatEntry v c = e from hnext]
    exact ne_free_of_end he
  | cons d back =>
    rw [hnext.1]
    have hd : 2 ≤ d := (hrng d (by simp)).1
    change d ≠ 0
    omega

theorem FileChain.get_ne_free
    (h : FileChain v start l) (hc : c ∈ l) : fatGetFatEntry v c ≠ clusterFree := by
  rcases h with ⟨rfl, _⟩ | ⟨_, h⟩
  · exact absurd hc not_mem_nil
  · exact h.get_ne_free hc

def freeEntries (v : FatVolume) : Nat :=
  ((Finset.Icc minCluster (v.maxCluster + 1)).filter
    (fun c => fatGetFatEntry v c = clusterFree)).card

def CountOk (v : FatVolume) : Prop :=
  v.clusterCount = freeEntries v

theorem freeEntries_le (v : FatVolume) : freeEntries v ≤ v.maxCluster := by
  refine (Finset.card_filter_le _ _).trans ?_
  rw [card_Icc, minCluster]
  omega

theorem maxCluster_small (v : FatVolume) : v.maxCluster + 1 < 2 ^ 28 := by
  refine lt_trans v.maxCluster_lt ?_
  cases v.fatType <;> decide

theorem freeEntries_congr (hshp : SameShape v v')
    (h : ∀ c, v.InRange c → fatGetFatEntry v' c = fatGetFatEntry v c) :
    freeEntries v' = freeEntries v := by
  rw [freeEntries, freeEntries, hshp.maxCluster]
  congr 1
  apply Finset.filter_congr
  intro c hc
  rw [h c (Finset.mem_Icc.1 hc)]

def Storable (v : FatVolume) (value : Nat) : Prop :=
  value = clusterFree ∨ value = clusterLast ∨ v.InRange value

theorem Storable.get_set (hi : v.InRange i) (h : Storable v value) :
    fatGetFatEntry (fatSetFatEntry v i value).2 i = value := by
  rcases h with rfl | rfl | h
  · exact get_set_free hi
  · exact get_set_last hi
  · exact get_set_cluster hi h

theorem set_clusterCount (hi : v.InRange i) (value : Nat) :
    (fatSetFatEntry v i value).2.clusterCount =
      if value = clusterFree ∧ fatGetFatEntry v i ≠ clusterFree then
        (v.clusterCount + 1) % 2 ^ 32
      else if value ≠ clusterFree ∧ fatGetFatEntry v i = clusterFree then v.clusterCount - 1
      else v.clusterCount := by
  have hmark : ∀ u : FatVolume, (markDirty u).clusterCount = u.clusterCount := by
    intro u
    unfold markDirty
    split <;> rfl
  rw [fatSetFatEntry, if_neg (not_lt.2 hi.1)]
  change (markDirty _).clusterCount = _
  rw [hmark, updateFreeInfo]
  split
  · exact congrArg (fun n => (n + 1) % 2 ^ 32) (sameTable_load v i).clusterCount
  · split
    · exact congrArg (fun n => n - 1) (sameTable_load v i).clusterCount
    · exact (sameTable_load v i).clusterCount

theorem CountOk.set (h : CountOk v) (hi : v.InRange i)
    (hvl : Storable v value) : CountOk (fatSetFatEntry v i value).2 := by
  have hshp := sameShape_set v i value
  have hcnt := set_clusterCount hi value
  have hself := hvl.get_set hi
  have hoth : ∀ c, v.InRange c → c ≠ i →
      fatGetFatEntry (fatSetFatEntry v i value).2 c = fatGetFatEntry v c :=
    fun c hc hne => get_set_ne hi hc.1 hne
  have hmem : i ∈ Finset.Icc minCluster (v.maxCluster + 1) := Finset.mem_Icc.2 hi
  have hsml := maxCluster_small v
  have hle := freeEntries_le v
  rw [CountOk] at h ⊢
  rw [hcnt, h]
  -- the free entries besides the one that is set are the same before and after
  have hrest : ∀ u : FatVolume, SameShape v u →
      freeEntries u = (((Finset.Icc minCluster (v.maxCluster + 1)).erase i).filter
        (fun c => fatGetFatEntry u c = clusterFree)).card +
          if fatGetFatEntry u i = clusterFree then 1 else 0 := by
    intro u hu
    rw [freeEntries, hu.maxCluster, ← Finset.insert_erase hmem, Finset.filter_insert,
      Finset.erase_insert (Finset.notMem_erase i _)]
    split
    · rw [Finset.card_insert_of_notMem]
      simp
    · rfl
  have hsame : ((Finset.Icc minCluster (v.maxCluster + 1)).erase i).filter
        (fun c => fatGetFatEntry (fatSetFatEntry v i value).2 c = clusterFree) =
      ((Finset.Icc minCluster (v.maxCluster + 1)).erase i).filter
        (fun c => fatGetFatEntry v c = clusterFree) := by
    apply Finset.filter_congr
    intro c hc
    rw [hoth c (Finset.mem_Icc.1 (Finset.mem_of_mem_erase hc)) (Finset.ne_of_mem_erase hc)]
  rw [hrest v (SameShape.refl v)] at hle ⊢
  rw [hrest _ hshp, hself, hsame]
  by_cases hfree : value = clusterFree
  · by_cases hold : fatGetFatEntry v i = clusterFree
    · simp [hfree, hold]
    · simp only [hfree, hold, ne_eq, not_false_eq_true, and_self, if_true, if_false, add_zero]
      omega
  · by_cases hold : fatGetFatEntry v i = clusterFree
    · simp [hfree, hold]
    · simp [hfree, hold]

structure Changes (v v' : FatVolume) (l : List Nat) : Prop where
  shape : SameShape v v'
  elsewhere : ∀ c, minCluster ≤ c → c ∉ l → fatGetFatEntry v' c = fatGetFatEntry v c
  count : CountOk v → CountOk v'

theorem SameTable.changes (h : SameTable v v') (l : List Nat) : Changes v v' l := by
  refine ⟨h.toSameShape, fun c _ _ => h.get c, fun hcnt => ?_⟩
  rw [CountOk, h.clusterCount, hcnt]
  exact (freeEntries_congr h.toSameShape fun c _ => h.get c).symm

theorem Changes.refl (v : FatVolume) (l : List Nat) : Changes v v l :=
  ⟨SameShape.refl v, fun _ _ _ => rfl, id⟩

variable {v₃ : FatVolume} {cluster : Nat} {init : List Nat}

theorem Changes.trans (h₁ : Changes v₁ v₂ l) (h₂ : Changes v₂ v₃ l) : Changes v₁ v₃ l :=
  ⟨h₁.shape.trans h₂.shape, fun c hc hl => (h₂.elsewhere c hc hl).trans (h₁.elsewhere c hc hl),
    fun h => h₂.count (h₁.count h)⟩

theorem Changes.mono (h : Changes v v' l) (hsub : l ⊆ l') : Changes v v' l' :=
  ⟨h.shape, fun c hc hl => h.elsewhere c hc (fun hmem => hl (hsub hmem)), h.count⟩

theorem changes_set (hi : v.InRange i) (hvl : Storable v value)
    (hl : i ∈ l) : Changes v (fatSetFatEntry v i value).2 l := by
  refine ⟨sameShape_set v i value, fun c hc hnot => ?_, fun h => h.set hi hvl⟩
  exact get_set_ne hi hc (fun heq => hnot (heq ▸ hl))

theorem FileChain.changes
    (h : FileChain v start l) (hchange : Changes v v' l') (hdisj : ∀ c ∈ l, c ∉ l') :
    FileChain v' start l :=
  h.congr hchange.shape fun c hc => hchange.elsewhere c (h.inRange c hc).1 (hdisj c hc)

theorem fatFreeClusters_links (h : Links v cluster l) :
    ∃ v', Returns (fun rounds => fatFreeClusters rounds v cluster) (.success, v') ∧
      Changes v v' l := by
  induction l generalizing v cluster with
  | nil =>
    obtain ⟨_, e, he, rfl⟩ := h
    refine ⟨v, Returns.succ rfl (fun n => ?_) (returns_const _), Changes.refl v []⟩
    simp [fatFreeClusters, he]
  | cons c l ih =>
    have hnd := nodup_cons.1 h.nodup
    obtain ⟨hrng, e, he, rfl, hpath⟩ := h
    have hc := hrng cluster mem_cons_self
    have hload := sameTable_load v cluster
    have hload_range : (fatLoadFatEntry v cluster).InRange cluster :=
      (hload.inRange_iff).2 hc
    have hset := changes_set hload_range (.inl rfl : Storable _ clusterFree)
      (mem_singleton_self cluster)
    have hstep := (SameTable.changes hload [cluster]).trans hset
    have hlnk : Links (fatSetFatEntry (fatLoadFatEntry v cluster) cluster clusterFree).2
        (fatGetFatEntry v cluster) l := by
      refine Links.congr (v := v) hstep.shape
        ⟨fun d hd => hrng d (mem_cons_of_mem _ hd), e, he, hpath⟩ fun d hd => ?_
      refine hstep.elsewhere d (hrng d (mem_cons_of_mem _ hd)).1 fun heq => ?_
      exact hnd.1 (mem_singleton.1 heq ▸ hd)
    obtain ⟨v', hret, hchg⟩ := ih hlnk
    refine ⟨v', Returns.succ rfl (fun n => ?_) hret, ?_⟩
    · simp [fatFreeClusters, not_end_of_inRange hc, not_corrupt_of_inRange hc]
    · exact (hstep.mono (by simp)).trans (hchg.mono (subset_cons_self _ _))

theorem countFreeClusters_spec (n : Nat) (v : FatVolume)
    (hbd : v.clusterCount + n + minCluster < 2 ^ 32) :
    SameShape v (countFreeClusters n v) ∧ (countFreeClusters n v).fat = v.fat ∧
      (countFreeClusters n v).clusterCount = v.clusterCount +
        ((Finset.Ico minCluster (n + minCluster)).filter
          (fun c => fatGetFatEntry v c = clusterFree)).card ∧
      ((countFreeClusters n v).nextCluster = v.nextCluster ∨
        (countFreeClusters n v).nextCluster < n + minCluster ∧
          fatGetFatEntry v (countFreeClusters n v).nextCluster = clusterFree) := by
  induction n generalizing v with
  | zero =>
    refine ⟨SameShape.refl v, rfl, ?_, .inl rfl⟩
    simp [countFreeClusters]
  | succ n ih =>
    have hload := sameTable_load v (n + minCluster)
    have hIco : Finset.Ico minCluster (n + 1 + minCluster) =
        insert (n + minCluster) (Finset.Ico minCluster (n + minCluster)) := by
      rw [Nat.add_right_comm, Finset.insert_Ico_right_eq_Ico_add_one (Nat.le_add_left _ _)]
    rw [countFreeClusters]
    split
    · next hfree =>
      rw [hload.clusterCount, mod_eq_of_lt (by omega), mod_eq_of_lt (by omega)]
      generalize hu : { fatLoadFatEntry v (n + minCluster) with
        clusterCount := v.clusterCount + 1, nextCluster := n + minCluster } = u
      have hucount : u.clusterCount = v.clusterCount + 1 := by rw [← hu]
      have hunext : u.nextCluster = n + minCluster := by rw [← hu]
      have hushape : SameShape v u := by
        rw [← hu]
        exact ⟨hload.fatType, hload.maxCluster, hload.clusterAlignment⟩
      have hufat : u.fat = v.fat := by
        rw [← hu]
        exact hload.fat
      have huget : ∀ c, fatGetFatEntry u c = fatGetFatEntry v c := fun c =>
        getFatEntry_congr hushape (by rw [hufat])
      obtain ⟨hshp, hfat, hcnt, hnext⟩ := ih u (by omega)
      simp only [huget] at hcnt hnext
      refine ⟨hushape.trans hshp, hfat.trans hufat, ?_, ?_⟩
      · rw [hcnt, hucount, hIco, Finset.filter_insert, if_pos hfree,
          Finset.card_insert_of_notMem (by simp)]
        omega
      · right
        rcases hnext with hnext | hnext
        · rw [hnext, hunext]
          exact ⟨by omega, hfree⟩
        · exact ⟨by omega, hnext.2⟩
    · next hfree =>
      obtain ⟨hshp, hfat, hcnt, hnext⟩ := ih (fatLoadFatEntry v (n + minCluster))
        (by rw [hload.clusterCount]; omega)
      simp only [hload.get] at hcnt hnext
      refine ⟨hload.toSameShape.trans hshp, hfat.trans hload.fat, ?_, ?_⟩
      · rw [hcnt, hload.clusterCount, hIco, Finset.filter_insert, if_neg hfree]
      · rcases hnext with hnext | hnext
        · exact .inl (hnext.trans hload.nextCluster)
        · exact .inr ⟨by omega, hnext.2⟩

theorem freeInfo_changes :
    Changes v (fatComputeFreeInfo v) [] ∧ (fatComputeFreeInfo v).fat = v.fat ∧
      ((fatComputeFreeInfo v).nextCluster = v.nextCluster ∨
        fatGetFatEntry v (fatComputeFreeInfo v).nextCluster = clusterFree) := by
  rw [fatComputeFreeInfo]
  split
  · exact ⟨Changes.refl v [], rfl, .inl rfl⟩
  · obtain ⟨u, hu⟩ : ∃ u : FatVolume, u = { v with freeInfoValid := true, clusterCount := 0 } :=
      ⟨_, rfl⟩
    have hshp : SameShape v u := by
      rw [hu]
      exact ⟨rfl, rfl, rfl⟩
    have hfat : u.fat = v.fat := by
      rw [hu]
    have hget : ∀ c, fatGetFatEntry u c = fatGetFatEntry v c := fun c =>
      getFatEntry_congr hshp (by rw [hfat])
    have hzero : u.clusterCount = 0 := by
      rw [hu]
    have hsml := maxCluster_small v
    obtain ⟨hshp', hfat', hcnt, hnext⟩ := countFreeClusters_spec v.maxCluster u
      (by rw [hzero, minCluster]; omega)
    simp only [hget] at hcnt hnext
    have hget' : ∀ c, fatGetFatEntry (countFreeClusters v.maxCluster u) c = fatGetFatEntry v c :=
      fun c => (getFatEntry_congr hshp' (by rw [hfat'])).trans (hget c)
    rw [← hu]
    refine ⟨⟨hshp.trans hshp', fun c _ _ => hget' c, fun _ => ?_⟩, hfat'.trans hfat, ?_⟩
    · have hIco : Finset.Ico minCluster (v.maxCluster + minCluster) =
          Finset.Icc minCluster (v.maxCluster + 1) := by
        ext c
        simp only [Finset.mem_Ico, Finset.mem_Icc, minCluster]
        omega
      rw [CountOk, hcnt, hzero, zero_add,
        freeEntries_congr (hshp.trans hshp') fun c _ => hget' c, freeEntries, hIco]
    · rcases hnext with hnext | hnext
      · exact .inl (hnext.trans (by rw [hu]))
      · exact .inr hnext.2

theorem refreshFreeInfo_spec (v : FatVolume) :
    Changes v (refreshFreeInfo v) [] ∧ (refreshFreeInfo v).fat = v.fat ∧
      (v.nextCluster ≤ v.maxCluster + 1 → refreshFreeInfo v = v) ∧
      (v.maxCluster + 1 < v.nextCluster →
        (refreshFreeInfo v).nextCluster = v.nextCluster ∨
          fatGetFatEntry v (refreshFreeInfo v).nextCluster = clusterFree) := by
  rw [refreshFreeInfo]
  split
  · next hbeyond =>
    split
    · obtain ⟨u, hu⟩ : ∃ u : FatVolume, u = { v with freeInfoValid := false } := ⟨_, rfl⟩
      have hsame : SameTable v u := by
        rw [hu]
        exact ⟨⟨rfl, rfl, rfl⟩, rfl, rfl, rfl, rfl, rfl⟩
      obtain ⟨hchg, hfat, hnext⟩ := freeInfo_changes
      rw [← hu]
      refine ⟨(SameTable.changes hsame []).trans hchg, hfat.trans hsame.fat,
        fun h => by omega, fun _ => ?_⟩
      rwa [hsame.get, hsame.nextCluster] at hnext
    · obtain ⟨hchg, hfat, hnext⟩ := freeInfo_changes
      exact ⟨hchg, hfat, fun h => by omega, fun _ => hnext⟩
  · next hin =>
    exact ⟨Changes.refl v [], rfl, fun _ => rfl, fun h => absurd h hin⟩

/-- `FatAllocateCluster` returns: the hint moves on until it meets a free cluster
or leaves the table, and then it is set to a free cluster if there is one. -/
theorem fatAllocateCluster_spec (v : FatVolume) :
    ∃ c w, Returns (fun rounds => fatAllocateCluster rounds v) (c, w) ∧ Changes v w [] ∧
      (c = clusterLast ∨ (c ≤ v.maxCluster + 1 ∧ fatGetFatEntry v c = clusterFree)) := by
  induction hd : v.maxCluster + 2 - v.nextCluster using Nat.strong_induction_on generalizing v with
  | _ d ih =>
    obtain ⟨hchg, hfat, hin, hbeyond⟩ := refreshFreeInfo_spec v
    generalize hw : refreshFreeInfo v = w at hchg hfat hin hbeyond
    have hget : ∀ c, fatGetFatEntry w c = fatGetFatEntry v c := fun c =>
      getFatEntry_congr hchg.shape (by rw [hfat])
    have hmax := hchg.shape.maxCluster
    by_cases hlast : w.maxCluster + 1 < w.nextCluster
    · refine ⟨clusterLast, w, Returns.succ rfl (fun n => ?_) (returns_const _), hchg, .inl rfl⟩
      simp [fatAllocateCluster, hw, hlast]
    · have htried : Changes w { fatLoadFatEntry w w.nextCluster with
          nextCluster := (w.nextCluster + 1) % 2 ^ 32 } [] := by
        have hload := SameTable.changes (sameTable_load w w.nextCluster) []
        exact ⟨⟨hload.shape.fatType, hload.shape.maxCluster, hload.shape.clusterAlignment⟩,
          hload.elsewhere, hload.count⟩
      by_cases hfree : fatGetFatEntry w w.nextCluster = clusterFree
      · refine ⟨w.nextCluster, _, Returns.succ rfl (fun n => ?_) (returns_const _),
          hchg.trans htried, .inr ⟨by omega, (hget _).symm.trans hfree⟩⟩
        simp [fatAllocateCluster, hw, hlast, hfree]
      · have hsame : w = v := by
          apply hin
          by_contra hout
          rcases hbeyond (by omega) with heq | heq
          · omega
          · exact hfree ((hget _).trans heq)
        have hsml := maxCluster_small w
        have hnext : (w.nextCluster + 1) % 2 ^ 32 = w.nextCluster + 1 :=
          mod_eq_of_lt (by omega)
        have hless : (fatLoadFatEntry w w.nextCluster).maxCluster + 2 -
            (w.nextCluster + 1) % 2 ^ 32 < d := by
          rw [(sameTable_load w w.nextCluster).maxCluster, hnext, ← hd, ← hsame]
          omega
        obtain ⟨c, u, hret, hcu, hc⟩ := ih _ hless
          { fatLoadFatEntry w w.nextCluster with
            nextCluster := (w.nextCluster + 1) % 2 ^ 32 } rfl
        refine ⟨c, u, Returns.succ rfl (fun n => ?_) hret, (hchg.trans htried).trans hcu, ?_⟩
        · simp [fatAllocateCluster, hw, hlast, hfree]
        · rcases hc with hc | ⟨hc, hcfree⟩
          · exact .inl hc
          · refine .inr ⟨?_, ?_⟩
            · rwa [(hchg.trans htried).shape.maxCluster] at hc
            · rw [← hcfree, ← hget]
              exact ((sameTable_load w w.nextCluster).get c).symm

theorem sameTable_trans (h₁ : SameTable v₁ v₂) (h₂ : SameTable v₂ v₃) : SameTable v₁ v₃ :=
  ⟨h₁.toSameShape.trans h₂.toSameShape, h₂.fat.trans h₁.fat,
    h₂.clusterCount.trans h₁.clusterCount, h₂.nextCluster.trans h₁.nextCluster,
    h₂.fatDirty.trans h₁.fatDirty, h₂.dirtyValue.trans h₁.dirtyValue⟩

theorem walkLinks_path {front : List Nat} {m : Nat} (lastCluster : Nat)
    (hwalked : ∀ c ∈ front, chainCorrupt c = false)
    (hpath : Path (fatGetFatEntry v) start front m) :
    ∃ w, SameTable v w ∧
      walkLinks front.length v start lastCluster = (some (m, front.getLastD lastCluster), w) := by
  induction front generalizing v start lastCluster with
  | nil =>
    obtain rfl := hpath
    exact ⟨v, ⟨SameShape.refl v, rfl, rfl, rfl, rfl, rfl⟩, rfl⟩
  | cons c front ih =>
    obtain ⟨rfl, hpath⟩ := hpath
    have hload := sameTable_load v start
    obtain ⟨w, hw, heq⟩ := ih (v := fatLoadFatEntry v start) start
      (fun d hd => hwalked d (mem_cons_of_mem _ hd))
      (hpath.congr fun d _ => hload.get d)
    refine ⟨w, sameTable_trans hload hw, ?_⟩
    rw [length_cons, walkLinks, hwalked start mem_cons_self]
    simp only [Bool.false_eq_true, if_false]
    rw [heq, getLastD_cons]

def LastOk (oFile : OFile) (l : List Nat) : Prop :=
  oFile.fileLastCluster = 0 ∨ l.getLast? = some oFile.fileLastCluster

theorem FileChain.setLast {rest : List Nat}
    (h : Links v start (l ++ x :: rest)) (hshp : SameShape v v')
    (hsame : ∀ c ∈ l, fatGetFatEntry v' c = fatGetFatEntry v c)
    (hx : fatGetFatEntry v' x = clusterLast) : FileChain v' start (l ++ [x]) := by
  obtain ⟨hrng, e, _, hpath⟩ := h
  obtain ⟨m, hfr, hm⟩ := path_append.1 (append_cons l x rest ▸ hpath)
  refine .inr ⟨by simp, fun c hc => (hshp.inRange_iff).2 (hrng c ?_), clusterLast,
    by decide, ?_⟩
  · simp only [mem_append, mem_cons] at hc ⊢
    tauto
  · rw [← hx]
    exact hfr.redirect hsame

theorem shrink_cut {s n : Nat} (hrng : ∀ c ∈ l, v.InRange c) (hnd : l.Nodup)
    (hpath : Path (fatGetFatEntry v) start l s) (hn : n < l.length) :
    ∃ init x rest m w, l = init ++ x :: rest ∧ l.take (n + 1) = init ++ [x] ∧ SameTable v w ∧
      walkLinks (n + 1) v start clusterFree = (some (m, x), w) ∧ w.InRange x ∧
      Path (fatGetFatEntry (fatSetFatEntry w x clusterLast).2) m rest s ∧
      Changes v (fatSetFatEntry w x clusterLast).2 [x] := by
  obtain ⟨init, x, rest, hspl, hlng⟩ : ∃ init x rest, l = init ++ x :: rest ∧ init.length = n :=
    ⟨l.take n, l[n], l.drop (n + 1), by
      rw [getElem_cons_drop, take_append_drop], length_take_of_le (by omega)⟩
  have htake : l.take (n + 1) = init ++ [x] := by
    rw [hspl, take_append, hlng, Nat.add_sub_cancel_left, take_of_length_le (by omega)]
    rfl
  rw [hspl] at hrng hnd hpath
  obtain ⟨m, hfr, hrest⟩ := path_append.1 (append_cons init x rest ▸ hpath)
  obtain ⟨w, hw, hwalk⟩ := walkLinks_path clusterFree (fun c hc => not_corrupt_of_inRange
    (hrng c (by simp only [mem_append, mem_cons] at hc ⊢; tauto))) hfr
  have hlen : (init ++ [x]).length = n + 1 := by simp [hlng]
  have hgetLast : (init ++ [x]).getLastD clusterFree = x := by simp
  rw [hlen, hgetLast] at hwalk
  have hwrange : w.InRange x := (hw.inRange_iff).2 (hrng x (by simp))
  have hcut := (SameTable.changes hw [x]).trans
    (changes_set hwrange (.inr (.inl rfl) : Storable w clusterLast) (mem_singleton_self x))
  have hxnot : x ∉ rest := (nodup_cons.1 (nodup_append.1 hnd).2.1).1
  refine ⟨init, x, rest, m, w, hspl, htake, hw, hwalk, hwrange, hrest.congr fun c hc => ?_, hcut⟩
  refine hcut.elsewhere c (hrng c (by simp [hc])).1 fun heq => ?_
  exact hxnot (mem_singleton.1 heq ▸ hc)

theorem fatShrinkEof_chain (oFile : OFile)
    (h : FileChain v oFile.fileCluster l) (hlast : LastOk oFile l)
    (hsize : fatSizeToClusters v oFile.fileSize ≤ l.length) :
    ∃ oFile' v', Returns (fun rounds => fatShrinkEof rounds v oFile) (.success, oFile', v') ∧
      Changes v v' l ∧
      FileChain v' oFile'.fileCluster (l.take (fatSizeToClusters v oFile.fileSize)) ∧
      LastOk oFile' (l.take (fatSizeToClusters v oFile.fileSize)) ∧
      oFile'.fileSize = oFile.fileSize := by
  generalize hn : fatSizeToClusters v oFile.fileSize = n at hsize ⊢
  cases n with
  | zero =>
    rcases h with ⟨rfl, hst⟩ | ⟨hne, hlnk⟩
    · refine ⟨oFile, v, ?_, Changes.refl v [], .inl ⟨rfl, hst⟩, hlast, rfl⟩
      simp only [fatShrinkEof, hn, ne_eq, not_true_eq_false, if_false, hst, if_true]
      exact returns_const _
    · have hst := hlnk.start_ne_free hne
      obtain ⟨v', hret, hchg⟩ := fatFreeClusters_links hlnk
      refine ⟨{ oFile with
        fileCluster := clusterFree
        fileCurrentCluster := clusterFree
        fileLastCluster := clusterFree
        dirty := true }, v', ?_, hchg, .inl ⟨take_zero, rfl⟩, .inl rfl, rfl⟩
      simp only [fatShrinkEof, hn, ne_eq, not_true_eq_false, if_false, hst]
      exact hret.map _
  | succ n =>
    have hlnk := h.links (ne_nil_of_length_pos (zero_lt_of_lt hsize))
    have hnd := hlnk.nodup
    obtain ⟨hrng, e, he, hpath⟩ := hlnk
    obtain ⟨init, x, rest, m, w, rfl, htake, hw, hwalk, hwrange, hrest, hcut⟩ :=
      shrink_cut hrng hnd hpath hsize
    obtain ⟨_, hxrest, hdisj⟩ := nodup_append.1 hnd
    have hxnot : x ∉ rest := (nodup_cons.1 hxrest).1
    obtain ⟨v', hret, hchg⟩ := fatFreeClusters_links
      (⟨fun c hc => (hcut.shape.inRange_iff).2 (hrng c (by simp [hc])), e, he, hrest⟩ :
        Links _ m rest)
    have hall : Changes v v' (init ++ x :: rest) :=
      (hcut.mono (by simp)).trans (hchg.mono fun c hc => by simp [hc])
    refine ⟨{ oFile with
      fileCurrentCluster := oFile.fileCluster
      fileLastCluster := x
      dirty := true }, v', ?_, hall, ?_, ?_, rfl⟩
    · simp only [fatShrinkEof, hn, ne_eq, succ_ne_zero, not_false_eq_true, if_true, hwalk]
      exact hret.map _
    · rw [htake]
      refine FileChain.setLast (v := v) ⟨hrng, e, he, hpath⟩ hall.shape (fun c hc => ?_) ?_
      · have hnotx : c ∉ [x] := fun heq =>
          hdisj c hc x mem_cons_self (mem_singleton.1 heq)
        have hnotrest : c ∉ rest := fun heq =>
          hdisj c hc c (mem_cons_of_mem x heq) rfl
        have hmin := (hrng c (by simp [hc])).1
        rw [hchg.elsewhere c hmin hnotrest, hcut.elsewhere c hmin hnotx]
      · rw [hchg.elsewhere x hwrange.1 hxnot]
        exact get_set_last hwrange
    · rw [htake]
      exact .inr (by simp)

theorem findLastCluster_links (found : LastCluster) (h : Links v cluster l) :
    ∃ w, SameTable v w ∧ Returns (fun rounds => findLastCluster rounds v cluster found)
      ({ found with
        clusterCount := found.clusterCount + l.length
        fileLastCluster := l.getLastD found.fileLastCluster }, w) := by
  induction l generalizing v cluster found with
  | nil =>
    obtain ⟨_, e, he, rfl⟩ := h
    refine ⟨v, ⟨SameShape.refl v, rfl, rfl, rfl, rfl, rfl⟩,
      Returns.succ rfl (fun n => ?_) (returns_const _)⟩
    simp only [findLastCluster, he, if_true]
    rfl
  | cons c l ih =>
    obtain ⟨hrng, e, he, rfl, hpath⟩ := h
    have hc := hrng cluster mem_cons_self
    have hload := sameTable_load v cluster
    obtain ⟨w, hw, hret⟩ := ih
      { found with clusterCount := found.clusterCount + 1, fileLastCluster := cluster }
      (Links.congr hload.toSameShape
        ⟨fun d hd => hrng d (mem_cons_of_mem _ hd), e, he, hpath⟩ fun d _ => hload.get d)
    refine ⟨w, sameTable_trans hload hw, ?_⟩
    rw [getLastD_cons, length_cons, add_comm l.length, ← add_assoc]
    refine Returns.succ rfl (fun n => ?_) hret
    have hin := hc.not_outside
    simp [findLastCluster, not_end_of_inRange hc, hin]

theorem searchLastCluster_chain (h : FileChain v oFile.fileCluster l) (hlast : LastOk oFile l) :
    ∃ w, SameTable v w ∧
      Returns (fun rounds => searchLastCluster rounds v oFile l.length)
        (.success, { oFile with fileLastCluster := l.getLastD 0 }, w) := by
  rcases h with ⟨rfl, hst⟩ | ⟨hne, hlnk⟩
  · have hzero : oFile.fileLastCluster = 0 := by
      rcases hlast with hlast | hlast
      · exact hlast
      · cases hlast
    refine ⟨v, ⟨SameShape.refl v, rfl, rfl, rfl, rfl, rfl⟩, ?_⟩
    have hskip : ¬ (oFile.fileCluster ≠ 0 ∧ oFile.fileLastCluster = 0) := fun hcond =>
      hcond.1 hst
    simp only [searchLastCluster, hskip, if_false]
    rw [show ([] : List Nat).getLastD 0 = oFile.fileLastCluster from hzero.symm]
    exact returns_const _
  · obtain ⟨init, x, rfl⟩ : ∃ init x, l = init ++ [x] :=
      ⟨_, _, (dropLast_append_getLast hne).symm⟩
    have hx : (init ++ [x]).getLastD 0 = x := by simp
    by_cases hfind : oFile.fileCluster ≠ 0 ∧ oFile.fileLastCluster = 0
    · obtain ⟨w, hw, hret⟩ :=
        findLastCluster_links ⟨false, 0, oFile.fileLastCluster⟩ hlnk
      refine ⟨w, hw, ?_⟩
      have hmap := hret.map fun found : LastCluster × FatVolume =>
        ((if found.1.corrupt = true ∨ found.1.clusterCount ≠ (init ++ [x]).length then
          FatStatus.volumeCorrupted else .success,
          { oFile with fileLastCluster := found.1.fileLastCluster }, found.2) :
            FatStatus × OFile × FatVolume)
      simp only [hfind.2, zero_add, Bool.false_eq_true, ne_eq, not_true_eq_false, or_self,
        if_false] at hmap
      simp only [searchLastCluster, hfind, ne_eq, not_false_eq_true, and_self, if_true]
      exact hmap
    · have hknown : oFile.fileLastCluster = x := by
        rcases hlast with hlast | hlast
        · exact absurd ⟨hlnk.start_ne_free hne, hlast⟩ hfind
        · simpa using hlast.symm
      refine ⟨v, ⟨SameShape.refl v, rfl, rfl, rfl, rfl, rfl⟩, ?_⟩
      simp only [searchLastCluster, hfind, if_false]
      rw [hx, ← hknown]
      exact returns_const _

/-- A file that has been given the clusters `added`, which were free. -/
structure Grown (v v' : FatVolume) (oFile oFile' : OFile) (l added : List Nat) : Prop where
  changes : Changes v v' (l ++ added)
  chain : FileChain v' oFile'.fileCluster (l ++ added)
  lastOk : LastOk oFile' (l ++ added)
  fileSize : oFile'.fileSize = oFile.fileSize
  free : ∀ c ∈ added, v.InRange c ∧ fatGetFatEntry v c = clusterFree

theorem Grown.of_changes (hch : FileChain v oFile.fileCluster l) (hlast : LastOk oFile l)
    (h : Changes v v' []) : Grown v v' oFile oFile l [] := by
  have happ : l ++ [] = l := append_nil l
  exact ⟨h.mono (nil_subset _),
    happ.symm ▸ hch.changes h fun _ _ => not_mem_nil,
    happ.symm ▸ hlast, rfl, fun c hc => absurd hc not_mem_nil⟩

theorem Grown.cons {oFile₁ oFile₂ : OFile} {added : List Nat} (h₁ : Grown v v₁ oFile oFile₁ l [c])
    (h₂ : Grown v₁ v₂ oFile₁ oFile₂ (l ++ [c]) added) :
    Grown v v₂ oFile oFile₂ l (c :: added) := by
  have happ : l ++ c :: added = l ++ [c] ++ added := append_cons l c added
  refine ⟨?_, happ ▸ h₂.chain, happ ▸ h₂.lastOk, h₂.fileSize.trans h₁.fileSize, ?_⟩
  · rw [happ]
    exact (h₁.changes.mono (subset_append_left _ _)).trans h₂.changes
  · intro d hd
    rcases mem_cons.1 hd with rfl | hd
    · exact h₁.free d (mem_singleton_self d)
    · obtain ⟨hrng, hfree⟩ := h₂.free d hd
      have hnot : d ∉ l ++ [c] := fun hmem => h₁.chain.get_ne_free hmem hfree
      have hdrange : v.InRange d := (h₁.changes.shape.inRange_iff).1 hrng
      exact ⟨hdrange, (h₁.changes.elsewhere d hdrange.1 hnot).symm.trans hfree⟩

theorem grown_first (oFile : OFile) (hw : Changes v w [])
    (hrng : v.InRange c) (hfree : fatGetFatEntry v c = clusterFree) :
    Grown v (fatSetFatEntry w c clusterLast).2 oFile
      { oFile with fileCluster := c, fileCurrentCluster := c, fileLastCluster := c } [] [c] := by
  have hcw : w.InRange c := (hw.shape.inRange_iff).2 hrng
  have hset := changes_set hcw (.inr (.inl rfl) : Storable w clusterLast) (mem_singleton_self c)
  refine ⟨(hw.mono (nil_subset _)).trans hset,
    .inr ⟨cons_ne_nil c [], ?_, clusterLast, by decide, rfl, get_set_last hcw⟩,
    .inr rfl, rfl, ?_⟩
  · intro d hd
    rw [mem_singleton.1 hd]
    exact (hset.shape.inRange_iff).2 hcw
  · intro d hd
    rw [mem_singleton.1 hd]
    exact ⟨hrng, hfree⟩

section

variable (hch : FileChain v oFile.fileCluster (init ++ [x])) (hw : Changes v w [])
include hch hw

theorem grown_next (hrng : v.InRange c) (hfree : fatGetFatEntry v c = clusterFree) :
    Grown v (fatSetFatEntry (fatSetFatEntry w x c).2 c clusterLast).2 oFile
      { oFile with fileLastCluster := c } (init ++ [x]) [c] := by
  have hnot : c ∉ init ++ [x] := fun hmem => hch.get_ne_free hmem hfree
  have hxc : x ≠ c := by
    rintro rfl
    exact hnot (by simp)
  have hlnk := (hch.changes hw fun _ _ => not_mem_nil).links (by simp)
  have hcw : w.InRange c := (hw.shape.inRange_iff).2 hrng
  have hxw : w.InRange x := hlnk.1 x (by simp)
  have hlink := changes_set hxw (.inr (.inr hcw) : Storable w c) (mem_singleton_self x)
  have hc₁ : (fatSetFatEntry w x c).2.InRange c := (hlink.shape.inRange_iff).2 hcw
  have hend := changes_set hc₁ (.inr (.inl rfl) : Storable _ clusterLast) (mem_singleton_self c)
  have hnd := nodup_append.1 hlnk.nodup
  have hinit : ∀ d ∈ init, fatGetFatEntry (fatSetFatEntry (fatSetFatEntry w x c).2 c
      clusterLast).2 d = fatGetFatEntry w d := by
    intro d hd
    have hdw := (hlnk.1 d (by simp [hd])).1
    have hdx : d ∉ [x] := fun heq =>
      hnd.2.2 d hd x (mem_singleton_self x) (mem_singleton.1 heq)
    have hdc : d ∉ [c] := fun heq => hnot (by
      rw [← mem_singleton.1 heq]
      exact mem_append_left [x] hd)
    rw [hend.elsewhere d hdw hdc, hlink.elsewhere d hdw hdx]
  have hx : fatGetFatEntry (fatSetFatEntry (fatSetFatEntry w x c).2 c clusterLast).2 x = c := by
    have hxnot : x ∉ [c] := fun heq => hxc (mem_singleton.1 heq)
    rw [hend.elsewhere x hxw.1 hxnot, get_set_cluster hxw hcw]
  refine ⟨?_, ?_, .inr (by simp), rfl, ?_⟩
  · exact (hw.mono (nil_subset _)).trans
      ((hlink.mono (by simp)).trans (hend.mono (subset_append_right _ _)))
  · refine .inr ⟨by simp, fun d hd => ?_, clusterLast, by decide, ?_⟩
    · rw [hend.shape.inRange_iff, hlink.shape.inRange_iff]
      rcases mem_append.1 hd with hd | hd
      · exact hlnk.1 d hd
      · rw [mem_singleton.1 hd]
        exact hcw
    · obtain ⟨_, e, _, hpath⟩ := hlnk
      have hredirect := hpath.redirect hinit
      rw [hx] at hredirect
      exact path_append.2 ⟨c, hredirect, rfl, get_set_last hc₁⟩
  · intro d hd
    rw [mem_singleton.1 hd]
    exact ⟨hrng, hfree⟩

theorem grown_full :
    Grown v (fatSetFatEntry w x clusterLast).2 oFile { oFile with fileLastCluster := x }
      (init ++ [x]) [] := by
  have hlnk := (hch.changes hw fun _ _ => not_mem_nil).links (by simp)
  have hxw : w.InRange x := hlnk.1 x (by simp)
  have hset := changes_set hxw (.inr (.inl rfl) : Storable w clusterLast) (mem_singleton_self x)
  have hnd := nodup_append.1 hlnk.nodup
  have happ : init ++ [x] ++ [] = init ++ [x] := append_nil _
  refine ⟨?_, ?_, ?_, rfl, fun c hc => absurd hc not_mem_nil⟩
  · exact (hw.mono (nil_subset _)).trans (hset.mono (by simp))
  · rw [happ]
    refine FileChain.setLast hlnk hset.shape (fun d hd => ?_) (get_set_last hxw)
    refine hset.elsewhere d (hlnk.1 d (by simp [hd])).1 fun heq => ?_
    exact hnd.2.2 d hd x (mem_singleton_self x) (mem_singleton.1 heq)
  · rw [happ]
    exact .inr (by simp)

end

theorem lastCluster_cases (h : FileChain v start l) :
    (l = [] ∧ l.getLastD 0 = 0) ∨ ∃ init x, l = init ++ [x] ∧ l.getLastD 0 = x ∧ x ≠ 0 := by
  rcases eq_nil_or_concat l with rfl | ⟨init, x, rfl⟩
  · exact .inl ⟨rfl, rfl⟩
  · have hx : 2 ≤ x := (h.inRange x (by simp)).1
    exact .inr ⟨init, x, by simp, by simp, by omega⟩

theorem growLoop_spec (n : Nat) (hch : FileChain v oFile.fileCluster l) (hlast : LastOk oFile l) :
    ∃ status oFile' v' added,
      Returns (fun rounds => growLoop rounds n v oFile (l.getLastD 0)) (status, oFile', v') ∧
      Grown v v' oFile oFile' l added ∧ (status = .success → added.length = n) ∧
      status ≠ .unsupported := by
  induction n generalizing v oFile l with
  | zero =>
    exact ⟨.success, oFile, v, [], returns_const _,
      Grown.of_changes hch hlast (Changes.refl v []), fun _ => rfl, by decide⟩
  | succ n ih =>
    obtain ⟨c, w, halloc, hw, hc⟩ := fatAllocateCluster_spec v
    suffices hround : ∃ status oFile' v' added,
        Returns (fun rounds => growRound (growLoop rounds n) oFile (l.getLastD 0) c w)
          (status, oFile', v') ∧
        Grown v v' oFile oFile' l added ∧ (status = .success → added.length = n + 1) ∧
        status ≠ .unsupported by
      obtain ⟨status, oFile', v', added, hret, hrest⟩ := hround
      exact ⟨status, oFile', v', added, halloc.bind hret, hrest⟩
    rcases hc with rfl | ⟨hmax, hfree⟩
    · -- no cluster is free
      have hend : endOfFatChain clusterLast = true := by decide
      rcases lastCluster_cases hch with ⟨_, hzero⟩ | ⟨init, x, hl, hx, hne⟩
      · refine ⟨.volumeFull, oFile, w, [], ?_, Grown.of_changes hch hlast hw,
          (fun h => by cases h), by decide⟩
        simp only [growRound, hend, if_true, hzero, clusterFree, ne_eq, not_true_eq_false, if_false]
        exact returns_const _
      · refine ⟨.volumeFull, { oFile with fileLastCluster := x },
          (fatSetFatEntry w x clusterLast).2, [], ?_, hl ▸ grown_full (hl ▸ hch) hw,
          (fun h => by cases h), by decide⟩
        simp only [growRound, hend, if_true, hx, clusterFree, ne_eq, hne, not_false_eq_true]
        exact returns_const _
    · have hnotend : endOfFatChain c = false := by
        have hsml := maxCluster_small v
        rw [endOfFatChain, decide_eq_false_iff_not, clusterSpecial, clusterSpecialExt, uintnSize]
        omega
      by_cases hmin : c < minCluster
      · refine ⟨.volumeCorrupted, oFile, w, [], ?_, Grown.of_changes hch hlast hw,
          (fun h => by cases h), by decide⟩
        simp only [growRound, hnotend, hmin, true_or, if_true, Bool.false_eq_true, if_false]
        exact returns_const _
      · have hrng : v.InRange c := ⟨by omega, hmax⟩
        have hin : ¬ (c < minCluster ∨ w.maxCluster + 1 < c) := by
          rw [hw.shape.maxCluster]
          omega
        -- the cluster is linked to the file, and the rest of the loop follows
        obtain ⟨v₁, oFile₁, hgrown, hround⟩ : ∃ v₁ oFile₁,
            Grown v v₁ oFile oFile₁ l [c] ∧ ∀ next, growRound next oFile (l.getLastD 0) c w
              = next v₁ oFile₁ ((l ++ [c]).getLastD 0) := by
          have hlastc : (l ++ [c]).getLastD 0 = c := by simp
          rcases lastCluster_cases hch with ⟨rfl, hzero⟩ | ⟨init, x, hl, hx, hne⟩
          · refine ⟨_, _, grown_first _ hw hrng hfree, fun next => ?_⟩
            simp only [growRound, hnotend, hin, hzero, hlastc, Bool.false_eq_true, if_false,
              ne_eq, not_true_eq_false]
          · refine ⟨_, _, hl ▸ grown_next (hl ▸ hch) hw hrng hfree, fun next => ?_⟩
            simp only [growRound, hnotend, hin, hx, hlastc, Bool.false_eq_true, if_false,
              ne_eq, hne, not_false_eq_true, if_true]
        obtain ⟨status, oFile', v', added, hret, hgrown', hcnt, hstat⟩ :=
          ih hgrown.chain hgrown.lastOk
        refine ⟨status, oFile', v', c :: added, ?_, hgrown.cons hgrown', fun h => ?_, hstat⟩
        · simp only [hround]
          exact hret
        · rw [length_cons, hcnt h]

end MuBasecore.FatChains
