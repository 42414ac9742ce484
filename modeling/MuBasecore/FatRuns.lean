import MuBasecore.FatChains

/-!
Runs of `FatGrowEof` and `FatShrinkEof` on the open files of a volume: the
cluster chains stay disjoint chains of the right lengths and the free cluster
count stays right.
-/

namespace MuBasecore.FatRuns

open FatTable FatSpace FatChains RoundedLoop Function List

def clustersFor (v : FatVolume) (size : Nat) : Nat :=
  (size + v.clusterSize - 1) / v.clusterSize

theorem clusterSize_pos (v : FatVolume) : 0 < v.clusterSize :=
  Nat.two_pow_pos v.clusterAlignment

theorem sizeToClusters_eq (v : FatVolume) (size : Nat) :
    fatSizeToClusters v size = clustersFor v size := by
  have hpos := clusterSize_pos v
  have hspl := Nat.div_add_mod size v.clusterSize
  have hlt := Nat.mod_lt size hpos
  rw [fatSizeToClusters, clustersFor]
  split
  · next h =>
    symm
    rw [Nat.div_eq_iff hpos]
    constructor
    · rw [add_mul, mul_comm]
      omega
    · rw [add_mul, mul_comm]
      omega
  · next h =>
    symm
    rw [Nat.div_eq_iff hpos]
    constructor
    · rw [add_zero, mul_comm]
      omega
    · rw [add_zero, mul_comm]
      omega

theorem clustersFor_congr {v v' : FatVolume} (h : SameShape v v') (size : Nat) :
    clustersFor v' size = clustersFor v size := by
  rw [clustersFor, clustersFor, h.clusterSize]

/-- What growing a file with the chain `l` comes to: it gets the clusters it
needs, or it is left as it was. -/
structure GrowEffect (v v' : FatVolume) (oFile oFile' : OFile) (l l' added : List Nat)
    (newSize : Nat) (status : FatStatus) : Prop where
  changes : Changes v v' (l ++ added)
  free : ∀ c ∈ added, v.InRange c ∧ fatGetFatEntry v c = clusterFree
  chain : FileChain v' oFile'.fileCluster l'
  lastOk : LastOk oFile' l'
  success : status = .success →
    l' = l ++ added ∧ oFile'.fileSize = newSize ∧ l'.length = clustersFor v newSize
  failure : status ≠ .success → l' = l ∧ oFile'.fileSize = oFile.fileSize

theorem fatGrowEof_chain {v : FatVolume} {oFile : OFile} {l : List Nat} {newSize : Nat}
    (hch : FileChain v oFile.fileCluster l) (hlast : LastOk oFile l)
    (hlen : l.length = clustersFor v oFile.fileSize)
    (hgrow : newSize ≤ 0xFFFFFFFF → clustersFor v oFile.fileSize ≤ clustersFor v newSize) :
    ∃ status oFile' v' l' added,
      Returns (fun rounds => fatGrowEof rounds v oFile newSize) (status, oFile', v') ∧
      GrowEffect v v' oFile oFile' l l' added newSize status := by
  by_cases hlarge : 0xFFFFFFFF < newSize
  · refine ⟨.unsupported, oFile, v, l, [], ?_, Changes.refl v _, fun c hc => absurd hc
      not_mem_nil, hch, hlast, (fun h => by cases h), fun _ => ⟨rfl, rfl⟩⟩
    simp only [fatGrowEof, hlarge, if_true]
    exact returns_const _
  · have hle := hgrow (by omega)
    rw [← sizeToClusters_eq] at hlen
    by_cases hmore : fatSizeToClusters v oFile.fileSize < fatSizeToClusters v newSize
    · obtain ⟨w, hw, hfind⟩ := searchLastCluster_chain hch hlast
      have hwchain : FileChain w oFile.fileCluster l :=
        hch.congr hw.toSameShape fun c _ => hw.get c
      have hlast' : LastOk { oFile with fileLastCluster := l.getLastD 0 } l := by
        rcases lastCluster_cases hch with ⟨rfl, -⟩ | ⟨front, x, rfl, -, -⟩
        · exact .inl rfl
        · exact .inr (by simp)
      obtain ⟨status, oFile', v', added, hloop, hgrown, hcnt, _⟩ :=
        growLoop_spec (fatSizeToClusters v newSize - fatSizeToClusters v oFile.fileSize)
          (by exact hwchain) hlast'
      have hfree : ∀ c ∈ added, v.InRange c ∧ fatGetFatEntry v c = clusterFree := by
        intro c hc
        obtain ⟨hrng, hfree⟩ := hgrown.free c hc
        exact ⟨(hw.inRange_iff).1 hrng, (hw.get c).symm.trans hfree⟩
      have hchg : Changes v v' (l ++ added) :=
        (SameTable.changes hw _).trans hgrown.changes
      have hsize : oFile'.fileSize = oFile.fileSize := hgrown.fileSize
      have hgrowChain : Returns (fun rounds => growChain rounds v oFile
          (fatSizeToClusters v oFile.fileSize) (fatSizeToClusters v newSize))
          (status, oFile', v') := by
        rw [← hlen] at hloop ⊢
        refine hfind.bind ?_
        simp only [if_true]
        exact hloop
      by_cases hstat : status = .success
      · refine ⟨.success, { oFile' with fileSize := newSize, dirty := true }, v', l ++ added,
          added, ?_, hchg, hfree, hgrown.chain, hgrown.lastOk, fun _ => ⟨rfl, rfl, ?_⟩,
          fun h => absurd rfl h⟩
        · simp only [fatGrowEof, hlarge, if_false, hmore, if_true]
          refine hgrowChain.bind ?_
          simp only [hstat, if_true]
          exact returns_const _
        · rw [length_append, hcnt hstat, hlen, ← sizeToClusters_eq]
          omega
      · have hshrinkSize : fatSizeToClusters v' oFile'.fileSize = l.length := by
          rw [sizeToClusters_eq, clustersFor_congr hchg.shape, ← sizeToClusters_eq, hsize, hlen]
        obtain ⟨oFile₂, v₂, hshrink, hchg₂, hch₂, hlast₂, hsize₂⟩ :=
          fatShrinkEof_chain _ hgrown.chain hgrown.lastOk
            (by rw [hshrinkSize, length_append]; omega)
        rw [hshrinkSize, take_left] at hch₂ hlast₂
        refine ⟨status, oFile₂, v₂, l, added, ?_, hchg.trans hchg₂, hfree, hch₂, hlast₂,
          fun h => absurd h hstat, fun _ => ⟨rfl, hsize₂.trans hsize⟩⟩
        simp only [fatGrowEof, hlarge, if_false, hmore, if_true]
        refine hgrowChain.bind ?_
        simp only [hstat, if_false]
        exact hshrink.map _
    · refine ⟨.success, { oFile with fileSize := newSize, dirty := true }, v, l, [], ?_,
        Changes.refl v _, fun c hc => absurd hc not_mem_nil, hch, hlast,
        fun _ => ⟨(append_nil l).symm, rfl, ?_⟩, fun h => absurd rfl h⟩
      · simp only [fatGrowEof, hlarge, if_false, hmore]
        exact returns_const _
      · rw [hlen, ← sizeToClusters_eq]
        rw [← sizeToClusters_eq, ← sizeToClusters_eq] at hle
        omega

section Runs

variable {ι : Type} [DecidableEq ι]

/-- A volume and its open files. -/
structure VolumeState (ι : Type) where
  volume : FatVolume
  files : ι → OFile

inductive Call (ι : Type)
  | grow (file : ι) (newSizeInBytes : Nat)
  | shrink (file : ι) (truncatedSize : Nat)

def Call.file : Call ι → ι
  | .grow file _ => file
  | .shrink file _ => file

/-- `FatShrinkEof` is called with the file size already lowered, as
`FatTruncateOFile` does it. -/
def Call.run (rounds : Nat) (s : VolumeState ι) :
    Call ι → Option (FatStatus × VolumeState ι)
  | .grow file newSizeInBytes =>
    (fatGrowEof rounds s.volume (s.files file) newSizeInBytes).map fun r =>
      (r.1, ⟨r.2.2, Function.update s.files file r.2.1⟩)
  | .shrink file truncatedSize =>
    (fatTruncateOFile rounds s.volume (s.files file) truncatedSize).map fun r =>
      (r.1, ⟨r.2.2, Function.update s.files file r.2.1⟩)

/-- The contract of the two functions, which their callers keep: `FatIFileAccess`,
`FatSetFileInfo` and `FatExpandODir` only grow a file, and `FatTruncateOFile` only shrinks it. -/
def Call.Legal (s : VolumeState ι) : Call ι → Prop
  | .grow file newSizeInBytes => newSizeInBytes ≤ 0xFFFFFFFF →
      clustersFor s.volume (s.files file).fileSize ≤ clustersFor s.volume newSizeInBytes
  | .shrink file truncatedSize =>
    clustersFor s.volume truncatedSize ≤ clustersFor s.volume (s.files file).fileSize

/-- The chains of the open files are acyclic, in range and pairwise disjoint and have the lengths
of the files; the count of free clusters is right, and so is a last cluster that a file knows. -/
structure WellFormed (s : VolumeState ι) (chains : ι → List Nat) : Prop where
  chain : ∀ i, FileChain s.volume (s.files i).fileCluster (chains i)
  acyclic : ∀ i, (chains i).Nodup
  inRange : ∀ i, ∀ c ∈ chains i, s.volume.InRange c
  disjoint : ∀ i j, i ≠ j → ∀ c ∈ chains i, c ∉ chains j
  length : ∀ i, (chains i).length = clustersFor s.volume (s.files i).fileSize
  count : s.volume.clusterCount = freeEntries s.volume
  lastOk : ∀ i, LastOk (s.files i) (chains i)

/-- What a call does to the chains: only the chain of its file changes, to the
new length if the call is successful and not at all if the volume is full. -/
structure Effect (call : Call ι) (status : FatStatus) (s s' : VolumeState ι)
    (chains chains' : ι → List Nat) : Prop where
  wellFormed : WellFormed s' chains'
  others : ∀ j ≠ call.file, chains' j = chains j ∧ s'.files j = s.files j
  grown : ∀ i newSize, call = .grow i newSize → status = .success →
    (chains' i).length = clustersFor s.volume newSize ∧ (s'.files i).fileSize = newSize
  full : status = .volumeFull →
    chains' call.file = chains call.file ∧
      (s'.files call.file).fileSize = (s.files call.file).fileSize
  shrunk : ∀ i newSize, call = .shrink i newSize → status = .success ∧
    chains' i = (chains i).take (clustersFor s.volume newSize) ∧ (s'.files i).fileSize = newSize

variable {s : VolumeState ι} {chains : ι → List Nat}

theorem WellFormed.update (h : WellFormed s chains)
    {file : ι} {v' : FatVolume} {oFile' : OFile} {l' added : List Nat}
    (hchg : Changes s.volume v' (chains file ++ added))
    (hfree : ∀ c ∈ added, s.volume.InRange c ∧ fatGetFatEntry s.volume c = clusterFree)
    (hsub : ∀ c ∈ l', c ∈ chains file ++ added)
    (hch : FileChain v' oFile'.fileCluster l') (hlast : LastOk oFile' l')
    (hlen : l'.length = clustersFor s.volume oFile'.fileSize) :
    WellFormed ⟨v', update s.files file oFile'⟩ (update chains file l') := by
  have hoth : ∀ j ≠ file, ∀ c ∈ chains j, c ∉ chains file ++ added := by
    intro j hj c hc hmem
    rcases List.mem_append.1 hmem with hmem | hmem
    · exact h.disjoint j file hj c hc hmem
    · exact (h.chain j).get_ne_free hc (hfree c hmem).2
  have hchains : ∀ i, FileChain v' (Function.update s.files file oFile' i).fileCluster
      (Function.update chains file l' i) := by
    intro i
    by_cases hi : i = file
    · subst hi
      rw [update_self, update_self]
      exact hch
    · rw [update_of_ne hi, update_of_ne hi]
      exact (h.chain i).changes hchg (hoth i hi)
  refine ⟨hchains, fun i => (hchains i).nodup, fun i => (hchains i).inRange, ?_, ?_,
    hchg.count h.count, ?_⟩
  · intro i j hij c hc
    by_cases hi : i = file
    · subst hi
      rw [update_self] at hc
      rw [update_of_ne (Ne.symm hij)]
      exact fun hcj => hoth j (Ne.symm hij) c hcj (hsub c hc)
    · rw [update_of_ne hi] at hc
      by_cases hj : j = file
      · subst hj
        rw [update_self]
        exact fun hcl => hoth i hi c hc (hsub c hcl)
      · rw [update_of_ne hj]
        exact h.disjoint i j hij c hc
  · intro i
    change _ = clustersFor v' (Function.update s.files file oFile' i).fileSize
    rw [clustersFor_congr hchg.shape]
    by_cases hi : i = file
    · subst hi
      rw [update_self, update_self]
      exact hlen
    · rw [update_of_ne hi, update_of_ne hi]
      exact h.length i
  · intro i
    change LastOk (Function.update s.files file oFile' i) _
    by_cases hi : i = file
    · subst hi
      rw [update_self, update_self]
      exact hlast
    · rw [update_of_ne hi, update_of_ne hi]
      exact h.lastOk i

theorem grow_effect (h : WellFormed s chains)
    (file : ι) (newSize : Nat) (hlegal : (Call.grow file newSize).Legal s) :
    ∃ status s' chains', Returns (fun rounds => (Call.grow file newSize).run rounds s)
      (status, s') ∧ Effect (.grow file newSize) status s s' chains chains' := by
  obtain ⟨status, oFile', v', l', added, hret, heff⟩ :=
    fatGrowEof_chain (h.chain file) (h.lastOk file) (h.length file) hlegal
  have hl' : ∀ c ∈ l', c ∈ chains file ++ added := by
    intro c hc
    by_cases hstat : status = .success
    · rwa [(heff.success hstat).1] at hc
    · rw [(heff.failure hstat).1] at hc
      exact mem_append_left added hc
  have hlen : l'.length = clustersFor s.volume oFile'.fileSize := by
    by_cases hstat : status = .success
    · obtain ⟨_, hsize, hlen⟩ := heff.success hstat
      rw [hlen, hsize]
    · obtain ⟨hsame, hsize⟩ := heff.failure hstat
      rw [hsame, hsize]
      exact h.length file
  refine ⟨status, _, update chains file l', hret.map _,
    h.update heff.changes heff.free hl' heff.chain heff.lastOk hlen, ?_, ?_, ?_, ?_⟩
  · intro j hj
    exact ⟨update_of_ne hj _ _, update_of_ne hj _ _⟩
  · rintro i n hcall hstat
    cases hcall
    obtain ⟨_, hsize, hlen⟩ := heff.success hstat
    rw [update_self]
    exact ⟨hlen, (congrArg OFile.fileSize (update_self _ _ _)).trans hsize⟩
  · intro hstat
    obtain ⟨hsame, hsize⟩ := heff.failure (by rw [hstat]; decide)
    refine ⟨(update_self _ _ _).trans hsame, ?_⟩
    exact (congrArg OFile.fileSize (update_self _ _ _)).trans hsize
  · intro i n hcall
    cases hcall

theorem shrink_effect (h : WellFormed s chains)
    (file : ι) (newSize : Nat) (hlegal : (Call.shrink file newSize).Legal s) :
    ∃ status s' chains', Returns (fun rounds => (Call.shrink file newSize).run rounds s)
      (status, s') ∧ Effect (.shrink file newSize) status s s' chains chains' := by
  have hcluss : fatSizeToClusters s.volume newSize = clustersFor s.volume newSize :=
    sizeToClusters_eq s.volume newSize
  have hle : clustersFor s.volume newSize ≤ (chains file).length := by
    rw [h.length file]
    exact hlegal
  obtain ⟨oFile', v', hret, hchg, hch, hlast, hsize⟩ :=
    fatShrinkEof_chain { s.files file with fileSize := newSize } (h.chain file) (h.lastOk file)
      (hcluss.trans_le hle)
  have hsize' : oFile'.fileSize = newSize := hsize
  have htake : fatSizeToClusters s.volume
      ({ s.files file with fileSize := newSize } : OFile).fileSize =
        clustersFor s.volume newSize := hcluss
  rw [htake] at hch hlast
  have hmono : Changes s.volume v' (chains file ++ []) := by
    rw [append_nil]
    exact hchg
  refine ⟨.success, _, update chains file
      ((chains file).take (clustersFor s.volume newSize)), hret.map _,
    h.update hmono (fun c hc => absurd hc not_mem_nil)
      (fun c hc => mem_append_left [] (mem_of_mem_take hc)) hch hlast ?_, ?_, ?_, ?_,
    ?_⟩
  · rw [length_take_of_le hle, hsize']
  · intro j hj
    exact ⟨update_of_ne hj _ _, update_of_ne hj _ _⟩
  · intro i n hcall
    cases hcall
  · intro hstat
    cases hstat
  · rintro i n hcall
    cases hcall
    refine ⟨rfl, update_self _ _ _, ?_⟩
    exact (congrArg OFile.fileSize (update_self _ _ _)).trans hsize'

/-- Calls one after the other, each of which returns. -/
inductive Run (s : VolumeState ι) : VolumeState ι → Prop
  | refl : Run s s
  | step {s₁ s₂ : VolumeState ι} {call : Call ι} {rounds : Nat} {status : FatStatus} :
      Run s s₁ → call.Legal s₁ → call.run rounds s₁ = some (status, s₂) → Run s s₂

theorem call_effect (h : WellFormed s chains) (call : Call ι) (hlegal : call.Legal s) :
    ∃ status s' chains', Returns (fun rounds => call.run rounds s) (status, s') ∧
      Effect call status s s' chains chains' := by
  cases call with
  | grow file newSize => exact grow_effect h file newSize hlegal
  | shrink file newSize => exact shrink_effect h file newSize hlegal

theorem Run.wellFormed {s' : VolumeState ι} (h : WellFormed s chains)
    (hrun : Run s s') : ∃ chains', WellFormed s' chains' := by
  induction hrun with
  | refl => exact ⟨chains, h⟩
  | step _ hlegal hcall ih =>
    obtain ⟨chains₁, h₁⟩ := ih
    obtain ⟨status, s₂, chains₂, hret, heff⟩ := call_effect h₁ _ hlegal
    have heq := hret.eq_of_some hcall
    rw [Prod.mk.injEq] at heq
    rw [heq.2]
    exact ⟨chains₂, heff.wellFormed⟩

instance decidableLegal (s : VolumeState ι) : (call : Call ι) → Decidable (call.Legal s)
  | .grow .. => inferInstanceAs (Decidable (_ → _ ≤ _))
  | .shrink .. => inferInstanceAs (Decidable (_ ≤ _))

end Runs

def smallVolume : FatVolume where
  fatType := .fat12
  rootPos := 0
  firstClusterPos := 0
  maxCluster := 3
  clusterAlignment := 9
  fat := fun i => [0xF8#8, 0xFF#8, 0xFF#8, 0x03#8, 0xF0#8, 0xFF#8].getD i 0#8
  fatEntryPos := 0
  clusterCount := 1
  nextCluster := 2
  freeInfoValid := true
  fatDirty := false
  dirtyValue := 0
  maxCluster_lt := by decide
  alignment_le := by decide

end MuBasecore.FatRuns
