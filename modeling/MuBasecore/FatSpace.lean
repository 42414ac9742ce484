import MuBasecore.FatTable

/-!
Disk space of the files of a FAT volume: freeing, allocating, shrinking, growing
and measuring the cluster chain of a file. A loop of the source without a bound
of its own takes the number of rounds it may make and returns nothing when they
do not suffice; a call returns if it does with some number of rounds.
-/

namespace MuBasecore.FatSpace

open FatTable

/-- `FAT_OFILE` as far as the cluster chain of the file goes. -/
structure OFile where
  fileSize : Nat
  fileCluster : Nat
  fileCurrentCluster : Nat
  fileLastCluster : Nat
  dirty : Bool
  isFixedRootDir : Bool
  position : Nat
  posDisk : Nat
  posRem : Nat
  deriving DecidableEq, Repr

def chainCorrupt (cluster : Nat) : Bool :=
  cluster = clusterFree ∨ clusterSpecial ≤ cluster

def fatFreeClusters : Nat → FatVolume → Nat → Option (FatStatus × FatVolume)
  | 0, _, _ => none
  | rounds + 1, v, cluster =>
    if endOfFatChain cluster then some (.success, v)
    else if chainCorrupt cluster then some (.volumeCorrupted, v)
    else
      fatFreeClusters rounds
        (fatSetFatEntry (fatLoadFatEntry v cluster) cluster clusterFree).2
        (fatGetFatEntry v cluster)

/-- The loop of `FatComputeFreeInfo`, from the last cluster down to the first. -/
def countFreeClusters : Nat → FatVolume → FatVolume
  | 0, v => v
  | n + 1, v =>
    let loaded := fatLoadFatEntry v (n + minCluster)
    countFreeClusters n
      (if fatGetFatEntry v (n + minCluster) = clusterFree then
        { loaded with
          clusterCount := (loaded.clusterCount + 1) % 2 ^ 32
          nextCluster := (n + minCluster) % 2 ^ 32 }
      else loaded)

def fatComputeFreeInfo (v : FatVolume) : FatVolume :=
  if v.freeInfoValid then v
  else countFreeClusters v.maxCluster { v with freeInfoValid := true, clusterCount := 0 }

/-- What `FatAllocateCluster` does when the hint is beyond the last cluster. -/
def refreshFreeInfo (v : FatVolume) : FatVolume :=
  if v.maxCluster + 1 < v.nextCluster then
    fatComputeFreeInfo
      (if v.freeInfoValid = true ∧ 0 < v.clusterCount ∧ v.clusterCount < 2 ^ 31 then
        { v with freeInfoValid := false }
      else v)
  else v

def fatAllocateCluster : Nat → FatVolume → Option (Nat × FatVolume)
  | 0, _ => none
  | rounds + 1, v =>
    let w := refreshFreeInfo v
    if w.maxCluster + 1 < w.nextCluster then some (clusterLast, w)
    else
      let tried :=
        { fatLoadFatEntry w w.nextCluster with nextCluster := (w.nextCluster + 1) % 2 ^ 32 }
      if fatGetFatEntry w w.nextCluster = clusterFree then some (w.nextCluster, tried)
      else fatAllocateCluster rounds tried

def fatSizeToClusters (v : FatVolume) (size : Nat) : Nat :=
  size / v.clusterSize + if size % v.clusterSize > 0 then 1 else 0

/-- The counted loop of `FatShrinkEof`: the cluster after the given number of
links and the one before it. -/
def walkLinks : Nat → FatVolume → Nat → Nat → Option (Nat × Nat) × FatVolume
  | 0, v, cluster, lastCluster => (some (cluster, lastCluster), v)
  | n + 1, v, cluster, _ =>
    if chainCorrupt cluster then (none, v)
    else walkLinks n (fatLoadFatEntry v cluster) (fatGetFatEntry v cluster) cluster

def fatShrinkEof (rounds : Nat) (v : FatVolume) (oFile : OFile) :
    Option (FatStatus × OFile × FatVolume) :=
  let newSize := fatSizeToClusters v oFile.fileSize
  if newSize ≠ 0 then
    match walkLinks newSize v oFile.fileCluster clusterFree with
    | (none, w) => some (.volumeCorrupted, oFile, w)
    | (some (cluster, lastCluster), w) =>
      (fatFreeClusters rounds (fatSetFatEntry w lastCluster clusterLast).2 cluster).map
        fun freed => (freed.1, { oFile with
          fileCurrentCluster := oFile.fileCluster
          fileLastCluster := lastCluster
          dirty := true }, freed.2)
  else if oFile.fileCluster = clusterFree then some (.success, oFile, v)
  else
    (fatFreeClusters rounds v oFile.fileCluster).map
      fun freed => (freed.1, { oFile with
        fileCluster := clusterFree
        fileCurrentCluster := clusterFree
        fileLastCluster := clusterFree
        dirty := true }, freed.2)

structure LastCluster where
  corrupt : Bool
  clusterCount : Nat
  fileLastCluster : Nat

def findLastCluster : Nat → FatVolume → Nat → LastCluster → Option (LastCluster × FatVolume)
  | 0, _, _, _ => none
  | rounds + 1, v, cluster, found =>
    if endOfFatChain cluster then some (found, v)
    else if cluster < minCluster ∨ v.maxCluster + 1 < cluster then
      some ({ found with corrupt := true }, v)
    else
      findLastCluster rounds (fatLoadFatEntry v cluster) (fatGetFatEntry v cluster)
        { found with clusterCount := found.clusterCount + 1, fileLastCluster := cluster }

/-- One round of the allocating loop of `FatGrowEof` behind the call of
`FatAllocateCluster`; `next` are the rounds that follow. -/
def growRound (next : FatVolume → OFile → Nat → Option (FatStatus × OFile × FatVolume))
    (oFile : OFile) (lastCluster newCluster : Nat) (w : FatVolume) :
    Option (FatStatus × OFile × FatVolume) :=
  if endOfFatChain newCluster then
    if lastCluster ≠ clusterFree then
      some (.volumeFull, { oFile with fileLastCluster := lastCluster },
        (fatSetFatEntry w lastCluster clusterLast).2)
    else some (.volumeFull, oFile, w)
  else if newCluster < minCluster ∨ w.maxCluster + 1 < newCluster then
    some (.volumeCorrupted, oFile, w)
  else if lastCluster ≠ 0 then
    next (fatSetFatEntry (fatSetFatEntry w lastCluster newCluster).2 newCluster clusterLast).2
      { oFile with fileLastCluster := newCluster } newCluster
  else
    next (fatSetFatEntry w newCluster clusterLast).2
      { oFile with
        fileCluster := newCluster
        fileCurrentCluster := newCluster
        fileLastCluster := newCluster } newCluster

def growLoop (rounds : Nat) :
    Nat → FatVolume → OFile → Nat → Option (FatStatus × OFile × FatVolume)
  | 0, v, oFile, _ => some (.success, oFile, v)
  | n + 1, v, oFile, lastCluster =>
    (fatAllocateCluster rounds v).bind fun allocated =>
      growRound (growLoop rounds n) oFile lastCluster allocated.1 allocated.2

/-- The part of `FatGrowEof` that looks for the last cluster of the chain, if it
is not known. -/
def searchLastCluster (rounds : Nat) (v : FatVolume) (oFile : OFile) (curSize : Nat) :
    Option (FatStatus × OFile × FatVolume) :=
  if oFile.fileCluster ≠ 0 ∧ oFile.fileLastCluster = 0 then
    (findLastCluster rounds v oFile.fileCluster ⟨false, 0, oFile.fileLastCluster⟩).map
      fun found =>
        (if found.1.corrupt = true ∨ found.1.clusterCount ≠ curSize then .volumeCorrupted
          else .success, { oFile with fileLastCluster := found.1.fileLastCluster }, found.2)
  else some (.success, oFile, v)

/-- Search and allocation together, before the label `Done`. -/
def growChain (rounds : Nat) (v : FatVolume) (oFile : OFile) (curSize newSize : Nat) :
    Option (FatStatus × OFile × FatVolume) :=
  (searchLastCluster rounds v oFile curSize).bind fun searched =>
    if searched.1 = .success then
      growLoop rounds (newSize - curSize) searched.2.2 searched.2.1
        searched.2.1.fileLastCluster
    else some searched

def fatGrowEof (rounds : Nat) (v : FatVolume) (oFile : OFile) (newSizeInBytes : Nat) :
    Option (FatStatus × OFile × FatVolume) :=
  if 0xFFFFFFFF < newSizeInBytes then some (.unsupported, oFile, v)
  else
    let curSize := fatSizeToClusters v oFile.fileSize
    let newSize := fatSizeToClusters v newSizeInBytes
    (if curSize < newSize then growChain rounds v oFile curSize newSize
      else some (.success, oFile, v)).bind fun grown =>
        if grown.1 = .success then
          some (.success, { grown.2.1 with fileSize := newSizeInBytes, dirty := true }, grown.2.2)
        else (fatShrinkEof rounds grown.2.2 grown.2.1).map fun shrunk => (grown.1, shrunk.2)

/-- The first loop of `FatOFilePosition`; positions are counted modulo the size
of `UINTN`. -/
def seekCluster : Nat → FatVolume → Nat → Nat → Nat → Option (Option (Nat × Nat) × FatVolume)
  | 0, _, _, _, _ => none
  | rounds + 1, v, position, startPos, cluster =>
    if (startPos + v.clusterSize) % uintnSize ≤ position then
      if chainCorrupt cluster then some (none, v)
      else
        seekCluster rounds (fatLoadFatEntry v cluster) position
          ((startPos + v.clusterSize) % uintnSize) (fatGetFatEntry v cluster)
    else some (some (startPos, cluster), v)

/-- The second loop of `FatOFilePosition`, over consecutive clusters. -/
def extendRun : Nat → FatVolume → Nat → Nat → Nat → Option (Nat × FatVolume)
  | 0, _, _, _, _ => none
  | rounds + 1, v, cluster, run, posLimit =>
    if fatGetFatEntry v cluster = cluster + 1 ∧ run < posLimit then
      extendRun rounds (fatLoadFatEntry v cluster) (cluster + 1)
        ((run + v.clusterSize) % uintnSize) posLimit
    else some (run, fatLoadFatEntry v cluster)

def fatOFilePosition (rounds : Nat) (v : FatVolume) (oFile : OFile) (position posLimit : Nat) :
    Option (FatStatus × OFile × FatVolume) :=
  if oFile.isFixedRootDir then
    some (.success, { oFile with
      posDisk := (v.rootPos + position) % uintnSize
      posRem := (oFile.fileSize + uintnSize - position) % uintnSize }, v)
  else
    let restart := position < oFile.position ∨ oFile.fileCluster = oFile.fileCurrentCluster
    match seekCluster rounds v position (if restart then 0 else oFile.position)
        (if restart then oFile.fileCluster else oFile.fileCurrentCluster) with
    | none => none
    | some (none, w) => some (.volumeCorrupted, oFile, w)
    | some (some (startPos, cluster), w) =>
      if cluster < minCluster ∨ w.maxCluster + 1 < cluster then
        some (.volumeCorrupted, oFile, w)
      else
        let run := (startPos + w.clusterSize) % uintnSize - position
        let extended :=
          if endOfFatChain cluster then some (run, w)
          else extendRun rounds w cluster run posLimit
        extended.map fun r => (.success, { oFile with
          posDisk := (w.firstClusterPos + (cluster - minCluster) * w.clusterSize +
            (position - startPos)) % uintnSize
          fileCurrentCluster := cluster
          position := startPos
          posRem := r.1 }, r.2)

def dirSizeLoop : Nat → FatVolume → Nat → Nat → Option (Nat × FatVolume)
  | 0, _, _, _ => none
  | rounds + 1, v, cluster, size =>
    if endOfFatChain cluster then some (size, v)
    else if chainCorrupt cluster then some (0, v)
    else
      dirSizeLoop rounds (fatLoadFatEntry v cluster) (fatGetFatEntry v cluster)
        ((size + v.clusterSize) % uintnSize)

def fatPhysicalDirSize (rounds : Nat) (v : FatVolume) (cluster : Nat) :
    Option (Nat × FatVolume) :=
  if cluster ≠ 0 then dirSizeLoop rounds v cluster 0 else some (0, v)

/-- `FatTruncateOFile`, through which `FatShrinkEof` is reached. -/
def fatTruncateOFile (rounds : Nat) (v : FatVolume) (oFile : OFile) (truncatedSize : Nat) :
    Option (FatStatus × OFile × FatVolume) :=
  fatShrinkEof rounds v { oFile with fileSize := truncatedSize }

end MuBasecore.FatSpace
