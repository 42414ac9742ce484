import MuBasecore.PageServices

/-!
`CoreGetMemoryMap`: the map that is handed out, assembled from the memory map, the
bins of the special memory types and the GCD map. The buffer is a list of
descriptors; `VirtualStart`, which is always zero, is left out. Freed pages are
never guarded, so `MergeGuardPages` does nothing.
-/

namespace MuBasecore.GetMemoryMap

open EfiTypes Word64 GcdMap MemoryTypes MemoryMap

structure MemoryDescriptor where
  type : EfiMemoryType
  physicalStart : Nat
  numberOfPages : Nat
  attributes : AttributeMask
  deriving DecidableEq, Repr

def sizeOfMemoryDescriptor : Nat := 40

def descriptorSize : Nat :=
  sizeOfMemoryDescriptor + (8 - sizeOfMemoryDescriptor % 8)

/-- `EFI_PAGES_TO_SIZE` of the pages of a descriptor. -/
def MemoryDescriptor.size (d : MemoryDescriptor) : Nat :=
  shl64 d.numberOfPages efiPageShift

def runtimeAttribute (type : EfiMemoryType) (attributes : AttributeMask) : AttributeMask :=
  if type.named = false then attributes
  else if type.runtime then attributes ||| efiMemoryRuntime
  else attributes &&& ~~~efiMemoryRuntime

def setEfiMemoryDescriptorType (d : MemoryDescriptor) (type : EfiMemoryType) : MemoryDescriptor :=
  { d with type := type, attributes := runtimeAttribute type d.attributes }

def mergeMemoryMapDescriptor (d : MemoryDescriptor) : List MemoryDescriptor → List MemoryDescriptor
  | [] => [d]
  | e :: es =>
    if e.type ≠ d.type then e :: mergeMemoryMapDescriptor d es
    else if e.attributes ≠ d.attributes then e :: mergeMemoryMapDescriptor d es
    else if add64 e.physicalStart e.size = d.physicalStart then
      { e with numberOfPages := add64 e.numberOfPages d.numberOfPages } :: es
    else if sub64 e.physicalStart d.size = d.physicalStart then
      { e with
        physicalStart := d.physicalStart
        numberOfPages := add64 e.numberOfPages d.numberOfPages } :: es
    else e :: mergeMemoryMapDescriptor d es

/-- The inner loop of `MergeMemoryMap`, and the outer one from the next descriptor
that could not be merged on. -/
def mergeNext (d : MemoryDescriptor) : List MemoryDescriptor → List MemoryDescriptor
  | [] => [d]
  | next :: rest =>
    if d.type = next.type ∧ d.attributes = next.attributes ∧
        add64 d.physicalStart d.size = next.physicalStart then
      mergeNext { d with numberOfPages := add64 d.numberOfPages next.numberOfPages } rest
    else d :: mergeNext next rest

def mergeMemoryMap : List MemoryDescriptor → List MemoryDescriptor
  | [] => []
  | d :: ds => mergeNext d ds

/-- How far the map has come: the descriptors and the last value of `BufferSize`,
or an exit for want of room, or a loop that was cut off. -/
inductive Assembly
  | map (descriptors : List MemoryDescriptor) (bufferSize : Nat)
  | bufferTooSmall (bufferSize : Nat)
  | cutOff
  deriving DecidableEq, Repr

def Assembly.bind (a : Assembly) (f : List MemoryDescriptor → Nat → Assembly) : Assembly :=
  match a with
  | .map descriptors bufferSize => f descriptors bufferSize
  | .bufferTooSmall bufferSize => .bufferTooSmall bufferSize
  | .cutOff => .cutOff

/-- The check of the used part of the buffer against `*MemoryMapSize`. -/
def checkRoom (memoryMapSize bufferSize : Nat) (map : List MemoryDescriptor) : Assembly :=
  if descriptorSize * map.length > memoryMapSize then .bufferTooSmall bufferSize
  else .map map bufferSize

def addDescriptor (memoryMapSize : Nat) (a : Assembly) (d : MemoryDescriptor) : Assembly :=
  a.bind fun map bufferSize =>
    checkRoom memoryMapSize bufferSize (mergeMemoryMapDescriptor d map)

def entryDescriptor (e : MemoryMapEntry) : MemoryDescriptor :=
  setEfiMemoryDescriptorType
    { type := e.type
      physicalStart := e.startAddress
      numberOfPages := sizeToPages (add64 (sub64 e.endAddress e.startAddress) 1)
      attributes := e.attributes } e.type

def buildMap (memoryMapSize bufferSize : Nat) (entries : List MemoryMapEntry) : Assembly :=
  (entries.map entryDescriptor).foldl (addDescriptor memoryMapSize) (.map [] bufferSize)

def splitEntry (type : EfiMemoryType) (binStart binEnd : Nat) (d : MemoryDescriptor) :
    Option (List MemoryDescriptor) :=
  if d.type ≠ .conventionalMemory then none
  else
    let entryStart := d.physicalStart
    let entryEnd := sub64 (add64 entryStart d.size) 1
    if entryEnd < binStart ∨ entryStart > binEnd then none
    else if entryStart ≥ binStart ∧ entryEnd ≤ binEnd then
      some [setEfiMemoryDescriptorType d type]
    else if entryStart < binStart then
      let below := { d with numberOfPages := sizeToPages (sub64 binStart entryStart) }
      let inside := setEfiMemoryDescriptorType
        { below with
          physicalStart := binStart
          numberOfPages := sizeToPages (add64 (sub64 entryEnd binStart) 1) } type
      if entryEnd > binEnd then
        let inside :=
          { inside with numberOfPages := sizeToPages (add64 (sub64 binEnd binStart) 1) }
        let above := setEfiMemoryDescriptorType
          { inside with
            physicalStart := add64 binEnd 1
            numberOfPages := sizeToPages (sub64 entryEnd binEnd) } .conventionalMemory
        some [below, inside, above]
      else some [below, inside]
    else if entryEnd > binEnd then
      let inside := setEfiMemoryDescriptorType
        { d with numberOfPages := sizeToPages (add64 (sub64 binEnd entryStart) 1) } type
      let above := setEfiMemoryDescriptorType
        { inside with
          physicalStart := add64 binEnd 1
          numberOfPages := sizeToPages (sub64 entryEnd binEnd) } .conventionalMemory
      some [inside, above]
    else none

def splitFirstEntry (type : EfiMemoryType) (binStart binEnd : Nat) :
    List MemoryDescriptor → Option (List MemoryDescriptor)
  | [] => none
  | d :: ds =>
    match splitEntry type binStart binEnd d with
    | some pieces => some (pieces ++ ds)
    | none => (splitFirstEntry type binStart binEnd ds).map (d :: ·)

/-- The loop for one bin, cut off after the given number of iterations. The checks
after the one or two insertions of an iteration end in the same way, so that only
the last one is made. -/
def splitLoop (memoryMapSize : Nat) (type : EfiMemoryType) (binStart binEnd : Nat) :
    Nat → List MemoryDescriptor → Assembly
  | 0, _ => .cutOff
  | fuel + 1, map =>
    let map := mergeMemoryMap map
    let bufferSize := descriptorSize * map.length
    match splitFirstEntry type binStart binEnd map with
    | none => .map map bufferSize
    | some map =>
      (checkRoom memoryMapSize bufferSize map).bind fun map _ =>
        splitLoop memoryMapSize type binStart binEnd fuel map

def hasBin (s : MemoryState) (type : EfiMemoryType) : Bool :=
  type.special && decide ((s.memoryTypeStatistics type).numberOfPages > 0)

def splitBin (memoryMapSize : Nat) (s : MemoryState) (a : Assembly) (type : EfiMemoryType) :
    Assembly :=
  if hasBin s type then
    a.bind fun map _ =>
      splitLoop memoryMapSize type (s.memoryTypeStatistics type).baseAddress
        (s.memoryTypeStatistics type).maximumAddress (map.length + 1) map
  else a

def splitBins (memoryMapSize : Nat) (s : MemoryState) (a : Assembly) : Assembly :=
  namedMemoryTypes.foldl (splitBin memoryMapSize s) a

def reportedEntry (e : GcdMapEntry) : Bool :=
  match e.gcdMemoryType with
  | .persistent | .reserved | .unaccepted => true
  | .memoryMappedIo => decide (e.attributes &&& efiMemoryRuntime = efiMemoryRuntime)
  | _ => false

def gcdCapabilities (e : GcdMapEntry) : AttributeMask :=
  e.capabilities &&& (efiCacheAttributeMask ||| efiMemoryAttributeMask)

def gcdRange (e : GcdMapEntry) (type : EfiMemoryType) (attributes : AttributeMask) :
    MemoryDescriptor where
  type := type
  physicalStart := e.baseAddress
  numberOfPages := add64 (sub64 e.endAddress e.baseAddress) 1 / efiPageSize
  attributes := attributes

def gcdDescriptor (e : GcdMapEntry) : Option MemoryDescriptor :=
  match e.gcdMemoryType with
  | .reserved =>
    some (gcdRange e .reservedMemoryType
      (e.attributes &&& ~~~efiMemoryPortIo ||| gcdCapabilities e))
  | .memoryMappedIo =>
    if e.attributes &&& efiMemoryRuntime = efiMemoryRuntime then
      some (gcdRange e
        (if e.attributes &&& efiMemoryPortIo = efiMemoryPortIo then .memoryMappedIoPortSpace
          else .memoryMappedIo)
        (e.attributes &&& ~~~efiMemoryPortIo ||| gcdCapabilities e))
    else none
  | .persistent =>
    some (gcdRange e .persistentMemory (e.attributes ||| efiMemoryNv ||| gcdCapabilities e))
  | .unaccepted =>
    some (gcdRange e .unacceptedMemoryType
      (e.attributes ||| e.capabilities &&&
        (efiMemoryRp ||| efiMemoryWp ||| efiMemoryXp ||| efiMemoryRo ||| efiMemoryUc |||
          efiMemoryUce ||| efiMemoryWc ||| efiMemoryWt ||| efiMemoryWb)))
  | _ => none

def addGcdEntry (memoryMapSize : Nat) (a : Assembly) (e : GcdMapEntry) : Assembly :=
  match gcdDescriptor e with
  | none => a
  | some d => addDescriptor memoryMapSize a d

def zeroGcdEntry : GcdMapEntry where
  baseAddress := 0
  endAddress := 0
  capabilities := 0
  attributes := 0
  gcdMemoryType := .nonExistent
  gcdIoType := .nonExistent
  imageHandle := 0
  deviceHandle := 0

def sameGcdRange (e d : GcdMapEntry) : Bool :=
  decide (e.capabilities = d.capabilities) && decide (e.attributes = d.attributes) &&
    decide (e.gcdMemoryType = d.gcdMemoryType) && decide (e.gcdIoType = d.gcdIoType)

/-- The walk along the GCD map; neighbours that agree in type and attributes are
taken together in `mergeGcdMapEntry`. -/
def addGcdEntries (memoryMapSize : Nat) (mergeGcdMapEntry : GcdMapEntry) :
    List GcdMapEntry → Assembly → Assembly
  | [], a => addGcdEntry memoryMapSize a mergeGcdMapEntry
  | e :: es, a =>
    if sameGcdRange mergeGcdMapEntry e then
      addGcdEntries memoryMapSize { mergeGcdMapEntry with endAddress := e.endAddress } es a
    else addGcdEntries memoryMapSize e es (addGcdEntry memoryMapSize a mergeGcdMapEntry)

def requiredSize (s : MemoryState) : Nat :=
  descriptorSize * (s.gcd.memorySpaceMap.countP reportedEntry) +
    descriptorSize * s.memoryMap.length + 2 * descriptorSize * namedMemoryTypes.countP (hasBin s)

def assembleMap (memoryMapSize : Nat) (s : MemoryState) : Assembly :=
  addGcdEntries memoryMapSize zeroGcdEntry s.gcd.memorySpaceMap
    (splitBins memoryMapSize s (buildMap memoryMapSize (requiredSize s) s.memoryMap))

def clearAccess (map : List MemoryDescriptor) : List MemoryDescriptor :=
  map.map fun d => { d with attributes := d.attributes &&& ~~~efiMemoryAccessMask }

def finishMap (map : List MemoryDescriptor) : List MemoryDescriptor :=
  mergeMemoryMap (clearAccess map)

/-- What `CoreGetMemoryMap` returns, with the descriptors it leaves in the buffer if
it succeeds. -/
structure MapAnswer where
  status : EfiStatus
  memoryMapSize : Nat
  memoryMap : List MemoryDescriptor
  mapKey : Nat
  deriving DecidableEq, Repr

/-- `CoreGetMemoryMap` with a pointer to the size; `given` says whether the pointer
to the buffer is not null. -/
def coreGetMemoryMap (memoryMapSize : Nat) (given : Bool) (s : MemoryState) : Option MapAnswer :=
  let mapKey := s.memoryMapKey % 2 ^ 64
  if memoryMapSize < requiredSize s then
    some ⟨.bufferTooSmall, requiredSize s, [], mapKey⟩
  else if !given then some ⟨.invalidParameter, requiredSize s, [], mapKey⟩
  else
    match assembleMap memoryMapSize s with
    | .map map _ => some ⟨.success, descriptorSize * (finishMap map).length, finishMap map, mapKey⟩
    | .bufferTooSmall bufferSize => some ⟨.bufferTooSmall, bufferSize, [], mapKey⟩
    | .cutOff => none

def misaligned (p : Platform) (e : MemoryMapEntry) : Bool :=
  e.type.runtime &&
    (decide (e.startAddress % p.arch.runtimePageAllocationGranularity ≠ 0) ||
      decide (add64 e.endAddress 1 % p.arch.runtimePageAllocationGranularity ≠ 0))

def coreTerminateMemoryMap (p : Platform) (mapKey : Nat) (s : MemoryState) : EfiStatus :=
  if mapKey = s.memoryMapKey % 2 ^ 64 then
    if s.memoryMap.any (misaligned p) then .invalidParameter else .success
  else .invalidParameter

end MuBasecore.GetMemoryMap
