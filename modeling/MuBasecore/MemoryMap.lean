import MuBasecore.GcdSpace
import MuBasecore.MemoryTypes

/-!
The memory map of the DXE core and the operations that change it: adding a
range, converting pages, and moving descriptors from the temporary descriptor
stack to the heap. A result `none` stands for an assertion whose failure leaves
the code without a defined continuation: a descriptor pushed beyond the end of
the stack, a descriptor that cannot be allocated, which the code waits for
forever, or a lock taken twice.
-/

namespace MuBasecore.MemoryMap

open EfiTypes Word64 GcdSpace MemoryTypes

/-- What a descriptor says: the memory from `startAddress` up to and including
`endAddress` has this type and these attributes. -/
structure MemoryRange where
  type : EfiMemoryType
  startAddress : Nat
  endAddress : Nat
  attributes : AttributeMask
  deriving DecidableEq, Repr

/-- `MEMORY_MAP`. A descriptor `FromPages` has no slot; any other one lies in the
slot of `mMapStack` with this index. `VirtualStart`, which is always zero, is
left out. -/
structure MemoryMapEntry extends MemoryRange where
  slot : Option Nat
  deriving DecidableEq, Repr

/-- The global variables of the memory services. `freeEntries` is the length of
`mFreeMemoryMapEntryList`, and `informationPages` the page counts of
`gMemoryTypeInformation`. `memoryMapKey` counts on where `mMemoryMapKey` wraps to
zero; it is read modulo 2^64. -/
structure MemoryState where
  memoryMap : List MemoryMapEntry
  mapDepth : Nat
  freeEntries : Nat
  memoryMapKey : Nat
  gcd : Gcd
  gcdMemoryLocked : Bool
  memoryTypeInformationInitialized : Bool
  memoryTypeStatistics : EfiMemoryType → MemoryTypeStatistics
  informationPages : Nat → Nat
  defaultMaximumAddress : Nat
  defaultBaseAddress : Nat

def maxMapDepth : Nat := 6

def entriesPerPage : Nat := 64

/-- The descriptors of `gMemoryMap` after the walk of `CoreAddRange`: the range
with the neighbours it has taken over, those that are left, and how many of the
removed ones went to the free list. -/
structure Absorbed where
  startAddress : Nat
  endAddress : Nat
  kept : List MemoryMapEntry
  freed : Nat
  deriving DecidableEq, Repr

def absorbAdjacent (type : EfiMemoryType) (attributes : AttributeMask) :
    Nat → Nat → List MemoryMapEntry → Absorbed
  | start, last, [] => { startAddress := start, endAddress := last, kept := [], freed := 0 }
  | start, last, e :: es =>
    if e.type = type ∧ e.attributes = attributes ∧ add64 e.endAddress 1 = start then
      let rest := absorbAdjacent type attributes e.startAddress last es
      { rest with freed := rest.freed + (if e.slot.isNone then 1 else 0) }
    else if e.type = type ∧ e.attributes = attributes ∧ e.startAddress = add64 last 1 then
      let rest := absorbAdjacent type attributes start e.endAddress es
      { rest with freed := rest.freed + (if e.slot.isNone then 1 else 0) }
    else
      let rest := absorbAdjacent type attributes start last es
      { rest with kept := e :: rest.kept }

/-- A descriptor is put into the next slot of `mMapStack` and linked at the end
of the map. -/
def pushRange (range : MemoryRange) (s : MemoryState) : Option MemoryState :=
  if s.mapDepth < maxMapDepth then
    some
      { s with
        memoryMap := s.memoryMap ++ [{ range with slot := some s.mapDepth }]
        mapDepth := s.mapDepth + 1 }
  else none

def coreAddRange (range : MemoryRange) (s : MemoryState) : Option MemoryState :=
  let absorbed :=
    absorbAdjacent range.type range.attributes range.startAddress range.endAddress s.memoryMap
  pushRange
    { range with startAddress := absorbed.startAddress, endAddress := absorbed.endAddress }
    { s with
      memoryMap := absorbed.kept
      freeEntries := s.freeEntries + absorbed.freed
      memoryMapKey := s.memoryMapKey + 1 }

/-- The two functions that `CoreConvertPagesEx` and `FindFreePages` may enter
again from inside `CoreFreeMemoryMapStack`. -/
structure Level where
  coreFreeMemoryMapStack : MemoryState → Option MemoryState
  promoteMemoryResource : MemoryState → Option (Bool × MemoryState)

/-- What `CoreConvertPagesEx` changes. -/
inductive Conversion
  | toType (newType : EfiMemoryType)
  | toAttributes (newAttributes : AttributeMask)
  deriving DecidableEq, Repr

def Conversion.range (c : Conversion) (e : MemoryRange) (start last : Nat) : MemoryRange :=
  match c with
  | .toType newType =>
    { type := newType, startAddress := start, endAddress := last, attributes := e.attributes }
  | .toAttributes newAttributes =>
    { type := e.type, startAddress := start, endAddress := last, attributes := newAttributes }

/-- The checks on the descriptor that covers the start of a range: memory that is
allocated lies in one descriptor, and a change of type is from or to
conventional memory. -/
def Conversion.allowed (c : Conversion) (e : MemoryRange) (last : Nat) : Bool :=
  match c with
  | .toAttributes _ => true
  | .toType newType =>
    !(newType != .conventionalMemory && decide (e.endAddress < last)) &&
      ((newType == .conventionalMemory) != (e.type == .conventionalMemory))

def inBin (s : MemoryState) (type : EfiMemoryType) (start : Nat) : Bool :=
  decide ((s.memoryTypeStatistics type).baseAddress ≤ start) &&
      decide (start ≤ (s.memoryTypeStatistics type).maximumAddress) ||
    decide (s.defaultBaseAddress ≤ start) && decide (start ≤ s.defaultMaximumAddress)

def setCurrentNumberOfPages (type : EfiMemoryType) (pages : Nat) (s : MemoryState) : MemoryState :=
  { s with
    memoryTypeStatistics := Function.update s.memoryTypeStatistics type
      { s.memoryTypeStatistics type with currentNumberOfPages := pages } }

def updateMemoryStatistics (oldType newType : EfiMemoryType) (start numberOfPages : Nat)
    (s : MemoryState) : MemoryState :=
  if !s.memoryTypeInformationInitialized then s
  else
    let s :=
      if oldType.named && inBin s oldType start then
        let current := (s.memoryTypeStatistics oldType).currentNumberOfPages
        setCurrentNumberOfPages oldType
          (if numberOfPages > current then 0 else current - numberOfPages) s
      else s
    if newType.named && inBin s newType start then
      let current := add64 (s.memoryTypeStatistics newType).currentNumberOfPages numberOfPages
      let index := (s.memoryTypeStatistics newType).informationIndex
      let s := setCurrentNumberOfPages newType current s
      if index < namedMemoryTypes.length && decide (current > s.informationPages index) then
        { s with informationPages := Function.update s.informationPages index (current % 2 ^ 32) }
      else s
    else s

def Conversion.updateStatistics (c : Conversion) (e : MemoryRange) (start numberOfPages : Nat)
    (s : MemoryState) : MemoryState :=
  match c with
  | .toType newType => updateMemoryStatistics e.type newType start numberOfPages s
  | .toAttributes _ => s

/-- The walk along the map to the first descriptor that satisfies the test: the
descriptors before it, the descriptor itself, and those behind it. -/
def splitFirst (test : MemoryMapEntry → Bool) :
    List MemoryMapEntry → Option (List MemoryMapEntry × MemoryMapEntry × List MemoryMapEntry)
  | [] => none
  | e :: es =>
    if test e then some ([], e, es)
    else
      match splitFirst test es with
      | none => none
      | some (before, d, behind) => some (e :: before, d, behind)

/-- `RemoveMemoryMapEntry` on the descriptor `e` between the two lists. -/
def removeMemoryMapEntry (before : List MemoryMapEntry) (e : MemoryMapEntry)
    (behind : List MemoryMapEntry) (s : MemoryState) : MemoryState :=
  { s with
    memoryMap := before ++ behind
    freeEntries := s.freeEntries + (if e.slot.isNone then 1 else 0) }

/-- The range from `start` to `last` is pulled out of the descriptor `e` between
the two lists: its start, its end or its center is clipped, and it is removed if
nothing is left of it. -/
def pullRange (before : List MemoryMapEntry) (e : MemoryMapEntry) (behind : List MemoryMapEntry)
    (start last : Nat) (s : MemoryState) : Option MemoryState :=
  if e.startAddress = start then
    if add64 last 1 = add64 e.endAddress 1 then some (removeMemoryMapEntry before e behind s)
    else some { s with memoryMap := before ++ { e with startAddress := add64 last 1 } :: behind }
  else if e.endAddress = last then
    if e.startAddress = add64 (sub64 start 1) 1 then
      some (removeMemoryMapEntry before e behind s)
    else some { s with memoryMap := before ++ { e with endAddress := sub64 start 1 } :: behind }
  else
    pushRange { e.toMemoryRange with startAddress := add64 last 1 }
      { s with memoryMap := before ++ { e with endAddress := sub64 start 1 } :: behind }

def MemoryMapEntry.covers (e : MemoryMapEntry) (start : Nat) : Bool :=
  e.startAddress ≤ start && start < e.endAddress

/-- The loop of `CoreConvertPagesEx`, cut off after the given number of
iterations. -/
def convertLoop (level : Level) (c : Conversion) (numberOfPages last : Nat) :
    Nat → Nat → MemoryState → Option (EfiStatus × MemoryState)
  | 0, _, _ => none
  | fuel + 1, start, s =>
    if start < last then
      match splitFirst (MemoryMapEntry.covers · start) s.memoryMap with
      | none => some (.notFound, s)
      | some (before, e, behind) =>
        if !c.allowed e.toMemoryRange last then some (.notFound, s)
        else
          let rangeEnd := if e.endAddress < last then e.endAddress else last
          let s := c.updateStatistics e.toMemoryRange start numberOfPages s
          match pullRange before e behind start rangeEnd s with
          | none => none
          | some s =>
            match coreAddRange (c.range e.toMemoryRange start rangeEnd) s with
            | none => none
            | some s =>
              match level.coreFreeMemoryMapStack s with
              | none => none
              | some s => convertLoop level c numberOfPages last fuel (add64 rangeEnd 1) s
    else some (.success, s)

def convertFuel : Nat := 2 ^ 53 + 2

def coreConvertPagesEx (level : Level) (c : Conversion) (start numberOfPages : Nat)
    (s : MemoryState) : Option (EfiStatus × MemoryState) :=
  let last := lastByte start (shl64 numberOfPages efiPageShift)
  if numberOfPages = 0 ∨ start % efiPageSize ≠ 0 ∨ start ≥ last then some (.invalidParameter, s)
  else convertLoop level c numberOfPages last convertFuel start s

end MuBasecore.MemoryMap
