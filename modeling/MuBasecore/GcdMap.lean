import MuBasecore.EfiTypes
import MuBasecore.Word64

/-!
The entries of a global coherency domain (GCD) map and the list operations on
them: searching a range, padding an entry at its two ends, and merging equal
neighbours. A map is the list of its entries in address order; a link is the
index of an entry in that list.
-/

namespace MuBasecore.GcdMap

open EfiTypes Word64

/-- `EFI_GCD_MEMORY_TYPE`. The codes from `EfiGcdMemoryTypeMaximum` on, which
no named type has, are `other`. -/
inductive GcdMemoryType
  | nonExistent
  | reserved
  | systemMemory
  | memoryMappedIo
  | persistent
  | moreReliable
  | unaccepted
  | other (code : Nat)
  deriving DecidableEq, Repr

/-- `EFI_GCD_IO_TYPE`, with the codes from `EfiGcdIoTypeMaximum` on as `other`. -/
inductive GcdIoType
  | nonExistent
  | reserved
  | io
  | other (code : Nat)
  deriving DecidableEq, Repr

abbrev Handle := Nat

/-- `EFI_GCD_MAP_ENTRY`: the addresses from `baseAddress` up to and including
`endAddress` with what is known about them. -/
structure GcdMapEntry where
  baseAddress : Nat
  endAddress : Nat
  capabilities : AttributeMask
  attributes : AttributeMask
  gcdMemoryType : GcdMemoryType
  gcdIoType : GcdIoType
  imageHandle : Handle
  deviceHandle : Handle
  deriving DecidableEq, Repr

/-- What `CoreMergeGcdMapEntry` compares: two neighbours are merged exactly when
these six fields agree. -/
structure GcdLabel where
  capabilities : AttributeMask
  attributes : AttributeMask
  gcdMemoryType : GcdMemoryType
  gcdIoType : GcdIoType
  imageHandle : Handle
  deviceHandle : Handle
  deriving DecidableEq, Repr

def GcdMapEntry.label (e : GcdMapEntry) : GcdLabel where
  capabilities := e.capabilities
  attributes := e.attributes
  gcdMemoryType := e.gcdMemoryType
  gcdIoType := e.gcdIoType
  imageHandle := e.imageHandle
  deviceHandle := e.deviceHandle

def GcdMapEntry.contains (e : GcdMapEntry) (address : Nat) : Bool :=
  e.baseAddress ≤ address && address ≤ e.endAddress

@[simp] theorem GcdMapEntry.contains_iff (e : GcdMapEntry) (address : Nat) :
    e.contains address = true ↔ e.baseAddress ≤ address ∧ address ≤ e.endAddress := by
  simp [GcdMapEntry.contains]

def gcdMemorySpaceMapEntryTemplate : GcdMapEntry where
  baseAddress := 0
  endAddress := 0
  capabilities := 0
  attributes := 0
  gcdMemoryType := .nonExistent
  gcdIoType := .nonExistent
  imageHandle := 0
  deviceHandle := 0

/-- `mGcdIoSpaceMapEntryTemplate`. Its memory type is the code zero, which is
`EfiGcdMemoryTypeNonExistent`, so the two templates agree. -/
def gcdIoSpaceMapEntryTemplate : GcdMapEntry :=
  gcdMemorySpaceMapEntryTemplate

/-- The walk of `CoreSearchGcdMapEntry` from the entry at index `link` on;
`startLink` is the last entry seen so far that contains the base. -/
def searchFrom (baseAddress lastAddress : Nat) :
    Nat → Option Nat → List GcdMapEntry → Option (Nat × Nat)
  | _, _, [] => none
  | link, startLink, e :: es =>
    let startLink := if e.contains baseAddress then some link else startLink
    match startLink with
    | none => searchFrom baseAddress lastAddress (link + 1) none es
    | some start =>
      if e.contains lastAddress then some (start, link)
      else searchFrom baseAddress lastAddress (link + 1) (some start) es

/-- `CoreSearchGcdMapEntry`: the links of the first and the last entry that the
range of `length` bytes at `baseAddress` involves. -/
def coreSearchGcdMapEntry (baseAddress length : Nat) (map : List GcdMapEntry) :
    Option (Nat × Nat) :=
  searchFrom baseAddress (lastByte baseAddress length) 0 none map

/-- What `CoreInsertGcdMapEntry` leaves of an entry: the bottom pad inserted
before it, the entry itself, and the top pad inserted after it. -/
structure Inserted where
  bottomEntry : Option GcdMapEntry
  entry : GcdMapEntry
  topEntry : Option GcdMapEntry
  deriving DecidableEq, Repr

def coreInsertGcdMapEntry (entry : GcdMapEntry) (baseAddress length : Nat) : Inserted :=
  let bottomEntry :=
    if baseAddress > entry.baseAddress then
      some { entry with endAddress := sub64 baseAddress 1 }
    else none
  let entry :=
    if baseAddress > entry.baseAddress then { entry with baseAddress := baseAddress }
    else entry
  if lastByte baseAddress length < entry.endAddress then
    { bottomEntry := bottomEntry
      entry := { entry with endAddress := lastByte baseAddress length }
      topEntry := some { entry with baseAddress := add64 baseAddress length } }
  else
    { bottomEntry := bottomEntry, entry := entry, topEntry := none }

/-- `CoreMergeGcdMapEntry` in the backward direction. `before` holds the entries
in front of the one to be merged, nearest first. -/
def mergeBackward (before : List GcdMapEntry) (entry : GcdMapEntry) : List GcdMapEntry :=
  match before with
  | [] => [entry]
  | adjacent :: rest =>
    if entry.label = adjacent.label then
      { entry with baseAddress := adjacent.baseAddress } :: rest
    else entry :: adjacent :: rest

/-- `CoreMergeGcdMapEntry` in the forward direction, on the entry and those
behind it. -/
def mergeForward (entry : GcdMapEntry) (behind : List GcdMapEntry) : List GcdMapEntry :=
  match behind with
  | [] => [entry]
  | adjacent :: rest =>
    if entry.label = adjacent.label then
      { entry with endAddress := adjacent.endAddress } :: rest
    else entry :: adjacent :: rest

/-- `CoreCleanupGcdMapEntry`: every entry from `StartLink` to `EndLink`, here
`body`, is merged backward in turn, then the last one forward. `before` holds
the entries in front of `StartLink`, nearest first, and `behind` those after
`EndLink`. -/
def coreCleanupGcdMapEntry (before body behind : List GcdMapEntry) : List GcdMapEntry :=
  match body.foldl mergeBackward before with
  | [] => behind
  | endEntry :: rest => rest.reverse ++ mergeForward endEntry behind

end MuBasecore.GcdMap
