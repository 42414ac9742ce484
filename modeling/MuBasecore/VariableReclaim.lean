import MuBasecore.VariableLookup
import MuBasecore.EfiTypes

/-!
`Reclaim`: the live variables of a store are collected in a buffer, first the added
ones and then those in deleted transition that the buffer does not hold yet, and the
buffer becomes the new store.
-/

namespace MuBasecore.VariableReclaim

open ByteMemory EfiTypes SlotBuffer VariableFormat

/-- `HwErrVariableTotalSize`, `CommonVariableTotalSize` and `CommonUserVariableTotalSize`. -/
structure TotalSizes where
  hwErr : Nat
  common : Nat
  commonUser : Nat
  deriving DecidableEq

structure SpaceLimits where
  hwErrStorageSize : Nat
  commonVariableSpace : Nat
  commonRuntimeVariableSpace : Nat
  commonMaxUserVariableSpace : Nat

/-- `ValidBuffer` with the pointer to its free part. -/
structure ValidBuffer where
  bytes : Memory
  currPtr : Nat
  totals : TotalSizes

/-- `NewVariable` and `NewVariableSize`: a memory that holds the variable at its start. -/
structure NewVariable where
  memory : Memory
  size : Nat

structure ReclaimResult where
  store : Memory
  lastVariableOffset : Nat
  totals : TotalSizes

variable (auth isVolatile : Bool) (isUserVariable : Memory → Nat → Bool)

def TotalSizes.count (m : Memory) (a size : Nat) (totals : TotalSizes) : TotalSizes :=
  if isVolatile then totals
  else if (variableAttributes m a).has efiVariableHardwareErrorRecord then
    { totals with hwErr := totals.hwErr + size }
  else
    { totals with
      common := totals.common + size
      commonUser := totals.commonUser + if isUserVariable m a then size else 0 }

def ValidBuffer.install (m : Memory) (a size : Nat) (state : Option Byte)
    (buffer : ValidBuffer) : ValidBuffer where
  bytes :=
    let copied := copyBytes buffer.bytes buffer.currPtr m a size
    match state with
    | none => copied
    | some s => Function.update copied (buffer.currPtr + 2) s
  currPtr := buffer.currPtr + size
  totals := buffer.totals.count isVolatile isUserVariable m a size

def reinstallAdded (m : Memory) (updating : Option Nat) :
    List Nat → ValidBuffer → ValidBuffer
  | [], buffer => buffer
  | x :: rest, buffer =>
    reinstallAdded m updating rest
      (if some x ≠ updating ∧ variableState m x = varAdded then
        buffer.install isVolatile isUserVariable m x (getNextVariablePtr auth m x - x) none
      else buffer)

def foundAdded (m : Memory) (size x : Nat) (buffer : ValidBuffer) : Bool :=
  (variableOffsets auth buffer.bytes size).any fun y =>
    vendorGuid auth buffer.bytes y == vendorGuid auth m x &&
      nameSizeOfVariable auth buffer.bytes y == nameSizeOfVariable auth m x &&
      slotRange buffer.bytes (getVariableNamePtr auth y) (nameSizeOfVariable auth buffer.bytes y)
        == slotRange m (getVariableNamePtr auth x) (nameSizeOfVariable auth buffer.bytes y)

def reinstallInDeleted (m : Memory) (size : Nat) (updating updatingInDeleted : Option Nat) :
    List Nat → ValidBuffer → ValidBuffer
  | [], buffer => buffer
  | x :: rest, buffer =>
    reinstallInDeleted m size updating updatingInDeleted rest
      (if some x ≠ updating ∧ some x ≠ updatingInDeleted ∧ variableState m x = varInDeleted ∧
          foundAdded auth m size x buffer = false then
        buffer.install isVolatile isUserVariable m x (getNextVariablePtr auth m x - x)
          (some varAdded)
      else buffer)

/-- The header of the store, and `0xff` everywhere else. -/
def emptyBuffer (m : Memory) : ValidBuffer where
  bytes i := if i < sizeOfVariableStoreHeader then m i else 0xff
  currPtr := getStartPointer
  totals := ⟨0, 0, 0⟩

def keptVariables (m : Memory) (size : Nat) (updating updatingInDeleted : Option Nat) :
    ValidBuffer :=
  reinstallInDeleted auth isVolatile isUserVariable m size updating updatingInDeleted
    (variableOffsets auth m size)
    (reinstallAdded auth isVolatile isUserVariable m updating (variableOffsets auth m size)
      (emptyBuffer m))

/-- The part of `Reclaim` that adds the new variable, if the buffer and the quotas have room
for it. -/
def installNewVariable (limits : SpaceLimits) (size : Nat) (new : NewVariable)
    (buffer : ValidBuffer) : Except EfiStatus ValidBuffer :=
  if size < buffer.currPtr + new.size then .error .outOfResources
  else
    let installed := buffer.install isVolatile isUserVariable new.memory 0 new.size
      (some varAdded)
    if ¬ isVolatile ∧
        (limits.hwErrStorageSize < installed.totals.hwErr ∨
          limits.commonVariableSpace < installed.totals.common ∨
          limits.commonMaxUserVariableSpace < installed.totals.commonUser) then
      .error .outOfResources
    else .ok installed

def ValidBuffer.result (m : Memory) (size : Nat) (buffer : ValidBuffer) : ReclaimResult where
  store i := if i < size then buffer.bytes i else m i
  lastVariableOffset := buffer.currPtr
  totals := buffer.totals

/-- `Reclaim`, for a fault tolerant write of the buffer that succeeds. -/
def reclaim (limits : SpaceLimits) (m : Memory) (size : Nat)
    (updating updatingInDeleted : Option Nat) (new : Option NewVariable) :
    Except EfiStatus ReclaimResult :=
  let kept := keptVariables auth isVolatile isUserVariable m size updating updatingInDeleted
  match new with
  | none => .ok (kept.result m size)
  | some new => do
      let buffer ← installNewVariable isVolatile isUserVariable limits size new kept
      return buffer.result m size

end MuBasecore.VariableReclaim
