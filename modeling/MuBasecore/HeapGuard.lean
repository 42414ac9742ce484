import MuBasecore.BitWords
import MuBasecore.EfiTypes
import MuBasecore.RadixTable
import MuBasecore.Word64

/-!
The bitmap of guarded pages of the heap guard. The words of bits lie in tables of
1024, and these in up to four levels of tables with 512 entries, which grow at the
root. The pages for new tables are always found: if they are not, an assertion
fails.
-/

namespace MuBasecore.HeapGuard

open BitWords EfiTypes RadixTable Word64

def mapTableEntryShift : Nat := efiPageShift - 3

def mapTableDepth : Nat := 5

def mapEntryBitShift : Nat := 6

def mapEntryBits : Nat := 2 ^ mapEntryBitShift

def mapEntryShift : Nat :=
  mapEntryBits - mapTableEntryShift * 4 - mapEntryBitShift - efiPageShift

def mapBits : Nat := 2 ^ (mapEntryShift + mapEntryBitShift)

def mapTableShift : Nat := mapEntryShift + mapEntryBitShift + efiPageShift

/-- `mLevelShift`. -/
def levelShift (level : Nat) : Nat :=
  [mapTableShift + mapTableEntryShift * 3, mapTableShift + mapTableEntryShift * 2,
    mapTableShift + mapTableEntryShift, mapTableShift, efiPageShift + mapEntryBitShift].getD level 0

/-- `mLevelMask`. -/
def levelMask (level : Nat) : Nat :=
  [2 ^ mapTableEntryShift - 1, 2 ^ mapTableEntryShift - 1, 2 ^ mapTableEntryShift - 1,
    2 ^ mapTableEntryShift - 1, 2 ^ mapEntryShift - 1].getD level 0

def levelIndex (level address : Nat) : Nat :=
  address >>> levelShift level &&& levelMask level

def mapEntryBitIndex (address : Nat) : Nat :=
  address >>> efiPageShift &&& (2 ^ mapEntryBitShift - 1)

def mapBitIndex (address : Nat) : Nat :=
  address >>> efiPageShift &&& (2 ^ (mapEntryShift + mapEntryBitShift) - 1)

abbrev Words : Type := Nat → BitVec 64

/-- The bits that `SetBits` and `ClearBits` change in the first word, in the last
one, and the number of words between them. -/
structure BitCounts where
  msbs : Nat
  lsbs : Nat
  qwords : Nat
  deriving DecidableEq, Repr

def countBits (startBit bitNumber : Nat) : BitCounts :=
  let endBit := (startBit + bitNumber - 1) % mapEntryBits
  if startBit + bitNumber ≥ mapEntryBits then
    let msbs := (mapEntryBits - startBit) % mapEntryBits
    { msbs := msbs
      lsbs := (endBit + 1) % mapEntryBits
      qwords := (bitNumber - msbs) / mapEntryBits }
  else { msbs := bitNumber, lsbs := 0, qwords := 0 }

/-- The part of the first word; `bitMap` is the index of the word that the pointer
points to. -/
def writeFirst (combine : BitVec 64 → BitVec 64 → BitVec 64) (counts : BitCounts)
    (startBit bitMap : Nat) (words : Words) : Words :=
  if counts.msbs > 0 then
    Function.update words bitMap (combine (words bitMap) (lowMask 64 counts.msbs <<< startBit))
  else words

def secondWord (counts : BitCounts) (bitMap : Nat) : Nat :=
  if counts.msbs > 0 then bitMap + 1 else bitMap

/-- `SetMem64` of the whole words. -/
def fillWords (fill : BitVec 64) (counts : BitCounts) (bitMap : Nat) (words : Words) : Words :=
  fun j => if bitMap ≤ j ∧ j < bitMap + counts.qwords then fill else words j

def writeLast (combine : BitVec 64 → BitVec 64 → BitVec 64) (counts : BitCounts) (bitMap : Nat)
    (words : Words) : Words :=
  if counts.lsbs > 0 then
    Function.update words bitMap (combine (words bitMap) (lowMask 64 counts.lsbs))
  else words

/-- The body of `SetBits` and `ClearBits`, with the operation on a word and a mask
and with the value of a whole word. -/
def writeBits (combine : BitVec 64 → BitVec 64 → BitVec 64) (fill : BitVec 64)
    (address bitNumber bitMap : Nat) (words : Words) : Words :=
  let startBit := mapEntryBitIndex address
  let counts := countBits startBit bitNumber
  let second := secondWord counts bitMap
  writeLast combine counts (second + counts.qwords)
    (fillWords fill counts second (writeFirst combine counts startBit bitMap words))

def setBits : Nat → Nat → Nat → Words → Words :=
  writeBits (fun word mask => word ||| mask) (BitVec.allOnes 64)

def clearBits : Nat → Nat → Nat → Words → Words :=
  writeBits (fun word mask => word &&& ~~~mask) 0

def getBits (address bitNumber bitMap : Nat) (words : Words) : BitVec 64 :=
  let startBit := mapEntryBitIndex address
  let endBit := (startBit + bitNumber - 1) % mapEntryBits
  let crosses := startBit + bitNumber > mapEntryBits
  let msbs := if crosses then mapEntryBits - startBit else bitNumber
  let lsbs := if crosses then (endBit + 1) % mapEntryBits else 0
  if startBit = 0 ∧ bitNumber = mapEntryBits then words bitMap
  else
    let result := words bitMap >>> startBit &&& lowMask 64 msbs
    if lsbs > 0 then result ||| (words (bitMap + 1) &&& lowMask 64 lsbs) <<< msbs else result

/-- `mGuardedMemoryMap` with the tables it points to; `mMapLevel` is `height + 1`. -/
structure GuardedMemoryMap where
  height : Nat
  tables : Table Words height
  height_lt : height < mapTableDepth

def tableIndex (height address : Nat) : Nat :=
  levelIndex (mapTableDepth - (height + 1) - 1) address

def growMap (address : Nat) : Nat → GuardedMemoryMap → GuardedMemoryMap
  | 0, m => m
  | fuel + 1, m =>
    if h : m.height + 1 < mapTableDepth ∧
        address >>> levelShift (mapTableDepth - (m.height + 1) - 1) ≠ 0 then
      growMap address fuel
        { height := m.height + 1
          tables := if m.tables.isNull then .null else m.tables.raise
          height_lt := h.1 }
    else m

/-- `FindGuardedMemoryMap` with `AllocMapUnit`, and a change of the words of the
table it finds. -/
def changeGuardedMemoryMap (address : Nat) (change : Words → Words) (m : GuardedMemoryMap) :
    GuardedMemoryMap :=
  let m := growMap address mapTableDepth m
  { m with tables := m.tables.update tableIndex (fun _ => 0) change address }

/-- `FindGuardedMemoryMap` without `AllocMapUnit`: the words of the table, or `none`
for a null pointer. -/
def findGuardedMemoryMap (address : Nat) (m : GuardedMemoryMap) : Option Words :=
  m.tables.get? tableIndex address

def wordIndex (address : Nat) : Nat :=
  levelIndex (mapTableDepth - 1) address

def bitsToUnitEnd (address : Nat) : Nat :=
  mapBits - mapBitIndex address

def unitBits (address numberOfPages : Nat) : Nat :=
  if numberOfPages > bitsToUnitEnd address then bitsToUnitEnd address else numberOfPages

/-- The loop of `SetGuardedMemoryBits` and `ClearGuardedMemoryBits`. Each iteration
handles at least one page. -/
def writeGuardedMemoryBits (write : Nat → Nat → Nat → Words → Words) :
    Nat → Nat → Nat → GuardedMemoryMap → GuardedMemoryMap
  | 0, _, _, m => m
  | fuel + 1, address, numberOfPages, m =>
    if numberOfPages > 0 then
      let bits := unitBits address numberOfPages
      writeGuardedMemoryBits write fuel (add64 address (shl64 bits efiPageShift))
        (numberOfPages - bits)
        (changeGuardedMemoryMap address (write address bits (wordIndex address)) m)
    else m

def setGuardedMemoryBits (address numberOfPages : Nat) : GuardedMemoryMap → GuardedMemoryMap :=
  writeGuardedMemoryBits setBits numberOfPages address numberOfPages

def clearGuardedMemoryBits (address numberOfPages : Nat) : GuardedMemoryMap → GuardedMemoryMap :=
  writeGuardedMemoryBits clearBits numberOfPages address numberOfPages

def addUnitBits (m : GuardedMemoryMap) (address bits shift : Nat) (result : BitVec 64) :
    BitVec 64 :=
  match findGuardedMemoryMap address m with
  | none => result
  | some words => result ||| getBits address bits (wordIndex address) words <<< shift

/-- The loop of `GetGuardedMemoryBits`. -/
def readGuardedMemoryBits (m : GuardedMemoryMap) : Nat → Nat → Nat → Nat → BitVec 64 → BitVec 64
  | 0, _, _, _, result => result
  | fuel + 1, address, numberOfPages, shift, result =>
    if numberOfPages > 0 then
      let bits := unitBits address numberOfPages
      readGuardedMemoryBits m fuel (add64 address (shl64 bits efiPageShift))
        (numberOfPages - bits) (shift + bits) (addUnitBits m address bits shift result)
    else result

/-- `GetGuardedMemoryBits` of at most 64 pages. -/
def getGuardedMemoryBits (address numberOfPages : Nat) (m : GuardedMemoryMap) : BitVec 64 :=
  readGuardedMemoryBits m numberOfPages address numberOfPages 0 0

def getGuardMapBit (address : Nat) (m : GuardedMemoryMap) : Nat :=
  match findGuardedMemoryMap address m with
  | none => 0
  | some words =>
    if words (wordIndex address) >>> mapEntryBitIndex address &&& 1 ≠ 0 then 1 else 0

def initialMap : GuardedMemoryMap where
  height := 0
  tables := .null
  height_lt := by decide

end MuBasecore.HeapGuard
