import Mathlib

/-!
Page table entries of the IA32 family, the mapping attributes that they stand for, and the
translation of linear addresses by the processor.
-/

namespace MuBasecore.PagingEntries

abbrev PagingEntry := BitVec 64

def baseAddressMask40 : BitVec 64 := 0xFFFFFFFFFF000#64

def baseAddressMask39 : BitVec 64 := 0xFFFFFFFFFE000#64

def PagingEntry.present (e : PagingEntry) : Bool := e.getLsbD 0

def PagingEntry.readWrite (e : PagingEntry) : Bool := e.getLsbD 1

def PagingEntry.userSupervisor (e : PagingEntry) : Bool := e.getLsbD 2

def PagingEntry.writeThrough (e : PagingEntry) : Bool := e.getLsbD 3

def PagingEntry.cacheDisabled (e : PagingEntry) : Bool := e.getLsbD 4

def PagingEntry.accessed (e : PagingEntry) : Bool := e.getLsbD 5

def PagingEntry.dirty (e : PagingEntry) : Bool := e.getLsbD 6

def PagingEntry.mustBeOne (e : PagingEntry) : Bool := e.getLsbD 7

def PagingEntry.global (e : PagingEntry) : Bool := e.getLsbD 8

def PagingEntry.pte4KPat (e : PagingEntry) : Bool := e.getLsbD 7

def PagingEntry.pleBPat (e : PagingEntry) : Bool := e.getLsbD 12

def PagingEntry.protectionKey (e : PagingEntry) : BitVec 4 := e.extractLsb' 59 4

def PagingEntry.nx (e : PagingEntry) : Bool := e.getLsbD 63

/-- `IA32_PTE4K_PAGE_TABLE_BASE_ADDRESS` and `IA32_PNLE_PAGE_TABLE_BASE_ADDRESS`. -/
def PagingEntry.base40 (e : PagingEntry) : Nat := (e &&& baseAddressMask40).toNat

/-- `IA32_PLEB_PAGE_TABLE_BASE_ADDRESS`. -/
def PagingEntry.base39 (e : PagingEntry) : Nat := (e &&& baseAddressMask39).toNat

@[ext]
structure MapAttribute where
  present : Bool
  readWrite : Bool
  userSupervisor : Bool
  writeThrough : Bool
  cacheDisabled : Bool
  accessed : Bool
  dirty : Bool
  pat : Bool
  global : Bool
  reserved1 : BitVec 3
  pageTableBaseAddress : Nat
  reserved2 : BitVec 7
  protectionKey : BitVec 4
  nx : Bool
deriving DecidableEq

/-- `IA32_MAP_ATTRIBUTE_ATTRIBUTES`: everything but the base address. -/
def MapAttribute.attributes (a : MapAttribute) : MapAttribute :=
  { a with pageTableBaseAddress := 0 }

def MapAttribute.nop : MapAttribute where
  present := true
  readWrite := true
  userSupervisor := true
  writeThrough := false
  cacheDisabled := false
  accessed := false
  dirty := false
  pat := false
  global := false
  reserved1 := 0
  pageTableBaseAddress := 0
  reserved2 := 0
  protectionKey := 0
  nx := false

def getPleBMapAttribute (e : PagingEntry) (parent : MapAttribute) : MapAttribute where
  present := parent.present && e.present
  readWrite := parent.readWrite && e.readWrite
  userSupervisor := parent.userSupervisor && e.userSupervisor
  writeThrough := e.writeThrough
  cacheDisabled := e.cacheDisabled
  accessed := e.accessed
  dirty := e.dirty
  pat := e.pleBPat
  global := e.global
  reserved1 := 0
  pageTableBaseAddress := e.base39
  reserved2 := 0
  protectionKey := e.protectionKey
  nx := parent.nx || e.nx

def getPte4KMapAttribute (e : PagingEntry) (parent : MapAttribute) : MapAttribute where
  present := parent.present && e.present
  readWrite := parent.readWrite && e.readWrite
  userSupervisor := parent.userSupervisor && e.userSupervisor
  writeThrough := e.writeThrough
  cacheDisabled := e.cacheDisabled
  accessed := e.accessed
  dirty := e.dirty
  pat := e.pte4KPat
  global := e.global
  reserved1 := 0
  pageTableBaseAddress := e.base40
  reserved2 := 0
  protectionKey := e.protectionKey
  nx := parent.nx || e.nx

def getPnleMapAttribute (e : PagingEntry) (parent : MapAttribute) : MapAttribute where
  present := parent.present && e.present
  readWrite := parent.readWrite && e.readWrite
  userSupervisor := parent.userSupervisor && e.userSupervisor
  writeThrough := e.writeThrough
  cacheDisabled := e.cacheDisabled
  accessed := e.accessed
  dirty := e.getLsbD 6
  pat := e.getLsbD 7
  global := e.getLsbD 8
  reserved1 := e.extractLsb' 9 3
  pageTableBaseAddress := e.base40
  reserved2 := e.extractLsb' 52 7
  protectionKey := e.protectionKey
  nx := parent.nx || e.nx

def isPle (e : PagingEntry) (level : Nat) : Bool :=
  level == 1 || ((level == 3 || level == 2) && e.mustBeOne)

/-- `REGION_LENGTH`: what one entry of the level covers. -/
def regionLength (level : Nat) : Nat :=
  2 ^ (level * 9 + 3)

inductive PagingMode
  | paging32bit
  | pagingPae4KB
  | pagingPae
  | paging4Level4KB
  | paging4Level
  | paging4Level1GB
  | paging5Level4KB
  | paging5Level
  | paging5Level1GB
  | pagingModeMax
deriving DecidableEq

def PagingMode.value : PagingMode → Nat
  | paging32bit => 0
  | pagingPae4KB => 0x0301
  | pagingPae => 0x0302
  | paging4Level4KB => 0x0401
  | paging4Level => 0x0402
  | paging4Level1GB => 0x0403
  | paging5Level4KB => 0x0501
  | paging5Level => 0x0502
  | paging5Level1GB => 0x0503
  | pagingModeMax => 0x0504

def PagingMode.maxLevel (mode : PagingMode) : Nat :=
  mode.value / 256 % 256

def PagingMode.maxLeafLevel (mode : PagingMode) : Nat :=
  mode.value % 256

abbrev TableMemory := Nat → PagingEntry

def tableAt (m : TableMemory) (base : Nat) : Nat → PagingEntry :=
  fun index => m (base + 8 * index)

def leafAttribute (level : Nat) (e : PagingEntry) (offset : Nat) : MapAttribute where
  present := true
  readWrite := e.readWrite
  userSupervisor := e.userSupervisor
  writeThrough := e.writeThrough
  cacheDisabled := e.cacheDisabled
  accessed := e.accessed
  dirty := e.dirty
  pat := if level = 1 then e.pte4KPat else e.pleBPat
  global := e.global
  reserved1 := 0
  pageTableBaseAddress := (if level = 1 then e.base40 else e.base39) + offset
  reserved2 := 0
  protectionKey := e.protectionKey
  nx := e.nx

def restrict (e : PagingEntry) (a : MapAttribute) : MapAttribute :=
  { a with
    readWrite := e.readWrite && a.readWrite
    userSupervisor := e.userSupervisor && a.userSupervisor
    nx := e.nx || a.nx }

/-- The page walk of the processor, for an offset into the region of a table: the attributes
and the physical address, if each entry on the way is present. -/
def pageWalk (m : TableMemory) : Nat → (Nat → PagingEntry) → Nat → Option MapAttribute
  | 0, _, _ => none
  | level + 1, table, offset =>
    let e := table (offset / regionLength (level + 1))
    let rest := offset % regionLength (level + 1)
    if e.present then
      if isPle e (level + 1) then some (leafAttribute (level + 1) e rest)
      else (pageWalk m level (tableAt m e.base40) rest).map (restrict e)
    else none

def paeWalk (m : TableMemory) (table : Nat → PagingEntry) (offset : Nat) : Option MapAttribute :=
  let e := table (offset / regionLength 3)
  if e.present then pageWalk m 2 (tableAt m e.base40) (offset % regionLength 3) else none

/-- What the processor makes of an address. -/
def translate (m : TableMemory) (mode : PagingMode) (pageTable address : Nat) :
    Option MapAttribute :=
  if pageTable = 0 then none
  else if mode.maxLevel = 3 then
    if address < 4 * regionLength 3 then paeWalk m (tableAt m pageTable) address else none
  else if address < 512 * regionLength mode.maxLevel then
    pageWalk m mode.maxLevel (tableAt m pageTable) address
  else none

/-- The fields of a top entry of three levels that must be zero (`IA32_PDPTE_PAE`). -/
def PagingEntry.PdptePaeOk (e : PagingEntry) : Prop :=
  e &&& 0xFFF00000000001E6#64 = 0

instance (e : PagingEntry) : Decidable e.PdptePaeOk :=
  inferInstanceAs (Decidable (_ = _))

/-- In PAE mode the four top entries have their reserved bits clear. -/
def WellFormed (m : TableMemory) (mode : PagingMode) (pageTable : Nat) : Prop :=
  mode.maxLevel = 3 → ∀ index < 4, (tableAt m pageTable index).present = true →
    (tableAt m pageTable index).PdptePaeOk

theorem regionLength_pos (level : Nat) : 0 < regionLength level :=
  Nat.two_pow_pos _

theorem regionLength_succ (level : Nat) : regionLength (level + 1) = 512 * regionLength level := by
  rw [regionLength, regionLength, show (level + 1) * 9 + 3 = 9 + (level * 9 + 3) by omega,
    Nat.pow_add]

theorem regionLength_le {level : Nat} (h : level ≤ 5) : regionLength level ≤ 2 ^ 48 :=
  Nat.pow_le_pow_right (by decide) (by omega)

theorem PagingEntry.base40_lt (e : PagingEntry) : e.base40 < 2 ^ 52 := by
  exact Nat.lt_of_le_of_lt Nat.and_le_right (by decide)

theorem PagingEntry.base39_lt (e : PagingEntry) : e.base39 < 2 ^ 52 := by
  exact Nat.lt_of_le_of_lt Nat.and_le_right (by decide)

def MapAttribute.under (parent a : MapAttribute) : MapAttribute :=
  { a with
    present := parent.present && a.present
    readWrite := parent.readWrite && a.readWrite
    userSupervisor := parent.userSupervisor && a.userSupervisor
    nx := parent.nx || a.nx }

theorem under_nop (a : MapAttribute) : MapAttribute.nop.under a = a := by
  simp [MapAttribute.under, MapAttribute.nop]

variable {e : PagingEntry}

theorem getPnleMapAttribute_under (h : e.present = true) (parent a : MapAttribute) :
    (getPnleMapAttribute e parent).under a = parent.under (restrict e a) := by
  simp only [MapAttribute.under, getPnleMapAttribute, restrict, h, Bool.and_true, Bool.and_assoc,
    Bool.or_assoc]

def getPleMapAttribute (level : Nat) (e : PagingEntry) (parent : MapAttribute) : MapAttribute :=
  if level = 1 then getPte4KMapAttribute e parent else getPleBMapAttribute e parent

theorem getPleMapAttribute_eq (h : e.present = true) (level : Nat) (parent : MapAttribute) :
    getPleMapAttribute level e parent = parent.under (leafAttribute level e 0) := by
  rw [getPleMapAttribute]
  split
  next hlev =>
    simp [getPte4KMapAttribute, MapAttribute.under, leafAttribute, h, hlev]
  next hlev =>
    simp [getPleBMapAttribute, MapAttribute.under, leafAttribute, h, hlev]

variable {level : Nat}

theorem getPleMapAttribute_base_lt (e : PagingEntry) (parent : MapAttribute) :
    (getPleMapAttribute level e parent).pageTableBaseAddress < 2 ^ 52 := by
  rw [getPleMapAttribute]
  split
  · exact e.base40_lt
  · exact e.base39_lt

end MuBasecore.PagingEntries
