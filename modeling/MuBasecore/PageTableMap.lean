import MuBasecore.EfiTypes
import MuBasecore.PagingEntries

/-!
`PageTableMap`: a range of linear addresses is mapped with given attributes. The page table is
the tree of its tables: a table has entries, and for each of them the table that it points to.
-/

namespace MuBasecore.PageTableMap

open EfiTypes PagingEntries

/-- `IA32_PAGING_ENTRY` by its bits. Bit 7 is PAT in an entry of the last level, and tells a
leaf in an entry of 2M or 1G. There PAT is bit 12, the lowest bit of `address`. -/
structure TableEntry where
  present : Bool
  readWrite : Bool
  userSupervisor : Bool
  writeThrough : Bool
  cacheDisabled : Bool
  accessed : Bool
  dirty : Bool
  bit7 : Bool
  global : Bool
  available : BitVec 3
  /-- Bits 12 to 51. -/
  address : Nat
  /-- Bits 52 to 58. -/
  available3 : BitVec 7
  protectionKey : BitVec 4
  nx : Bool
deriving DecidableEq

def TableEntry.zero : TableEntry where
  present := false
  readWrite := false
  userSupervisor := false
  writeThrough := false
  cacheDisabled := false
  accessed := false
  dirty := false
  bit7 := false
  global := false
  available := 0
  address := 0
  available3 := 0
  protectionKey := 0
  nx := false

def isPle (e : TableEntry) (level : Nat) : Bool :=
  level == 1 || ((level == 3 || level == 2) && e.bit7)

def TableEntry.pleBPat (e : TableEntry) : Bool :=
  e.address % 2 == 1

/-- `IA32_PLEB_PAGE_TABLE_BASE_ADDRESS`. -/
def TableEntry.base39 (e : TableEntry) : Nat :=
  8192 * (e.address / 2)

/-- `IA32_PTE4K_PAGE_TABLE_BASE_ADDRESS` and `IA32_PNLE_PAGE_TABLE_BASE_ADDRESS`. -/
def TableEntry.base40 (e : TableEntry) : Nat :=
  4096 * e.address

def TableEntry.addOffset (e : TableEntry) (offset : Nat) : TableEntry :=
  let sum := e.address + offset / 4096
  let high := e.available3.toNat + 128 * e.protectionKey.toNat + 2048 * e.nx.toNat + sum / 2 ^ 40
  { e with
    address := sum % 2 ^ 40
    available3 := BitVec.ofNat 7 high
    protectionKey := BitVec.ofNat 4 (high / 128)
    nx := high / 2048 % 2 == 1 }

def pleBMapAttribute (e : TableEntry) (parent : MapAttribute) : MapAttribute where
  present := parent.present && e.present
  readWrite := parent.readWrite && e.readWrite
  userSupervisor := parent.userSupervisor && e.userSupervisor
  writeThrough := e.writeThrough
  cacheDisabled := e.cacheDisabled
  accessed := e.accessed
  dirty := e.dirty
  pat := e.pleBPat
  global := e.global
  reserved1 := 0
  pageTableBaseAddress := e.base39
  reserved2 := 0
  protectionKey := e.protectionKey
  nx := parent.nx || e.nx

def pnleMapAttribute (e : TableEntry) (parent : MapAttribute) : MapAttribute where
  present := parent.present && e.present
  readWrite := parent.readWrite && e.readWrite
  userSupervisor := parent.userSupervisor && e.userSupervisor
  writeThrough := e.writeThrough
  cacheDisabled := e.cacheDisabled
  accessed := e.accessed
  dirty := e.dirty
  pat := e.bit7
  global := e.global
  reserved1 := e.available
  pageTableBaseAddress := e.base40
  reserved2 := e.available3
  protectionKey := e.protectionKey
  nx := parent.nx || e.nx

def TableEntry.setCommon (e : TableEntry) (attr mask : MapAttribute) : TableEntry :=
  { e with
    present := if mask.present then attr.present else e.present
    readWrite := if mask.readWrite then attr.readWrite else e.readWrite
    userSupervisor := if mask.userSupervisor then attr.userSupervisor else e.userSupervisor
    writeThrough := if mask.writeThrough then attr.writeThrough else e.writeThrough
    cacheDisabled := if mask.cacheDisabled then attr.cacheDisabled else e.cacheDisabled
    accessed := if mask.accessed then attr.accessed else e.accessed
    dirty := if mask.dirty then attr.dirty else e.dirty
    global := if mask.global then attr.global else e.global
    protectionKey := if mask.protectionKey ≠ 0 then attr.protectionKey else e.protectionKey
    nx := if mask.nx then attr.nx else e.nx }

/-- `PageTableLibSetPte4K`. The base address is put in by an OR: what it has above bit 51 goes
to the bits from 52 on. -/
def setPte4K (e : TableEntry) (offset : Nat) (attr mask : MapAttribute) : TableEntry :=
  let base := attr.pageTableBaseAddress + offset
  let e := if mask.pageTableBaseAddress ≠ 0 then
      { e with
        address := base / 4096 % 2 ^ 40
        available3 := e.available3 ||| BitVec.ofNat 7 (base / 2 ^ 52) }
    else e
  let e := e.setCommon attr mask
  { e with bit7 := if mask.pat then attr.pat else e.bit7 }

/-- `PageTableLibSetPleB`. Bit 12 does not belong to the address that is replaced. -/
def setPleB (e : TableEntry) (offset : Nat) (attr mask : MapAttribute) : TableEntry :=
  let base := attr.pageTableBaseAddress + offset
  let e := if mask.pageTableBaseAddress ≠ 0 then
      { e with
        address := base / 4096 % 2 ^ 40 ||| e.address % 2
        available3 := e.available3 ||| BitVec.ofNat 7 (base / 2 ^ 52) }
    else e
  let e := e.setCommon attr mask
  { e with
    bit7 := true
    address := if mask.pat then 2 * (e.address / 2) + attr.pat.toNat else e.address }

def setPle (level : Nat) (e : TableEntry) (offset : Nat) (attr mask : MapAttribute) : TableEntry :=
  if level = 1 then setPte4K e offset attr mask else setPleB e offset attr mask

def setPnle (e : TableEntry) (attr mask : MapAttribute) : TableEntry :=
  { e with
    present := if mask.present then attr.present else e.present
    readWrite := if mask.readWrite then attr.readWrite else e.readWrite
    userSupervisor := if mask.userSupervisor then attr.userSupervisor else e.userSupervisor
    nx := if mask.nx then attr.nx else e.nx
    accessed := false
    bit7 := false
    writeThrough := false
    cacheDisabled := false }

def allOneMask : MapAttribute where
  present := true
  readWrite := true
  userSupervisor := true
  writeThrough := true
  cacheDisabled := true
  accessed := true
  dirty := true
  pat := true
  global := true
  reserved1 := BitVec.allOnes 3
  pageTableBaseAddress := 0xFFFFFFFFFF000
  reserved2 := BitVec.allOnes 7
  protectionKey := BitVec.allOnes 4
  nx := true

def zeroMask : MapAttribute where
  present := false
  readWrite := false
  userSupervisor := false
  writeThrough := false
  cacheDisabled := false
  accessed := false
  dirty := false
  pat := false
  global := false
  reserved1 := 0
  pageTableBaseAddress := 0
  reserved2 := 0
  protectionKey := 0
  nx := false

/-- `IA32_MAP_ATTRIBUTE_ATTRIBUTES (a) & IA32_MAP_ATTRIBUTE_ATTRIBUTES (mask)`. -/
def masked (a mask : MapAttribute) : MapAttribute where
  present := a.present && mask.present
  readWrite := a.readWrite && mask.readWrite
  userSupervisor := a.userSupervisor && mask.userSupervisor
  writeThrough := a.writeThrough && mask.writeThrough
  cacheDisabled := a.cacheDisabled && mask.cacheDisabled
  accessed := a.accessed && mask.accessed
  dirty := a.dirty && mask.dirty
  pat := a.pat && mask.pat
  global := a.global && mask.global
  reserved1 := a.reserved1 &&& mask.reserved1
  pageTableBaseAddress := 0
  reserved2 := a.reserved2 &&& mask.reserved2
  protectionKey := a.protectionKey &&& mask.protectionKey
  nx := a.nx && mask.nx

/-- `Mask->Uint64 > 1`: something besides Present is selected. -/
def selectsMore (mask : MapAttribute) : Bool :=
  decide ({ mask with present := false } ≠ zeroMask)

def selectsAll (mask : MapAttribute) : Bool :=
  mask.readWrite && mask.userSupervisor && mask.writeThrough && mask.cacheDisabled &&
    mask.accessed && mask.dirty && mask.pat && mask.global &&
    decide (mask.pageTableBaseAddress ≠ 0) && decide (mask.protectionKey ≠ 0) && mask.nx

/-- `IsAttributesAndMaskValidForNonPresentEntry`. -/
def validForNonPresent (attr mask : MapAttribute) : Bool :=
  if mask.present && attr.present then selectsAll mask
  else !(!mask.present && selectsMore mask)

@[reducible] def Table : Nat → Type
  | 0 => Unit
  | level + 1 => Nat → TableEntry × Table level

def Table.blank : (level : Nat) → Table level
  | 0 => ()
  | level + 1 => fun _ => (.zero, blank level)

abbrev Node (level : Nat) := TableEntry × Table level

structure MapCall where
  modify : Bool
  buffer : Nat
  maxLeafLevel : Nat
  linearAddress : Nat
  length : Nat
  attr : MapAttribute
  mask : MapAttribute

namespace MapCall

variable (c : MapCall)

def pagingEntryIndex (level offset : Nat) : Nat :=
  (c.linearAddress + offset) / regionLength level % 512

def pagingEntryIndexEnd (level offset : Nat) : Nat :=
  if (c.linearAddress + c.length - 1) / regionLength (level + 1) ≠
      (c.linearAddress + offset) / regionLength (level + 1) then 511
  else (c.linearAddress + c.length - 1) / regionLength level % 512

def alreadyMapped (level offset : Nat) (pleBAttr : MapAttribute) : Bool :=
  decide (masked pleBAttr c.mask = masked c.attr c.mask) &&
    (decide (c.mask.pageTableBaseAddress = 0) ||
      decide (pleBAttr.pageTableBaseAddress + regionLength level * c.pagingEntryIndex level offset =
        (c.attr.pageTableBaseAddress + offset) / regionLength level * regionLength level))

def oneOfPagingEntry (level : Nat) (parent : TableEntry) (pleBAttr : MapAttribute) : TableEntry :=
  if parent.present = false then
    if level ≠ 1 ∧ level ≠ 2 ∧ level ≠ 3 then setPnle .zero pleBAttr allOneMask
    else setPle level .zero 0 pleBAttr allOneMask
  else setPle level .zero 0 pleBAttr allOneMask

def newParent (parent : TableEntry) (address : Nat) : TableEntry :=
  { setPnle parent .nop allOneMask with address := address / 4096 % 2 ^ 40 }

def newTable (level : Nat) (oneOf : TableEntry) : Table (level + 1) :=
  fun index => (oneOf.addOffset (index * regionLength (level + 1)), .blank level)

def childAttribute (parent : TableEntry) : MapAttribute × MapAttribute :=
  let loosenReadWrite := !parent.readWrite && c.mask.readWrite && c.attr.readWrite
  let loosenUser := !parent.userSupervisor && c.mask.userSupervisor && c.attr.userSupervisor
  let loosenNx := parent.nx && c.mask.nx && !c.attr.nx
  ({ zeroMask with nx := loosenNx },
    { zeroMask with readWrite := loosenReadWrite, userSupervisor := loosenUser, nx := loosenNx })

def loosenParent (parent : TableEntry) : TableEntry :=
  let childMask := (c.childAttribute parent).2
  { parent with
    readWrite := parent.readWrite || childMask.readWrite
    userSupervisor := parent.userSupervisor || childMask.userSupervisor
    nx := parent.nx && !childMask.nx }

def tightenChild (level : Nat) (attr mask : MapAttribute) (e : TableEntry) : TableEntry :=
  if isPle e level then setPle level e 0 attr mask else setPnle e attr mask

def loosen (level : Nat) (node : Node (level + 1)) : Node (level + 1) :=
  let (attr, mask) := c.childAttribute node.1
  if mask = zeroMask then node
  else (c.loosenParent node.1, fun index =>
    (tightenChild (level + 1) attr mask (node.2 index).1, (node.2 index).2))

structure Entered (level : Nat) where
  node : Node level
  bufferSize : Int
  /-- The entry that stands for all children of a table that is not created. -/
  oneOf : Option TableEntry

def hasNonPresent (level offset : Nat) (table : Table (level + 1)) : Bool :=
  (List.range 512).any fun index =>
    decide (c.pagingEntryIndex (level + 1) offset ≤ index) &&
      decide (index ≤ c.pagingEntryIndexEnd (level + 1) offset) && !(table index).1.present

def enter (level : Nat) (parentAttr : MapAttribute) (offset : Nat) (node : Node (level + 1))
    (bufferSize : Int) : Except EfiStatus (Option (Entered (level + 1))) :=
  let parent := node.1
  if parent.present = false ∨ isPle parent (level + 2) = true then
    let pleBAttr := pleBMapAttribute parent parentAttr
    if parent.present = false ∧ validForNonPresent c.attr c.mask = false then
      .error .invalidParameter
    else if c.alreadyMapped (level + 1) offset pleBAttr then .ok none
    else
      let oneOf := oneOfPagingEntry (level + 1) parent pleBAttr
      let bufferSize := bufferSize - 4096
      if c.modify then
        .ok (some ⟨(newParent parent (c.buffer + bufferSize).toNat, newTable level oneOf),
          bufferSize, none⟩)
      else .ok (some ⟨node, bufferSize, some oneOf⟩)
  else if c.hasNonPresent level offset node.2 = true ∧
      validForNonPresent c.attr c.mask = false then
    .error .invalidParameter
  else .ok (some ⟨if c.modify then c.loosen level node else node, bufferSize, none⟩)

def currentMask (parentAttr : MapAttribute) : MapAttribute :=
  { c.mask with
    present := c.mask.present && parentAttr.present
    readWrite := c.mask.readWrite && parentAttr.readWrite
    userSupervisor := c.mask.userSupervisor && parentAttr.userSupervisor
    nx := c.mask.nx && !parentAttr.nx }

def subLength (level offset regionStart : Nat) : Nat :=
  min (c.length - offset) (regionStart + regionLength level - (c.linearAddress + offset))

def mapsWhole (level offset regionStart : Nat) (e : TableEntry) : Bool :=
  decide (level ≤ c.maxLeafLevel) && decide ((c.linearAddress + offset) % regionLength level = 0) &&
    decide ((c.attr.pageTableBaseAddress + offset) % regionLength level = 0) &&
    decide (c.subLength level offset regionStart = regionLength level) &&
    (!e.present || isPle e level)

/-- One child: its entry is set, or the tables below it are changed by `mapBelow`. -/
def mapChild (level : Nat) (parentAttr : MapAttribute)
    (mapBelow : Node level → Int → Except EfiStatus (Node level × Int × Bool))
    (offset regionStart : Nat) (child : Node level) (bufferSize : Int) :
    Except EfiStatus (Node level × Int × Bool) :=
  if c.mapsWhole (level + 1) offset regionStart child.1 then
    if c.modify then
      let e := setPle (level + 1) child.1 offset c.attr (c.currentMask parentAttr)
      .ok ((e, child.2), bufferSize, decide (e ≠ child.1))
    else .ok (child, bufferSize, false)
  else mapBelow child bufferSize

/-- The children from `index` on, of which `remaining` are left. -/
def mapChildren (level : Nat) (parentAttr : MapAttribute)
    (mapBelow : Nat → Node level → Int → Except EfiStatus (Node level × Int × Bool))
    (oneOf : Option TableEntry) :
    Nat → Nat → Nat → Nat → Table (level + 1) → Int → Bool →
      Except EfiStatus (Table (level + 1) × Int × Bool)
  | 0, _, _, _, table, bufferSize, isModified => .ok (table, bufferSize, isModified)
  | remaining + 1, index, offset, regionStart, table, bufferSize, isModified =>
    if offset < c.length then
      let current : Node level := match oneOf with
        | some e => (e, .blank level)
        | none => table index
      match c.mapChild level parentAttr (mapBelow offset) offset regionStart current
          bufferSize with
      | .error status => .error status
      | .ok (child, bufferSize, childModified) =>
        let table : Table (level + 1) := match oneOf with
          | some _ => table
          | none => Function.update table index child
        mapChildren level parentAttr mapBelow oneOf remaining (index + 1)
          (offset + c.subLength (level + 1) offset regionStart)
          (regionStart + regionLength (level + 1)) table bufferSize
          (isModified || childModified)
    else .ok (table, bufferSize, isModified)

/-- `PageTableLibMapInLevel`: the parent entry and its table after the call, the rest of the
buffer, and whether an entry has been modified. -/
def mapInLevel : (level : Nat) → MapAttribute → Nat → Node level → Int →
    Except EfiStatus (Node level × Int × Bool)
  | 0, _, _, node, bufferSize => .ok (node, bufferSize, false)
  | level + 1, parentAttr, offset, node, bufferSize =>
    match c.enter level parentAttr offset node bufferSize with
    | .error status => .error status
    | .ok none => .ok (node, bufferSize, false)
    | .ok (some entered) =>
      let index := c.pagingEntryIndex (level + 1) offset
      let regionStart := (c.linearAddress + offset) / regionLength (level + 1) *
        regionLength (level + 1)
      let parentAttr := pnleMapAttribute entered.node.1 parentAttr
      match c.mapChildren level parentAttr (fun offset => mapInLevel level parentAttr offset)
          entered.oneOf (512 - index) index offset regionStart entered.node.2
          entered.bufferSize false with
      | .error status => .error status
      | .ok (table, bufferSize, isModified) =>
        .ok ((entered.node.1, table), bufferSize,
          isModified || (c.modify && decide (entered.node.1 ≠ node.1)))

end MapCall

structure PageTable (maxLevel : Nat) where
  address : Nat
  table : Table maxLevel

def topPagingEntry {maxLevel : Nat} : Option (PageTable maxLevel) → Node maxLevel
  | none => (.zero, .blank maxLevel)
  | some t => ({ TableEntry.zero with
      present := true
      readWrite := true
      userSupervisor := true
      address := t.address / 4096 % 2 ^ 40 }, t.table)

def mapTopFour (f : TableEntry → TableEntry) : {maxLevel : Nat} → Table maxLevel → Table maxLevel
  | 0, table => table
  | _ + 1, table => fun index =>
    if index < 4 then (f (table index).1, (table index).2) else table index

def paeAllRights (e : TableEntry) : TableEntry :=
  { e with readWrite := true, userSupervisor := true, nx := false }

def paeMustBeZero (e : TableEntry) : TableEntry :=
  { e with
    readWrite := false
    userSupervisor := false
    accessed := false
    dirty := false
    bit7 := false
    global := false
    available3 := 0
    protectionKey := 0
    nx := false }

def topNode (mode : PagingMode) (pageTable : Option (PageTable mode.maxLevel)) :
    Node mode.maxLevel :=
  let top := topPagingEntry pageTable
  if mode = .pagingPae then (top.1, mapTopFour paeAllRights top.2) else top

def topAttribute : MapAttribute :=
  { MapAttribute.nop with pageTableBaseAddress := 4096 }

structure MapResult (maxLevel : Nat) where
  status : EfiStatus
  pageTable : Option (PageTable maxLevel)
  bufferSize : Int
  isModified : Bool

def maxLinearAddress (mode : PagingMode) : Nat :=
  if mode = .pagingPae then 2 ^ 32 else 2 ^ (12 + mode.maxLevel * 9)

def newPageTable (mode : PagingMode) (pageTable : Option (PageTable mode.maxLevel))
    (top : Node mode.maxLevel) : Option (PageTable mode.maxLevel) :=
  let table := if mode = .pagingPae then mapTopFour paeMustBeZero top.2 else top.2
  match pageTable with
  | some t => some { t with table := table }
  | none => if top.1.address = 0 then none else some ⟨4096 * top.1.address, table⟩

def updatePageTable (mode : PagingMode) (c : MapCall) (pageTable : Option (PageTable mode.maxLevel))
    (bufferSize : Nat) : MapResult mode.maxLevel :=
  match c.mapInLevel mode.maxLevel topAttribute 0 (topNode mode pageTable) bufferSize with
  | .error status => ⟨status, pageTable, bufferSize, false⟩
  | .ok (top, bufferSize, isModified) =>
    ⟨.success, newPageTable mode pageTable top, bufferSize, isModified⟩

def pageTableMap (mode : PagingMode) (pageTable : Option (PageTable mode.maxLevel))
    (buffer bufferSize linearAddress length : Nat) (attr mask : MapAttribute) :
    MapResult mode.maxLevel :=
  if length = 0 then ⟨.success, pageTable, bufferSize, false⟩
  else if mode = .paging32bit ∨ mode.value ≥ PagingMode.pagingModeMax.value then
    ⟨.unsupported, pageTable, bufferSize, false⟩
  else if bufferSize % 4096 ≠ 0 then ⟨.invalidParameter, pageTable, bufferSize, false⟩
  else if linearAddress % 4096 ≠ 0 ∨ length % 4096 ≠ 0 then
    ⟨.invalidParameter, pageTable, bufferSize, false⟩
  else if bufferSize ≠ 0 ∧ buffer = 0 then ⟨.invalidParameter, pageTable, bufferSize, false⟩
  else if attr.present = false ∧ mask.present = true ∧ selectsMore mask = true then
    ⟨.invalidParameter, pageTable, bufferSize, false⟩
  else if linearAddress > maxLinearAddress mode ∨
      length > maxLinearAddress mode - linearAddress then
    ⟨.invalidParameter, pageTable, bufferSize, false⟩
  else
    let c : MapCall := ⟨false, 0, mode.maxLeafLevel, linearAddress, length, attr, mask⟩
    match c.mapInLevel mode.maxLevel topAttribute 0 (topNode mode pageTable) 0 with
    | .error status => ⟨status, pageTable, bufferSize, false⟩
    | .ok (_, size, _) =>
      let requiredSize := (-size).toNat
      if requiredSize > bufferSize then ⟨.bufferTooSmall, pageTable, requiredSize, false⟩
      else if requiredSize ≠ 0 ∧ buffer = 0 then
        ⟨.invalidParameter, pageTable, bufferSize, false⟩
      else updatePageTable mode { c with modify := true, buffer := buffer } pageTable bufferSize

end MuBasecore.PageTableMap
