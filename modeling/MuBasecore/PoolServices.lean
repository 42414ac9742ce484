import MuBasecore.PageServices

/-!
The pool allocator: blocks of the sizes of `mPoolSizeTable`, carved out of
granules that come from the page services, with one list of free blocks for each
size and memory type. The heap guard is off.
-/

namespace MuBasecore.PoolServices

open EfiTypes Word64 MemoryTypes MemoryMap PageServices

def poolSizeTable : List Nat :=
  [128, 256, 384, 640, 1024, 1664, 2688, 4352, 7040, 11392, 18432, 29824]

/-- The index of the first size that is large enough, and `MAX_POOL_LIST` if there
is none. -/
def getPoolIndexFromSize (size : Nat) : Nat :=
  poolSizeTable.findIdx fun entry => decide (entry ≥ size)

def listToSize (index : Nat) : Nat :=
  poolSizeTable.getD index 0

def sizeOfPoolHead : Nat := 24

def sizeOfPoolTail : Nat := 16

def poolOverhead : Nat := sizeOfPoolHead + sizeOfPoolTail

def maxPoolSize : Nat := 0xFFFFFFFFFFFFFFFF - poolOverhead

/-- `sizeof (POOL)`. -/
def sizeOfPool : Nat := 232

def alignVariable (value : Nat) : Nat :=
  add64 value (sub64 8 value % 8)

def blockSize (size : Nat) : Nat :=
  add64 (alignVariable size) poolOverhead

def poolPages (granularity size : Nat) : Nat :=
  alignTo (sub64 (add64 (sizeToPages size) (sizeToPages granularity)) 1) (sizeToPages granularity)

inductive PoolSignature
  | poolFree
  | poolHead
  | poolPageHead
  deriving DecidableEq, Repr

/-- What memory holds at the start of a block: the fields of `POOL_FREE` and of
`POOL_HEAD`. The field `Index` of the one is the field `Reserved` of the other,
which is never written; `Link` is part of the free lists. -/
structure BlockHeader where
  signature : Option PoolSignature
  index : Nat
  type : EfiMemoryType
  size : Nat
  deriving DecidableEq, Repr

/-- `POOL`, with the address of the structure for a type that is not a named one. -/
structure Pool where
  used : Nat
  freeList : Nat → List Nat
  address : Nat

/-- `CoreAllocatePoolPagesI` and `CoreFreePoolPagesI`, which may change the state
`σ` of the page services. Address zero stands for a failed allocation. -/
structure PageService (σ : Type) where
  allocate : EfiMemoryType → Nat → Nat → σ → Option (Nat × σ)
  free : Nat → Nat → σ → Option σ

/-- The pools by memory type, and the parts of memory that they read and write:
the headers, and the sizes in the tails by the address of the tail. -/
structure PoolState (σ : Type) where
  pools : EfiMemoryType → Option Pool
  headers : Nat → BlockHeader
  tails : Nat → Option Nat
  pages : σ

variable {σ : Type}

def modifyPool (type : EfiMemoryType) (f : Pool → Pool) (s : PoolState σ) : PoolState σ :=
  { s with pools := Function.update s.pools type ((s.pools type).map f) }

def insertFree (type : EfiMemoryType) (index address : Nat) (s : PoolState σ) : PoolState σ :=
  { modifyPool type
      (fun pool => { pool with
        freeList := Function.update pool.freeList index (address :: pool.freeList index) }) s with
    headers := Function.update s.headers address
      { s.headers address with signature := some .poolFree, index := index } }

def removeFirst (type : EfiMemoryType) (index : Nat) (s : PoolState σ) : PoolState σ :=
  modifyPool type
    (fun pool => { pool with
      freeList := Function.update pool.freeList index (pool.freeList index).tail }) s

/-- `RemoveEntryList` on the link of a free block, whatever list it is on. -/
def removeEntry (type : EfiMemoryType) (address : Nat) (s : PoolState σ) : PoolState σ :=
  modifyPool type
    (fun pool => { pool with freeList := fun index => (pool.freeList index).erase address }) s

def headToTail (head size : Nat) : Nat :=
  sub64 (add64 head size) sizeOfPoolTail

def fillBlock (type : EfiMemoryType) (head size : Nat) (s : PoolState σ) : PoolState σ :=
  { modifyPool type (fun pool => { pool with used := add64 pool.used size }) s with
    headers := Function.update s.headers head
      { s.headers head with signature := some .poolHead, type := type, size := size }
    tails := Function.update s.tails (headToTail head size) (some size) }

/-- The inner loop of the carving: blocks of one size from `offset` on, cut off
after the given number. The result is the offsets and where the blocks end. -/
def carveSize (fsize maxOffset : Nat) : Nat → Nat → List Nat × Nat
  | 0, offset => ([], offset)
  | fuel + 1, offset =>
    if offset + fsize ≤ maxOffset then
      let rest := carveSize fsize maxOffset fuel (offset + fsize)
      (offset :: rest.1, rest.2)
    else ([], offset)

/-- The outer loop of the carving, with the lists below `index`: the index and the
offset of each free block. -/
def carveBlocks (maxOffset : Nat) : Nat → Nat → List (Nat × Nat)
  | 0, _ => []
  | index + 1, offset =>
    if offset < maxOffset then
      let blocks := carveSize (listToSize index) maxOffset maxOffset offset
      blocks.1.map (fun offset => (index, offset)) ++ carveBlocks maxOffset index blocks.2
    else []

/-- The rest of the block at `newPage` behind `offset` is carved up into free
blocks. -/
def carve (type : EfiMemoryType) (newPage offset maxOffset index : Nat) (s : PoolState σ) :
    PoolState σ :=
  (carveBlocks maxOffset index offset).foldl
    (fun s block => insertFree type block.1 (newPage + block.2) s) s

def firstFree (pool : Pool) : List Nat → Option (Nat × Nat)
  | [] => none
  | index :: indices =>
    match pool.freeList index with
    | [] => firstFree pool indices
    | head :: _ => some (index, head)

/-- `CoreAllocatePoolI` once the pool is known: the head of a block of `size` bytes
with header and tail, or zero. -/
def allocateBlock (service : PageService σ) (granularity : Nat) (type : EfiMemoryType)
    (size : Nat) (s : PoolState σ) : Option (Nat × PoolState σ) :=
  match s.pools type with
  | none => some (0, s)
  | some pool =>
    let index := getPoolIndexFromSize size
    let limit := getPoolIndexFromSize granularity
    if index ≥ limit then
      match service.allocate type (poolPages granularity size) granularity s.pages with
      | none => none
      | some (head, pages) =>
        let s := { s with pages := pages }
        if head = 0 then some (0, s) else some (head, fillBlock type head size s)
    else
      match pool.freeList index with
      | head :: _ => some (head, fillBlock type head size (removeFirst type index s))
      | [] =>
        match firstFree pool (List.range' (index + 1) (limit - (index + 1))) with
        | some (larger, head) =>
          some (head, fillBlock type head size
            (carve type head (listToSize index) (listToSize larger) larger
              (removeFirst type larger s)))
        | none =>
          match service.allocate type (sizeToPages granularity) granularity s.pages with
          | none => none
          | some (head, pages) =>
            let s := { s with pages := pages }
            if head = 0 then some (0, s)
            else
              some (head, fillBlock type head size
                (carve type head (listToSize index) granularity limit s))

/-- `LookupPoolHead`. The pool of a type that is not a named one is created in a
block of boot services data; the result says whether there is a pool. -/
def lookupPoolHead (service : PageService σ) (p : Platform) (type : EfiMemoryType)
    (s : PoolState σ) : Option (Bool × PoolState σ) :=
  if type.named then some (true, s)
  else if type.valid then
    if (s.pools type).isSome then some (true, s)
    else
      match allocateBlock service (p.arch.granularity .bootServicesData) .bootServicesData
          (blockSize sizeOfPool) s with
      | none => none
      | some (head, s) =>
        if head = 0 then some (false, s)
        else
          let pool : Pool :=
            { used := 0, freeList := fun _ => [], address := add64 head sizeOfPoolHead }
          some (true, { s with pools := Function.update s.pools type (some pool) })
  else some (false, s)

def coreAllocatePoolI (service : PageService σ) (p : Platform) (poolType : EfiMemoryType)
    (size : Nat) (s : PoolState σ) : Option (Nat × PoolState σ) :=
  match lookupPoolHead service p poolType s with
  | none => none
  | some (false, s) => some (0, s)
  | some (true, s) =>
    match allocateBlock service (p.arch.granularity poolType) poolType (blockSize size) s with
    | none => none
    | some (head, s) => some (if head = 0 then 0 else add64 head sizeOfPoolHead, s)

/-- The offsets of the blocks of a granule, read off the indices in its free blocks
up to the first block that is not free; the flag says whether there is none such. -/
def scanGranule (headers : Nat → BlockHeader) (newPage granularity : Nat) :
    Nat → Nat → List Nat × Bool
  | 0, _ => ([], false)
  | fuel + 1, offset =>
    if offset < granularity then
      let free := headers (newPage + offset)
      if free.signature ≠ some .poolFree then ([], false)
      else
        let rest := scanGranule headers newPage granularity fuel (offset + listToSize free.index)
        (offset :: rest.1, rest.2)
    else ([], true)

/-- `CoreFreePoolI` up to the removal of a pool that is not used any more. -/
def freeBlock (service : PageService σ) (p : Platform) (buffer : Nat) (s : PoolState σ) :
    Option (EfiStatus × PoolState σ) :=
  let head := sub64 buffer sizeOfPoolHead
  let header := s.headers head
  if header.signature ≠ some .poolHead ∧ header.signature ≠ some .poolPageHead then
    some (.invalidParameter, s)
  else if s.tails (headToTail head header.size) ≠ some header.size then
    some (.invalidParameter, s)
  else
    match lookupPoolHead service p header.type s with
    | none => none
    | some (false, s) => some (.invalidParameter, s)
    | some (true, s) =>
      let s := modifyPool header.type
        (fun pool => { pool with used := sub64 pool.used header.size }) s
      let granularity := p.arch.granularity header.type
      let index := getPoolIndexFromSize header.size
      if index ≥ getPoolIndexFromSize granularity ∨ header.signature = some .poolPageHead then
        match service.free head (poolPages granularity header.size) s.pages with
        | none => none
        | some pages => some (.success, { s with pages := pages })
      else
        let s := insertFree header.type index head s
        let newPage := alignTo head granularity
        let scan := scanGranule s.headers newPage granularity (granularity + 1) 0
        if scan.2 then
          let s := scan.1.foldl (fun s offset => removeEntry header.type (newPage + offset) s) s
          match service.free newPage (sizeToPages granularity) s.pages with
          | none => none
          | some pages => some (.success, { s with pages := pages })
        else some (.success, s)

def coreFreePoolI (service : PageService σ) (p : Platform) (buffer : Nat) (s : PoolState σ) :
    Option (EfiStatus × PoolState σ) :=
  let type := (s.headers (sub64 buffer sizeOfPoolHead)).type
  match freeBlock service p buffer s with
  | none => none
  | some (status, s) =>
    if status.isError then some (status, s)
    else
      match s.pools type with
      | none => some (status, s)
      | some pool =>
        if type.named = false ∧ pool.used = 0 then
          match freeBlock service p pool.address
              { s with pools := Function.update s.pools type none } with
          | none => none
          | some (_, s) => some (status, s)
        else some (status, s)

def corePageService (p : Platform) : PageService MemoryState where
  allocate := coreAllocatePoolPages p (outerLevel p)
  free := coreFreePoolPages p

/-- `CoreInitializePool`, over given contents of the memory. -/
def initialPools (headers : Nat → BlockHeader) (tails : Nat → Option Nat) (pages : σ) :
    PoolState σ where
  pools := fun type =>
    if type.named then some { used := 0, freeList := fun _ => [], address := 0 } else none
  headers := headers
  tails := tails
  pages := pages

end MuBasecore.PoolServices
