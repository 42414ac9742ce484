import MuBasecore.MemoryMap

/-!
The page services on top of the memory map: the search for free pages, the
promotion of untested memory, and the two levels at which they run. While
`CoreFreeMemoryMapStack` refills the list of free descriptors, the services are
entered again with the stack left alone; they never nest deeper.
-/

namespace MuBasecore.PageServices

open EfiTypes Word64 GcdMap GcdSpace MemoryTypes MemoryMap

def promotable (p : Platform) (e : GcdMapEntry) : Bool :=
  decide (e.gcdMemoryType = .reserved) && decide (e.endAddress < p.arch.maxAllocAddress) &&
    decide (e.capabilities &&& (efiMemoryPresent ||| efiMemoryInitialized ||| efiMemoryTested) =
      efiMemoryPresent ||| efiMemoryInitialized)

def promoteEntry (p : Platform) (e : GcdMapEntry) : GcdMapEntry :=
  { e with
    gcdMemoryType :=
      if e.capabilities &&& efiMemoryMoreReliable = efiMemoryMoreReliable then .moreReliable
      else .systemMemory
    capabilities := e.capabilities ||| efiMemoryTested
    imageHandle := p.gDxeCoreImageHandle
    deviceHandle := 0 }

def promotedRange (e : GcdMapEntry) : MemoryRange where
  type := .conventionalMemory
  startAddress := e.baseAddress
  endAddress := e.endAddress
  attributes := e.capabilities &&&
    ~~~(efiMemoryPresent ||| efiMemoryInitialized ||| efiMemoryTested ||| efiMemoryRuntime)

/-- The walk of `PromoteMemoryResource` over the rest of the GCD map behind the
entries `done`. -/
def promoteLoop (p : Platform) (freeMapStack : MemoryState → Option MemoryState)
    (done : List GcdMapEntry) : List GcdMapEntry → Bool → MemoryState → Option (Bool × MemoryState)
  | [], promoted, s => some (promoted, s)
  | e :: es, promoted, s =>
    if promotable p e then
      let e := promoteEntry p e
      let s := { s with gcd := s.gcd.setMap .memory (done ++ e :: es) }
      match coreAddRange (promotedRange e) s with
      | none => none
      | some s =>
        match freeMapStack s with
        | none => none
        | some s => promoteLoop p freeMapStack (done ++ [e]) es true s
    else promoteLoop p freeMapStack (done ++ [e]) es promoted s

/-- `PromoteMemoryResource`; freed pages are never guarded, so nothing else is
promoted. -/
def promoteMemoryResource (p : Platform) (freeMapStack : MemoryState → Option MemoryState)
    (s : MemoryState) : Option (Bool × MemoryState) :=
  if s.gcdMemoryLocked then none
  else
    match promoteLoop p freeMapStack [] s.gcd.memorySpaceMap false
        { s with gcdMemoryLocked := true } with
    | none => none
    | some (promoted, s) => some (promoted, { s with gcdMemoryLocked := false })

/-- `Address & ~(Alignment - 1)` for an alignment that is a power of two. -/
def alignTo (address alignment : Nat) : Nat :=
  address / alignment * alignment

def usableEnd (maxAddress alignment : Nat) (e : MemoryMapEntry) : Nat :=
  let descEnd := if e.endAddress ≥ maxAddress then maxAddress else e.endAddress
  sub64 (alignTo (add64 descEnd 1) alignment) 1

/-- One iteration of the search loop of `CoreFindFreePagesI`; `target` is the end
of the best match so far. -/
def findStep (maxAddress minAddress numberOfBytes alignment : Nat) (target : Nat)
    (e : MemoryMapEntry) : Nat :=
  if e.type ≠ .conventionalMemory then target
  else if e.attributes &&& efiMemorySp ≠ 0 then target
  else if e.startAddress ≥ maxAddress ∨ e.endAddress < minAddress then target
  else
    let descEnd := usableEnd maxAddress alignment e
    if descEnd < e.startAddress then target
    else if add64 (sub64 descEnd e.startAddress) 1 < numberOfBytes then target
    else if add64 (sub64 descEnd numberOfBytes) 1 < minAddress then target
    else if descEnd > target then descEnd
    else target

/-- `CoreFindFreePagesI` without a guard. -/
def coreFindFreePagesI (maxAddress minAddress numberOfPages alignment : Nat)
    (map : List MemoryMapEntry) : Nat :=
  if maxAddress < efiPageSize - 1 ∨ numberOfPages = 0 then 0
  else
    let maxAddress :=
      if maxAddress % efiPageSize = efiPageSize - 1 then maxAddress
      else alignTo (sub64 maxAddress efiPageSize) efiPageSize + (efiPageSize - 1)
    let numberOfBytes := shl64 numberOfPages efiPageShift
    let target := map.foldl (findStep maxAddress minAddress numberOfBytes alignment) 0
    let target := sub64 target (sub64 numberOfBytes 1)
    if target % efiPageSize ≠ 0 then 0 else target

/-- The arguments of `FindFreePages`. -/
structure PageRequest where
  maxAddress : Nat
  numberOfPages : Nat
  newType : EfiMemoryType
  alignment : Nat
  deriving DecidableEq, Repr

def PageRequest.find (r : PageRequest) (maxAddress minAddress : Nat) (s : MemoryState) : Nat :=
  coreFindFreePagesI maxAddress minAddress r.numberOfPages r.alignment s.memoryMap

def PageRequest.findInBin (r : PageRequest) (s : MemoryState) : Nat :=
  let bin := s.memoryTypeStatistics r.newType
  if r.newType.named && decide (r.maxAddress ≥ bin.maximumAddress) then
    r.find bin.maximumAddress bin.baseAddress s
  else 0

def PageRequest.findInDefault (r : PageRequest) (s : MemoryState) : Nat :=
  if r.maxAddress ≥ s.defaultMaximumAddress then r.find s.defaultMaximumAddress 0 s else 0

/-- `FindFreePages`, cut off after the given number of promotions. -/
def findFreePages (level : Level) (r : PageRequest) :
    Nat → MemoryState → Option (Nat × MemoryState)
  | 0, _ => none
  | fuel + 1, s =>
    if r.findInBin s ≠ 0 then some (r.findInBin s, s)
    else if r.findInDefault s ≠ 0 then
      let start := r.findInDefault s
      some (start,
        if start < s.defaultBaseAddress then { s with defaultBaseAddress := start } else s)
    else if r.find r.maxAddress 0 s ≠ 0 then some (r.find r.maxAddress 0 s, s)
    else
      match level.promoteMemoryResource s with
      | none => none
      | some (false, s) => some (0, s)
      | some (true, s) => findFreePages level r fuel s

def promoteFuel (s : MemoryState) : Nat :=
  s.gcd.memorySpaceMap.length + 2

/-- `CoreAllocatePoolPages`, which returns zero if there are no free pages and
ignores the status of the conversion. -/
def coreAllocatePoolPages (p : Platform) (level : Level) (poolType : EfiMemoryType)
    (numberOfPages alignment : Nat) (s : MemoryState) : Option (Nat × MemoryState) :=
  let r : PageRequest :=
    { maxAddress := p.arch.maxAllocAddress
      numberOfPages := numberOfPages
      newType := poolType
      alignment := alignment }
  match findFreePages level r (promoteFuel s) s with
  | none => none
  | some (start, s) =>
    if start = 0 then some (0, s)
    else
      match coreConvertPagesEx level (.toType poolType) start numberOfPages s with
      | none => none
      | some (_, s) => some (start, s)

/-- The level inside `CoreFreeMemoryMapStack`. -/
def nestedLevel (p : Platform) : Level where
  coreFreeMemoryMapStack := some
  promoteMemoryResource := promoteMemoryResource p some

/-- `AllocateMemoryMapEntry`: one descriptor leaves the free list. -/
def allocateMemoryMapEntry (p : Platform) (s : MemoryState) : Option MemoryState :=
  if s.freeEntries ≠ 0 then some { s with freeEntries := s.freeEntries - 1 }
  else
    match coreAllocatePoolPages p (nestedLevel p) .bootServicesData 1
        defaultPageAllocationGranularity s with
    | none => none
    | some (start, s) =>
      if start = 0 then none
      else some { s with freeEntries := s.freeEntries + entriesPerPage - 1 }

def insertFromPages (e : MemoryMapEntry) : List MemoryMapEntry → List MemoryMapEntry
  | [] => [e]
  | d :: ds =>
    if d.slot.isNone && decide (d.startAddress > e.startAddress) then e :: d :: ds
    else d :: insertFromPages e ds

/-- The loop of `CoreFreeMemoryMapStack`, cut off after the given number of
iterations. -/
def freeMapStackLoop (p : Platform) : Nat → MemoryState → Option MemoryState
  | 0, _ => none
  | fuel + 1, s =>
    if s.mapDepth = 0 then some s
    else
      match allocateMemoryMapEntry p s with
      | none => none
      | some s =>
        let depth := s.mapDepth - 1
        match splitFirst (fun e => e.slot == some depth) s.memoryMap with
        | some (before, e, behind) =>
          freeMapStackLoop p fuel
            { s with
              memoryMap := insertFromPages { e with slot := none } (before ++ behind)
              mapDepth := depth }
        | none =>
          freeMapStackLoop p fuel
            { s with freeEntries := s.freeEntries + 1, mapDepth := depth }

def freeMapStackFuel : Nat := 2 * maxMapDepth + 2

def coreFreeMemoryMapStack (p : Platform) (s : MemoryState) : Option MemoryState :=
  freeMapStackLoop p freeMapStackFuel s

def outerLevel (p : Platform) : Level where
  coreFreeMemoryMapStack := coreFreeMemoryMapStack p
  promoteMemoryResource := promoteMemoryResource p (coreFreeMemoryMapStack p)

/-- `CoreAddMemoryDescriptor` up to the release of the memory lock. The bins that
it allocates afterwards are allocated and freed through the page services. -/
def coreAddMemoryDescriptor (p : Platform) (type : EfiMemoryType) (start numberOfPages : Nat)
    (attributes : AttributeMask) (s : MemoryState) : Option MemoryState :=
  if start % efiPageSize ≠ 0 then some s
  else if type.valid = false then some s
  else
    match coreAddRange
        { type := type
          startAddress := start
          endAddress := lastByte start (shl64 numberOfPages efiPageShift)
          attributes := attributes } s with
    | none => none
    | some s => coreFreeMemoryMapStack p s

def coreConvertPages (p : Platform) (start numberOfPages : Nat) (newType : EfiMemoryType)
    (s : MemoryState) : Option (EfiStatus × MemoryState) :=
  coreConvertPagesEx (outerLevel p) (.toType newType) start numberOfPages s

def coreUpdateMemoryAttributes (p : Platform) (start numberOfPages : Nat)
    (newAttributes : AttributeMask) (s : MemoryState) : Option MemoryState :=
  (coreConvertPagesEx (outerLevel p) (.toAttributes newAttributes) start numberOfPages s).map
    Prod.snd

/-- `EFI_ALLOCATE_TYPE`, with the codes from `MaxAllocateType` on as `other`. -/
inductive EfiAllocateType
  | allocateAnyPages
  | allocateMaxAddress
  | allocateAddress
  | other (code : Nat)
  deriving DecidableEq, Repr

/-- The type is below `MaxAllocateType`. -/
def EfiAllocateType.valid : EfiAllocateType → Bool
  | .other _ => false
  | _ => true

def notAllocatable (type : EfiMemoryType) : Bool :=
  !type.valid || type == .conventionalMemory || type == .persistentMemory ||
    type == .unacceptedMemoryType

def overlapsSpecialBin (memoryType : EfiMemoryType) (start last : Nat) (s : MemoryState) : Bool :=
  namedMemoryTypes.any fun checkType =>
    let bin := s.memoryTypeStatistics checkType
    memoryType != checkType && checkType.special && decide (bin.numberOfPages > 0) &&
      (decide (bin.baseAddress ≤ start) && decide (start ≤ bin.maximumAddress) ||
        decide (bin.baseAddress ≤ last) && decide (last ≤ bin.maximumAddress) ||
        decide (start < bin.baseAddress) && decide (last > bin.maximumAddress))

def checkAllocateAddress (p : Platform) (memoryType : EfiMemoryType) (start numberOfPages : Nat)
    (s : MemoryState) : EfiStatus :=
  let last := lastByte start (shl64 numberOfPages efiPageShift)
  if start = 0 then .notFound
  else if numberOfPages = 0 ∨ numberOfPages > p.arch.maxAllocAddress / efiPageSize then .notFound
  else if start ≥ last ∨ start > p.arch.maxAllocAddress ∨ last > p.arch.maxAllocAddress then
    .notFound
  else if overlapsSpecialBin memoryType start last s then .notFound
  else .success

def roundPages (alignment numberOfPages : Nat) : Nat :=
  alignTo (add64 numberOfPages (alignment / efiPageSize - 1)) (alignment / efiPageSize)

def convertOrPromote (p : Platform) (start numberOfPages : Nat) (memoryType : EfiMemoryType)
    (s : MemoryState) : Option (EfiStatus × MemoryState) :=
  match coreConvertPages p start numberOfPages memoryType s with
  | none => none
  | some (status, s) =>
    if status.isError then
      match (outerLevel p).promoteMemoryResource s with
      | none => none
      | some (false, s) => some (status, s)
      | some (true, s) => coreConvertPages p start numberOfPages memoryType s
    else some (status, s)

/-- `CoreInternalAllocatePages` without a guard: the status, what is left behind
the pointer `Memory`, and the state. -/
def coreInternalAllocatePages (p : Platform) (type : EfiAllocateType)
    (memoryType : EfiMemoryType) (numberOfPages memory : Nat) (s : MemoryState) :
    Option (EfiStatus × Nat × MemoryState) :=
  if !type.valid then some (.invalidParameter, memory, s)
  else if notAllocatable memoryType then some (.invalidParameter, memory, s)
  else
    let alignment := p.arch.granularity memoryType
    if type = .allocateAddress ∧ memory % alignment ≠ 0 then some (.notFound, memory, s)
    else
      let numberOfPages := roundPages alignment numberOfPages
      if type = .allocateAddress then
        if (checkAllocateAddress p memoryType memory numberOfPages s).isError then
          some (checkAllocateAddress p memoryType memory numberOfPages s, memory, s)
        else
          match convertOrPromote p memory numberOfPages memoryType s with
          | none => none
          | some (status, s) => some (status, memory, s)
      else
        let r : PageRequest :=
          { maxAddress :=
              if type = .allocateMaxAddress then memory else p.arch.maxAllocAddress
            numberOfPages := numberOfPages
            newType := memoryType
            alignment := alignment }
        match findFreePages (outerLevel p) r (promoteFuel s) s with
        | none => none
        | some (start, s) =>
          if start = 0 then some (.outOfResources, memory, s)
          else
            match convertOrPromote p start numberOfPages memoryType s with
            | none => none
            | some (status, s) =>
              some (status, if status.isError then memory else start, s)

/-- `CoreInternalFreePages` without a guard. -/
def coreInternalFreePages (p : Platform) (memory numberOfPages : Nat) (s : MemoryState) :
    Option (EfiStatus × MemoryState) :=
  match splitFirst (MemoryMapEntry.covers · memory) s.memoryMap with
  | none => some (.notFound, s)
  | some (_, e, _) =>
    let alignment := p.arch.granularity e.type
    if memory % alignment ≠ 0 then some (.invalidParameter, s)
    else coreConvertPages p memory (roundPages alignment numberOfPages) .conventionalMemory s

def coreFreePoolPages (p : Platform) (memory numberOfPages : Nat) (s : MemoryState) :
    Option MemoryState :=
  (coreConvertPages p memory numberOfPages .conventionalMemory s).map Prod.snd

def initialState (p : Platform) (gcd : Gcd) : MemoryState where
  memoryMap := []
  mapDepth := 0
  freeEntries := 0
  memoryMapKey := 0
  gcd := gcd
  gcdMemoryLocked := false
  memoryTypeInformationInitialized := false
  memoryTypeStatistics := fun _ =>
    { baseAddress := 0
      maximumAddress := p.arch.maxAllocAddress
      currentNumberOfPages := 0
      numberOfPages := 0
      informationIndex := namedMemoryTypes.length }
  informationPages := fun _ => 0
  defaultMaximumAddress := p.arch.maxAllocAddress
  defaultBaseAddress := p.arch.maxAllocAddress

inductive MemoryCall
  | addMemoryDescriptor (type : EfiMemoryType) (start numberOfPages : Nat)
      (attributes : AttributeMask)
  | convertPages (start numberOfPages : Nat) (newType : EfiMemoryType)
  | updateMemoryAttributes (start numberOfPages : Nat) (newAttributes : AttributeMask)
  | allocatePages (type : EfiAllocateType) (memoryType : EfiMemoryType)
      (numberOfPages memory : Nat)
  | freePages (memory numberOfPages : Nat)
  | allocatePoolPages (poolType : EfiMemoryType) (numberOfPages alignment : Nat)
  | freePoolPages (memory numberOfPages : Nat)
  deriving DecidableEq, Repr

/-- The state after a call, `none` if it does not return. -/
def MemoryCall.run (p : Platform) (call : MemoryCall) (s : MemoryState) : Option MemoryState :=
  match call with
  | .addMemoryDescriptor type start numberOfPages attributes =>
    coreAddMemoryDescriptor p type start numberOfPages attributes s
  | .convertPages start numberOfPages newType =>
    (coreConvertPages p start numberOfPages newType s).map Prod.snd
  | .updateMemoryAttributes start numberOfPages newAttributes =>
    coreUpdateMemoryAttributes p start numberOfPages newAttributes s
  | .allocatePages type memoryType numberOfPages memory =>
    (coreInternalAllocatePages p type memoryType numberOfPages memory s).map (·.2.2)
  | .freePages memory numberOfPages => (coreInternalFreePages p memory numberOfPages s).map Prod.snd
  | .allocatePoolPages poolType numberOfPages alignment =>
    (coreAllocatePoolPages p (outerLevel p) poolType numberOfPages alignment s).map Prod.snd
  | .freePoolPages memory numberOfPages => coreFreePoolPages p memory numberOfPages s

end MuBasecore.PageServices
