import MuBasecore.GcdMap

/-!
The two operations through which the GCD services change a space map,
`CoreConvertSpace` and `CoreAllocateSpace`. Both return `none` where an
assertion of `CoreInsertGcdMapEntry` fails, that is, where one of the two pad
entries would be linked into the list a second time.
-/

namespace MuBasecore.GcdSpace

open EfiTypes Word64 GcdMap

/-- The two maps of the global coherency domain. -/
structure Gcd where
  memorySpaceMap : List GcdMapEntry
  ioSpaceMap : List GcdMapEntry
  deriving DecidableEq, Repr

/-- The maps that `CoreInitializeGcdServices` creates from the address widths
of the CPU HOB. -/
def coreInitializeGcdServices (sizeOfMemorySpace sizeOfIoSpace : Nat) : Gcd where
  memorySpaceMap :=
    [{ gcdMemorySpaceMapEntryTemplate with endAddress := sub64 (shl64 1 sizeOfMemorySpace) 1 }]
  ioSpaceMap :=
    [{ gcdIoSpaceMapEntryTemplate with endAddress := sub64 (shl64 1 sizeOfIoSpace) 1 }]

inductive Space
  | memory
  | io
  deriving DecidableEq, Repr

def Gcd.map (g : Gcd) : Space → List GcdMapEntry
  | .memory => g.memorySpaceMap
  | .io => g.ioSpaceMap

def Gcd.setMap (g : Gcd) (space : Space) (map : List GcdMapEntry) : Gcd :=
  match space with
  | .memory => { g with memorySpaceMap := map }
  | .io => { g with ioSpaceMap := map }

/-- What a call depends on besides the maps: whether the pool has room for the
two pad entries, and the CPU architectural protocol once it is installed. -/
structure Environment where
  allocateGcdMapEntry : Bool
  cpu : Option (Nat → Nat → AttributeMask → EfiStatus)

/-- The operations of `CoreConvertSpace`. -/
inductive ConvertOperation
  | addMemory
  | freeMemory
  | removeMemory
  | setAttributesMemory
  | setCapabilitiesMemory
  | addIo
  | freeIo
  | removeIo
  deriving DecidableEq, Repr

def ConvertOperation.space : ConvertOperation → Space
  | .addMemory | .freeMemory | .removeMemory
  | .setAttributesMemory | .setCapabilitiesMemory => .memory
  | .addIo | .freeIo | .removeIo => .io

structure ConvertRequest where
  operation : ConvertOperation
  gcdMemoryType : GcdMemoryType
  gcdIoType : GcdIoType
  baseAddress : Nat
  length : Nat
  capabilities : AttributeMask
  attributes : AttributeMask
  deriving DecidableEq, Repr

def ConvertRequest.lastAddress (r : ConvertRequest) : Nat :=
  lastByte r.baseAddress r.length

def ConvertRequest.pageAligned (r : ConvertRequest) : Bool :=
  r.baseAddress % efiPageSize == 0 && r.length % efiPageSize == 0

/-- The check that `CoreConvertSpace` makes on each entry of the range before it
changes anything. -/
def checkEntry (r : ConvertRequest) (e : GcdMapEntry) : EfiStatus :=
  match r.operation with
  | .addMemory =>
    if e.gcdMemoryType ≠ .nonExistent ∨ e.imageHandle ≠ 0 then .accessDenied else .success
  | .addIo =>
    if e.gcdIoType ≠ .nonExistent ∨ e.imageHandle ≠ 0 then .accessDenied else .success
  | .freeMemory | .freeIo =>
    if e.imageHandle = 0 then .notFound else .success
  | .removeMemory =>
    if e.gcdMemoryType = .nonExistent then .notFound
    else if e.imageHandle ≠ 0 then .accessDenied
    else .success
  | .removeIo =>
    if e.gcdIoType = .nonExistent then .notFound
    else if e.imageHandle ≠ 0 then .accessDenied
    else .success
  | .setAttributesMemory =>
    if r.attributes &&& efiMemoryRuntime ≠ 0 ∧ r.pageAligned = false then .invalidParameter
    else if e.capabilities &&& r.attributes ≠ r.attributes then .unsupported
    else .success
  | .setCapabilitiesMemory =>
    if r.pageAligned = false then .invalidParameter
    else if r.capabilities &&& e.attributes ≠ e.attributes then .unsupported
    else .success

def checkEntries (r : ConvertRequest) : List GcdMapEntry → EfiStatus
  | [] => .success
  | e :: es => if (checkEntry r e).isError then checkEntry r e else checkEntries r es

def converToCpuArchAttributes (attributes : AttributeMask) : AttributeMask :=
  let cpuArchAttributes := attributes &&& efiMemoryAccessMask
  if attributes &&& efiMemoryUc = efiMemoryUc then cpuArchAttributes ||| efiMemoryUc
  else if attributes &&& efiMemoryWc = efiMemoryWc then cpuArchAttributes ||| efiMemoryWc
  else if attributes &&& efiMemoryWt = efiMemoryWt then cpuArchAttributes ||| efiMemoryWt
  else if attributes &&& efiMemoryWb = efiMemoryWb then cpuArchAttributes ||| efiMemoryWb
  else if attributes &&& efiMemoryUce = efiMemoryUce then cpuArchAttributes ||| efiMemoryUce
  else if attributes &&& efiMemoryWp = efiMemoryWp then cpuArchAttributes ||| efiMemoryWp
  else cpuArchAttributes

def ConvertRequest.cpuArchAttributes (r : ConvertRequest) : AttributeMask :=
  if r.operation = .setAttributesMemory then converToCpuArchAttributes r.attributes else 0

def setCpuAttributes (env : Environment) (r : ConvertRequest) : EfiStatus :=
  if r.cpuArchAttributes = 0 then .success
  else
    match env.cpu with
    | none => .notAvailableYet
    | some setMemoryAttributes =>
      setMemoryAttributes r.baseAddress r.length r.cpuArchAttributes

/-- The local variable `Attributes` after the visit of an entry. For a request
without CPU attributes it collects the CPU attributes of the entries visited. -/
def nextAttributes (r : ConvertRequest) (attributes : AttributeMask) (e : GcdMapEntry) :
    AttributeMask :=
  if r.operation = .setAttributesMemory ∧ r.cpuArchAttributes = 0 ∧ attributes ≠ 0 then
    attributes ||| (e.attributes &&& (efiCacheAttributeMask ||| efiMemoryAccessMask))
  else attributes

/-- The effect of the operation on one entry; `attributes` is the local variable
after the visit. -/
def convertEntry (r : ConvertRequest) (attributes : AttributeMask) (e : GcdMapEntry) :
    GcdMapEntry :=
  match r.operation with
  | .addMemory =>
    { e with
      gcdMemoryType := r.gcdMemoryType
      capabilities :=
        if r.gcdMemoryType = .memoryMappedIo then
          r.capabilities ||| efiMemoryRuntime ||| efiMemoryPortIo
        else r.capabilities ||| efiMemoryRuntime }
  | .addIo => { e with gcdIoType := r.gcdIoType }
  | .freeMemory | .freeIo => { e with imageHandle := 0, deviceHandle := 0 }
  | .removeMemory => { e with gcdMemoryType := .nonExistent, capabilities := 0 }
  | .removeIo => { e with gcdIoType := .nonExistent }
  | .setAttributesMemory => { e with attributes := attributes }
  | .setCapabilitiesMemory => { e with capabilities := r.capabilities }

/-- A range after its entries have been padded and changed: `before` is the pad
in front of its first entry, `body` its entries with the pads between them, and
`top` the pad after its last entry. -/
structure Converted where
  before : List GcdMapEntry
  body : List GcdMapEntry
  top : List GcdMapEntry
  deriving DecidableEq, Repr

/-- The loop of both operations over the entries of the range. The state `σ` is
what the loop carries from one entry to the next. A top pad that is not inserted
at the last entry is visited next and then asked for once more, so both pads can
be used only once. -/
def convertLoop {σ : Type} (next : σ → GcdMapEntry → σ)
    (convert : σ → GcdMapEntry → GcdMapEntry) (baseAddress length : Nat) :
    σ → Bool → List GcdMapEntry → Option Converted
  | _, _, [] => some { before := [], body := [], top := [] }
  | s, bottomUsed, e :: es =>
    let inserted := coreInsertGcdMapEntry e baseAddress length
    if inserted.bottomEntry.isSome && bottomUsed then none
    else if inserted.topEntry.isSome && !es.isEmpty then none
    else
      match convertLoop next convert baseAddress length (next s inserted.entry)
          (bottomUsed || inserted.bottomEntry.isSome) es with
      | none => none
      | some rest =>
        some
          { before := inserted.bottomEntry.toList
            body := convert (next s inserted.entry) inserted.entry ::
              (rest.before ++ rest.body)
            top := inserted.topEntry.toList ++ rest.top }

/-- The entries from `startLink` to `endLink`. -/
def linkRange (map : List GcdMapEntry) (startLink endLink : Nat) : List GcdMapEntry :=
  (map.take (endLink + 1)).drop startLink

/-- The whole change of a map: the entries from `startLink` to `endLink` are
padded and converted, then merged with their neighbours. -/
def convertRange {σ : Type} (next : σ → GcdMapEntry → σ)
    (convert : σ → GcdMapEntry → GcdMapEntry) (baseAddress length : Nat) (s : σ)
    (map : List GcdMapEntry) (startLink endLink : Nat) : Option (List GcdMapEntry) :=
  match convertLoop next convert baseAddress length s false
      (linkRange map startLink endLink) with
  | none => none
  | some converted =>
    some (coreCleanupGcdMapEntry ((map.take startLink ++ converted.before).reverse)
      converted.body (converted.top ++ map.drop (endLink + 1)))

def coreConvertSpace (env : Environment) (r : ConvertRequest) (g : Gcd) :
    Option (EfiStatus × Gcd) :=
  if r.length = 0 then some (.invalidParameter, g)
  else
    let map := g.map r.operation.space
    match coreSearchGcdMapEntry r.baseAddress r.length map with
    | none => some (.unsupported, g)
    | some (startLink, endLink) =>
      let status := checkEntries r (linkRange map startLink endLink)
      if status.isError then some (status, g)
      else if !env.allocateGcdMapEntry then some (.outOfResources, g)
      else if (setCpuAttributes env r).isError then some (setCpuAttributes env r, g)
      else
        match convertRange (nextAttributes r) (convertEntry r) r.baseAddress r.length
            r.attributes map startLink endLink with
        | none => none
        | some map => some (.success, g.setMap r.operation.space map)

/-- `EFI_GCD_ALLOCATE_TYPE`, with the codes from `EfiGcdMaxAllocateType` on as
`other`. -/
inductive GcdAllocateType
  | anySearchBottomUp
  | maxAddressSearchBottomUp
  | address
  | anySearchTopDown
  | maxAddressSearchTopDown
  | other (code : Nat)
  deriving DecidableEq, Repr

def GcdAllocateType.topDown : GcdAllocateType → Bool
  | .anySearchTopDown | .maxAddressSearchTopDown => true
  | _ => false

def GcdAllocateType.maxAddress : GcdAllocateType → Bool
  | .maxAddressSearchBottomUp | .maxAddressSearchTopDown => true
  | _ => false

def GcdAllocateType.valid : GcdAllocateType → Bool
  | .other _ => false
  | _ => true

/-- `baseAddress` is the value behind the pointer, if the pointer is not null. -/
structure AllocateRequest where
  space : Space
  gcdAllocateType : GcdAllocateType
  gcdMemoryType : GcdMemoryType
  gcdIoType : GcdIoType
  alignment : Nat
  length : Nat
  baseAddress : Option Nat
  imageHandle : Handle
  deviceHandle : Handle
  deriving DecidableEq, Repr

/-- The parameter checks at the head of `CoreAllocateSpace`. -/
def AllocateRequest.check (r : AllocateRequest) : EfiStatus :=
  if r.gcdAllocateType.valid = false then .invalidParameter
  else if r.gcdMemoryType matches .other _ then .invalidParameter
  else if r.gcdIoType matches .other _ then .invalidParameter
  else if r.baseAddress.isNone then .invalidParameter
  else if r.imageHandle = 0 then .invalidParameter
  else if r.alignment ≥ 64 then .notFound
  else if r.length = 0 then .invalidParameter
  else .success

def coreAllocateSpaceCheckEntry (r : AllocateRequest) (e : GcdMapEntry) : EfiStatus :=
  if e.imageHandle ≠ 0 then .notFound
  else
    match r.space with
    | .memory => if e.gcdMemoryType ≠ r.gcdMemoryType then .notFound else .success
    | .io => if e.gcdIoType ≠ r.gcdIoType then .notFound else .success

/-- The index, counted from `link`, of the first entry that cannot be used. -/
def firstUnusable (r : AllocateRequest) : Nat → List GcdMapEntry → Option Nat
  | _, [] => none
  | link, e :: es =>
    if (coreAllocateSpaceCheckEntry r e).isError then some link
    else firstUnusable r (link + 1) es

def candidateBase (r : AllocateRequest) (maxAddress : Nat) (e : GcdMapEntry) : Nat :=
  if r.gcdAllocateType.topDown then
    alignDown (sub64 (add64 (min e.endAddress maxAddress) 1) r.length) r.alignment
  else alignDown (add64 e.baseAddress (2 ^ r.alignment - 1)) r.alignment

/-- How a search ends. `baseAddress` is what it leaves behind the pointer. -/
inductive SearchResult
  | found (baseAddress startLink endLink : Nat)
  | notFound (baseAddress : Nat)
  deriving DecidableEq, Repr

/-- The link after `link` in the direction of the search; `none` is the list head. -/
def followingLink (r : AllocateRequest) (map : List GcdMapEntry) (link : Nat) : Option Nat :=
  if r.gcdAllocateType.topDown then
    if link = 0 then none else some (link - 1)
  else if link + 1 < map.length then some (link + 1)
  else none

/-- The search loop of `CoreAllocateSpace`, cut off after the given number of
iterations. After a range that contains an unusable entry the loop goes on at
that entry. -/
def searchLoop (r : AllocateRequest) (map : List GcdMapEntry) (maxAddress : Nat) :
    Nat → Option Nat → Nat → Option SearchResult
  | 0, _, _ => none
  | _ + 1, none, baseAddress => some (.notFound baseAddress)
  | fuel + 1, some link, baseAddress =>
    let e := map.getD link gcdMemorySpaceMapEntryTemplate
    if (coreAllocateSpaceCheckEntry r e).isError then
      searchLoop r map maxAddress fuel (followingLink r map link) baseAddress
    else if r.gcdAllocateType.topDown && decide (add64 e.baseAddress r.length > maxAddress) then
      searchLoop r map maxAddress fuel (followingLink r map link) baseAddress
    else if r.gcdAllocateType.topDown && decide (r.length > add64 e.endAddress 1) then
      some (.notFound baseAddress)
    else
      let baseAddress := candidateBase r maxAddress e
      if !r.gcdAllocateType.topDown &&
          decide (lastByte baseAddress r.length > maxAddress) then
        some (.notFound baseAddress)
      else
        match coreSearchGcdMapEntry baseAddress r.length map with
        | none => some (.notFound baseAddress)
        | some (startLink, endLink) =>
          match firstUnusable r startLink (linkRange map startLink endLink) with
          | none => some (.found baseAddress startLink endLink)
          | some subLink => searchLoop r map maxAddress fuel (some subLink) baseAddress

/-- The range that `CoreAllocateSpace` settles on; `none` means that the search
loop has not ended after one iteration for each entry and one more. -/
def selectRange (r : AllocateRequest) (map : List GcdMapEntry) (baseAddress : Nat) :
    Option SearchResult :=
  if r.gcdAllocateType = .address then
    if baseAddress % 2 ^ r.alignment ≠ 0 then some (.notFound baseAddress)
    else
      match coreSearchGcdMapEntry baseAddress r.length map with
      | none => some (.notFound baseAddress)
      | some (startLink, endLink) =>
        match firstUnusable r startLink (linkRange map startLink endLink) with
        | none => some (.found baseAddress startLink endLink)
        | some _ => some (.notFound baseAddress)
  else
    let maxAddress :=
      if r.gcdAllocateType.maxAddress then baseAddress
      else (map.getLastD gcdMemorySpaceMapEntryTemplate).endAddress
    let link := if r.gcdAllocateType.topDown then map.length - 1 else 0
    searchLoop r map maxAddress (map.length + 1) (if map.isEmpty then none else some link)
      baseAddress

def allocateEntry (r : AllocateRequest) (e : GcdMapEntry) : GcdMapEntry :=
  { e with imageHandle := r.imageHandle, deviceHandle := r.deviceHandle }

/-- `CoreAllocateSpace`: the status, what is left behind the base address
pointer, and the maps. -/
def coreAllocateSpace (env : Environment) (r : AllocateRequest) (g : Gcd) :
    Option (EfiStatus × Nat × Gcd) :=
  let baseAddress := r.baseAddress.getD 0
  if r.check.isError then some (r.check, baseAddress, g)
  else
    let map := g.map r.space
    match selectRange r map baseAddress with
    | none => none
    | some (.notFound baseAddress) => some (.notFound, baseAddress, g)
    | some (.found baseAddress startLink endLink) =>
      if !env.allocateGcdMapEntry then some (.outOfResources, baseAddress, g)
      else
        match convertRange (fun _ _ => ()) (fun _ => allocateEntry r) baseAddress
            r.length () map startLink endLink with
        | none => none
        | some map => some (.success, baseAddress, g.setMap r.space map)

inductive GcdCall
  | convert (r : ConvertRequest)
  | allocate (r : AllocateRequest)
  deriving DecidableEq, Repr

def GcdCall.length : GcdCall → Nat
  | .convert r => r.length
  | .allocate r => r.length

/-- The status, the base address and the GCD maps after a call. -/
def GcdCall.run (env : Environment) : GcdCall → Gcd → Option (EfiStatus × Nat × Gcd)
  | .convert r, g =>
    match coreConvertSpace env r g with
    | none => none
    | some (status, g) => some (status, r.baseAddress, g)
  | .allocate r, g => coreAllocateSpace env r g

def runCalls (env : Environment) : List GcdCall → Gcd → Option Gcd
  | [], g => some g
  | call :: calls, g =>
    match call.run env g with
    | none => none
    | some (_, _, g) => runCalls env calls g

end MuBasecore.GcdSpace
