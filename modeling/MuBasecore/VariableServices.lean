import MuBasecore.VariableReclaim
import MuBasecore.Word64

/-!
The variable services with volatile and non-volatile stores: `SetVariable` with
`UpdateVariable` and the writes to the stores that it makes, and `GetVariable`. The
non-volatile store is in flash, with a copy in memory that the services read. There is
no authentication and no variable HOB, and the firmware volume accepts every write.
-/

namespace MuBasecore.VariableServices

open ByteMemory EfiTypes VariableFormat VariableLookup VariableReclaim Word64

structure VariableProperty where
  readOnly : Bool
  attributes : Attributes
  minSize : Nat
  maxSize : Nat

/-- What the platform fixes. The sizes are those of the stores; `fvEnd` is the end of the
firmware volume, as an offset from the base of the non-volatile store. -/
structure Config where
  authFormat : Bool
  volatileSize : Nat
  nvSize : Nat
  fvEnd : Nat
  limits : SpaceLimits
  maxVariableSize : Nat
  maxVolatileVariableSize : Nat
  maxHardwareErrorVariableSize : Nat
  /-- `VarCheckLibVariablePropertyGet` finds a property for the variable. -/
  hasProperty : Memory → Nat → Bool
  /-- `VariablePropertyGetFunction`, with wildcards. -/
  variableProperty : VariableName → GuidBytes → Option VariableProperty
  /-- The request source is trusted. -/
  trusted : Bool
  varCheckHandlers : List (VariableName → GuidBytes → Attributes → List Byte → EfiStatus)

inductive FlashOp
  | write (offset : Nat) (bytes : List Byte)
  | replace (store : Memory)

/-- `mVariableModuleGlobal` with the contents of the stores, and the changes made to the flash
so far. -/
structure VariableModule where
  volatileStore : Memory
  volatileLastVariableOffset : Nat
  flash : Memory
  nvVariableCache : Memory
  nonVolatileLastVariableOffset : Nat
  totals : TotalSizes
  atRuntime : Bool
  endOfDxe : Bool
  reclaimedAtRuntime : Bool
  currentBootVarErrFlag : Byte
  flashOps : List FlashOp

/-- A variable that has been found: whether it is volatile, its offset, and the offset of the
record in deleted transition that was met before it. -/
structure FoundVariable where
  isVolatile : Bool
  currPtr : Nat
  inDeletedTransitionPtr : Option Nat

structure SetVariableCall where
  name : VariableName
  guid : GuidBytes
  attributes : Attributes
  data : List Byte
  /-- `AllocatePool` succeeds if the call needs it. -/
  poolAvailable : Bool
  /-- The answer of `SetVariableCheckHandlerMor`: `EFI_SUCCESS` from `TcgMorLockDxe.c`, which
  `VariableRuntimeDxe` links. `TcgMorLockSmm.c` of the MM builds refuses some writes of the MOR
  variable; writes of the MOR lock variable, which it answers and stores itself, are left out. -/
  morCheck : EfiStatus
  morCheck_ne : morCheck ≠ .alreadyStarted

section Services

variable (cfg : Config)

def VariableModule.store (g : VariableModule) (isVolatile : Bool) : Memory :=
  if isVolatile then g.volatileStore else g.nvVariableCache

def Config.storeSize (isVolatile : Bool) : Nat :=
  if isVolatile then cfg.volatileSize else cfg.nvSize

def findInStore (g : VariableModule) (all : Bool) (name : List Byte) (guid : GuidBytes)
    (isVolatile : Bool) : Option FoundVariable :=
  let m := g.store isVolatile
  let track := findVariableEx (variableRecord cfg.authFormat m) all name guid
    (variableOffsets cfg.authFormat m (cfg.storeSize isVolatile))
  match track.currPtr with
  | [] => none
  | x :: _ => some ⟨isVolatile, x, track.inDeletedTransitionPtr.head?⟩

def findVariable (g : VariableModule) (ignoreRtCheck : Bool) (name : List Byte)
    (guid : GuidBytes) : Option FoundVariable :=
  let all := ignoreRtCheck || !g.atRuntime
  (findInStore cfg g all name guid true).or (findInStore cfg g all name guid false)

def andThen (r : EfiStatus × VariableModule)
    (next : VariableModule → EfiStatus × VariableModule) : EfiStatus × VariableModule :=
  if r.1 = .success then next r.2 else r

def updateVariableStore (isVolatile : Bool) (offset : Nat) (bytes : List Byte)
    (g : VariableModule) : EfiStatus × VariableModule :=
  if isVolatile then
    if cfg.volatileSize < offset + bytes.length then (.outOfResources, g)
    else (.success, { g with volatileStore := writeBytes g.volatileStore offset bytes })
  else
    if cfg.fvEnd < offset + bytes.length then (.outOfResources, g)
    else
      (.success, { g with
        flash := writeBytes g.flash offset bytes
        flashOps := g.flashOps ++ [.write offset bytes] })

def writeState (isVolatile : Bool) (x : Nat) (s : Byte) (g : VariableModule) :
    EfiStatus × VariableModule :=
  andThen (updateVariableStore cfg isVolatile (x + 2) [s] g) fun g =>
    (.success,
      if isVolatile then g else { g with nvVariableCache := setState g.nvVariableCache x s })

def deletedHwErrRecToCommonQuota (m : Memory) (x : Nat) (totals : TotalSizes) : TotalSizes :=
  if (variableAttributes m x).has efiVariableHardwareErrorRecord ∧
      variableState m x ||| varDeleted = varDeleted then
    let size := getNextVariablePtr cfg.authFormat m x - x
    { totals with
      hwErr := if size < totals.hwErr then totals.hwErr - size else 0
      common := totals.common + size }
  else totals

/-- The variable is set to its deleted state; a deleted record of a non-volatile variable is
counted as a common variable, and always so if `always` is set. -/
def markDeleted (isVolatile always : Bool) (x : Nat) (g : VariableModule) :
    EfiStatus × VariableModule :=
  andThen (writeState cfg isVolatile x (variableState (g.store isVolatile) x &&& varDeleted) g)
    fun g =>
      (.success,
        if isVolatile ∧ ¬ always then g
        else { g with
          totals := deletedHwErrRecToCommonQuota cfg
            (if isVolatile then g.volatileStore else g.flash) x g.totals })

def markOldDeleted (always : Bool) (found : FoundVariable) (g : VariableModule) :
    EfiStatus × VariableModule :=
  andThen
    (match found.inDeletedTransitionPtr with
      | none => (.success, g)
      | some d => markDeleted cfg found.isVolatile always d g)
    (markDeleted cfg found.isVolatile false found.currPtr)

def varErrorFlagName : VariableName where
  -- L"VarErrorFlag"
  chars := [0x56, 0x61, 0x72, 0x45, 0x72, 0x72, 0x6f, 0x72, 0x46, 0x6c, 0x61, 0x67]
  nonzero := by simp

def varErrorFlagGuid : GuidBytes := fun i =>
  [0xe8, 0x7f, 0xb3, 0x04, 0xae, 0xf6, 0x0b, 0x48, 0xbd, 0xd5, 0x37, 0xd9, 0x8c, 0x5e, 0x89,
    0xaa].getD i 0

/-- `mVariableEntryProperty`. -/
def varErrorFlagProperty : VariableProperty where
  readOnly := true
  attributes := efiVariableNonVolatile ||| efiVariableBootserviceAccess ||| efiVariableRuntimeAccess
  minSize := 1
  maxSize := 1

def varErrorFlagSystemError : Byte := 0xef
def varErrorFlagUserError : Byte := 0xfe

def recordVarErrorFlag (flag : Byte) (g : VariableModule) : VariableModule :=
  if g.endOfDxe then
    match findVariable cfg g false varErrorFlagName.bytes varErrorFlagGuid with
    | none => g
    | some found =>
      -- the flag is a non-volatile variable
      if found.isVolatile then g
      else
        let a := getVariableDataPtr cfg.authFormat g.nvVariableCache found.currPtr
        let tempFlag := g.nvVariableCache a &&& flag
        if tempFlag = g.nvVariableCache a then g
        else
          let r := updateVariableStore cfg false a [tempFlag] g
          if r.1 = .success then
            { r.2 with nvVariableCache := writeBytes r.2.nvVariableCache a [tempFlag] }
          else r.2
  else { g with currentBootVarErrFlag := g.currentBootVarErrFlag &&& flag }

def isUserVariable (g : VariableModule) (m : Memory) (a : Nat) : Bool :=
  g.endOfDxe && cfg.limits.commonMaxUserVariableSpace != cfg.limits.commonVariableSpace &&
    !cfg.hasProperty m a

end Services

variable (cfg : Config)

structure PreparedVariable where
  name : VariableName
  guid : GuidBytes
  attributes : Attributes
  data : List Byte

def PreparedVariable.bytes (v : PreparedVariable) (state : Byte) : List Byte :=
  variableBytes cfg.authFormat state v.attributes v.guid v.name.bytes v.data

def PreparedVariable.varSize (v : PreparedVariable) : Nat :=
  (v.bytes cfg 0xff).length

/-- `NextVariable`, in the scratch area. -/
def PreparedVariable.scratch (v : PreparedVariable) : Memory :=
  writeBytes erased 0 (v.bytes cfg 0xff)

def PreparedVariable.newVariable (v : PreparedVariable) : NewVariable where
  memory := v.scratch cfg
  size := headerAlign (v.varSize cfg)

def PreparedVariable.isHwErr (v : PreparedVariable) : Bool :=
  v.attributes.has efiVariableHardwareErrorRecord

def PreparedVariable.isCommonUser (v : PreparedVariable) (g : VariableModule) : Bool :=
  !v.isHwErr && isUserVariable cfg g (v.scratch cfg) 0

def hwErrFull (v : PreparedVariable) (g : VariableModule) : Bool :=
  v.isHwErr &&
    (decide (cfg.limits.hwErrStorageSize < v.varSize cfg + g.totals.hwErr) ||
      decide (cfg.limits.hwErrStorageSize + cfg.limits.commonVariableSpace <
        v.varSize cfg + g.totals.hwErr + g.totals.common))

def commonFull (space : Nat) (v : PreparedVariable) (g : VariableModule) : Bool :=
  !v.isHwErr && decide (space < v.varSize cfg + g.totals.common)

def commonUserFull (v : PreparedVariable) (g : VariableModule) : Bool :=
  v.isCommonUser cfg g &&
    decide (cfg.limits.commonMaxUserVariableSpace < v.varSize cfg + g.totals.commonUser)

def recordErrors (space : Nat) (v : PreparedVariable) (g : VariableModule) : VariableModule :=
  let g := if commonUserFull cfg v g then recordVarErrorFlag cfg varErrorFlagUserError g else g
  if commonFull cfg space v g then recordVarErrorFlag cfg varErrorFlagSystemError g else g

def syncCache (g : VariableModule) : VariableModule :=
  { g with
    nvVariableCache := fun i => if i < cfg.nvSize then g.flash i else g.nvVariableCache i }

def reclaimNonVolatile (found : Option FoundVariable) (v : PreparedVariable)
    (g : VariableModule) : EfiStatus × VariableModule :=
  match reclaim cfg.authFormat false (isUserVariable cfg g) cfg.limits g.flash cfg.nvSize
      (found.map FoundVariable.currPtr) (found.bind FoundVariable.inDeletedTransitionPtr)
      (some (v.newVariable cfg)) with
  | .ok result =>
    (.success, syncCache cfg { g with
      flash := result.store
      nonVolatileLastVariableOffset := result.lastVariableOffset
      totals := result.totals
      flashOps := g.flashOps ++ [.replace result.store] })
  | .error status =>
    (status, recordErrors cfg cfg.limits.commonVariableSpace v (syncCache cfg g))

def countWritten (v : PreparedVariable) (g : VariableModule) : TotalSizes :=
  if v.isHwErr then
    { g.totals with hwErr := g.totals.hwErr + headerAlign (v.varSize cfg) }
  else
    { g.totals with
      common := g.totals.common + headerAlign (v.varSize cfg)
      commonUser :=
        g.totals.commonUser + if v.isCommonUser cfg g then headerAlign (v.varSize cfg) else 0 }

def appendNonVolatile (v : PreparedVariable) (g : VariableModule) :
    EfiStatus × VariableModule :=
  andThen (updateVariableStore cfg false g.nonVolatileLastVariableOffset (v.bytes cfg 0xff) g)
    fun g =>
      andThen (updateVariableStore cfg false (g.nonVolatileLastVariableOffset + 2) [varAdded] g)
        fun g =>
          (.success, { g with
            nvVariableCache := writeBytes g.nvVariableCache g.nonVolatileLastVariableOffset
              (v.bytes cfg varAdded)
            nonVolatileLastVariableOffset :=
              g.nonVolatileLastVariableOffset + headerAlign (v.varSize cfg)
            totals := countWritten cfg v g })

def deleteOld (found : Option FoundVariable) (g : VariableModule) : EfiStatus × VariableModule :=
  match found with
  | none => (.success, g)
  | some found => markOldDeleted cfg true found g

def createNonVolatile (found : Option FoundVariable) (v : PreparedVariable)
    (g : VariableModule) : EfiStatus × VariableModule :=
  if hwErrFull cfg v g then (.outOfResources, g)
  else if commonFull cfg cfg.limits.commonVariableSpace v g ||
      (g.atRuntime && commonFull cfg cfg.limits.commonRuntimeVariableSpace v g) ||
      commonUserFull cfg v g then
    if g.atRuntime && g.reclaimedAtRuntime then
      (.outOfResources, recordErrors cfg cfg.limits.commonRuntimeVariableSpace v g)
    else
      reclaimNonVolatile cfg found v
        { g with reclaimedAtRuntime := g.atRuntime || g.reclaimedAtRuntime }
  else andThen (appendNonVolatile cfg v g) (deleteOld cfg found)

def reclaimVolatile (found : Option FoundVariable) (v : PreparedVariable)
    (poolAvailable : Bool) (g : VariableModule) : EfiStatus × VariableModule :=
  if poolAvailable then
    match reclaim cfg.authFormat true (isUserVariable cfg g) cfg.limits g.volatileStore
        cfg.volatileSize (found.map FoundVariable.currPtr)
        (found.bind FoundVariable.inDeletedTransitionPtr) (some (v.newVariable cfg)) with
    | .ok result =>
      (.success, { g with
        volatileStore := result.store
        volatileLastVariableOffset := result.lastVariableOffset })
    | .error status => (status, g)
  else (.outOfResources, g)

def createVolatile (found : Option FoundVariable) (v : PreparedVariable) (poolAvailable : Bool)
    (g : VariableModule) : EfiStatus × VariableModule :=
  if cfg.volatileSize < (v.varSize cfg + g.volatileLastVariableOffset) % 2 ^ 32 then
    reclaimVolatile cfg found v poolAvailable g
  else
    andThen
      (updateVariableStore cfg true g.volatileLastVariableOffset (v.bytes cfg varAdded) g)
      fun g => deleteOld cfg found
        { g with
          volatileLastVariableOffset :=
            g.volatileLastVariableOffset + headerAlign (v.varSize cfg) }

def createVariable (found : Option FoundVariable) (v : PreparedVariable) (poolAvailable : Bool)
    (g : VariableModule) : EfiStatus × VariableModule :=
  if v.attributes.has efiVariableNonVolatile then createNonVolatile cfg found v g
  else createVolatile cfg found v poolAvailable g

def maxSize (attributes : Attributes) : Nat :=
  if attributes.has efiVariableHardwareErrorRecord then cfg.maxHardwareErrorVariableSize
  else if attributes.has efiVariableNonVolatile then cfg.maxVariableSize
  else cfg.maxVolatileVariableSize

def noAccess (attributes : Attributes) : Bool :=
  !attributes.has (efiVariableRuntimeAccess ||| efiVariableBootserviceAccess)

def SetVariableCall.prepared (call : SetVariableCall) (data : List Byte) : PreparedVariable where
  name := call.name
  guid := call.guid
  attributes := call.attributes &&& ~~~efiVariableAppendWrite
  data := data

def replaceVariable (call : SetVariableCall) (found : FoundVariable) (data : List Byte)
    (g : VariableModule) : EfiStatus × VariableModule :=
  andThen
    (writeState cfg found.isVolatile found.currPtr
      (variableState (g.store found.isVolatile) found.currPtr &&& varInDeletedTransition) g)
    (createVariable cfg (some found) (call.prepared data) call.poolAvailable)

/-- `UpdateVariable` for a variable that exists. -/
def updateExisting (call : SetVariableCall) (found : FoundVariable) (g : VariableModule) :
    EfiStatus × VariableModule :=
  let m := g.store found.isVolatile
  let old := variableRecord cfg.authFormat m found.currPtr
  let append := call.attributes.has efiVariableAppendWrite
  if g.atRuntime ∧ found.isVolatile then (.writeProtected, g)
  else if g.atRuntime ∧ ¬ old.attributes.has efiVariableNonVolatile then (.invalidParameter, g)
  else if g.atRuntime ∧ ¬ old.attributes.has efiVariableRuntimeAccess then (.invalidParameter, g)
  else if (¬ append ∧ call.data = []) ∨ noAccess call.attributes then
    markOldDeleted cfg false found g
  else if old.data = call.data ∧ ¬ append then (.success, g)
  else if append then
    let dataOffset := getVariableHeaderSize cfg.authFormat + old.name.length
    if sub64 (maxSize cfg call.attributes) dataOffset < old.data.length + call.data.length then
      (.invalidParameter, g)
    else replaceVariable cfg call found (old.data ++ call.data) g
  else replaceVariable cfg call found call.data g

/-- `UpdateVariable` for a variable that does not exist. -/
def updateMissing (call : SetVariableCall) (g : VariableModule) : EfiStatus × VariableModule :=
  if call.data = [] ∧ call.attributes.has efiVariableAppendWrite then (.success, g)
  else if call.data = [] ∨ noAccess call.attributes then (.notFound, g)
  else if g.atRuntime ∧ ¬ (call.attributes.has efiVariableRuntimeAccess ∧
      call.attributes.has efiVariableNonVolatile) then (.invalidParameter, g)
  else createVariable cfg none (call.prepared call.data) call.poolAvailable g

def efiVariableAttributesMask : Attributes :=
  efiVariableNonVolatile ||| efiVariableBootserviceAccess ||| efiVariableRuntimeAccess |||
    efiVariableHardwareErrorRecord ||| efiVariableTimeBasedAuthenticatedWriteAccess |||
    efiVariableAppendWrite

def variableAttributeAtAw : Attributes :=
  efiVariableTimeBasedAuthenticatedWriteAccess ||| efiVariableAuthenticatedWriteAccess

/-- The part of `VarCheckLibSetVariableCheck` that checks the property of the variable. -/
def checkProperty (trusted : Bool) (property : VariableProperty) (call : SetVariableCall) :
    EfiStatus :=
  if ¬ trusted ∧ property.readOnly then .writeProtected
  else if (¬ call.attributes.has efiVariableAppendWrite ∧ call.data = []) ∨ call.attributes = 0 then
    .success
  else if property.attributes ≠ 0 ∧
      call.attributes &&& ~~~efiVariableAppendWrite ≠ property.attributes then .invalidParameter
  else if call.data ≠ [] ∧
      (call.data.length < property.minSize ∨ property.maxSize < call.data.length) then
    .invalidParameter
  else .success

def callHandlers (trusted : Bool) (call : SetVariableCall) :
    List (VariableName → GuidBytes → Attributes → List Byte → EfiStatus) → EfiStatus
  | [] => .success
  | handler :: handlers =>
    let status := handler call.name call.guid call.attributes call.data
    if status = .writeProtected ∧ trusted then callHandlers trusted call handlers
    else if status.isError then status
    else callHandlers trusted call handlers

def varCheckLibSetVariableCheck (endOfDxe : Bool) (call : SetVariableCall) : EfiStatus :=
  if endOfDxe then
    let status :=
      match cfg.variableProperty call.name call.guid with
      | none => .success
      | some property => checkProperty cfg.trusted property call
    if status.isError then status else callHandlers cfg.trusted call cfg.varCheckHandlers
  else .success

/-- The checks of `SetVariable` on its parameters, without support for authenticated
variables. -/
def checkParameters (endOfDxe : Bool) (call : SetVariableCall) : EfiStatus :=
  let attributes := call.attributes
  let invalid : EfiStatus :=
    if attributes.has efiVariableAuthenticatedWriteAccess then .unsupported
    else .invalidParameter
  if call.name.chars = [] then .invalidParameter
  else if attributes.has (~~~(efiVariableAttributesMask ||| efiVariableAuthenticatedWriteAccess))
    then .invalidParameter
  else if attributes &&& (efiVariableRuntimeAccess ||| efiVariableBootserviceAccess) =
      efiVariableRuntimeAccess then invalid
  else if attributes &&& efiVariableAttributesMask = efiVariableNonVolatile then invalid
  else if attributes.has variableAttributeAtAw then .invalidParameter
  else if attributes.has efiVariableHardwareErrorRecord ∧ cfg.limits.hwErrStorageSize = 0 then
    .invalidParameter
  else if 2 ^ 64 - 1 < call.data.length + call.name.bytes.length then .invalidParameter
  else if sub64 (maxSize cfg attributes) (getVariableHeaderSize cfg.authFormat) <
      call.name.bytes.length + call.data.length then .invalidParameter
  else if call.morCheck.isError then call.morCheck
  else varCheckLibSetVariableCheck cfg endOfDxe call

def updateVariable (call : SetVariableCall) (found : Option FoundVariable)
    (g : VariableModule) : EfiStatus × VariableModule :=
  match found with
  | some found => updateExisting cfg call found g
  | none => updateMissing cfg call g

def setVariable (call : SetVariableCall) (g : VariableModule) : EfiStatus × VariableModule :=
  let status := checkParameters cfg g.endOfDxe call
  if status.isError then (status, g)
  else
    match findVariable cfg g true call.name.bytes call.guid with
    | none => updateVariable cfg call none g
    | some found =>
      let old := variableAttributes (g.store found.isVolatile) found.currPtr
      if ¬ old.has efiVariableRuntimeAccess ∧ g.atRuntime then (.writeProtected, g)
      else if call.attributes ≠ 0 ∧ call.attributes &&& ~~~efiVariableAppendWrite ≠ old then
        (.invalidParameter, g)
      else updateVariable cfg call (some found) g

/-- `GetVariable` with a buffer of the given size; the data size that is returned is the length
of the data. -/
def getVariable (name : VariableName) (guid : GuidBytes) (dataSize : Nat)
    (g : VariableModule) : EfiStatus × Option (Attributes × Nat × List Byte) :=
  if name.chars = [] then (.notFound, none)
  else
    match findVariable cfg g false name.bytes guid with
    | none => (.notFound, none)
    | some found =>
      let r := variableRecord cfg.authFormat (g.store found.isVolatile) found.currPtr
      if r.data.length ≤ dataSize then
        (.success, some (r.attributes, r.data.length, r.data))
      else (.bufferTooSmall, some (r.attributes, r.data.length, []))

end MuBasecore.VariableServices
