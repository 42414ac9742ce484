import MuBasecore.EfiTypes

/-!
The handle database of the DXE core: handles with the protocol interfaces
installed on them, and the services that install and uninstall one interface
or a list of them.
-/

namespace MuBasecore.HandleServices

open EfiTypes

abbrev Handle := Nat

abbrev Interface := Nat

/-- `EFI_OPEN_PROTOCOL_BY_HANDLE_PROTOCOL`, the mode `CoreHandleProtocol` opens with. -/
def openByHandleProtocol : Nat := 0x00000001

def openGetProtocol : Nat := 0x00000002

def openTestProtocol : Nat := 0x00000004

def openByChildController : Nat := 0x00000008

def openByDriver : Nat := 0x00000010

def devicePathProtocolGuid : Guid := 0x09576e916d3f11d28e3900a0c969723b

structure OpenProtocolData where
  agentHandle : Handle
  controllerHandle : Handle
  attributes : Nat
  deriving DecidableEq, Repr

def OpenProtocolData.byDriver (item : OpenProtocolData) : Bool :=
  item.attributes &&& openByDriver != 0

def OpenProtocolData.transient (item : OpenProtocolData) : Bool :=
  item.attributes &&& (openByHandleProtocol ||| openGetProtocol ||| openTestProtocol) != 0

structure ProtocolInterface where
  protocol : Guid
  interface : Interface
  openList : List OpenProtocolData
  deriving DecidableEq, Repr

abbrev ProtocolPair := Guid × Interface

def ProtocolInterface.pair (prot : ProtocolInterface) : ProtocolPair :=
  (prot.protocol, prot.interface)

structure IHandle where
  protocols : List ProtocolInterface
  nonempty : protocols ≠ []
  unique : (protocols.map ProtocolInterface.protocol).Nodup

structure HandleDatabase where
  handles : AList (fun _ : Handle => IHandle)
  null_absent : handles.lookup 0 = none

/-- What comes from outside: the device paths, and the drivers that stop when asked. -/
structure Environment where
  dxeCoreImageHandle : Handle
  devicePath : Interface → List (BitVec 8)
  stops : Handle → Bool

def HandleDatabase.put (db : HandleDatabase) (handle : Handle) (ihandle : IHandle) :
    HandleDatabase :=
  if hnull : handle = 0 then db
  else
    { handles := db.handles.insert handle ihandle
      null_absent := by
        rw [AList.lookup_insert_ne (Ne.symm hnull)]
        exact db.null_absent }

def HandleDatabase.delete (db : HandleDatabase) (handle : Handle) : HandleDatabase :=
  { handles := db.handles.erase handle
    null_absent := by
      by_cases hnull : handle = 0
      · rw [hnull]
        exact AList.lookup_erase 0 db.handles
      · rw [AList.lookup_erase_ne (Ne.symm hnull)]
        exact db.null_absent }

def coreValidateHandle (db : HandleDatabase) (userHandle : Handle) : Bool :=
  userHandle != 0 && (db.handles.lookup userHandle).isSome

def matchesPair (pair : ProtocolPair) (prot : ProtocolInterface) : Bool :=
  prot.interface == pair.2 && prot.protocol == pair.1

def coreFindProtocolInterface (ihandle : IHandle) (pair : ProtocolPair) :
    Option ProtocolInterface :=
  ihandle.protocols.find? (matchesPair pair)

def coreGetProtocolInterface (ihandle : IHandle) (protocol : Guid) : Option ProtocolInterface :=
  ihandle.protocols.find? (fun prot => prot.protocol == protocol)

def isDevicePathInstalled (env : Environment) (db : HandleDatabase) (devicePath : Interface) :
    Bool :=
  devicePath != 0 &&
    db.handles.entries.any (fun entry => entry.2.protocols.any (fun prot =>
      prot.protocol == devicePathProtocolGuid &&
        env.devicePath prot.interface == env.devicePath devicePath))

/-- The list of openings after `CoreOpenProtocol` by handle protocol: one entry
for the image, which later calls count up. -/
def openForImage (image : Handle) (openList : List OpenProtocolData) : List OpenProtocolData :=
  if image = 0 ∨ ⟨image, 0, openByHandleProtocol⟩ ∈ openList then openList
  else openList ++ [⟨image, 0, openByHandleProtocol⟩]

def openProtocol (image : Handle) (protocol : Guid) (prot : ProtocolInterface) :
    ProtocolInterface :=
  if prot.protocol = protocol then { prot with openList := openForImage image prot.openList }
  else prot

variable {image : Handle} {protocol : Guid} {prot : ProtocolInterface}

theorem openProtocol_pair : (openProtocol image protocol prot).pair = prot.pair := by
  unfold openProtocol
  split <;> rfl

theorem openProtocol_protocol (image : Handle) (protocol : Guid) (prot : ProtocolInterface) :
    (openProtocol image protocol prot).protocol = prot.protocol :=
  congrArg Prod.fst (openProtocol_pair)

def IHandle.opened (ihandle : IHandle) (image : Handle) (protocol : Guid) : IHandle where
  protocols := ihandle.protocols.map (openProtocol image protocol)
  nonempty := by
    rw [ne_eq, List.map_eq_nil_iff]
    exact ihandle.nonempty
  unique := by
    rw [List.map_map, show ProtocolInterface.protocol ∘ openProtocol image protocol
      = ProtocolInterface.protocol from funext (openProtocol_protocol image protocol)]
    exact ihandle.unique

def coreHandleProtocol (env : Environment) (db : HandleDatabase) (userHandle : Handle)
    (protocol : Guid) : EfiStatus × HandleDatabase :=
  match db.handles.lookup userHandle with
  | none => (.invalidParameter, db)
  | some ihandle =>
    match coreGetProtocolInterface ihandle protocol with
    | none => (.unsupported, db)
    | some _ => (.success, db.put userHandle (ihandle.opened env.dxeCoreImageHandle protocol))

def newProtocolInterface (pair : ProtocolPair) : ProtocolInterface :=
  ⟨pair.1, pair.2, []⟩

def newHandle (pair : ProtocolPair) : IHandle where
  protocols := [newProtocolInterface pair]
  nonempty := List.cons_ne_nil _ _
  unique := List.nodup_singleton _

/-- `InsertHeadList` of a new interface; each interface that is added is unique. -/
def IHandle.insertHead (ihandle : IHandle) (pair : ProtocolPair) : IHandle :=
  if hnew : pair.1 ∈ ihandle.protocols.map ProtocolInterface.protocol then ihandle
  else
    { protocols := newProtocolInterface pair :: ihandle.protocols
      nonempty := List.cons_ne_nil _ _
      unique := List.nodup_cons.2 ⟨hnew, ihandle.unique⟩ }

/-- `allocated` is the address a new handle gets; `OrderedCollectionInsert`
refuses an address that is in use. -/
def coreInstallProtocolInterface (env : Environment) (allocated : Handle) (db : HandleDatabase)
    (userHandle : Handle) (pair : ProtocolPair) : EfiStatus × Handle × HandleDatabase :=
  if userHandle = 0 then
    if allocated = 0 then (.outOfResources, userHandle, db)
    else if (db.handles.lookup allocated).isSome then (.alreadyStarted, userHandle, db)
    else (.success, allocated, db.put allocated (newHandle pair))
  else
    let existing := coreHandleProtocol env db userHandle pair.1
    if !existing.1.isError then (.invalidParameter, userHandle, existing.2)
    else
      match db.handles.lookup userHandle with
      | none => (.invalidParameter, userHandle, db)
      | some ihandle => (.success, userHandle, db.put userHandle (ihandle.insertHead pair))

/-- The drivers that opened the interface are asked to stop, one after the
other. `CoreDisconnectController` itself is not modelled: a driver that stops
closes what it and its children opened, and each round has one driver less. -/
def disconnectDrivers (stops : Handle → Bool) :
    Nat → List OpenProtocolData → Option (List OpenProtocolData)
  | 0, openList => some openList
  | rounds + 1, openList =>
    match openList.find? OpenProtocolData.byDriver with
    | none => some openList
    | some item =>
      if stops item.agentHandle then
        disconnectDrivers stops rounds (openList.filter (fun other =>
          !(other.agentHandle == item.agentHandle &&
            other.attributes &&& (openByDriver ||| openByChildController) != 0)))
      else none

def coreDisconnectControllersUsingProtocolInterface (env : Environment)
    (prot : ProtocolInterface) : EfiStatus :=
  match disconnectDrivers env.stops prot.openList.length prot.openList with
  | none => .accessDenied
  | some openList =>
    if (openList.filter (fun item => !item.transient)).isEmpty then .success
    else .accessDenied

def HandleDatabase.removeInterface (db : HandleDatabase) (handle : Handle) (ihandle : IHandle)
    (pair : ProtocolPair) : HandleDatabase :=
  if hrest : ihandle.protocols.eraseP (matchesPair pair) = [] then db.delete handle
  else
    db.put handle
      { protocols := ihandle.protocols.eraseP (matchesPair pair)
        nonempty := hrest
        unique := ihandle.unique.sublist (List.eraseP_sublist.map _) }

def coreUninstallProtocolInterface (env : Environment) (db : HandleDatabase)
    (userHandle : Handle) (pair : ProtocolPair) : EfiStatus × HandleDatabase :=
  match db.handles.lookup userHandle with
  | none => (.invalidParameter, db)
  | some ihandle =>
    match coreFindProtocolInterface ihandle pair with
    | none => (.notFound, db)
    | some prot =>
      if (coreDisconnectControllersUsingProtocolInterface env prot).isError then
        (.accessDenied, db)
      else (.success, db.removeInterface userHandle ihandle pair)

/-- The first loop of `CoreInstallMultipleProtocolInterfaces`: status, index
and handle at its end. -/
def installEach (env : Environment) (allocated : Handle) :
    List ProtocolPair → Nat → Handle → HandleDatabase →
      EfiStatus × Nat × Handle × HandleDatabase
  | [], index, handle, db => (.success, index, handle, db)
  | pair :: rest, index, handle, db =>
    if pair.1 = devicePathProtocolGuid ∧ isDevicePathInstalled env db pair.2 = true then
      (.alreadyStarted, index + 1, handle, db)
    else
      let installed := coreInstallProtocolInterface env allocated db handle pair
      if installed.1.isError then (installed.1, index + 1, installed.2)
      else installEach env allocated rest (index + 1) installed.2.1 installed.2.2

def uninstallBack (env : Environment) (handle : Handle) :
    Nat → List ProtocolPair → HandleDatabase → HandleDatabase
  | index + 2, pair :: rest, db =>
    uninstallBack env handle (index + 1) rest
      (coreUninstallProtocolInterface env db handle pair).2
  | _, _, db => db

def coreInstallMultipleProtocolInterfaces (env : Environment) (allocated : Handle)
    (db : HandleDatabase) (handle : Handle) (pairs : List ProtocolPair) :
    EfiStatus × Handle × HandleDatabase :=
  let (status, index, current, db') := installEach env allocated pairs 0 handle db
  if status.isError then (status, handle, uninstallBack env current index pairs db')
  else (status, current, db')

def uninstallEach (env : Environment) (handle : Handle) :
    List ProtocolPair → Nat → HandleDatabase → EfiStatus × Nat × HandleDatabase
  | [], index, db => (.success, index, db)
  | pair :: rest, index, db =>
    let uninstalled := coreUninstallProtocolInterface env db handle pair
    if uninstalled.1.isError then (uninstalled.1, index + 1, uninstalled.2)
    else uninstallEach env handle rest (index + 1) uninstalled.2

/-- The handle is not `NULL` in any round, so no handle is allocated here. -/
def installBack (env : Environment) :
    Nat → List ProtocolPair → Handle → HandleDatabase → HandleDatabase
  | index + 2, pair :: rest, handle, db =>
    let installed := coreInstallProtocolInterface env 0 db handle pair
    installBack env (index + 1) rest installed.2.1 installed.2.2
  | _, _, _, db => db

def coreUninstallMultipleProtocolInterfaces (env : Environment) (db : HandleDatabase)
    (handle : Handle) (pairs : List ProtocolPair) : EfiStatus × HandleDatabase :=
  let (status, index, db') := uninstallEach env handle pairs 0 db
  if status.isError then (.invalidParameter, installBack env index pairs handle db')
  else (status, db')

end MuBasecore.HandleServices
