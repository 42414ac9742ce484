import MuBasecore.HobList

/-!
The policy store of the PEI phase. Each policy is a HOB with a header of its own and
the bytes of the policy behind it; a policy that is removed or outgrows its HOB leaves
a HOB that is marked as removed.
-/

namespace MuBasecore.PeiPolicy

open ByteMemory EfiTypes HobList SlotBuffer

def policyHobGuid : GuidBytes :=
  ![0x79, 0x8b, 0x5f, 0x45, 0x13, 0x67, 0x19, 0x41, 0x8a, 0x9c, 0x88, 0x7d, 0x1a, 0x33, 0xe2, 0x43]

def sizeOfPolicyHobHeader : Nat := 32

/-! The fields of a policy's header, at its address. -/

def policyGuid (m : Memory) (p : Nat) : GuidBytes := readGuid m p
def attributes (m : Memory) (p : Nat) : Nat := readU64 m (p + 16)
def policySize (m : Memory) (p : Nat) : Nat := readU16 m (p + 24)
def allocationSize (m : Memory) (p : Nat) : Nat := readU16 m (p + 26)
def removed (m : Memory) (p : Nat) : Bool := (m (p + 28)).getLsbD 0
def notifyDepth (m : Memory) (p : Nat) : Nat := readU16 m (p + 30)
def policyData (m : Memory) (p n : Nat) : List Byte := slotRange m (p + sizeOfPolicyHobHeader) n

/-- `POLICY_ATTRIBUTE_FINALIZED` is bit 0. -/
def isFinalized (attributes : Nat) : Bool := attributes.testBit 0

/-- The walk of `PeiGetPolicyHob` from a HOB on, which skips removed policies. -/
def policyWalk (m : Memory) (guid : GuidBytes) (inner : Nat) : Nat → Nat → Option Nat
  | 0, _ => none
  | rounds + 1, a =>
    match getNextGuidHob m policyHobGuid inner a with
    | none => none
    | some hob =>
      let checkHob := hob + sizeOfEfiHobGuidType
      if !removed m checkHob ∧ guid = policyGuid m checkHob then some checkHob
      else policyWalk m guid inner rounds (hob + hobLength m hob)

/-- `PeiGetPolicyHob`; a list has fewer HOBs than bytes. -/
def peiGetPolicyHob (guid : GuidBytes) (h : HobMemory) : Option Nat :=
  let rounds := h.endOfHobList - h.hobList + 1
  policyWalk h.memory guid rounds rounds h.hobList

def peiCreatePolicyHob (size : Nat) (h : HobMemory) : Except EfiStatus (HobMemory × Nat) :=
  let hobLength := sizeOfPolicyHobHeader + size
  if 0xFFFF < hobLength then .error .badBufferSize
  else
    match buildGuidHob policyHobGuid hobLength h with
    | none => .error .outOfResources
    | some (h', p) =>
      let m := writeBytes h'.memory p (List.replicate sizeOfPolicyHobHeader 0)
      .ok ({ h' with memory := writeBytes m (p + 26) (bytesU16 size) }, p)

/-- `PeiPolicyNotify` around callbacks that leave the store alone. -/
def peiPolicyNotify (p : Nat) (m : Memory) : Memory :=
  let depth := (notifyDepth m p + 1) % 2 ^ 16
  let m' := writeBytes m (p + 30) (bytesU16 depth)
  if depth = 1 then writeBytes m' (p + 30) (bytesU16 0) else m'

/-- `EFI_PEI_PPI_DESCRIPTOR_PPI | EFI_PEI_PPI_DESCRIPTOR_TERMINATE_LIST`. -/
def ppiDescriptorFlags : Nat := 0x80000010

def ppiDescriptorBytes (guid : GuidBytes) (ppiDescriptor : Nat) : List Byte :=
  bytesU64 ppiDescriptorFlags ++ bytesU64 (ppiDescriptor + 24) ++ bytesU64 0 ++ List.ofFn guid

/-- `PeiInstallPolicyIndicatorPpi`. The descriptor and the GUID behind it come from the
pool, which in PEI is a HOB; `ppiStatus` is what the PPI database answers. -/
def peiInstallPolicyIndicatorPpi (ppiStatus : EfiStatus) (guid : GuidBytes) (h : HobMemory) :
    HobMemory × EfiStatus :=
  match peiCreateHob efiHobTypeMemoryPool (sizeOfEfiHobGenericHeader + 40) h with
  | .error status => (h, status)
  | .ok (h', hob) =>
    let ppiDescriptor := hob + sizeOfEfiHobGenericHeader
    ({ h' with
        memory := writeBytes h'.memory ppiDescriptor (ppiDescriptorBytes guid ppiDescriptor) },
      ppiStatus)

structure GetResult where
  status : EfiStatus
  attributes : Option Nat := none
  policySize : Option Nat := none
  policy : Option (List Byte) := none
  deriving DecidableEq

/-- `PeiGetPolicy` with a buffer of a given size. -/
def peiGetPolicy (guid : GuidBytes) (bufferSize : Nat) (h : HobMemory) : GetResult :=
  match peiGetPolicyHob guid h with
  | none => { status := .notFound }
  | some p =>
    if bufferSize < policySize h.memory p then
      { status := .bufferTooSmall
        attributes := some (attributes h.memory p)
        policySize := some (policySize h.memory p) }
    else
      { status := .success
        attributes := some (attributes h.memory p)
        policySize := some (policySize h.memory p)
        policy := some (policyData h.memory p (policySize h.memory p)) }

def fillPolicy (attributes : Nat) (policy : List Byte) (p : Nat) (m : Memory) : Memory :=
  let m := writeBytes m (p + 24) (bytesU16 policy.length)
  let m := writeBytes m (p + 16) (bytesU64 attributes)
  writeBytes m (p + sizeOfPolicyHobHeader) policy

/-- The end of a successful `PeiSetPolicy`: callbacks, and the PPI of a final policy. -/
def finishSet (ppiStatus : EfiStatus) (guid : GuidBytes) (attributes p : Nat) (h : HobMemory) :
    HobMemory × EfiStatus :=
  let h := { h with memory := peiPolicyNotify p h.memory }
  if isFinalized attributes then peiInstallPolicyIndicatorPpi ppiStatus guid h
  else (h, .success)

def createPolicy (ppiStatus : EfiStatus) (guid : GuidBytes) (attributes : Nat)
    (policy : List Byte) (h : HobMemory) : HobMemory × EfiStatus :=
  match peiCreatePolicyHob policy.length h with
  | .error status => (h, status)
  | .ok (h', p) =>
    let m := writeBytes h'.memory p (List.ofFn guid)
    finishSet ppiStatus guid attributes p { h' with memory := fillPolicy attributes policy p m }

def markRemoved (p : Nat) (m : Memory) : Memory :=
  writeBytes m (p + 28) [m (p + 28) ||| 1]

def peiSetPolicy (ppiStatus : EfiStatus) (guid : GuidBytes) (newAttributes : Nat)
    (policy : List Byte) (h : HobMemory) : HobMemory × EfiStatus :=
  if policy.length = 0 then (h, .invalidParameter)
  else
    match peiGetPolicyHob guid h with
    | none => createPolicy ppiStatus guid newAttributes policy h
    | some p =>
      if isFinalized (attributes h.memory p) then (h, .accessDenied)
      else if policy.length ≤ allocationSize h.memory p then
        finishSet ppiStatus guid newAttributes p
          { h with memory := fillPolicy newAttributes policy p h.memory }
      else
        createPolicy ppiStatus guid newAttributes policy
          { h with memory := markRemoved p h.memory }

/-- `PeiRemovePolicy`. When the policy is not found the callbacks are notified through a
pointer that was never set; `stray` is what it holds. -/
def peiRemovePolicy (stray : Nat) (guid : GuidBytes) (h : HobMemory) : HobMemory × EfiStatus :=
  match peiGetPolicyHob guid h with
  | none => ({ h with memory := peiPolicyNotify stray h.memory }, .notFound)
  | some p => ({ h with memory := peiPolicyNotify p (markRemoved p h.memory) }, .success)

inductive Call
  | set (ppiStatus : EfiStatus) (guid : GuidBytes) (attributes : BitVec 64) (policy : List Byte)
  | get (guid : GuidBytes) (bufferSize : Nat)
  | remove (stray : Nat) (guid : GuidBytes)
  | otherHob (type : Nat) (content : List Byte)
  | otherMemory (freeMemoryTop : Nat)

def createOtherHob (type : Nat) (content : List Byte) (h : HobMemory) : HobMemory × EfiStatus :=
  match peiCreateHob type (sizeOfEfiHobGenericHeader + content.length) h with
  | .error status => (h, status)
  | .ok (h', hob) =>
    ({ h' with memory := writeBytes h'.memory (hob + sizeOfEfiHobGenericHeader) content },
      .success)

def Call.run (h : HobMemory) : Call → HobMemory × EfiStatus
  | .set ppiStatus guid attributes policy =>
    peiSetPolicy ppiStatus guid attributes.toNat policy h
  | .get guid bufferSize => (h, (peiGetPolicy guid bufferSize h).status)
  | .remove stray guid => peiRemovePolicy stray guid h
  | .otherHob type content => createOtherHob type content h
  | .otherMemory freeMemoryTop => ({ h with freeMemoryTop := freeMemoryTop }, .success)

end MuBasecore.PeiPolicy
