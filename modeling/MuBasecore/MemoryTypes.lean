import MuBasecore.GcdMap

/-!
The UEFI memory types, what the memory services know about each of them, and
what they take from the processor architecture.
-/

namespace MuBasecore.MemoryTypes

open GcdMap

/-- `EFI_MEMORY_TYPE`. The codes from `EfiMaxMemoryType` on, which no named type
has, are `other`. -/
inductive EfiMemoryType
  | reservedMemoryType
  | loaderCode
  | loaderData
  | bootServicesCode
  | bootServicesData
  | runtimeServicesCode
  | runtimeServicesData
  | conventionalMemory
  | unusableMemory
  | acpiReclaimMemory
  | acpiMemoryNvs
  | memoryMappedIo
  | memoryMappedIoPortSpace
  | palCode
  | persistentMemory
  | unacceptedMemoryType
  | other (code : Nat)
  deriving DecidableEq, Repr

def memoryTypeOemReservedMin : Nat := 0x70000000

/-- The type is below `EfiMaxMemoryType`. -/
def EfiMemoryType.named : EfiMemoryType → Bool
  | .other _ => false
  | _ => true

def EfiMemoryType.valid : EfiMemoryType → Bool
  | .other code => memoryTypeOemReservedMin ≤ code
  | _ => true

def namedMemoryTypes : List EfiMemoryType :=
  [.reservedMemoryType, .loaderCode, .loaderData, .bootServicesCode, .bootServicesData,
    .runtimeServicesCode, .runtimeServicesData, .conventionalMemory, .unusableMemory,
    .acpiReclaimMemory, .acpiMemoryNvs, .memoryMappedIo, .memoryMappedIoPortSpace, .palCode,
    .persistentMemory, .unacceptedMemoryType]

/-- The column `Special` of `mMemoryTypeStatistics`. -/
def EfiMemoryType.special : EfiMemoryType → Bool
  | .reservedMemoryType | .runtimeServicesCode | .runtimeServicesData | .acpiReclaimMemory
  | .acpiMemoryNvs | .palCode | .unacceptedMemoryType => true
  | _ => false

/-- The column `Runtime` of `mMemoryTypeStatistics`. -/
def EfiMemoryType.runtime : EfiMemoryType → Bool
  | .runtimeServicesCode | .runtimeServicesData | .palCode => true
  | _ => false

/-- The 64-bit architectures; `aarch64Deprecated` is AArch64 built with the
deprecated 4K runtime granularity. -/
inductive Arch
  | x64
  | aarch64
  | aarch64Deprecated
  | loongArch64
  | riscV64
  deriving DecidableEq, Repr

def defaultPageAllocationGranularity : Nat := 0x1000

def Arch.runtimePageAllocationGranularity : Arch → Nat
  | .aarch64 | .loongArch64 => 0x10000
  | .x64 | .aarch64Deprecated | .riscV64 => 0x1000

def Arch.maxAllocAddress : Arch → Nat
  | .x64 => 0xFFFFFFFFFFFFFFFF
  | .aarch64 | .aarch64Deprecated | .loongArch64 | .riscV64 => 0xFFFFFFFFFFFF

def Arch.granularity (arch : Arch) : EfiMemoryType → Nat
  | .reservedMemoryType | .acpiMemoryNvs | .runtimeServicesCode | .runtimeServicesData =>
    arch.runtimePageAllocationGranularity
  | _ => defaultPageAllocationGranularity

structure Platform where
  arch : Arch
  gDxeCoreImageHandle : Handle
  deriving DecidableEq, Repr

/-- The columns of `mMemoryTypeStatistics` that change at run time. -/
structure MemoryTypeStatistics where
  baseAddress : Nat
  maximumAddress : Nat
  currentNumberOfPages : Nat
  numberOfPages : Nat
  informationIndex : Nat
  deriving DecidableEq, Repr

end MuBasecore.MemoryTypes
