import Mathlib

/-!
Status codes, memory types and memory attribute bits that the DXE core modules
share.
-/

namespace MuBasecore.EfiTypes

inductive EfiStatus
  | success
  | invalidParameter
  | unsupported
  | bufferTooSmall
  | outOfResources
  | notFound
  | accessDenied
  | notAvailableYet
  | deviceError
  | notReady
  | writeProtected
  | securityViolation
  | badBufferSize
  | aborted
  | alreadyStarted
  deriving DecidableEq, Repr

def EfiStatus.isError (status : EfiStatus) : Bool :=
  status != .success

@[simp] theorem EfiStatus.isError_iff (status : EfiStatus) :
    status.isError = true ↔ status ≠ .success := by
  simp [EfiStatus.isError]

/-- The sixteen bytes of an `EFI_GUID`, read as one number. -/
abbrev Guid := BitVec 128

abbrev AttributeMask := BitVec 64

def efiMemoryUc : AttributeMask := 0x1
def efiMemoryWc : AttributeMask := 0x2
def efiMemoryWt : AttributeMask := 0x4
def efiMemoryWb : AttributeMask := 0x8
def efiMemoryUce : AttributeMask := 0x10
def efiMemoryWp : AttributeMask := 0x1000
def efiMemoryRp : AttributeMask := 0x2000
def efiMemoryXp : AttributeMask := 0x4000
def efiMemoryRo : AttributeMask := 0x20000
def efiMemoryNv : AttributeMask := 0x8000
def efiMemoryMoreReliable : AttributeMask := 0x10000
def efiMemorySp : AttributeMask := 0x40000
def efiMemoryCpuCrypto : AttributeMask := 0x80000
def efiMemoryPresent : AttributeMask := 0x100000000000000
def efiMemoryInitialized : AttributeMask := 0x200000000000000
def efiMemoryTested : AttributeMask := 0x400000000000000
def efiMemoryRuntime : AttributeMask := 0x8000000000000000
def efiMemoryPortIo : AttributeMask := 0x4000000000000000

def efiCacheAttributeMask : AttributeMask :=
  efiMemoryUc ||| efiMemoryWc ||| efiMemoryWt ||| efiMemoryWb ||| efiMemoryUce |||
    efiMemoryWp

def efiMemoryAccessMask : AttributeMask :=
  efiMemoryRp ||| efiMemoryXp ||| efiMemoryRo

def efiMemoryAttributeMask : AttributeMask :=
  efiMemoryAccessMask ||| efiMemorySp ||| efiMemoryCpuCrypto

def efiPageShift : Nat := 12

def efiPageSize : Nat := 4096

/-- `EFI_SIZE_TO_PAGES`. -/
def sizeToPages (size : Nat) : Nat :=
  size / efiPageSize + (if size % efiPageSize = 0 then 0 else 1)

theorem sizeToPages_mul_of_dvd {size : Nat} (h : efiPageSize ∣ size) :
    sizeToPages size * efiPageSize = size := by
  rw [sizeToPages, if_pos (Nat.mod_eq_zero_of_dvd h), Nat.add_zero, Nat.div_mul_cancel h]

end MuBasecore.EfiTypes
