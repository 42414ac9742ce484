import MuBasecore.ByteMemory
import MuBasecore.MemoryTypes

/-!
`PopulateMemoryTypeInformation` takes the bins from a HOB. What ends the loop over data without a
terminator stands behind a `continue` for types that are not valid.
-/

namespace MuBasecore.MemoryTypeHob

open EfiTypes Word64 ByteMemory MemoryTypes

/-- `EFI_MEMORY_TYPE_INFORMATION`. -/
structure MemoryTypeInformation where
  type : Nat
  numberOfPages : Nat

def efiMaxMemoryType : Nat := 16

def sizeOfInformation : Nat := 8

def granularity (arch : Arch) (type : Nat) : Nat :=
  if type = 0 ∨ type = 10 ∨ type = 5 ∨ type = 6 then arch.runtimePageAllocationGranularity
  else defaultPageAllocationGranularity

/-- The number of pages, aligned to the granularity of the type. -/
def alignPages (arch : Arch) (e : MemoryTypeInformation) : MemoryTypeInformation :=
  let size := e.numberOfPages * efiPageSize
  let aligned := (size + (granularity arch e.type - 1)) / granularity arch e.type *
    granularity arch e.type
  if e.numberOfPages = 0 then e
  else { e with numberOfPages := sizeToPages aligned % 2 ^ 32 }

inductive Populated
  | success (info : Nat → MemoryTypeInformation)
  | notFound (info : Nat → MemoryTypeInformation)
  /-- An entry behind the array is read. -/
  | overrun

/-- Every bin is disabled. -/
def cleanAndError : Populated := .notFound fun index => ⟨index, 0⟩

/-- The loop, with `left` entries of the array from `index` on. -/
def populateLoop (arch : Arch) (maxIndex : Nat) :
    Nat → Nat → (Nat → MemoryTypeInformation) → Populated
  | 0, _, _ => .overrun
  | left + 1, index, info =>
    if (info index).type = efiMaxMemoryType then .success info
    else if (info index).type > efiMaxMemoryType then
      populateLoop arch maxIndex left (index + 1) info
    else if index = maxIndex then cleanAndError
    else populateLoop arch maxIndex left (index + 1)
      (Function.update info index (alignPages arch (info index)))

def informationAt (m : Memory) (index : Nat) : MemoryTypeInformation :=
  ⟨readU32 m (sizeOfInformation * index), readU32 m (sizeOfInformation * index + 4)⟩

/-- The array once the data are copied over it. -/
def copied (m data : Memory) (dataSize : Nat) : Nat → MemoryTypeInformation :=
  informationAt (copyBytes m 0 data 0 dataSize)

/-- `hob` has the data of the HOB and their size, `m` is the array before the call. -/
def populateMemoryTypeInformation (arch : Arch) (hob : Option (Memory × Nat)) (m : Memory) :
    Populated :=
  match hob with
  | none => cleanAndError
  | some (data, dataSize) =>
    if dataSize > 0 ∧ dataSize ≤ (efiMaxMemoryType + 1) * sizeOfInformation then
      populateLoop arch (sub64 (dataSize / sizeOfInformation) 1) (efiMaxMemoryType + 1) 0
        (copied m data dataSize)
    else cleanAndError

/-- No entry behind the array is read, and on success the array has its terminator. -/
def Safe : Populated → Prop
  | .success info => ∃ i ≤ efiMaxMemoryType, (info i).type = efiMaxMemoryType
  | .notFound _ => True
  | .overrun => False

/-- The loop ends at the entry. -/
def Stops (maxIndex : Nat) (info : Nat → MemoryTypeInformation) (i : Nat) : Prop :=
  (info i).type = efiMaxMemoryType ∨
    i = maxIndex ∧ (info i).type < efiMaxMemoryType

variable {index : Nat}

theorem exists_from_succ {P Q : Nat → Prop} (hnot : ¬ P index)
    (hsame : ∀ i, index < i → (Q i ↔ P i)) :
    (∃ i, index + 1 ≤ i ∧ i ≤ efiMaxMemoryType ∧ Q i) ↔
      ∃ i, index ≤ i ∧ i ≤ efiMaxMemoryType ∧ P i := by
  constructor
  · rintro ⟨i, hi, hle, hq⟩
    exact ⟨i, by omega, hle, (hsame i hi).1 hq⟩
  · rintro ⟨i, hi, hle, hp⟩
    have hne : index ≠ i := fun heq => hnot (heq ▸ hp)
    exact ⟨i, by omega, hle, (hsame i (by omega)).2 hp⟩

theorem populateLoop_safe_iff {arch : Arch} {maxIndex left : Nat}
    {info : Nat → MemoryTypeInformation} (hleft : index + left = efiMaxMemoryType + 1) :
    Safe (populateLoop arch maxIndex left index info) ↔
      ∃ i, index ≤ i ∧ i ≤ efiMaxMemoryType ∧ Stops maxIndex info i := by
  induction left generalizing index info with
  | zero =>
    refine ⟨False.elim, ?_⟩
    rintro ⟨i, hi, hle, -⟩
    omega
  | succ left ih =>
    rw [populateLoop]
    have hle : index ≤ efiMaxMemoryType := by omega
    split
    next hend =>
      exact ⟨fun _ => ⟨index, le_rfl, hle, .inl hend⟩, fun _ => ⟨index, hle, hend⟩⟩
    next hend =>
      split
      next hbeyond =>
        rw [ih (by omega)]
        refine exists_from_succ ?_ fun _ _ => Iff.rfl
        rintro (hstop | ⟨-, hstop⟩) <;> omega
      next hval =>
        split
        next hlast =>
          exact ⟨fun _ => ⟨index, le_rfl, hle, .inr ⟨hlast, by omega⟩⟩, fun _ => trivial⟩
        next hlast =>
          rw [ih (by omega)]
          refine exists_from_succ ?_ fun i hi => ?_
          · rintro (hstop | ⟨hstop, -⟩)
            · exact hend hstop
            · exact hlast hstop
          · rw [Stops, Function.update_of_ne (by omega), Stops]

/-- The call is safe just if its data are refused, or the array has a terminator once they are
copied, or the last entry that is copied has a valid type. -/
theorem populateMemoryTypeInformation_safe_iff (arch : Arch) (data m : Memory) (dataSize : Nat) :
    Safe (populateMemoryTypeInformation arch (some (data, dataSize)) m) ↔
      dataSize = 0 ∨ 136 < dataSize ∨ ∃ i ≤ efiMaxMemoryType,
        (copied m data dataSize i).type = efiMaxMemoryType ∨
          i + 1 = dataSize / 8 ∧ (copied m data dataSize i).type < efiMaxMemoryType := by
  rw [populateMemoryTypeInformation]
  split
  next hsize =>
    rw [populateLoop_safe_iff (by rw [zero_add])]
    have hlast : ∀ i ≤ efiMaxMemoryType,
        (i = sub64 (dataSize / sizeOfInformation) 1 ↔ i + 1 = dataSize / 8) := by
      intro i hi
      unfold sub64 efiMaxMemoryType sizeOfInformation at *
      omega
    unfold efiMaxMemoryType sizeOfInformation at hsize
    rw [or_iff_right (by omega), or_iff_right (by omega)]
    refine exists_congr fun i => ?_
    rw [and_iff_right (Nat.zero_le i)]
    exact and_congr_right fun hi => by rw [Stops, hlast i hi]
  next hsize =>
    unfold efiMaxMemoryType sizeOfInformation at hsize
    exact ⟨fun _ => by omega, fun _ => trivial⟩

/-- A HOB as large as the array, with a type that is not valid in each entry. -/
theorem invalidTypes_overrun : Safe .overrun = False ∧
    populateMemoryTypeInformation .x64 (some (fun _ => 0x20, 136)) (fun _ => 0) = .overrun :=
  ⟨rfl, rfl⟩

end MuBasecore.MemoryTypeHob
