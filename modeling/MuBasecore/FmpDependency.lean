import MuBasecore.ByteMemory

/-!
The dependency expressions of a firmware image: `ValidateDependency`, which finds
the end of an expression, and `EvaluateDependency`, which runs it on a stack. A
buffer holds its bytes and nothing else, and a read outside of it is a fault.
-/

namespace MuBasecore.FmpDependency

open ByteMemory

inductive LastAttemptStatus
  | noEndOpcode
  | unknownOpcode
  | guidBeyondDepex
  | versionBeyondDepex
  | versionStrBeyondDepex
  | fmpNotFound
  | pushFailure
  | popFailure
  | declareLengthNotFirstOpcode
  | declareLengthBeyondDepex
  | declareLengthIncorrect
  deriving DecidableEq, Repr

inductive ElementType
  | booleanType
  | versionType
  deriving DecidableEq, Repr

structure DepexElement where
  value : BitVec 32
  type : ElementType
  deriving DecidableEq, Repr

/-- `Value.Boolean` is the first byte of the union. -/
def DepexElement.boolean (element : DepexElement) : Byte :=
  element.value.setWidth 8

structure DepexStack where
  elements : List DepexElement
  size : Nat
  fits : elements.length ≤ size

def depexStackSizeIncrement : Nat := 0x1000

/-- What the evaluation finds around it: whether `AllocatePool` has this many bytes,
and the versions in `FmpVersions`. -/
structure Environment where
  allocatePool : Nat → Bool
  fmpVersions : List (List Byte × BitVec 32)

def growDepexStack (env : Environment) (s : DepexStack) :
    Option {s' : DepexStack // s'.elements = s.elements ∧ s'.elements.length < s'.size} :=
  if env.allocatePool ((depexStackSizeIncrement + s.size) * 8) then
    have h : s.elements.length < depexStackSizeIncrement + s.size :=
      Nat.lt_of_le_of_lt s.fits (Nat.lt_add_of_pos_left (by decide))
    some ⟨⟨s.elements, depexStackSizeIncrement + s.size, Nat.le_of_lt h⟩, rfl, h⟩
  else
    none

def push (env : Environment) (value : BitVec 32) (type : ElementType) (s : DepexStack) :
    Option DepexStack :=
  if h : s.elements.length = s.size then
    match growDepexStack env s with
    | none => none
    | some s' => some ⟨⟨value, type⟩ :: s'.1.elements, s'.1.size, s'.2.2⟩
  else
    some ⟨⟨value, type⟩ :: s.elements, s.size, Nat.lt_of_le_of_ne s.fits h⟩

/-- `Pop` fails on an empty stack and on an element of another type. -/
def pop (type : ElementType) (s : DepexStack) : Option (DepexElement × DepexStack) :=
  match s with
  | ⟨[], _, _⟩ => none
  | ⟨element :: rest, size, fits⟩ =>
    if element.type = type then some (element, ⟨rest, size, Nat.le_of_succ_le fits⟩) else none

def booleanValue (b : Bool) : BitVec 32 :=
  if b then 1 else 0

inductive Connective
  | and
  | or
  deriving DecidableEq, Repr

def Connective.apply : Connective → Byte → Byte → Byte
  | .and, a, b => a &&& b
  | .or, a, b => a ||| b

inductive Comparison
  | eq
  | gt
  | gte
  | lt
  | lte
  deriving DecidableEq, Repr

def Comparison.holds : Comparison → BitVec 32 → BitVec 32 → Bool
  | .eq, a, b => a == b
  | .gt, a, b => b.ult a
  | .gte, a, b => b.ule a
  | .lt, a, b => a.ult b
  | .lte, a, b => a.ule b

inductive Opcode
  | pushGuid
  | pushVersion
  | versionStr
  | connective (op : Connective)
  | not
  | constant (value : Bool)
  | compare (op : Comparison)
  | stop
  | declareLength
  deriving DecidableEq, Repr

def Opcode.byte : Opcode → Byte
  | .pushGuid => 0x00
  | .pushVersion => 0x01
  | .versionStr => 0x02
  | .connective .and => 0x03
  | .connective .or => 0x04
  | .not => 0x05
  | .constant true => 0x06
  | .constant false => 0x07
  | .compare .eq => 0x08
  | .compare .gt => 0x09
  | .compare .gte => 0x0A
  | .compare .lt => 0x0B
  | .compare .lte => 0x0C
  | .stop => 0x0D
  | .declareLength => 0x0E

/-- The cases of the `switch` over an opcode. -/
def opcode? (byte : Byte) : Option Opcode :=
  match byte.toNat with
  | 0x00 => some .pushGuid
  | 0x01 => some .pushVersion
  | 0x02 => some .versionStr
  | 0x03 => some (.connective .and)
  | 0x04 => some (.connective .or)
  | 0x05 => some .not
  | 0x06 => some (.constant true)
  | 0x07 => some (.constant false)
  | 0x08 => some (.compare .eq)
  | 0x09 => some (.compare .gt)
  | 0x0A => some (.compare .gte)
  | 0x0B => some (.compare .lt)
  | 0x0C => some (.compare .lte)
  | 0x0D => some .stop
  | 0x0E => some .declareLength
  | _ => none

section Operators

variable (env : Environment) (s : DepexStack)

def pushElement (value : BitVec 32) (type : ElementType) : Except LastAttemptStatus DepexStack :=
  match push env value type s with
  | none => .error .pushFailure
  | some s => .ok s

def popElement (type : ElementType) : Except LastAttemptStatus (DepexElement × DepexStack) :=
  match pop type s with
  | none => .error .popFailure
  | some popped => .ok popped

/-- The cases of `EFI_FMP_DEP_AND` and `EFI_FMP_DEP_OR`. -/
def evaluateConnective (op : Connective) : Except LastAttemptStatus DepexStack := do
  let (element1, s) ← popElement s .booleanType
  let (element2, s) ← popElement s .booleanType
  pushElement env s ((op.apply element1.boolean element2.boolean).setWidth 32) .booleanType

def evaluateNot : Except LastAttemptStatus DepexStack := do
  let (element1, s) ← popElement s .booleanType
  pushElement env s (booleanValue (element1.boolean == 0)) .booleanType

/-- The cases of `EFI_FMP_DEP_EQ` and the other comparisons. -/
def evaluateComparison (op : Comparison) : Except LastAttemptStatus DepexStack := do
  let (element1, s) ← popElement s .versionType
  let (element2, s) ← popElement s .versionType
  pushElement env s (booleanValue (op.holds element1.value element2.value)) .booleanType

/-- The lookup of `EFI_FMP_DEP_PUSH_GUID`: the first entry with the image type counts. -/
def evaluateGuid (imageTypeId : List Byte) : Except LastAttemptStatus DepexStack :=
  match env.fmpVersions.find? (fun entry => entry.1 == imageTypeId) with
  | none => .error .fmpNotFound
  | some entry => pushElement env s entry.2 .versionType

/-- `EFI_FMP_DEP_DECLARE_LENGTH`, once its operand is known to be there. -/
def evaluateDeclareLength (first : Bool) (dependenciesSize : Nat) (declaredLength : BitVec 32) :
    Except LastAttemptStatus DepexStack :=
  if !first then
    .error .declareLengthNotFirstOpcode
  else if declaredLength.toNat ≠ dependenciesSize then
    .error .declareLengthIncorrect
  else
    pushElement env s declaredLength .versionType

end Operators

/-- How `EvaluateDependency` ends: at the `END` opcode, with a check of its arguments
that fails, or with an error. `fault` is a read outside of the buffer. -/
inductive Outcome
  | result (value : Byte)
  | refused
  | error (status : LastAttemptStatus)
  | fault
  | cutOff
  deriving DecidableEq, Repr

def readBytes (buffer : List Byte) (offset count : Nat) : Option (List Byte) :=
  if offset + count ≤ buffer.length then some ((buffer.drop offset).take count) else none

/-- The bytes as a little-endian `UINT32`. -/
def readUint32 (buffer : List Byte) (offset : Nat) : Option (BitVec 32) :=
  (readBytes buffer offset 4).map fun bytes =>
    .ofNat 32 (bytes.foldr (fun b n => b.toNat + 256 * n) 0)

/-- `AsciiStrnLenS` on the string at the offset, of which at most `maxSize` bytes are
read. -/
def asciiStrnLenS (buffer : List Byte) (offset : Nat) : Nat → Option Nat
  | 0 => some 0
  | maxSize + 1 =>
    match buffer[offset]? with
    | none => none
    | some byte =>
      if byte = 0 then some 0
      else (asciiStrnLenS buffer (offset + 1) maxSize).map (· + 1)

abbrev Step := Except Outcome (Nat × DepexStack)

def proceed (iterator : Nat) : Except LastAttemptStatus DepexStack → Step
  | .error status => .error (.error status)
  | .ok s => .ok (iterator, s)

/-- The body of the loop of `EvaluateDependency`. -/
def evaluateStep (env : Environment) (dependencies : List Byte) (dependenciesSize iterator : Nat)
    (s : DepexStack) : Step :=
  match dependencies[iterator]? with
  | none => .error .fault
  | some byte =>
    match opcode? byte with
    | some .pushGuid =>
      if iterator + 16 ≥ dependenciesSize then .error (.error .guidBeyondDepex)
      else
        match readBytes dependencies (iterator + 1) 16 with
        | none => .error .fault
        | some imageTypeId => proceed (iterator + 16 + 1) (evaluateGuid env s imageTypeId)
    | some .pushVersion =>
      if iterator + 4 ≥ dependenciesSize then .error (.error .versionBeyondDepex)
      else
        match readUint32 dependencies (iterator + 1) with
        | none => .error .fault
        | some version =>
          proceed (iterator + 4 + 1) (pushElement env s version .versionType)
    | some .versionStr =>
      match asciiStrnLenS dependencies iterator (dependenciesSize - iterator) with
      | none => .error .fault
      | some length =>
        if iterator + length = dependenciesSize then .error (.error .versionStrBeyondDepex)
        else .ok (iterator + length + 1, s)
    | some (.connective op) => proceed (iterator + 1) (evaluateConnective env s op)
    | some .not => proceed (iterator + 1) (evaluateNot env s)
    | some (.constant value) =>
      proceed (iterator + 1) (pushElement env s (booleanValue value) .booleanType)
    | some (.compare op) => proceed (iterator + 1) (evaluateComparison env s op)
    | some .stop =>
      match popElement s .booleanType with
      | .error status => .error (.error status)
      | .ok (element1, _) => .error (.result element1.boolean)
    | some .declareLength =>
      if iterator + 4 ≥ dependenciesSize then .error (.error .declareLengthBeyondDepex)
      else
        match readUint32 dependencies (iterator + 1) with
        | none => .error .fault
        | some declaredLength =>
          proceed (iterator + 4 + 1)
            (evaluateDeclareLength env s (iterator == 0) dependenciesSize declaredLength)
    | none => .error (.error .unknownOpcode)

def evaluateLoop (env : Environment) (dependencies : List Byte) (dependenciesSize : Nat) :
    Nat → Nat → DepexStack → Outcome
  | 0, _, _ => .cutOff
  | fuel + 1, iterator, s =>
    if iterator < dependenciesSize then
      match evaluateStep env dependencies dependenciesSize iterator s with
      | .error outcome => outcome
      | .ok (iterator, s) => evaluateLoop env dependencies dependenciesSize fuel iterator s
    else
      .error .noEndOpcode

/-- `EvaluateDependency`. The stack of an earlier evaluation keeps its memory, but not
its elements. A null pointer is `none`. -/
def evaluateDependency (allocatePool : Nat → Bool) (stack : DepexStack)
    (dependencies : Option (List Byte)) (dependenciesSize : Nat)
    (fmpVersions : Option (List (List Byte × BitVec 32))) (fmpVersionsCount : Nat) : Outcome :=
  match dependencies with
  | none => .refused
  | some buffer =>
    if dependenciesSize = 0 then .refused
    else if fmpVersions = none ∧ fmpVersionsCount > 0 then .refused
    else
      evaluateLoop ⟨allocatePool, (fmpVersions.getD []).take fmpVersionsCount⟩ buffer
        dependenciesSize (dependenciesSize + 1) 0 ⟨[], stack.size, Nat.zero_le _⟩

/-- How `ValidateDependency` ends, with the size or the status that it reports. -/
inductive Validation
  | valid (depexSize : BitVec 32)
  | invalid (status : Option LastAttemptStatus)
  | fault
  | cutOff
  deriving DecidableEq, Repr

/-- The body of the loop of `ValidateDependency`. -/
def validateStep (dependencies : List Byte) (maxDepexSize depex : Nat) : Except Validation Nat :=
  match dependencies[depex]? with
  | none => .error .fault
  | some byte =>
    match opcode? byte with
    | some .pushGuid => .ok (depex + (16 + 1))
    | some .pushVersion => .ok (depex + (4 + 1))
    | some .versionStr =>
      match asciiStrnLenS dependencies depex (maxDepexSize - depex) with
      | none => .error .fault
      | some length => .ok (depex + (length + 1))
    | some (.connective _) | some .not | some (.constant _) | some (.compare _) =>
      .ok (depex + 1)
    | some .stop => .error (.valid (.ofNat 32 (depex + 1)))
    | some .declareLength => .ok (depex + (4 + 1))
    | none => .error (.invalid none)

def validateLoop (dependencies : List Byte) (maxDepexSize : Nat) : Nat → Nat → Validation
  | 0, _ => .cutOff
  | fuel + 1, depex =>
    if depex < maxDepexSize then
      match validateStep dependencies maxDepexSize depex with
      | .error validation => validation
      | .ok depex => validateLoop dependencies maxDepexSize fuel depex
    else
      .invalid (some .noEndOpcode)

def validateDependency (dependencies : Option (List Byte)) (maxDepexSize : Nat) : Validation :=
  match dependencies with
  | none => .invalid none
  | some buffer => validateLoop buffer maxDepexSize (maxDepexSize + 1) 0

@[simp] theorem opcode?_byte (op : Opcode) : opcode? op.byte = some op := by
  cases op with
  | connective op => cases op <;> rfl
  | constant value => cases value <;> rfl
  | compare op => cases op <;> rfl
  | _ => rfl

theorem byte_of_opcode? {byte : Byte} {op : Opcode} (h : opcode? byte = some op) :
    byte = op.byte := by
  revert op
  revert byte
  decide

end MuBasecore.FmpDependency
