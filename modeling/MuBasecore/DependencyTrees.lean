import MuBasecore.FmpDependency

/-!
Dependency expressions as sequences of instructions. What the validator accepts is
such a sequence, the evaluator runs it one instruction after the other, and the
postfix form of a tree computes the value of the tree.
-/

namespace MuBasecore.DependencyTrees

open ByteMemory FmpDependency List

abbrev ImageTypeId := {l : List Byte // l.length = 16}

abbrev VersionString := {l : List Byte // 0 ∉ l}

inductive Instruction
  | pushGuid (imageTypeId : ImageTypeId)
  | pushVersion (version : BitVec 32)
  | versionStr (string : VersionString)
  | connective (op : Connective)
  | not
  | constant (value : Bool)
  | compare (op : Comparison)
  | declareLength (length : BitVec 32)
  deriving DecidableEq

def Instruction.opcode : Instruction → Opcode
  | .pushGuid _ => .pushGuid
  | .pushVersion _ => .pushVersion
  | .versionStr _ => .versionStr
  | .connective op => .connective op
  | .not => .not
  | .constant value => .constant value
  | .compare op => .compare op
  | .declareLength _ => .declareLength

def Instruction.operand : Instruction → List Byte
  | .pushGuid imageTypeId => imageTypeId.1
  | .pushVersion version => bytesU32 version.toNat
  | .versionStr string => string.1 ++ [0]
  | .declareLength length => bytesU32 length.toNat
  | _ => []

def Instruction.bytes (ins : Instruction) : List Byte :=
  ins.opcode.byte :: ins.operand

variable {α : Type} {fuel : Nat} {type : ElementType} {first : Bool} {ins : Instruction}
  {is : List Instruction} {rest : List DepexElement}

def code (is : List Instruction) : List Byte :=
  is.flatMap Instruction.bytes

def expression (is : List Instruction) : List Byte :=
  code is ++ [Opcode.stop.byte]

@[simp] theorem code_cons (ins : Instruction) (is : List Instruction) :
    code (ins :: is) = ins.bytes ++ code is :=
  flatMap_cons

theorem length_le_code (is : List Instruction) : is.length ≤ (code is).length := by
  induction is with
  | nil => exact Nat.zero_le _
  | cons ins is ih =>
    rw [code_cons, length_append, length_cons, Instruction.bytes, length_cons]
    omega

theorem getElem?_middle (front : List α) (a : α) (rest : List α) :
    (front ++ a :: rest)[front.length]? = some a := by
  rw [getElem?_append_right le_rfl, Nat.sub_self]
  rfl

theorem readBytes_middle (front operand rest : List Byte) (byte : Byte) :
    readBytes (front ++ byte :: (operand ++ rest)) (front.length + 1) operand.length =
      some operand := by
  have hspl : front ++ byte :: (operand ++ rest) = (front ++ [byte]) ++ (operand ++ rest) := by
    rw [append_assoc, singleton_append]
  have hlen : front.length + 1 = (front ++ [byte]).length := by
    rw [length_append, length_singleton]
  rw [hspl, hlen, readBytes, if_pos, drop_left, take_left]
  simp only [length_append]
  omega

theorem readUint32_middle (front rest : List Byte) (byte : Byte) (n : BitVec 32) :
    readUint32 (front ++ byte :: (bytesU32 n.toNat ++ rest)) (front.length + 1) = some n := by
  have hread := readBytes_middle front (bytesU32 n.toNat) rest byte
  rw [show (bytesU32 n.toNat).length = 4 from rfl] at hread
  rw [readUint32, hread, Option.map_some, Option.some.injEq]
  apply BitVec.eq_of_toNat_eq
  simp only [bytesU32, foldr_cons, foldr_nil, BitVec.toNat_ofNat]
  omega

theorem exists_bytesU32 {l : List Byte} (h : l.length = 4) :
    ∃ n : BitVec 32, l = bytesU32 n.toNat := by
  match l, h with
  | [a, b, c, d], _ =>
    refine ⟨.ofNat 32 (a.toNat + 256 * b.toNat + 65536 * c.toNat + 16777216 * d.toNat), ?_⟩
    simp only [bytesU32, BitVec.toNat_ofNat, cons.injEq, and_true]
    refine ⟨?_, ?_, ?_, ?_⟩ <;>
      · apply BitVec.eq_of_toNat_eq
        simp only [BitVec.toNat_ofNat]
        omega

variable {maxSize length : Nat}

theorem asciiStrnLenS_string {string : List Byte} (hstring : 0 ∉ string) (front rest : List Byte)
    (hsize : string.length < maxSize) :
    asciiStrnLenS (front ++ (string ++ 0 :: rest)) front.length maxSize = some string.length := by
  induction string generalizing front maxSize with
  | nil =>
    obtain ⟨n, rfl⟩ : ∃ n, maxSize = n + 1 := ⟨maxSize - 1, by omega⟩
    rw [asciiStrnLenS, nil_append, getElem?_middle]
    rfl
  | cons byte string ih =>
    rw [mem_cons, not_or] at hstring
    rw [length_cons] at hsize
    obtain ⟨n, rfl⟩ : ∃ n, maxSize = n + 1 := ⟨maxSize - 1, by omega⟩
    have hnext := ih hstring.2 (front ++ [byte]) (show string.length < n by omega)
    rw [append_assoc, singleton_append, length_append, length_singleton] at hnext
    rw [asciiStrnLenS, cons_append, getElem?_middle]
    dsimp only
    rw [if_neg (Ne.symm hstring.1), hnext]
    rfl

theorem string_of_asciiStrnLenS {front tail : List Byte}
    (h : asciiStrnLenS (front ++ tail) front.length maxSize = some length)
    (hlt : length < maxSize) :
    ∃ string rest, tail = string ++ 0 :: rest ∧ 0 ∉ string ∧ string.length = length := by
  induction maxSize generalizing front tail length with
  | zero => omega
  | succ n ih =>
    rw [asciiStrnLenS] at h
    cases tail with
    | nil =>
      rw [append_nil, getElem?_eq_none le_rfl] at h
      cases h
    | cons byte tail =>
      rw [getElem?_middle] at h
      dsimp only at h
      by_cases hzero : byte = 0
      · rw [if_pos hzero] at h
        cases h
        exact ⟨[], tail, by rw [hzero]; rfl, not_mem_nil, rfl⟩
      · rw [if_neg hzero] at h
        obtain ⟨length', hread, rfl⟩ := Option.map_eq_some_iff.1 h
        have hread' : asciiStrnLenS ((front ++ [byte]) ++ tail) (front ++ [byte]).length n =
            some length' := by
          rw [append_assoc, singleton_append, length_append, length_singleton]
          exact hread
        obtain ⟨string, rest, rfl, hstring, rfl⟩ := ih hread' (by omega)
        refine ⟨byte :: string, rest, rfl, ?_, rfl⟩
        rw [mem_cons, not_or]
        exact ⟨Ne.symm hzero, hstring⟩

variable {n : Nat} {e : Expression}

section Validator

variable {front tail : List Byte} {byte : Byte} {next : Nat}

def Passed (front tail : List Byte) (next : Nat) : Prop :=
  (front ++ tail).length < next ∨
    ∃ (ins : Instruction) (rest : List Byte), tail = ins.bytes ++ rest ∧
      next = front.length + ins.bytes.length

theorem passed_operand (hnext : next = front.length + (n + 1))
    (hins : ∀ operand : List Byte, operand.length = n →
      ∃ ins : Instruction, byte :: operand = ins.bytes) :
    Passed front (byte :: tail) next := by
  rcases lt_or_ge tail.length n with hlt | hge
  · left
    rw [length_append, length_cons, hnext]
    omega
  · right
    have hlen : (tail.take n).length = n := length_take_of_le hge
    obtain ⟨ins, h⟩ := hins (tail.take n) hlen
    refine ⟨ins, tail.drop n, ?_, ?_⟩
    · rw [← h, cons_append, take_append_drop]
    · rw [← h, length_cons, hlen, hnext]

theorem passed_string (hbyte : byte = Opcode.versionStr.byte)
    (hread : asciiStrnLenS (front ++ byte :: tail) front.length
      ((front ++ byte :: tail).length - front.length) = some length) :
    Passed front (byte :: tail) (front.length + (length + 1)) := by
  rw [length_append, Nat.add_sub_cancel_left] at hread
  rcases lt_or_ge length (byte :: tail).length with hlt | hge
  · right
    obtain ⟨string, rest, htail, hstring, rfl⟩ := string_of_asciiStrnLenS hread hlt
    cases string with
    | nil =>
      rw [nil_append, cons.injEq] at htail
      rw [hbyte] at htail
      cases htail.1
    | cons b string =>
      rw [cons_append, cons.injEq] at htail
      rw [mem_cons, not_or] at hstring
      refine ⟨.versionStr ⟨string, hstring.2⟩, rest, ?_, ?_⟩
      · rw [htail.2, hbyte]
        simp [Instruction.bytes, Instruction.opcode, Instruction.operand]
      · simp [Instruction.bytes, Instruction.operand]
  · left
    rw [length_append]
    omega

theorem validateStep_ok
    (h : validateStep (front ++ byte :: tail) (front ++ byte :: tail).length front.length =
      .ok next) :
    Passed front (byte :: tail) next := by
  rw [validateStep, getElem?_middle] at h
  dsimp only at h
  cases hop : opcode? byte with
  | none =>
    rw [hop] at h
    cases h
  | some op =>
    have hbyte := byte_of_opcode? hop
    rw [hop] at h
    have plain (ins : Instruction) (hins : ins.bytes = [op.byte])
        (hnext : next = front.length + 1) : Passed front (byte :: tail) next :=
      .inr ⟨ins, tail, by rw [hins, hbyte]; rfl, by rw [hins]; exact hnext⟩
    cases op with
    | pushGuid =>
      cases h
      refine passed_operand rfl fun operand hopd => ?_
      exact ⟨.pushGuid ⟨operand, hopd⟩, by rw [hbyte]; rfl⟩
    | pushVersion =>
      cases h
      refine passed_operand rfl fun operand hopd => ?_
      obtain ⟨n, rfl⟩ := exists_bytesU32 hopd
      exact ⟨.pushVersion n, by rw [hbyte]; rfl⟩
    | versionStr =>
      cases hread : asciiStrnLenS (front ++ byte :: tail) front.length
          ((front ++ byte :: tail).length - front.length) with
      | none =>
        rw [hread] at h
        cases h
      | some length =>
        rw [hread] at h
        cases h
        exact passed_string hbyte hread
    | connective op =>
      cases h
      exact plain (.connective op) rfl rfl
    | not =>
      cases h
      exact plain .not rfl rfl
    | constant value =>
      cases h
      exact plain (.constant value) rfl rfl
    | compare op =>
      cases h
      exact plain (.compare op) rfl rfl
    | stop => cases h
    | declareLength =>
      cases h
      refine passed_operand rfl fun operand hopd => ?_
      obtain ⟨n, rfl⟩ := exists_bytesU32 hopd
      exact ⟨.declareLength n, by rw [hbyte]; rfl⟩

theorem validateStep_valid {s : BitVec 32}
    (h : validateStep (front ++ byte :: tail) (front ++ byte :: tail).length front.length =
      .error (.valid s)) :
    byte = Opcode.stop.byte ∧ s = .ofNat 32 (front.length + 1) := by
  rw [validateStep, getElem?_middle] at h
  dsimp only at h
  cases hop : opcode? byte with
  | none =>
    rw [hop] at h
    cases h
  | some op =>
    rw [hop] at h
    cases op with
    | stop =>
      cases h
      exact ⟨byte_of_opcode? hop, rfl⟩
    | versionStr =>
      dsimp only at h
      split at h <;> cases h
    | _ => cases h

theorem validateLoop_valid (front : List Byte) {s : BitVec 32}
    (h : validateLoop (front ++ tail) (front ++ tail).length fuel front.length = .valid s) :
    ∃ (is : List Instruction) (rest : List Byte), tail = expression is ++ rest ∧
      s = .ofNat 32 (front.length + (expression is).length) := by
  induction fuel generalizing front tail with
  | zero => cases h
  | succ fuel ih =>
    rw [validateLoop] at h
    cases tail with
    | nil =>
      rw [append_nil, if_neg (lt_irrefl _)] at h
      cases h
    | cons byte tail =>
      rw [if_pos (by rw [length_append, length_cons]; omega)] at h
      cases hstep : validateStep (front ++ byte :: tail) (front ++ byte :: tail).length
          front.length with
      | error validation =>
        rw [hstep] at h
        cases h
        obtain ⟨rfl, rfl⟩ := validateStep_valid hstep
        exact ⟨[], tail, rfl, rfl⟩
      | ok next =>
        rw [hstep] at h
        rcases validateStep_ok hstep with hlt | ⟨ins, rest, htail, rfl⟩
        · -- The operand reaches behind the end, where the loop ends without success.
          cases fuel with
          | zero => cases h
          | succ fuel =>
            dsimp only at h
            rw [validateLoop, if_neg (by omega)] at h
            cases h
        · rw [htail, ← append_assoc, ← length_append] at h
          obtain ⟨is, rest, rfl, rfl⟩ := ih _ h
          refine ⟨ins :: is, rest, ?_, ?_⟩
          · rw [htail]
            simp [expression]
          · simp [expression, add_assoc]

theorem asciiStrnLenS_instruction (front rest : List Byte) (string : VersionString) :
    asciiStrnLenS (front ++ ((Instruction.versionStr string).bytes ++ rest)) front.length
        ((front ++ ((Instruction.versionStr string).bytes ++ rest)).length - front.length) =
      some (string.1.length + 1) := by
  have hbyt : (Instruction.versionStr string).bytes ++ rest =
      (Opcode.versionStr.byte :: string.1) ++ 0 :: rest := by
    simp [Instruction.bytes, Instruction.opcode, Instruction.operand]
  rw [hbyt, length_append, Nat.add_sub_cancel_left]
  apply asciiStrnLenS_string
  · rw [mem_cons, not_or]
    exact ⟨by decide, string.2⟩
  · rw [length_append]
    exact Nat.lt_add_of_pos_right (Nat.succ_pos rest.length)

theorem validateStep_instruction (rest : List Byte) :
    validateStep (front ++ (ins.bytes ++ rest)) (front ++ (ins.bytes ++ rest)).length
      front.length = .ok (front.length + ins.bytes.length) := by
  have hread : (front ++ (ins.bytes ++ rest))[front.length]? = some ins.opcode.byte :=
    getElem?_middle front _ _
  rw [validateStep, hread]
  dsimp only
  rw [opcode?_byte]
  cases ins with
  | pushGuid imageTypeId =>
    rw [Instruction.bytes, length_cons, Instruction.operand, imageTypeId.2]
    rfl
  | versionStr string =>
    dsimp only [Instruction.opcode]
    rw [asciiStrnLenS_instruction]
    simp [Instruction.bytes, Instruction.operand]
  | _ => rfl

theorem read_stop (front : List Byte) :
    (front ++ expression [])[front.length]? = some Opcode.stop.byte :=
  getElem?_middle front _ []

theorem length_stop (front : List Byte) : (front ++ expression []).length = front.length + 1 :=
  length_append

theorem validateLoop_expression (front : List Byte) (is : List Instruction)
    (hfuel : is.length < fuel) :
    validateLoop (front ++ expression is) (front ++ expression is).length fuel front.length =
      .valid (.ofNat 32 (front ++ expression is).length) := by
  induction is generalizing front fuel with
  | nil =>
    obtain ⟨n, rfl⟩ : ∃ n, fuel = n + 1 := ⟨fuel - 1, by omega⟩
    have hlen := length_stop front
    rw [validateLoop, if_pos (by omega), validateStep, read_stop, hlen]
    rfl
  | cons ins is ih =>
    obtain ⟨n, rfl⟩ : ∃ n, fuel = n + 1 := ⟨fuel - 1, by omega⟩
    have hcode : expression (ins :: is) = ins.bytes ++ expression is := by
      simp [expression]
    have hnext := ih (front ++ ins.bytes) (Nat.lt_of_succ_lt_succ hfuel)
    rw [append_assoc] at hnext
    rw [hcode, validateLoop, if_pos, validateStep_instruction, ← length_append]
    · exact hnext
    · simp only [length_append, Instruction.bytes, length_cons]
      omega

end Validator

section Evaluator

variable (env : Environment) (size : Nat) (s : DepexStack)

def execute (first : Bool) : Instruction → Except LastAttemptStatus DepexStack
  | .pushGuid imageTypeId => evaluateGuid env s imageTypeId.1
  | .pushVersion version => pushElement env s version .versionType
  | .versionStr _ => .ok s
  | .connective op => evaluateConnective env s op
  | .not => evaluateNot env s
  | .constant value => pushElement env s (booleanValue value) .booleanType
  | .compare op => evaluateComparison env s op
  | .declareLength length => evaluateDeclareLength env s first size length

/-- The instructions one after the other, `first` telling whether nothing is in front
of them. -/
def executeAll : Bool → List Instruction → DepexStack → Except LastAttemptStatus DepexStack
  | _, [], s => .ok s
  | first, ins :: is, s =>
    match execute env size s first ins with
    | .error status => .error status
    | .ok s => executeAll false is s

/-- The `END` opcode. -/
def finish : Except LastAttemptStatus DepexStack → Outcome
  | .error status => .error status
  | .ok s =>
    match popElement s .booleanType with
    | .error status => .error status
    | .ok (element, _) => .result element.boolean

theorem evaluateStep_instruction (front : List Byte) (rest : List Byte) :
    evaluateStep env (front ++ (ins.bytes ++ rest)) (front ++ (ins.bytes ++ rest)).length
        front.length s =
      proceed (front.length + ins.bytes.length)
        (execute env (front ++ (ins.bytes ++ rest)).length s (front.length == 0) ins) := by
  have hread : (front ++ (ins.bytes ++ rest))[front.length]? = some ins.opcode.byte :=
    getElem?_middle front _ _
  have hopd : ¬ front.length + ins.operand.length ≥ (front ++ (ins.bytes ++ rest)).length := by
    simp only [length_append, Instruction.bytes, length_cons]
    omega
  rw [evaluateStep, hread]
  dsimp only
  rw [opcode?_byte]
  cases ins with
  | pushGuid imageTypeId =>
    have hbyt := readBytes_middle front imageTypeId.1 rest Opcode.pushGuid.byte
    rw [imageTypeId.2] at hbyt
    simp only [Instruction.operand, imageTypeId.2] at hopd
    rw [if_neg hopd]
    simp only [Instruction.bytes, Instruction.opcode, Instruction.operand, length_cons,
      imageTypeId.2, cons_append, hbyt, execute]
  | pushVersion version =>
    have hver : readUint32 (front ++ ((Instruction.pushVersion version).bytes ++ rest))
        (front.length + 1) = some version := readUint32_middle front rest _ version
    change ¬ front.length + 4 ≥ _ at hopd
    rw [if_neg hopd, hver]
    rfl
  | versionStr string =>
    have hlen : (Instruction.versionStr string).bytes.length = string.1.length + 2 := by
      simp [Instruction.bytes, Instruction.operand]
    dsimp only [Instruction.opcode]
    rw [asciiStrnLenS_instruction]
    dsimp only
    rw [if_neg, hlen]
    · rfl
    · rw [length_append, length_append, hlen]
      omega
  | declareLength length =>
    have hdeclared : readUint32 (front ++ ((Instruction.declareLength length).bytes ++ rest))
        (front.length + 1) = some length := readUint32_middle front rest _ length
    change ¬ front.length + 4 ≥ _ at hopd
    dsimp only [Instruction.opcode]
    rw [if_neg hopd, hdeclared]
    rfl
  | _ => rfl

theorem evaluateLoop_expression (front : List Byte) (is : List Instruction)
    (hfuel : is.length < fuel) :
    evaluateLoop env (front ++ expression is) (front ++ expression is).length fuel front.length s =
      finish (executeAll env (front ++ expression is).length (front.length == 0) is s) := by
  induction is generalizing front fuel s with
  | nil =>
    obtain ⟨n, rfl⟩ : ∃ n, fuel = n + 1 := ⟨fuel - 1, by omega⟩
    have hlen := length_stop front
    rw [evaluateLoop, if_pos (by omega), evaluateStep, read_stop]
    dsimp only [executeAll, finish]
    rcases popElement s .booleanType with status | ⟨element, s'⟩ <;> rfl
  | cons ins is ih =>
    obtain ⟨n, rfl⟩ : ∃ n, fuel = n + 1 := ⟨fuel - 1, by omega⟩
    have hcode : expression (ins :: is) = ins.bytes ++ expression is := by
      simp [expression]
    rw [hcode, evaluateLoop, if_pos, evaluateStep_instruction, executeAll, ← length_append]
    · cases execute env (front ++ (ins.bytes ++ expression is)).length s (front.length == 0)
          ins with
      | error status => rfl
      | ok s' =>
        have hnext := ih s' (front ++ ins.bytes) (Nat.lt_of_succ_lt_succ hfuel)
        have hfst : ((front ++ ins.bytes).length == 0) = false := by
          simp [Instruction.bytes]
        rw [append_assoc, hfst] at hnext
        exact hnext
    · simp only [length_append, Instruction.bytes, length_cons]
      omega

end Evaluator

variable {size : Nat}

section Statuses

def malformed : LastAttemptStatus → Bool
  | .noEndOpcode | .unknownOpcode | .guidBeyondDepex | .versionBeyondDepex
  | .versionStrBeyondDepex | .declareLengthBeyondDepex => true
  | _ => false

variable (env : Environment) (s : DepexStack) {status : LastAttemptStatus}

theorem push_status {value : BitVec 32}
    (h : pushElement env s value type = .error status) : malformed status = false := by
  rw [pushElement] at h
  split at h <;> cases h
  rfl

theorem popElement_status (h : popElement s type = .error status) : malformed status = false := by
  rw [popElement] at h
  split at h <;> cases h
  rfl

theorem bind_pop_status {f : DepexElement × DepexStack → Except LastAttemptStatus DepexStack}
    (h : (popElement s type >>= f) = .error status)
    (hf : ∀ popped, f popped = .error status → malformed status = false) :
    malformed status = false := by
  cases hpop : popElement s type with
  | error status' =>
    rw [hpop] at h
    cases h
    exact popElement_status s hpop
  | ok popped =>
    rw [hpop] at h
    exact hf popped h

theorem execute_status
    (h : execute env size s first ins = .error status) : malformed status = false := by
  cases ins with
  | pushGuid imageTypeId =>
    rw [execute, evaluateGuid] at h
    split at h
    · cases h
      rfl
    · exact push_status env s h
  | pushVersion version => exact push_status env s h
  | versionStr string => cases h
  | connective op | compare op =>
    refine bind_pop_status s h fun popped h => ?_
    refine bind_pop_status popped.2 h fun popped h => ?_
    exact push_status env popped.2 h
  | not =>
    refine bind_pop_status s h fun popped h => ?_
    exact push_status env popped.2 h
  | constant value => exact push_status env s h
  | declareLength length =>
    rw [execute, evaluateDeclareLength] at h
    split at h
    · cases h
      rfl
    · split at h
      · cases h
        rfl
      · exact push_status env s h

theorem executeAll_status
    (h : executeAll env size first is s = .error status) : malformed status = false := by
  induction is generalizing first s with
  | nil => cases h
  | cons ins is ih =>
    rw [executeAll] at h
    split at h
    · cases h
      exact execute_status env s (by assumption)
    · exact ih _ h

/-- The evaluation stays inside, ends, and meets no malformed expression. -/
structure WellFormed (outcome : Outcome) : Prop where
  inside : outcome ≠ .fault
  ends : outcome ≠ .cutOff
  status : ∀ status, outcome = .error status → malformed status = false

theorem wellFormed_finish : WellFormed (finish (executeAll env size first is s)) := by
  cases hrun : executeAll env size first is s with
  | error status =>
    refine ⟨nofun, nofun, ?_⟩
    rintro status' ⟨⟩
    exact executeAll_status env s hrun
  | ok s' =>
    rw [finish]
    cases hpop : popElement s' .booleanType with
    | error status =>
      refine ⟨nofun, nofun, ?_⟩
      rintro status' ⟨⟩
      exact popElement_status s' hpop
    | ok popped => exact ⟨nofun, nofun, nofun⟩

end Statuses

variable {s : DepexStack} {i : α → DepexElement} {a : Option α} {β : Type} {j : β → DepexElement}

section Trees

inductive Operand
  | version (version : BitVec 32)
  | image (imageTypeId : ImageTypeId)

/-- The expressions whose postorder is evaluated. -/
inductive Expression
  | compare (op : Comparison) (left right : Operand)
  | connective (op : Connective) (left right : Expression)
  | not (e : Expression)
  | constant (value : Bool)

def Operand.instruction : Operand → Instruction
  | .version n => .pushVersion n
  | .image imageTypeId => .pushGuid imageTypeId

def Expression.postorder : Expression → List Instruction
  | .compare op left right => [right.instruction, left.instruction, .compare op]
  | .connective op left right => left.postorder ++ (right.postorder ++ [.connective op])
  | .not e => e.postorder ++ [.not]
  | .constant value => [.constant value]

def Operand.value (versions : List (List Byte × BitVec 32)) : Operand → Option (BitVec 32)
  | .version n => some n
  | .image imageTypeId => (versions.find? (fun entry => entry.1 == imageTypeId.1)).map Prod.snd

def Connective.meaning : Connective → Bool → Bool → Bool
  | .and, a, b => a && b
  | .or, a, b => a || b

def Expression.value (versions : List (List Byte × BitVec 32)) : Expression → Option Bool
  | .compare op left right =>
    match left.value versions, right.value versions with
    | some a, some b => some (op.holds a b)
    | _, _ => none
  | .connective op left right =>
    match left.value versions, right.value versions with
    | some a, some b => some (Connective.meaning op a b)
    | _, _ => none
  | .not e => (e.value versions).map Bool.not
  | .constant value => some value

variable {env : Environment} (hpool : ∀ n, env.allocatePool n = true)

include hpool in
theorem pushElement_ok (s : DepexStack) (value : BitVec 32) (type : ElementType) :
    ∃ s', pushElement env s value type = .ok s' ∧ s'.elements = ⟨value, type⟩ :: s.elements := by
  rw [pushElement, push]
  by_cases hfull : s.elements.length = s.size
  · rw [dif_pos hfull, growDepexStack, if_pos (hpool _)]
    exact ⟨_, rfl, rfl⟩
  · rw [dif_neg hfull]
    exact ⟨_, rfl, rfl⟩

theorem popElement_ok {element : DepexElement} (h : s.elements = element :: rest) :
    ∃ s', popElement s element.type = .ok (element, s') ∧ s'.elements = rest := by
  obtain ⟨elements, n, fits⟩ := s
  cases h
  rw [popElement, pop, if_pos rfl]
  exact ⟨_, rfl, rfl⟩

def Pushes (env : Environment) (size : Nat) (is : List Instruction)
    (element : Option DepexElement) :
    Prop :=
  ∀ s : DepexStack,
    match element with
    | some e => ∃ s', executeAll env size false is s = .ok s' ∧ s'.elements = e :: s.elements
    | none => executeAll env size false is s = .error .fmpNotFound

theorem executeAll_append (is js : List Instruction) (s : DepexStack) :
    executeAll env size false (is ++ js) s =
      match executeAll env size false is s with
      | .error status => .error status
      | .ok s => executeAll env size false js s := by
  induction is generalizing s with
  | nil => rfl
  | cons ins is ih =>
    rw [cons_append, executeAll, executeAll]
    cases execute env size s false ins with
    | error status => rfl
    | ok s' => exact ih s'

theorem executeAll_singleton (s : DepexStack) :
    executeAll env size false [ins] s = execute env size s false ins := by
  rw [executeAll]
  cases execute env size s false ins <;> rfl

theorem Pushes.unary {f : α → β} (h : Pushes env size is (a.map i))
    (hf : ∀ s x rest, s.elements = i x :: rest →
      ∃ s', execute env size s false ins = .ok s' ∧ s'.elements = j (f x) :: rest) :
    Pushes env size (is ++ [ins]) ((a.map f).map j) := by
  intro s
  specialize h s
  rw [executeAll_append]
  cases a with
  | none =>
    rw [h]
    rfl
  | some x =>
    obtain ⟨s', hrun, hs'⟩ := h
    rw [hrun]
    dsimp only
    rw [executeAll_singleton]
    exact hf s' x s.elements hs'

theorem Pushes.binary {γ : Type} {js : List Instruction} {b : Option β}
    {k : γ → DepexElement} {f : α → β → γ} (ha : Pushes env size is (a.map i))
    (hb : Pushes env size js (b.map j))
    (hf : ∀ s x y rest, s.elements = j y :: i x :: rest →
      ∃ s', execute env size s false ins = .ok s' ∧ s'.elements = k (f x y) :: rest) :
    Pushes env size (is ++ (js ++ [ins])) ((a.bind fun x => b.map (f x)).map k) := by
  intro s
  specialize ha s
  rw [executeAll_append]
  cases a with
  | none =>
    rw [ha]
    rfl
  | some x =>
    obtain ⟨s', hrun, hs'⟩ := ha
    specialize hb s'
    rw [hrun]
    dsimp only
    rw [executeAll_append]
    cases b with
    | none =>
      rw [hb]
      rfl
    | some y =>
      obtain ⟨s'', hrun', hs''⟩ := hb
      rw [hs'] at hs''
      rw [hrun']
      dsimp only
      rw [executeAll_singleton]
      exact hf s'' x y s.elements hs''

def versionElement (version : BitVec 32) : DepexElement :=
  ⟨version, .versionType⟩

def booleanElement (value : Bool) : DepexElement :=
  ⟨booleanValue value, .booleanType⟩

include hpool in
theorem pushes_operand (operand : Operand) :
    Pushes env size [operand.instruction]
      ((operand.value env.fmpVersions).map versionElement) := by
  intro s
  rw [executeAll_singleton]
  cases operand with
  | version n => exact pushElement_ok hpool s n .versionType
  | image imageTypeId =>
    rw [Operand.instruction, execute, evaluateGuid, Operand.value]
    cases env.fmpVersions.find? (fun entry => entry.1 == imageTypeId.1) with
    | none => rfl
    | some entry => exact pushElement_ok hpool s entry.2 .versionType

include hpool in
theorem execute_compare (op : Comparison) {a b : BitVec 32}
    (h : s.elements = versionElement a :: versionElement b :: rest) :
    ∃ s', execute env size s false (.compare op) = .ok s' ∧
      s'.elements = booleanElement (op.holds a b) :: rest := by
  obtain ⟨s₁, hpop₁, hs₁⟩ := popElement_ok h
  obtain ⟨s₂, hpop₂, hs₂⟩ := popElement_ok hs₁
  obtain ⟨s₃, hpush, hs₃⟩ := pushElement_ok hpool s₂ (booleanValue (op.holds a b)) .booleanType
  change popElement s .versionType = _ at hpop₁
  change popElement s₁ .versionType = _ at hpop₂
  refine ⟨s₃, ?_, by rw [hs₃, hs₂]; rfl⟩
  rw [execute, evaluateComparison, hpop₁]
  change (popElement s₁ .versionType >>= _) = _
  rw [hpop₂]
  exact hpush

theorem boolean_booleanElement (value : Bool) :
    (booleanElement value).boolean = if value then 1 else 0 := by
  cases value <;> rfl

include hpool in
theorem execute_connective (op : Connective) {a b : Bool}
    (h : s.elements = booleanElement b :: booleanElement a :: rest) :
    ∃ s', execute env size s false (.connective op) = .ok s' ∧
      s'.elements = booleanElement (Connective.meaning op a b) :: rest := by
  have hvalue : (op.apply (booleanElement b).boolean (booleanElement a).boolean).setWidth 32 =
      booleanValue (Connective.meaning op a b) := by
    cases op <;> cases a <;> cases b <;> rfl
  obtain ⟨s₁, hpop₁, hs₁⟩ := popElement_ok h
  obtain ⟨s₂, hpop₂, hs₂⟩ := popElement_ok hs₁
  obtain ⟨s₃, hpush, hs₃⟩ := pushElement_ok hpool s₂
    (booleanValue (Connective.meaning op a b)) .booleanType
  change popElement s .booleanType = _ at hpop₁
  change popElement s₁ .booleanType = _ at hpop₂
  refine ⟨s₃, ?_, by rw [hs₃, hs₂]; rfl⟩
  rw [execute, evaluateConnective, hpop₁]
  change (popElement s₁ .booleanType >>= _) = _
  rw [hpop₂, ← hpush, ← hvalue]
  rfl

include hpool in
theorem execute_not {a : Bool} (h : s.elements = booleanElement a :: rest) :
    ∃ s', execute env size s false .not = .ok s' ∧ s'.elements = booleanElement (!a) :: rest := by
  have hvalue : ((booleanElement a).boolean == 0) = !a := by
    cases a <;> rfl
  obtain ⟨s₁, hpop, hs₁⟩ := popElement_ok h
  obtain ⟨s₂, hpush, hs₂⟩ := pushElement_ok hpool s₁ (booleanValue (!a)) .booleanType
  change popElement s .booleanType = _ at hpop
  refine ⟨s₂, ?_, by rw [hs₂, hs₁]; rfl⟩
  rw [execute, evaluateNot, hpop, ← hpush, ← hvalue]
  rfl

include hpool in
theorem pushes_postorder (e : Expression) :
    Pushes env size e.postorder ((e.value env.fmpVersions).map booleanElement) := by
  induction e with
  | compare op left right =>
    have hpush : Pushes env size [right.instruction] _ := pushes_operand hpool right
    have h := hpush.binary (pushes_operand hpool left) (f := fun b a => op.holds a b)
      (k := booleanElement) fun s b a rest hs => execute_compare hpool op hs
    rw [Expression.value]
    cases hleft : left.value env.fmpVersions <;> cases hright : right.value env.fmpVersions <;>
      · rw [hleft, hright] at h
        exact h
  | connective op left right ihl ihr =>
    have h := ihl.binary ihr (f := Connective.meaning op) (k := booleanElement)
      fun s a b rest hs => execute_connective hpool op hs
    rw [Expression.value]
    cases hleft : left.value env.fmpVersions <;> cases hright : right.value env.fmpVersions <;>
      · rw [hleft, hright] at h
        exact h
  | not e ih => exact ih.unary fun s a rest hs => execute_not hpool hs
  | constant value =>
    intro s
    rw [Expression.postorder, executeAll_singleton]
    exact pushElement_ok hpool s (booleanValue value) .booleanType

theorem executeAll_filter (first : Bool) (s : DepexStack)
    (hdeclare : ∀ n, Instruction.declareLength n ∉ is) :
    executeAll env size first is s =
      executeAll env size false (is.filter fun ins => ins.opcode ≠ .versionStr) s := by
  induction is generalizing first s with
  | nil => rfl
  | cons ins is ih =>
    have hrest : ∀ n, Instruction.declareLength n ∉ is := fun n h =>
      hdeclare n (mem_cons_of_mem ins h)
    have hfst : execute env size s first ins = execute env size s false ins := by
      cases ins with
      | declareLength n => exact absurd mem_cons_self (hdeclare n)
      | _ => rfl
    rw [executeAll, hfst]
    by_cases hop : ins.opcode = .versionStr
    · rw [filter_cons_of_neg (by simp [hop])]
      cases ins with
      | versionStr string => exact ih false s hrest
      | _ => cases hop
    · rw [filter_cons_of_pos (by simp [hop]), executeAll]
      cases execute env size s false ins with
      | error status => rfl
      | ok s' => exact ih false s' hrest

theorem declareLength_notMem_postorder (n : BitVec 32) :
    Instruction.declareLength n ∉ e.postorder := by
  induction e with
  | compare op left right =>
    cases left <;> cases right <;> simp [Expression.postorder, Operand.instruction]
  | connective op left right ihl ihr => simp [Expression.postorder, ihl, ihr]
  | not e ih => simp [Expression.postorder, ih]
  | constant value => simp [Expression.postorder]

def Expression.outcome (versions : List (List Byte × BitVec 32)) (e : Expression) : Outcome :=
  match e.value versions with
  | some value => .result (if value then 1 else 0)
  | none => .error .fmpNotFound

include hpool in
theorem finish_postorder (e : Expression) (first : Bool) (s : DepexStack)
    (h : is.filter (fun ins => ins.opcode ≠ .versionStr) = e.postorder) :
    finish (executeAll env size first is s) = e.outcome env.fmpVersions := by
  have hdeclare : ∀ n, Instruction.declareLength n ∉ is := by
    intro n hn
    apply declareLength_notMem_postorder n
    rw [← h, mem_filter]
    exact ⟨hn, rfl⟩
  have hpush : Pushes env size e.postorder _ := pushes_postorder hpool e
  specialize hpush s
  rw [executeAll_filter first s hdeclare, h, Expression.outcome]
  cases hvalue : e.value env.fmpVersions with
  | none =>
    rw [hvalue] at hpush
    rw [hpush]
    rfl
  | some value =>
    rw [hvalue] at hpush
    obtain ⟨s', hrun, hs'⟩ := hpush
    obtain ⟨s'', hpop, -⟩ := popElement_ok hs'
    change popElement s' .booleanType = _ at hpop
    rw [hrun, finish, hpop]
    dsimp only
    rw [boolean_booleanElement]

end Trees

theorem evaluate_expression (pool : Nat → Bool) (stack : DepexStack)
    {versions : Option (List (List Byte × BitVec 32))}
    {count : Nat} (h : ¬ (versions = none ∧ count > 0)) :
    evaluateDependency pool stack (some (expression is)) (expression is).length versions count =
      finish (executeAll ⟨pool, (versions.getD []).take count⟩
        (expression is).length true is ⟨[], stack.size, Nat.zero_le _⟩) := by
  have hlen : (expression is).length = (code is).length + 1 := length_append
  have hcode := length_le_code is
  rw [evaluateDependency, if_neg (by omega), if_neg h]
  exact evaluateLoop_expression _ _ [] is (by omega)

theorem validate_expression (is : List Instruction) :
    validateDependency (some (expression is)) (expression is).length =
      .valid (.ofNat 32 (expression is).length) := by
  have hlen : (expression is).length = (code is).length + 1 := length_append
  have hcode := length_le_code is
  exact validateLoop_expression [] is (by omega)

/-- What the validator accepts is an expression whose size it reports in 32 bits, and
which the evaluator finds well formed. The postfix form of a tree, with version
strings anywhere in it, is accepted and has the value of the tree. -/
theorem dependencies_evaluate_as_validated :
    (∀ (bytes : List Byte) (depexSize : BitVec 32),
      validateDependency (some bytes) bytes.length = .valid depexSize →
      ∃ n ≤ bytes.length, depexSize = .ofNat 32 n ∧
        ∀ (allocatePool : Nat → Bool) (stack : DepexStack)
          (fmpVersions : Option (List (List Byte × BitVec 32))) (fmpVersionsCount : Nat),
          WellFormed (evaluateDependency allocatePool stack (some (bytes.take n)) n fmpVersions
            fmpVersionsCount)) ∧
      ∀ (e : Expression) (is : List Instruction),
        is.filter (fun ins => ins.opcode ≠ .versionStr) = e.postorder →
        validateDependency (some (expression is)) (expression is).length =
            .valid (.ofNat 32 (expression is).length) ∧
          ∀ (allocatePool : Nat → Bool) (stack : DepexStack)
            (fmpVersions : Option (List (List Byte × BitVec 32))) (fmpVersionsCount : Nat),
            (∀ n, allocatePool n = true) → (fmpVersions = none → fmpVersionsCount = 0) →
            evaluateDependency allocatePool stack (some (expression is)) (expression is).length
                fmpVersions fmpVersionsCount =
              e.outcome ((fmpVersions.getD []).take fmpVersionsCount) := by
  refine ⟨?_, ?_⟩
  · intro bytes depexSize hvalid
    obtain ⟨is, rest, rfl, hsize⟩ := validateLoop_valid [] hvalid
    refine ⟨(expression is).length, ?_, ?_, ?_⟩
    · rw [length_append]
      exact Nat.le_add_right _ _
    · rw [hsize, length_nil, zero_add]
    · intro allocatePool stack fmpVersions fmpVersionsCount
      rw [take_left]
      by_cases h : fmpVersions = none ∧ fmpVersionsCount > 0
      · rw [evaluateDependency, if_neg (by simp [expression]), if_pos h]
        exact ⟨nofun, nofun, nofun⟩
      · rw [evaluate_expression allocatePool stack h]
        exact wellFormed_finish _ _
  · intro e is his
    refine ⟨validate_expression is, ?_⟩
    intro allocatePool stack fmpVersions fmpVersionsCount hpool hcount
    rw [evaluate_expression allocatePool stack]
    · exact finish_postorder hpool e _ _ his
    · rintro ⟨hnone, hpos⟩
      rw [hcount hnone] at hpos
      exact lt_irrefl 0 hpos

/-- The string "Test" in front of a tree: `TRUE && FALSE`. -/
theorem testString_and_evaluates :
    validateDependency (some [0x02, 0x54, 0x65, 0x73, 0x74, 0x00, 0x06, 0x07, 0x03, 0x0D]) 10 =
        .valid 10 ∧
      evaluateDependency (fun _ => true) ⟨[], 0, Nat.le_refl 0⟩
          (some [0x02, 0x54, 0x65, 0x73, 0x74, 0x00, 0x06, 0x07, 0x03, 0x0D]) 10 none 0 =
        .result 0 := by
  obtain ⟨hvalid, hvalue⟩ := dependencies_evaluate_as_validated.2
    (.connective .and (.constant true) (.constant false))
    [.versionStr ⟨[0x54, 0x65, 0x73, 0x74], by decide⟩, .constant true, .constant false,
      .connective .and] rfl
  exact ⟨hvalid, hvalue _ _ none 0 (fun _ => rfl) fun _ => rfl⟩

theorem code_replicate :
    code (replicate n (.constant true)) = replicate n (Opcode.byte (.constant true)) := by
  induction n with
  | zero => rfl
  | succ n ih =>
    rw [replicate_succ, replicate_succ, code_cons, ih]
    rfl

/-- `DepexSize` has 32 bits: of `TRUE` opcodes that fill four gigabytes and an `END`
opcode only the first byte is left. -/
theorem fourGigabytes_cut_to_one_byte :
    validateDependency (some (expression (List.replicate (2 ^ 32) (.constant true))))
        (expression (List.replicate (2 ^ 32) (.constant true))).length = .valid 1 ∧
      evaluateDependency (fun _ => true) ⟨[], 0, Nat.le_refl 0⟩
          (some ((expression (List.replicate (2 ^ 32) (.constant true))).take 1)) 1 none 0 =
        .error .noEndOpcode := by
  obtain ⟨m, hm⟩ : ∃ m, 2 ^ 32 = m + 1 := ⟨4294967295, rfl⟩
  refine ⟨?_, ?_⟩
  · rw [validate_expression, expression, code_replicate, length_append, length_replicate]
    rfl
  · rw [expression, code_replicate, hm, replicate_succ]
    rfl

end MuBasecore.DependencyTrees
