import MuBasecore.ByteMemory
import MuBasecore.EfiTypes
import MuBasecore.FirstMinimum

/-!
The table of variable policies: which structures are accepted as a policy, which
policies match a variable, which match is taken and how a policy is registered. A
policy is submitted as the memory at its address; the table keeps the bytes of each
registered policy.
-/

namespace MuBasecore.VariablePolicy

open ByteMemory EfiTypes FirstMinimum SlotBuffer List Option

variable {chars : List Nat}

def sizeOfVariablePolicyEntry : Nat := 44
def sizeOfLockOnVarStatePolicy : Nat := 18
def variablePolicyEntryRevision : Nat := 0x00010000
def variablePolicyTypeLockOnVarState : Nat := 3
def matchPriorityExact : Nat := 0
def matchPriorityMin : Nat := 255
def policyTableStepSize : Nat := 0x1000

/-- The character `L'#'`. -/
def wildcard : Nat := 0x23

def version (m : Memory) : Nat := readU32 m 0
def size (m : Memory) : Nat := readU16 m 4
def offsetToName (m : Memory) : Nat := readU16 m 6
def namespaceGuid (m : Memory) : List Byte := slotRange m 8 16
def maxSize (m : Memory) : Nat := readU32 m 28
def lockPolicyType (m : Memory) : Nat := (m 40).toNat

/-- The characters from an offset on, as a `CHAR16` pointer reads them. -/
def charsAt (m : Memory) (offset : Nat) : Nat → Nat := fun i => readU16 m (offset + 2 * i)

def getPolicyName (m : Memory) : Nat → Nat := charsAt m (offsetToName m)

/-- The position of the terminator of a string. A round that reads at or behind the end
is the last one, so `entryEnd + 1` rounds are enough. -/
def findTerminator (m : Memory) (entryEnd : Nat) : Nat → Nat → Option Nat
  | 0, _ => none
  | rounds + 1, p =>
    if readU16 m p = 0 then some p
    else if entryEnd ≤ p then none
    else findTerminator m entryEnd rounds (p + 2)

def countWildcard (c wildcardCount : Nat) : Nat :=
  if c = wildcard then wildcardCount + 1 else wildcardCount

def checkName (m : Memory) (entryEnd : Nat) : Nat → Nat → Nat → Option Nat
  | 0, _, _ => none
  | rounds + 1, p, wildcardCount =>
    if readU16 m p = 0 then some p
    else
      let wildcardCount := countWildcard (readU16 m p) wildcardCount
      if readU16 m p = wildcard ∧ matchPriorityMin < wildcardCount then none
      else if entryEnd ≤ p then none
      else checkName m entryEnd rounds (p + 2) wildcardCount

/-- The name of the state variable of a `LOCK_ON_VAR_STATE` policy ends right before the
policy's own name; the other types have no substructure. Positions are relative to the
address of the structure, which matters only for additions that must not overflow. -/
def lockPolicyOk (address : Nat) (m : Memory) : Bool :=
  if lockPolicyType m = variablePolicyTypeLockOnVarState then
    let name := sizeOfVariablePolicyEntry + sizeOfLockOnVarStatePolicy
    if 2 ^ 64 ≤ address + name ∨ size m ≤ name then false
    else (findTerminator m (size m) (size m + 1) name).any fun p => p + 2 == offsetToName m
  else offsetToName m == sizeOfVariablePolicyEntry

def policyNameOk (m : Memory) : Bool :=
  if size m ≠ offsetToName m then
    (checkName m (size m) (size m + 1) (offsetToName m) 0).any fun p => p + 2 == size m
  else true

def isValidVariablePolicyStructure (address : Nat) (m : Memory) : Bool :=
  if address = 0 ∨ size m = 0 ∨ size m < sizeOfVariablePolicyEntry ∨
      version m ≠ variablePolicyEntryRevision then false
  else if 2 ^ 64 ≤ address + size m then false
  else if maxSize m = 0 then false
  else if variablePolicyTypeLockOnVarState < lockPolicyType m then false
  else if !lockPolicyOk address m then false
  else policyNameOk m

def isHexDigit (c : Nat) : Bool :=
  (0x30 ≤ c && c ≤ 0x39) || (0x41 ≤ c && c ≤ 0x46) || (0x61 ≤ c && c ≤ 0x66)

/-- The loop of `EvaluatePolicyMatch` from an index on; the policy's name is terminated,
so it takes one round more than the name has characters at most. -/
def matchName (policyName variableName : Nat → Nat) : Nat → Nat → Nat → Option Nat
  | 0, _, _ => none
  | rounds + 1, i, priority =>
    if policyName i = 0 ∧ variableName i = 0 then some priority
    else if policyName i ≠ variableName i ∨ policyName i = wildcard then
      if policyName i = wildcard ∧ isHexDigit (variableName i) then
        matchName policyName variableName rounds (i + 1)
          (if priority < matchPriorityMin then priority + 1 else priority)
      else none
    else matchName policyName variableName rounds (i + 1) priority

def evaluatePolicyMatch (variableName : Nat → Nat) (vendorGuid : List Byte) (entry : Memory) :
    Option Nat :=
  if namespaceGuid entry ≠ vendorGuid then none
  else if size entry = offsetToName entry then some matchPriorityMin
  else matchName (getPolicyName entry) variableName (size entry + 1) 0 matchPriorityExact

def entryMemory (bytes : List Byte) : Memory := fun i => bytes.getD i 0

def getBestPolicyMatch (table : List (List Byte)) (variableName : Nat → Nat)
    (vendorGuid : List Byte) : Option (Nat × Nat) :=
  scan (fun bytes => evaluatePolicyMatch variableName vendorGuid (entryMemory bytes)) table 0 none

structure PolicyModule where
  initialized : Bool
  interfaceLocked : Bool
  policyTable : List (List Byte)
  currentTableSize : Nat
  currentTableUsage : Nat

def tableSteps (newSize : Nat) : Nat :=
  if 0 < newSize % policyTableStepSize then newSize / policyTableStepSize + 1
  else newSize / policyTableStepSize

def registerVariablePolicy (poolAvailable : Bool) (address : Nat) (m : Memory)
    (g : PolicyModule) : PolicyModule × EfiStatus :=
  if !g.initialized then (g, .notReady)
  else if g.interfaceLocked then (g, .writeProtected)
  else if !isValidVariablePolicyStructure address m then (g, .invalidParameter)
  else
    let best := getBestPolicyMatch g.policyTable (getPolicyName m) (namespaceGuid m)
    if best.any (fun b => b.2 = matchPriorityExact) then (g, .alreadyStarted)
    else
      let newSize := g.currentTableUsage + size m
      if 2 ^ 32 ≤ newSize then (g, .aborted)
      else
        let store (tableSize : Nat) : PolicyModule × EfiStatus :=
          ({ g with
              policyTable := g.policyTable ++ [slotRange m 0 (size m)]
              currentTableSize := tableSize
              currentTableUsage := newSize },
            .success)
        if g.currentTableSize < newSize then
          if 2 ^ 32 ≤ tableSteps newSize * policyTableStepSize then (g, .aborted)
          else if !poolAvailable then (g, .outOfResources)
          else store (tableSteps newSize * policyTableStepSize)
        else store g.currentTableSize

/-- The library after `InitVariablePolicyLib`. -/
def emptyPolicyModule : PolicyModule where
  initialized := true
  interfaceLocked := false
  policyTable := []
  currentTableSize := 0
  currentTableUsage := 0

/-- The policies registered one after the other. -/
def registerAll (calls : List (Nat × Memory)) : PolicyModule :=
  calls.foldl (fun g call => (registerVariablePolicy true call.1 call.2 g).1) emptyPolicyModule

structure ReadsString (s : Nat → Nat) (chars : List Nat) : Prop where
  nonzero : 0 ∉ chars
  reads : ∀ i ≤ chars.length, s i = chars.getD i 0

variable {s : Nat → Nat} {c : Nat}

theorem readsString_nil (h : s 0 = 0) : ReadsString s [] where
  nonzero := by simp
  reads i hi := by
    obtain rfl : i = 0 := by simpa using hi
    simpa using h

theorem ReadsString.cons (hc : s 0 ≠ 0)
    (h : ReadsString (fun i => s (i + 1)) chars) : ReadsString s (s 0 :: chars) where
  nonzero := by
    rw [mem_cons]
    rintro (hzero | hmem)
    · exact hc hzero.symm
    · exact h.nonzero hmem
  reads i hi := by
    cases i with
    | zero => rfl
    | succ i => exact h.reads i (by simpa using hi)

theorem ReadsString.tail
    (h : ReadsString s (c :: chars)) : ReadsString (fun i => s (i + 1)) chars where
  nonzero hmem := h.nonzero (mem_cons_of_mem _ hmem)
  reads i hi := h.reads (i + 1) (by simpa using hi)

theorem ReadsString.head (h : ReadsString s (c :: chars)) : s 0 = c ∧ c ≠ 0 :=
  ⟨h.reads 0 (Nat.zero_le _), fun hc => h.nonzero (hc ▸ mem_cons_self)⟩

theorem ReadsString.unique {chars' : List Nat} (h : ReadsString s chars)
    (h' : ReadsString s chars') : chars = chars' := by
  induction chars generalizing s chars' with
  | nil =>
    have hzero : s 0 = 0 := h.reads 0 (Nat.zero_le _)
    cases chars' with
    | nil => rfl
    | cons c' _ => exact absurd (h'.head.1.symm.trans hzero) h'.head.2
  | cons c chars ih =>
    cases chars' with
    | nil =>
      have hzero : s 0 = 0 := h'.reads 0 (Nat.zero_le _)
      exact absurd (h.head.1.symm.trans hzero) h.head.2
    | cons c' chars' =>
      rw [ih h.tail h'.tail, ← h.head.1, ← h'.head.1]

theorem ReadsString.map_range (h : ReadsString s chars) : (range chars.length).map s = chars := by
  apply ext_getElem
  · simp
  · intro i _ hi
    rw [getElem_map, getElem_range, h.reads i (by omega), getD_eq_getElem _ _ hi]

variable {m m' : Memory}

section Names

variable {entryEnd rounds p q count : Nat}

theorem charsAt_succ : (fun i => charsAt m p (i + 1)) = charsAt m (p + 2) := by
  funext i
  rw [charsAt, charsAt, show p + 2 * (i + 1) = p + 2 + 2 * i by omega]

theorem findTerminator_congr (h : findTerminator m entryEnd rounds p = some q)
    (hsame : ∀ i < q + 2, m' i = m i) :
    p ≤ q ∧ findTerminator m' entryEnd rounds p = some q := by
  induction rounds generalizing p with
  | zero => cases h
  | succ rounds ih =>
    rw [findTerminator] at h ⊢
    split at h
    case isTrue hzero =>
      obtain ⟨⟩ := h
      rw [readU16_congr fun i hi => hsame _ (by omega), if_pos hzero]
      exact ⟨le_rfl, rfl⟩
    case isFalse hzero =>
      split at h
      case isTrue => cases h
      case isFalse hend =>
        obtain ⟨hle, hrest⟩ := ih h
        rw [readU16_congr fun i hi => hsame _ (by omega), if_neg hzero, if_neg hend]
        exact ⟨by omega, hrest⟩

theorem checkName_congr (h : checkName m entryEnd rounds p count = some q)
    (hsame : ∀ i < q + 2, m' i = m i) :
    p ≤ q ∧ checkName m' entryEnd rounds p count = some q := by
  induction rounds generalizing p count with
  | zero => cases h
  | succ rounds ih =>
    rw [checkName] at h ⊢
    split at h
    case isTrue hzero =>
      obtain ⟨⟩ := h
      rw [readU16_congr fun i hi => hsame _ (by omega), if_pos hzero]
      exact ⟨le_rfl, rfl⟩
    case isFalse hzero =>
      dsimp only at h ⊢
      split at h
      case isTrue => cases h
      case isFalse hcnt =>
        split at h
        case isTrue => cases h
        case isFalse hend =>
          obtain ⟨hle, hrest⟩ := ih h
          rw [readU16_congr fun i hi => hsame _ (by omega), if_neg hzero, if_neg hcnt,
            if_neg hend]
          exact ⟨by omega, hrest⟩

theorem checkName_reads (h : checkName m entryEnd rounds p count = some q)
    (hcnt : count ≤ matchPriorityMin) :
    ∃ chars, ReadsString (charsAt m p) chars ∧ q = p + 2 * chars.length ∧
      count + chars.count wildcard ≤ matchPriorityMin := by
  induction rounds generalizing p count with
  | zero => cases h
  | succ rounds ih =>
    rw [checkName] at h
    split at h
    case isTrue hzero =>
      obtain ⟨⟩ := h
      exact ⟨[], readsString_nil hzero, rfl, hcnt⟩
    case isFalse hzero =>
      dsimp only at h
      split at h
      case isTrue => cases h
      case isFalse hfew =>
        split at h
        case isTrue => cases h
        case isFalse hend =>
          have hnext : countWildcard (readU16 m p) count ≤ matchPriorityMin := by
            by_cases hw : readU16 m p = wildcard
            · exact Nat.le_of_not_lt fun hlt => hfew ⟨hw, hlt⟩
            · rwa [countWildcard, if_neg hw]
          obtain ⟨chars, hrd, hq, htotal⟩ := ih h hnext
          rw [← charsAt_succ] at hrd
          refine ⟨_, hrd.cons hzero, ?_, ?_⟩
          · rw [length_cons]
            omega
          · have hhead : charsAt m p 0 = readU16 m p := rfl
            rw [hhead, count_cons]
            rw [countWildcard] at htotal
            split at htotal
            case isTrue hw =>
              rw [if_pos (by simpa using hw)]
              omega
            case isFalse hw =>
              rw [if_neg (by simpa using hw)]
              omega

end Names

structure Policy where
  guid : List Byte
  name : Option (List Nat)
  deriving DecidableEq

def policyOf (m : Memory) : Policy where
  guid := namespaceGuid m
  name :=
    if size m = offsetToName m then none
    else some ((List.range ((size m - offsetToName m) / 2 - 1)).map (getPolicyName m))

def policies (g : PolicyModule) : List Policy :=
  g.policyTable.map fun bytes => policyOf (entryMemory bytes)

def fits : List Nat → (Nat → Nat) → Bool
  | [], variableName => variableName 0 == 0
  | c :: pattern, variableName =>
    (if c = wildcard then isHexDigit (variableName 0) else variableName 0 == c) &&
      fits pattern fun i => variableName (i + 1)

def Policy.covers (p : Policy) (variableName : Nat → Nat) (vendorGuid : List Byte) : Bool :=
  p.guid == vendorGuid && p.name.all fun pattern => fits pattern variableName

def Policy.priority (p : Policy) : Nat :=
  match p.name with
  | none => matchPriorityMin
  | some pattern => pattern.count wildcard

section Accepted

variable {address : Nat}

theorem fields_congr (h : ∀ i < sizeOfVariablePolicyEntry, m' i = m i) :
    size m' = size m ∧ offsetToName m' = offsetToName m ∧ namespaceGuid m' = namespaceGuid m ∧
      version m' = version m ∧ maxSize m' = maxSize m ∧ lockPolicyType m' = lockPolicyType m := by
  have h' : ∀ i < 44, m' i = m i := h
  refine ⟨readU16_congr fun i hi => h' _ (by omega), readU16_congr fun i hi => h' _ (by omega),
    slotRange_congr fun j _ hj => h' _ (by omega), readU32_congr fun i hi => h' _ (by omega),
    readU32_congr fun i hi => h' _ (by omega), ?_⟩
  rw [lockPolicyType, lockPolicyType, h' 40 (by omega)]

theorem isValid_iff :
    isValidVariablePolicyStructure address m = true ↔
      (address ≠ 0 ∧ sizeOfVariablePolicyEntry ≤ size m ∧ version m = variablePolicyEntryRevision) ∧
      address + size m < 2 ^ 64 ∧ maxSize m ≠ 0 ∧
      lockPolicyType m ≤ variablePolicyTypeLockOnVarState ∧
      lockPolicyOk address m = true ∧ policyNameOk m = true := by
  have hpos : sizeOfVariablePolicyEntry = 44 := rfl
  rw [isValidVariablePolicyStructure]
  constructor
  · intro h
    split at h
    case isTrue => cases h
    split at h
    case isTrue => cases h
    split at h
    case isTrue => cases h
    split at h
    case isTrue => cases h
    case isFalse hheader hmemo hmax htype =>
      cases hlock : lockPolicyOk address m with
      | false =>
        rw [hlock] at h
        cases h
      | true =>
        rw [hlock] at h
        simp only [not_or, not_not] at hheader
        exact ⟨⟨hheader.1, by omega, hheader.2.2.2⟩, by omega, hmax, by omega, rfl, h⟩
  · rintro ⟨⟨haddr, hsize, hver⟩, hmemo, hmax, htype, hlock, hname⟩
    have hheader : ¬ (address = 0 ∨ size m = 0 ∨ size m < sizeOfVariablePolicyEntry ∨
        version m ≠ variablePolicyEntryRevision) := by
      rintro (h | h | h | h)
      · exact haddr h
      · omega
      · omega
      · exact h hver
    rw [if_neg hheader, if_neg (by omega), if_neg hmax, if_neg (by omega), hlock, hname]
    rfl

theorem size_of_isValid (h : isValidVariablePolicyStructure address m = true) : 44 ≤ size m :=
  (isValid_iff.1 h).1.2.1

inductive NameOk (m : Memory) : Prop
  | whole (h : size m = offsetToName m)
  | named (chars : List Nat) (hrd : ReadsString (getPolicyName m) chars)
      (hsize : size m = offsetToName m + 2 * (chars.length + 1))
      (hcnt : chars.count wildcard ≤ matchPriorityMin)

theorem nameOk_of_isValid (h : isValidVariablePolicyStructure address m = true) : NameOk m := by
  obtain ⟨_, _, _, _, _, hname⟩ := isValid_iff.1 h
  rw [policyNameOk] at hname
  split at hname
  case isTrue hne =>
    obtain ⟨p, hp, hend⟩ := (any_eq_true _ _).1 hname
    obtain ⟨chars, hrd, rfl, hcnt⟩ := checkName_reads hp (Nat.zero_le _)
    have hend' := beq_iff_eq.1 hend
    exact .named chars hrd (by omega) (by omega)
  case isFalse heq => exact .whole (not_not.1 heq)

theorem NameOk.offset_le (h : NameOk m) : offsetToName m ≤ size m := by
  cases h with
  | whole h => omega
  | named chars _ hsize _ => omega

theorem isValid_congr (h : isValidVariablePolicyStructure address m = true)
    (hsame : ∀ i < size m, m' i = m i) : isValidVariablePolicyStructure address m' = true := by
  have hoff := (nameOk_of_isValid h).offset_le
  have hsize := size_of_isValid h
  obtain ⟨⟨haddr, _, hver⟩, hmemo, hmax, htype, hlock, hname⟩ := isValid_iff.1 h
  obtain ⟨hsize', hoff', _, hver', hmax', htype'⟩ :=
    fields_congr fun i hi => hsame i (hi.trans_le hsize)
  refine isValid_iff.2 ⟨⟨haddr, ?_, ?_⟩, ?_, ?_, ?_, ?_, ?_⟩
  · rwa [hsize']
  · rwa [hver']
  · rwa [hsize']
  · rwa [hmax']
  · rwa [htype']
  · rw [lockPolicyOk] at hlock ⊢
    rw [htype', hsize', hoff']
    split at hlock
    case isTrue ht =>
      dsimp only at hlock ⊢
      rw [if_pos ht]
      split at hlock
      case isTrue => cases hlock
      case isFalse hfit =>
        rw [if_neg hfit]
        obtain ⟨p, hp, hend⟩ := (any_eq_true _ _).1 hlock
        have hend' := beq_iff_eq.1 hend
        have hp' := (findTerminator_congr hp fun i hi => hsame i (by omega)).2
        exact (any_eq_true _ _).2 ⟨p, hp', hend⟩
    case isFalse ht =>
      rw [if_neg ht]
      exact hlock
  · rw [policyNameOk] at hname ⊢
    rw [hsize', hoff']
    split at hname
    case isTrue hne =>
      rw [if_pos hne]
      obtain ⟨p, hp, hend⟩ := (any_eq_true _ _).1 hname
      have hend' := beq_iff_eq.1 hend
      have hp' := (checkName_congr hp fun i hi => hsame i (by omega)).2
      exact (any_eq_true _ _).2 ⟨p, hp', hend⟩
    case isFalse heq =>
      rw [if_neg heq]

theorem ReadsString.congr (hrd : ReadsString (getPolicyName m) chars)
    (hsize : size m = offsetToName m + 2 * (chars.length + 1))
    (hoff : offsetToName m' = offsetToName m) (hsame : ∀ i < size m, m' i = m i) :
    ReadsString (getPolicyName m') chars := by
  refine ⟨hrd.nonzero, fun i hi => ?_⟩
  rw [← hrd.reads i hi, getPolicyName, getPolicyName, hoff]
  exact readU16_congr fun j hj => hsame _ (by omega)

theorem policyOf_named (hrd : ReadsString (getPolicyName m) chars)
    (hsize : size m = offsetToName m + 2 * (chars.length + 1)) :
    policyOf m = ⟨namespaceGuid m, some chars⟩ := by
  rw [policyOf, if_neg (by omega), show (size m - offsetToName m) / 2 - 1 = chars.length by omega,
    hrd.map_range]

theorem policyOf_whole (h : size m = offsetToName m) : policyOf m = ⟨namespaceGuid m, none⟩ := by
  rw [policyOf, if_pos h]

theorem policyOf_congr (h : isValidVariablePolicyStructure address m = true)
    (hsame : ∀ i < size m, m' i = m i) : policyOf m' = policyOf m := by
  have hsize := size_of_isValid h
  obtain ⟨hsize', hoff', hguid', _⟩ :=
    fields_congr fun i hi => hsame i (hi.trans_le hsize)
  cases nameOk_of_isValid h with
  | whole heq => rw [policyOf_whole heq, policyOf_whole (by omega), hguid']
  | named chars hrd hlen _ =>
    rw [policyOf_named hrd hlen, policyOf_named (hrd.congr hlen hoff' hsame) (by omega), hguid']

end Accepted

variable {variableName : Nat → Nat}

theorem matchName_eq {name : Nat → Nat} {pattern : List Nat} {rounds i priority : Nat}
    (hrd : ReadsString (fun j => name (i + j)) pattern)
    (hrnd : pattern.length < rounds)
    (hprio : priority + pattern.count wildcard ≤ matchPriorityMin) :
    matchName name variableName rounds i priority =
      if fits pattern (fun j => variableName (i + j)) then
        some (priority + pattern.count wildcard) else none := by
  induction pattern generalizing rounds i priority with
  | nil =>
    obtain ⟨rounds, rfl⟩ := Nat.exists_eq_succ_of_ne_zero (Nat.ne_zero_of_lt hrnd)
    have hzero : name i = 0 := hrd.reads 0 (Nat.zero_le _)
    rw [matchName, fits, hzero]
    by_cases hend : variableName i = 0
    · rw [if_pos ⟨rfl, hend⟩, if_pos (by simpa using hend)]
      rfl
    · rw [if_neg fun h => hend h.2, if_pos (.inl fun h => hend h.symm),
        if_neg (by simp [wildcard]), if_neg (by simpa using hend)]
  | cons c pattern ih =>
    obtain ⟨rounds, rfl⟩ := Nat.exists_eq_succ_of_ne_zero (Nat.ne_zero_of_lt hrnd)
    obtain ⟨hc, hne⟩ := hrd.head
    have hc' : name i = c := hc
    have htail : ReadsString (fun j => name (i + 1 + j)) pattern := by
      have := hrd.tail
      simpa only [add_assoc, add_comm 1] using this
    have hshift : (fun j => variableName (i + (j + 1))) = fun j => variableName (i + 1 + j) := by
      funext j
      rw [show i + (j + 1) = i + 1 + j by omega]
    rw [length_cons] at hrnd
    rw [matchName, fits, hc', if_neg fun h => hne h.1, hshift]
    by_cases hw : c = wildcard
    · have hcnt : (c :: pattern).count wildcard = pattern.count wildcard + 1 := by
        rw [hw, count_cons_self]
      rw [hcnt] at hprio ⊢
      rw [if_pos (.inr hw), if_pos hw]
      by_cases hdigit : isHexDigit (variableName i) = true
      · have hlt : priority < matchPriorityMin := by omega
        rw [if_pos ⟨hw, hdigit⟩, if_pos hlt, ih htail (by omega) (by omega)]
        simp only [add_zero, hdigit, Bool.true_and]
        rw [add_assoc, add_comm 1]
      · rw [if_neg fun h => hdigit h.2, if_neg (by simp [hdigit])]
    · have hcnt : (c :: pattern).count wildcard = pattern.count wildcard :=
        count_cons_of_ne hw
      rw [hcnt] at hprio ⊢
      rw [if_neg hw]
      by_cases hsame : variableName i = c
      · rw [if_neg (by rintro (h | h); exacts [h hsame.symm, hw h]),
          ih htail (by omega) (by omega)]
        simp [hsame]
      · rw [if_pos (.inl fun h => hsame h.symm), if_neg fun h => hw h.1, if_neg (by simp [hsame])]

theorem evaluatePolicyMatch_eq {address : Nat} {m : Memory} {guid : List Byte}
    (h : isValidVariablePolicyStructure address m = true) :
    evaluatePolicyMatch variableName guid m =
      if (policyOf m).covers variableName guid then some (policyOf m).priority else none := by
  rw [evaluatePolicyMatch]
  cases nameOk_of_isValid h with
  | whole heq =>
    rw [policyOf_whole heq, if_pos heq]
    by_cases hguid : namespaceGuid m = guid
    · rw [if_neg (not_not.2 hguid), if_pos (by simp [Policy.covers, hguid])]
      rfl
    · rw [if_pos hguid, if_neg (by simp [Policy.covers, hguid])]
  | named chars hrd hlen hcnt =>
    rw [policyOf_named hrd hlen, if_neg (by omega : size m ≠ offsetToName m)]
    by_cases hguid : namespaceGuid m = guid
    · have hloop : matchName (getPolicyName m) variableName (size m + 1) 0 matchPriorityExact =
          if fits chars (fun j => variableName (0 + j)) then
            some (matchPriorityExact + chars.count wildcard) else none := by
        apply matchName_eq
        · simpa only [zero_add] using hrd
        · omega
        · simpa [matchPriorityExact] using hcnt
      rw [if_neg (not_not.2 hguid), hloop]
      simp [Policy.covers, Policy.priority, hguid, matchPriorityExact]
    · rw [if_pos hguid, if_neg (by simp [Policy.covers, hguid])]

end MuBasecore.VariablePolicy
