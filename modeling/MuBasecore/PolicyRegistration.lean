import MuBasecore.PolicyTable

/-!
Policies that are registered twice. The table is searched for the name of the new
policy as if it were a variable, so a duplicate is noticed through the match of its
name with itself.
-/

namespace MuBasecore.PolicyRegistration

open ByteMemory SlotBuffer VariablePolicy PolicyTable List

variable {guid : List Byte} {chars : List Nat}

section Exact

variable {variableName : Nat → Nat}

theorem fits_iff_of_not_mem {pattern : List Nat} (hzero : 0 ∉ pattern) (hpln : wildcard ∉ pattern) :
    fits pattern variableName = true ↔ ReadsString variableName pattern := by
  induction pattern generalizing variableName with
  | nil =>
    rw [fits, beq_iff_eq]
    exact ⟨readsString_nil, fun h => h.reads 0 (Nat.zero_le _)⟩
  | cons c pattern ih =>
    rw [mem_cons, not_or] at hzero hpln
    rw [fits, if_neg fun h => hpln.1 h.symm, Bool.and_eq_true, beq_iff_eq, ih hzero.2 hpln.2]
    constructor
    · rintro ⟨rfl, htail⟩
      exact htail.cons fun h => hzero.1 h.symm
    · intro h
      exact ⟨h.head.1, h.tail⟩

def ExactIn (ps : List Policy) (guid : List Byte) (variableName : Nat → Nat) : Prop :=
  ∃ chars, ⟨guid, some chars⟩ ∈ ps ∧ wildcard ∉ chars ∧ ReadsString variableName chars

theorem nonzero_of_mem {g : PolicyModule} (hinv : TableInv g)
    (h : ⟨guid, some chars⟩ ∈ policies g) : 0 ∉ chars := by
  obtain ⟨bytes, hmem, hpol⟩ := mem_map.1 h
  obtain ⟨address, hval⟩ := hinv.accepted bytes hmem
  cases nameOk_of_isValid hval with
  | whole heq =>
    rw [policyOf_whole heq] at hpol
    cases hpol
  | named chars' hrd hlen hcnt =>
    rw [policyOf_named hrd hlen] at hpol
    cases hpol
    exact hrd.nonzero

theorem exact_iff {g : PolicyModule} (hinv : TableInv g) :
    (getBestPolicyMatch g.policyTable variableName guid).any
        (fun b => b.2 = matchPriorityExact) = true ↔
      ExactIn (policies g) guid variableName := by
  have hbest := bestMatch_best hinv variableName guid
  generalize getBestPolicyMatch g.policyTable variableName guid = best at hbest ⊢
  -- a policy of priority zero that matches has the text as its name
  have hzero : ∀ p ∈ policies g, p.covers variableName guid = true → p.priority = 0 →
      ExactIn (policies g) guid variableName := by
    rintro ⟨guid', name⟩ hp hcvr hprio
    rw [Policy.covers, Bool.and_eq_true, beq_iff_eq] at hcvr
    obtain ⟨rfl, hcvr⟩ := hcvr
    cases name with
    | none => cases hprio
    | some chars =>
      have hpln : wildcard ∉ chars := count_eq_zero.1 hprio
      have hfits : fits chars variableName = true := hcvr
      exact ⟨chars, hp, hpln, (fits_iff_of_not_mem (nonzero_of_mem hinv hp) hpln).1 hfits⟩
  have hcov : ∀ chars, ⟨guid, some chars⟩ ∈ policies g → wildcard ∉ chars →
      ReadsString variableName chars →
      (Policy.mk guid (some chars)).covers variableName guid = true := by
    intro chars hp hpln hrd
    have hfits := (fits_iff_of_not_mem (nonzero_of_mem hinv hp) hpln).2 hrd
    simpa [Policy.covers] using hfits
  cases hbest with
  | nothing hnone =>
    refine ⟨fun h => (by cases h), ?_⟩
    rintro ⟨chars, hp, hpln, hrd⟩
    have hcvr := hcov chars hp hpln hrd
    rw [hnone _ hp] at hcvr
    cases hcvr
  | policy i p hget hcvr hfst =>
    rw [Option.any_some, decide_eq_true_iff]
    refine ⟨hzero p (mem_of_getElem? hget) hcvr, ?_⟩
    rintro ⟨chars, hp, hpln, hrd⟩
    obtain ⟨j, hget'⟩ := List.getElem?_of_mem hp
    have hle := (hfst j _ hget' (hcov chars hp hpln hrd)).1
    have hprio : (Policy.mk guid (some chars)).priority = 0 := count_eq_zero.2 hpln
    rw [hprio] at hle
    exact Nat.le_zero.1 hle

end Exact

variable {g : PolicyModule} {address : Nat} {m : Memory}

section

variable (hinv : TableInv g) (hval : isValidVariablePolicyStructure address m = true)
include hinv hval

theorem register_started_iff :
    (registerVariablePolicy true address m g).2 = .alreadyStarted ↔
      ExactIn (policies g) (namespaceGuid m) (getPolicyName m) := by
  rw [← exact_iff hinv, registerVariablePolicy, hinv.initialized, hinv.unlocked, hval]
  simp only [Bool.not_true, Bool.false_eq_true, if_false]
  split
  case isTrue h => simp [h]
  case isFalse h =>
    refine ⟨fun hstat => ?_, fun h' => absurd h' h⟩
    split at hstat
    · cases hstat
    split at hstat
    · split at hstat <;> cases hstat
    · cases hstat

theorem register_congr {m' : Memory} (hsame : ∀ i < size m, m' i = m i)
    (hexact : ExactIn (policies g) (namespaceGuid m') (getPolicyName m') ↔
      ExactIn (policies g) (namespaceGuid m) (getPolicyName m)) :
    registerVariablePolicy true address m' g = registerVariablePolicy true address m g := by
  have hval' := isValid_congr hval hsame
  have hsize : size m' = size m :=
    (fields_congr fun i hi => hsame i (hi.trans_le (size_of_isValid hval))).1
  have hbyt : slotRange m' 0 (size m) = slotRange m 0 (size m) :=
    slotRange_congr fun j _ hj => hsame j (by omega)
  rw [← exact_iff hinv, ← exact_iff hinv, ← Bool.eq_iff_iff] at hexact
  rw [registerVariablePolicy, registerVariablePolicy, hval, hval', hsize, hbyt]
  dsimp only
  rw [hexact]

end

/-- A duplicate is noticed, whatever lies behind the structure. For a policy with a name
this asks that the name has no wildcard if it is in the table. A policy for a namespace
is compared through the bytes behind it, so no name of that namespace without wildcards
and no other policy for the whole of it may be in the table. -/
def DuplicateNoticed (ps : List Policy) (p : Policy) : Prop :=
  match p.name with
  | some chars => p ∈ ps → wildcard ∉ chars
  | none => ∀ q ∈ ps, q.guid = p.guid → ∃ chars, q.name = some chars ∧ wildcard ∈ chars

/-- A structure is reported as already there exactly if the table has its namespace and
name, and nothing but its `Size` bytes has a say in the outcome. -/
def RegistersOnce (g : PolicyModule) (address : Nat) (m : Memory) : Prop :=
  ∀ m' : Memory, (∀ i < size m, m' i = m i) →
    ((registerVariablePolicy true address m' g).2 = .alreadyStarted ↔ policyOf m ∈ policies g) ∧
    registerVariablePolicy true address m' g = registerVariablePolicy true address m g

theorem registersOnce_named (hinv : TableInv g)
    (hval : isValidVariablePolicyStructure address m = true)
    (hrd : ReadsString (getPolicyName m) chars)
    (hlen : size m = offsetToName m + 2 * (chars.length + 1)) :
    RegistersOnce g address m ↔ DuplicateNoticed (policies g) (policyOf m) := by
  have hpol := policyOf_named hrd hlen
  -- every memory with these bytes holds the same name
  have hexact : ∀ m' : Memory, (∀ i < size m, m' i = m i) →
      (ExactIn (policies g) (namespaceGuid m') (getPolicyName m') ↔
        policyOf m ∈ policies g ∧ wildcard ∉ chars) := by
    intro m' hsame
    obtain ⟨_, hoff', hguid', _⟩ :=
      fields_congr fun i hi => hsame i (hi.trans_le (size_of_isValid hval))
    have hrd' := hrd.congr hlen hoff' hsame
    rw [hguid', hpol]
    constructor
    · rintro ⟨chars', hmem, hpln, hsame'⟩
      obtain rfl := hrd'.unique hsame'
      exact ⟨hmem, hpln⟩
    · rintro ⟨hmem, hpln⟩
      exact ⟨chars, hmem, hpln, hrd'⟩
  have hself := hexact m fun i _ => rfl
  constructor
  · intro h
    rw [hpol]
    intro hmem
    have hst := (h m fun i _ => rfl).1.2 (hpol ▸ hmem)
    rw [register_started_iff hinv hval, hself] at hst
    exact hst.2
  · intro h m' hsame
    rw [hpol] at h
    have hpln : policyOf m ∈ policies g → wildcard ∉ chars := fun hmem => h (hpol ▸ hmem)
    refine ⟨?_, register_congr hinv hval hsame ((hexact m' hsame).trans hself.symm)⟩
    rw [register_started_iff hinv (isValid_congr hval hsame), hexact m' hsame]
    exact ⟨fun h => h.1, fun hmem => ⟨hmem, hpln hmem⟩⟩

def followedBy (m : Memory) (e : Memory) (a : Nat) : Memory := fun i =>
  if i < size m then m i else e (a + (i - size m))

theorem charsAt_followedBy (m e : Memory) (a : Nat) :
    charsAt (followedBy m e a) (size m) = charsAt e a := by
  funext i
  apply readU16_congr
  intro j _
  rw [followedBy, if_neg (by omega)]
  congr 1
  omega

theorem registersOnce_whole (hinv : TableInv g)
    (hval : isValidVariablePolicyStructure address m = true)
    (hwh : size m = offsetToName m) :
    RegistersOnce g address m ↔ DuplicateNoticed (policies g) (policyOf m) := by
  have hpol := policyOf_whole hwh
  rw [RegistersOnce, hpol]
  constructor
  · intro h
    -- what a registration does when the structure is followed by the bytes of `e`
    have hst : ∀ (e : Memory) (a : Nat), ExactIn (policies g) (namespaceGuid m) (charsAt e a) ↔
        ⟨namespaceGuid m, none⟩ ∈ policies g := by
      intro e a
      have hsame : ∀ i < size m, followedBy m e a i = m i := fun i hi => if_pos hi
      obtain ⟨_, hoff', hguid', _⟩ :=
        fields_congr fun i hi => hsame i (hi.trans_le (size_of_isValid hval))
      have hiff := (h _ hsame).1
      rw [register_started_iff hinv (isValid_congr hval hsame), hguid',
        getPolicyName, hoff', ← hwh, charsAt_followedBy] at hiff
      exact hiff
    have habs : ⟨namespaceGuid m, none⟩ ∉ policies g := by
      intro hmem
      obtain ⟨chars, _, _, hrd⟩ := (hst (fun _ => 1) 0).2 hmem
      have hend := hrd.reads chars.length le_rfl
      rw [getD_eq_default _ _ le_rfl] at hend
      cases hend
    rintro ⟨guid, name⟩ hq rfl
    cases name with
    | none => exact absurd hq habs
    | some chars =>
      refine ⟨chars, rfl, ?_⟩
      by_contra hpln
      obtain ⟨bytes, hmem, hbyt⟩ := mem_map.1 hq
      obtain ⟨address', hval'⟩ := hinv.accepted bytes hmem
      apply habs
      apply (hst (entryMemory bytes) (offsetToName (entryMemory bytes))).1
      cases nameOk_of_isValid hval' with
      | whole heq =>
        rw [policyOf_whole heq] at hbyt
        cases congrArg Policy.name hbyt
      | named chars' hrd hlen hcnt =>
        rw [policyOf_named hrd hlen] at hbyt
        obtain rfl : chars' = chars := Option.some.inj (congrArg Policy.name hbyt)
        exact ⟨chars', hq, hpln, hrd⟩
  · intro h m' hsame
    have habs : ⟨namespaceGuid m, none⟩ ∉ policies g := by
      intro hmem
      obtain ⟨chars, hname, _⟩ := h _ hmem rfl
      cases hname
    have hexact : ∀ variableName, ¬ ExactIn (policies g) (namespaceGuid m) variableName := by
      rintro variableName ⟨chars, hmem, hpln, _⟩
      obtain ⟨chars', hname, hwild⟩ := h _ hmem rfl
      cases hname
      exact hpln hwild
    have hguid' : namespaceGuid m' = namespaceGuid m :=
      (fields_congr fun i hi =>
        hsame i (hi.trans_le (size_of_isValid hval))).2.2.1
    refine ⟨?_, register_congr hinv hval hsame ?_⟩
    · rw [register_started_iff hinv (isValid_congr hval hsame), hguid']
      exact iff_of_false (hexact _) habs
    · rw [hguid']
      exact iff_of_false (hexact _) (hexact _)

/-- After any run of registrations, a valid structure is registered once and by its own
bytes only, exactly if a duplicate of it would be noticed. -/
theorem registerVariablePolicy_registersOnce_iff (calls : List (Nat × Memory)) (address : Nat)
    (m : Memory) (hvalid : isValidVariablePolicyStructure address m = true) :
    RegistersOnce (registerAll calls) address m ↔
      DuplicateNoticed (policies (registerAll calls)) (policyOf m) := by
  have hinv := registerAll_inv calls
  cases nameOk_of_isValid hvalid with
  | whole heq => exact registersOnce_whole hinv hvalid heq
  | named chars hreads hlength hcount => exact registersOnce_named hinv hvalid hreads hlength

/-- The policy for the variables `A0` to `AF`. -/
def patternPolicy : Memory :=
  entryMemory (policyHeader sampleGuid 50 ++ [0x41, 0, 0x23, 0, 0, 0])

/-- The policy for the variable `A`. -/
def plainPolicy : Memory :=
  entryMemory (policyHeader sampleGuid 48 ++ [0x41, 0, 0, 0])

theorem registerVariablePolicy_registersOnce_plain :
    RegistersOnce (registerAll [(4096, plainPolicy)]) 8192 plainPolicy := by
  apply (registerVariablePolicy_registersOnce_iff [(4096, plainPolicy)] 8192 plainPolicy
    (by decide +kernel)).2
  intro _
  decide

/-- A pattern is registered a second time. -/
theorem registerVariablePolicy_pattern_twice :
    isValidVariablePolicyStructure 8192 patternPolicy = true ∧
      ¬ RegistersOnce (registerAll [(4096, patternPolicy)]) 8192 patternPolicy := by
  refine ⟨by decide +kernel, fun h => ?_⟩
  have hmem : policyOf patternPolicy ∈ policies (registerAll [(4096, patternPolicy)]) := by
    decide +kernel
  have hstarted := (h patternPolicy fun i _ => rfl).1.2 hmem
  cases hstarted

end MuBasecore.PolicyRegistration
