import MuBasecore.VariablePolicy

/-!
Whole tables of variable policies: what every run of registrations keeps, when a
policy that is registered twice is noticed, and which policy the best match is.
-/

namespace MuBasecore.PolicyTable

open ByteMemory FirstMinimum SlotBuffer VariablePolicy List Option

variable {i : Nat} {p : Policy} {pattern : List Nat}

structure TableInv (g : PolicyModule) : Prop where
  initialized : g.initialized = true
  unlocked : g.interfaceLocked = false
  accepted : ∀ bytes ∈ g.policyTable,
    ∃ address, isValidVariablePolicyStructure address (entryMemory bytes) = true

variable {m : Memory}

theorem entryMemory_slotRange {n : Nat} (h : i < n) : entryMemory (slotRange m 0 n) i = m i := by
  rw [entryMemory, getD_eq_getElem _ _ (by rwa [length_slotRange])]
  simp [slotRange]

def PolicyModule.store (g : PolicyModule) (m : Memory) (tableSize : Nat) : PolicyModule :=
  { g with
    policyTable := g.policyTable ++ [slotRange m 0 (size m)]
    currentTableSize := tableSize
    currentTableUsage := g.currentTableUsage + size m }

theorem register_cases (avail : Bool) (address : Nat) (m : Memory) (g : PolicyModule) :
    (∃ status, status ≠ .success ∧ registerVariablePolicy avail address m g = (g, status)) ∨
    (isValidVariablePolicyStructure address m = true ∧ ∃ tableSize,
      registerVariablePolicy avail address m g = (PolicyModule.store g m tableSize, .success)) := by
  rw [registerVariablePolicy]
  split
  · exact .inl ⟨_, by decide, rfl⟩
  split
  · exact .inl ⟨_, by decide, rfl⟩
  split
  · exact .inl ⟨_, by decide, rfl⟩
  case isFalse hval =>
    have hval' : isValidVariablePolicyStructure address m = true := by simpa using hval
    dsimp only
    split
    · exact .inl ⟨_, by decide, rfl⟩
    split
    · exact .inl ⟨_, by decide, rfl⟩
    split
    · split
      · exact .inl ⟨_, by decide, rfl⟩
      split
      · exact .inl ⟨_, by decide, rfl⟩
      · exact .inr ⟨hval', _, rfl⟩
    · exact .inr ⟨hval', _, rfl⟩

variable {g : PolicyModule}

theorem registerVariablePolicy_inv (hinv : TableInv g) (address : Nat) :
    TableInv (registerVariablePolicy true address m g).1 := by
  rcases register_cases true address m g with ⟨_, _, h⟩ | ⟨hval, tableSize, h⟩
  · rw [h]
    exact hinv
  · rw [h]
    refine ⟨hinv.initialized, hinv.unlocked, fun bytes hmem => ?_⟩
    rcases mem_append.1 hmem with hmem | hmem
    · exact hinv.accepted bytes hmem
    · obtain rfl := mem_singleton.1 hmem
      exact ⟨address, isValid_congr hval fun i hi => entryMemory_slotRange hi⟩

theorem policies_register {address : Nat}
    (hok : (registerVariablePolicy true address m g).2 = .success) :
    policies (registerVariablePolicy true address m g).1 = policies g ++ [policyOf m] := by
  rcases register_cases true address m g with
    ⟨status, hstat, h⟩ | ⟨hval, tableSize, h⟩
  · rw [h] at hok
    exact absurd hok hstat
  · have hpol : policyOf (entryMemory (slotRange m 0 (size m))) = policyOf m :=
      policyOf_congr hval fun i hi => entryMemory_slotRange hi
    rw [h, policies, PolicyModule.store, map_append, map_singleton, hpol, policies]

theorem registerAll_inv (calls : List (Nat × Memory)) : TableInv (registerAll calls) := by
  have hrun : ∀ g, TableInv g → TableInv (calls.foldl
      (fun g call => (registerVariablePolicy true call.1 call.2 g).1) g) := by
    induction calls with
    | nil => exact fun g hinv => hinv
    | cons call calls ih =>
      intro g hinv
      exact ih _ (registerVariablePolicy_inv hinv call.1)
  apply hrun
  exact ⟨rfl, rfl, fun bytes hmem => by cases hmem⟩

variable {variableName : Nat → Nat} {vendorGuid : List Byte}

theorem score_eq (hinv : TableInv g) (i : Nat) :
    (g.policyTable[i]?).bind
        (fun bytes => evaluatePolicyMatch variableName vendorGuid (entryMemory bytes)) =
      ((policies g)[i]?).bind
        (fun p => if p.covers variableName vendorGuid then some p.priority else none) := by
  rw [policies, getElem?_map]
  cases hget : g.policyTable[i]? with
  | none => rfl
  | some bytes =>
    obtain ⟨address, hval⟩ := hinv.accepted bytes (mem_of_getElem? hget)
    exact evaluatePolicyMatch_eq hval

theorem score_some {s : Nat} :
    ((policies g)[i]?).bind
        (fun p => if p.covers variableName vendorGuid then some p.priority else none) = some s ↔
      ∃ p, (policies g)[i]? = some p ∧ p.covers variableName vendorGuid = true ∧
        p.priority = s := by
  rw [bind_eq_some_iff]
  simp

inductive BestMatch (ps : List Policy) (variableName : Nat → Nat) (vendorGuid : List Byte) :
    Option (Nat × Nat) → Prop
  | nothing (h : ∀ p ∈ ps, p.covers variableName vendorGuid = false) :
      BestMatch ps variableName vendorGuid none
  | policy (i : Nat) (p : Policy) (hget : ps[i]? = some p)
      (hcov : p.covers variableName vendorGuid = true)
      (hbest : ∀ j q, ps[j]? = some q → q.covers variableName vendorGuid = true →
        p.priority ≤ q.priority ∧ (q.priority = p.priority → i ≤ j)) :
      BestMatch ps variableName vendorGuid (some (i, p.priority))

theorem bestMatch_best (hinv : TableInv g) (variableName : Nat → Nat) (vendorGuid : List Byte) :
    BestMatch (policies g) variableName vendorGuid
      (getBestPolicyMatch g.policyTable variableName vendorGuid) := by
  have hspec := scan_spec
    (fun bytes => evaluatePolicyMatch variableName vendorGuid (entryMemory bytes)) g.policyTable
  rw [← getBestPolicyMatch] at hspec
  cases hbest : getBestPolicyMatch g.policyTable variableName vendorGuid with
  | none =>
    rw [hbest] at hspec
    refine .nothing fun p hp => ?_
    obtain ⟨i, hget⟩ := getElem?_of_mem hp
    have hnone := hspec i
    rw [score_eq hinv, hget] at hnone
    simpa using hnone
  | some b =>
    obtain ⟨i, s⟩ := b
    rw [hbest] at hspec
    have hattained := hspec.attained
    rw [score_eq hinv, score_some] at hattained
    obtain ⟨p, hget, hcov, rfl⟩ := hattained
    refine .policy i p hget hcov fun j q hget' hcov' => ⟨?_, fun heq => ?_⟩
    · apply hspec.le j
      rw [score_eq hinv]
      exact score_some.2 ⟨q, hget', hcov', rfl⟩
    · apply hspec.first j
      rw [score_eq hinv]
      exact score_some.2 ⟨q, hget', hcov', heq⟩

def MoreSpecific (p q : Policy) : Prop :=
  match p.name, q.name with
  | some pattern, some pattern' => pattern.count wildcard < pattern'.count wildcard
  | some _, none => True
  | none, _ => False

def MostSpecific (ps : List Policy) (variableName : Nat → Nat) (vendorGuid : List Byte)
    (i : Nat) : Prop :=
  ∃ p, ps[i]? = some p ∧ p.covers variableName vendorGuid = true ∧
    ∀ (j : Nat) (q : Policy), ps[j]? = some q → q.covers variableName vendorGuid = true →
      MoreSpecific p q ∨ (¬ MoreSpecific q p ∧ i ≤ j)

/-- No policy covers the variable, or the `i`th is the most specific that does. -/
def IsBestPolicy (ps : List Policy) (variableName : Nat → Nat) (vendorGuid : List Byte) :
    Option (Nat × Nat) → Prop
  | none => ∀ p ∈ ps, p.covers variableName vendorGuid = false
  | some (i, _) => MostSpecific ps variableName vendorGuid i

/-- A policy for the whole namespace has the priority of a name with 255 wildcards. It is
not taken for such a name if a name with fewer wildcards matches as well, or if some
matching name was registered before it. -/
def WildcardsTold (ps : List Policy) (variableName : Nat → Nat) (vendorGuid : List Byte) : Prop :=
  ∀ (i : Nat) (p : Policy), ps[i]? = some p → p.covers variableName vendorGuid = true →
    p.name = none → ∀ q ∈ ps, q.covers variableName vendorGuid = true → q.name ≠ none →
      ∃ (k : Nat) (q' : Policy) (pattern : List Nat), ps[k]? = some q' ∧
        q'.covers variableName vendorGuid = true ∧ q'.name = some pattern ∧
          (pattern.count wildcard < matchPriorityMin ∨ k < i)

theorem priority_whole (h : p.name = none) : p.priority = matchPriorityMin := by
  rw [Policy.priority, h]

theorem priority_named (h : p.name = some pattern) : p.priority = pattern.count wildcard := by
  rw [Policy.priority, h]

theorem TableInv.count_le (hinv : TableInv g) (hp : p ∈ policies g) (h : p.name = some pattern) :
    pattern.count wildcard ≤ matchPriorityMin := by
  obtain ⟨bytes, hmem, rfl⟩ := mem_map.1 hp
  obtain ⟨address, hval⟩ := hinv.accepted bytes hmem
  cases nameOk_of_isValid hval with
  | whole heq =>
    rw [policyOf_whole heq] at h
    cases h
  | named chars hrd hlen hcnt =>
    rw [policyOf_named hrd hlen] at h
    rwa [← some.inj h]

theorem mostSpecific_of_told (hinv : TableInv g)
    (htold : WildcardsTold (policies g) variableName vendorGuid)
    (hget : (policies g)[i]? = some p) (hcov : p.covers variableName vendorGuid = true)
    (hbest : ∀ j q, (policies g)[j]? = some q → q.covers variableName vendorGuid = true →
      p.priority ≤ q.priority ∧ (q.priority = p.priority → i ≤ j)) :
    MostSpecific (policies g) variableName vendorGuid i := by
  refine ⟨p, hget, hcov, fun j q hget' hcov' => ?_⟩
  obtain ⟨hle, hfst⟩ := hbest j q hget' hcov'
  cases hname : p.name with
  | some pattern =>
    rw [priority_named hname] at hle hfst
    cases hname' : q.name with
    | none => exact .inl (by simp [MoreSpecific, hname, hname'])
    | some pattern' =>
      rw [priority_named hname'] at hle hfst
      simp only [MoreSpecific, hname, hname']
      rcases lt_or_eq_of_le hle with hlt | heq
      · exact .inl hlt
      · exact .inr ⟨by omega, hfst heq.symm⟩
  | none =>
    rw [priority_whole hname] at hle hfst
    right
    cases hname' : q.name with
    | none => exact ⟨by simp [MoreSpecific, hname'], hfst (priority_whole hname')⟩
    | some pattern' =>
      -- the namespace was taken although a name matches: the name would have come first
      exfalso
      obtain ⟨k, q', pattern, hgetk, hcoversk, hnamek, hearly⟩ :=
        htold i p hget hcov hname q (mem_of_getElem? hget') hcov' (by simp [hname'])
      obtain ⟨hlek, hfirstk⟩ := hbest k q' hgetk hcoversk
      have hcnt := hinv.count_le (mem_of_getElem? hgetk) hnamek
      rw [priority_named hnamek, priority_whole hname] at hlek hfirstk
      rcases hearly with hfew | hpre
      · omega
      · have := hfirstk (by omega)
        omega

theorem told_of_mostSpecific (hinv : TableInv g) (hget : (policies g)[i]? = some p)
    (hbest : ∀ j q, (policies g)[j]? = some q → q.covers variableName vendorGuid = true →
      p.priority ≤ q.priority ∧ (q.priority = p.priority → i ≤ j))
    (h : MostSpecific (policies g) variableName vendorGuid i) :
    WildcardsTold (policies g) variableName vendorGuid := by
  obtain ⟨p', hget', hcov, hspecific⟩ := h
  obtain rfl := some.inj (hget.symm.trans hget')
  intro j w hgetw hcoversw hnamew q hq hcoversq hnameq
  obtain ⟨k, hgetq⟩ := getElem?_of_mem hq
  -- the choice has a name, since the match `q` has one
  obtain ⟨pattern, hname⟩ : ∃ pattern, p.name = some pattern := by
    cases hname : p.name with
    | some pattern => exact ⟨pattern, rfl⟩
    | none =>
      obtain ⟨pattern, hnameq'⟩ := ne_none_iff_exists'.1 hnameq
      have := hspecific k q hgetq hcoversq
      simp [MoreSpecific, hname, hnameq'] at this
  refine ⟨i, p, pattern, hget, hcov, hname, ?_⟩
  obtain ⟨hle, hfst⟩ := hbest j w hgetw hcoversw
  have hcnt := hinv.count_le (mem_of_getElem? hget) hname
  rw [priority_named hname, priority_whole hnamew] at hle hfst
  rcases lt_or_eq_of_le hcnt with hlt | heq
  · exact .inl hlt
  · refine .inr (Nat.lt_of_le_of_ne (hfst heq.symm) ?_)
    rintro rfl
    rw [hget] at hgetw
    obtain ⟨⟩ := hgetw
    rw [hname] at hnamew
    cases hnamew

/-- After any run of registrations the best match is the most specific policy, for exactly
those names for which no name with 255 wildcards is hidden by a whole namespace. -/
theorem getBestPolicyMatch_isBestPolicy_iff (calls : List (Nat × Memory))
    (variableName : Nat → Nat) (vendorGuid : List Byte) :
    IsBestPolicy (policies (registerAll calls)) variableName vendorGuid
        (getBestPolicyMatch (registerAll calls).policyTable variableName vendorGuid) ↔
      WildcardsTold (policies (registerAll calls)) variableName vendorGuid := by
  have hinv := registerAll_inv calls
  have hbest := bestMatch_best hinv variableName vendorGuid
  generalize getBestPolicyMatch (registerAll calls).policyTable variableName vendorGuid = best
    at hbest ⊢
  cases hbest with
  | nothing hnone =>
    refine ⟨fun _ i p hget hcovers => ?_, fun _ => hnone⟩
    rw [hnone p (mem_of_getElem? hget)] at hcovers
    cases hcovers
  | policy i p hget hcovers hbest =>
    exact ⟨told_of_mostSpecific hinv hget hbest,
      fun h => mostSpecific_of_told hinv h hget hcovers hbest⟩

theorem not_isBestPolicy (hinv : TableInv g) {guid : List Byte}
    (htab : policies g = [⟨guid, none⟩, ⟨guid, some pattern⟩])
    (hcnt : pattern.count wildcard = matchPriorityMin) (hfits : fits pattern variableName = true) :
    ¬ IsBestPolicy (policies g) variableName guid
      (getBestPolicyMatch g.policyTable variableName guid) := by
  have hbest := bestMatch_best hinv variableName guid
  generalize getBestPolicyMatch g.policyTable variableName guid = best at hbest ⊢
  rw [htab] at hbest ⊢
  have hwh : (Policy.mk guid none).covers variableName guid = true := by simp [Policy.covers]
  have hnamed : (Policy.mk guid (some pattern)).covers variableName guid = true := by
    simp [Policy.covers, hfits]
  cases hbest with
  | nothing h =>
    rw [h _ mem_cons_self] at hwh
    cases hwh
  | policy i p hget hcov hmin =>
    obtain ⟨hle, hfst⟩ := hmin 0 _ rfl hwh
    have hzero : i = 0 := by
      rcases i with _ | _ | i
      · rfl
      · obtain ⟨⟩ := hget
        exact Nat.le_zero.1 (hfst hcnt.symm)
      · simp at hget
    subst hzero
    rintro ⟨p', hget', _, hspecific⟩
    obtain ⟨⟩ := hget'
    rcases hspecific 1 _ rfl hnamed with h | ⟨h, _⟩
    · exact h
    · exact h trivial

def policyHeader (guid : List Byte) (size : Nat) : List Byte :=
  bytesU32 variablePolicyEntryRevision ++ [.ofNat 8 size, .ofNat 8 (size / 256)] ++ [44, 0] ++
    guid ++ bytesU32 0 ++ bytesU32 1 ++ bytesU32 0 ++ bytesU32 0 ++ [0, 0, 0, 0]

def sampleGuid : List Byte := List.replicate 16 7

def namespacePolicy : Memory := entryMemory (policyHeader sampleGuid 44)

def longPolicy : Memory := fun i =>
  if 44 ≤ i then if i % 2 = 0 ∧ i < 554 then .ofNat 8 wildcard else 0
  else (policyHeader sampleGuid 556).getD i 0

/-- A whole namespace is taken for a variable whose name a policy with 255 wildcards fits. -/
theorem getBestPolicyMatch_namespace_first :
    ¬ IsBestPolicy (policies (registerAll [(4096, namespacePolicy), (8192, longPolicy)]))
      (fun i => if i < 255 then 0x30 else 0) sampleGuid
      (getBestPolicyMatch (registerAll [(4096, namespacePolicy), (8192, longPolicy)]).policyTable
        (fun i => if i < 255 then 0x30 else 0) sampleGuid) := by
  have hfirst : policies (registerAll [(4096, namespacePolicy)]) = [⟨sampleGuid, none⟩] := by
    decide +kernel
  have hlong : policyOf longPolicy = ⟨sampleGuid, some (replicate 255 wildcard)⟩ := by
    decide +kernel
  have hsuccess : (registerVariablePolicy true 8192 longPolicy
      (registerAll [(4096, namespacePolicy)])).2 = .success := by
    decide +kernel
  have htable := policies_register hsuccess
  rw [hfirst, hlong] at htable
  exact not_isBestPolicy (registerAll_inv _) htable count_replicate_self (by decide +kernel)

end MuBasecore.PolicyTable
