import MuBasecore.PolicyHobs

/-!
The policy store of the PEI phase as a map from GUIDs to attributes and bytes, along
whole runs of calls.
-/

namespace MuBasecore.PeiPolicyRuns

open ByteMemory EfiTypes HobList SlotBuffer PeiPolicy PolicyHobs Function List

abbrev PolicyMap := GuidBytes → Option (Nat × List Byte)

def Represents (h : HobMemory) (policies : PolicyMap) : Prop :=
  ∃ l, StoreInv h l ∧ ∀ guid, contents h.memory l guid = policies guid

variable {m : Memory}

theorem bytes_of_readU16_zero {a : Nat} (h : readU16 m a = 0) :
    m a = 0 ∧ m (a + 1) = 0 := by
  rw [readU16] at h
  have hzero : (0 : Byte).toNat = 0 := rfl
  exact ⟨BitVec.eq_of_toNat_eq (by omega), BitVec.eq_of_toNat_eq (by omega)⟩

theorem peiPolicyNotify_eq {p : Nat} (h : notifyDepth m p = 0) :
    peiPolicyNotify p m = m := by
  obtain ⟨h0, h1⟩ := bytes_of_readU16_zero h
  rw [peiPolicyNotify, h]
  funext i
  change writeBytes (writeBytes m (p + 30) (bytesU16 1)) (p + 30) (bytesU16 0) i = m i
  obtain rfl | rfl | hi : i = p + 30 ∨ i = p + 30 + 1 ∨ (i < p + 30 ∨ p + 30 + 2 ≤ i) := by omega
  · rw [h0]
    exact writeBytes_add _ (p + 30) (l := bytesU16 0) (i := 0) (by decide)
  · rw [h1]
    exact writeBytes_add _ (p + 30) (l := bytesU16 0) (i := 1) (by decide)
  · rw [writeBytes_apart _ hi, writeBytes_apart _ hi]

theorem peiPolicyNotify_frame (m : Memory) {p i : Nat} (h : i < p + 30 ∨ p + 32 ≤ i) :
    peiPolicyNotify p m i = m i := by
  have hwr : ∀ (m : Memory) n, writeBytes m (p + 30) (bytesU16 n) i = m i :=
    fun m _ => writeBytes_apart m h
  rw [peiPolicyNotify]
  split
  · rw [hwr, hwr]
  · rw [hwr]

variable {n : Nat} {newAttributes : Nat} {policy : List Byte}

section Fill

variable {p : Nat}

theorem length_bytesU64 : (bytesU64 n).length = 8 := rfl

theorem length_bytesU16 : (bytesU16 n).length = 2 := rfl

theorem fillPolicy_frame {i : Nat}
    (h : i < p + 16 ∨ p + 26 ≤ i ∧ i < p + 32 ∨ p + 32 + policy.length ≤ i) :
    fillPolicy newAttributes policy p m i = m i := by
  have h32 : sizeOfPolicyHobHeader = 32 := rfl
  rw [fillPolicy, writeBytes_apart _ (by rw [h32]; omega),
    writeBytes_apart _ (by rw [length_bytesU64]; omega),
    writeBytes_apart _ (by rw [length_bytesU16]; omega)]

theorem fillPolicy_fields (hattrs : newAttributes < 2 ^ 64) (hlng : policy.length < 65536) :
    attributes (fillPolicy newAttributes policy p m) p = newAttributes ∧
      policySize (fillPolicy newAttributes policy p m) p = policy.length ∧
      policyData (fillPolicy newAttributes policy p m) p policy.length = policy ∧
      policyGuid (fillPolicy newAttributes policy p m) p = policyGuid m p ∧
      allocationSize (fillPolicy newAttributes policy p m) p = allocationSize m p ∧
      removed (fillPolicy newAttributes policy p m) p = removed m p ∧
      notifyDepth (fillPolicy newAttributes policy p m) p = notifyDepth m p := by
  have h32 : sizeOfPolicyHobHeader = 32 := rfl
  refine ⟨?_, ?_, ?_, ?_, ?_, ?_, ?_⟩
  · apply readU64_bytesU64 hattrs
    rw [fillPolicy, slotRange_write_apart (by rw [h32]; omega)]
    exact slotRange_write
  · apply readU16_bytesU16 hlng
    rw [fillPolicy, slotRange_write_apart (by rw [h32]; omega),
      slotRange_write_apart (by rw [length_bytesU64]; omega)]
    exact slotRange_write
  · rw [policyData, fillPolicy, h32]
    exact slotRange_write
  · exact readGuid_congr fun i hi => fillPolicy_frame (by omega)
  · exact readU16_congr fun i hi => fillPolicy_frame (by omega)
  · rw [removed, removed, fillPolicy_frame (by omega)]
  · exact readU16_congr fun i hi => fillPolicy_frame (by omega)

end Fill

variable {h : HobMemory} {l : List Nat} {guid : GuidBytes}

section Edits

variable {x : Nat}

theorem edit_fillPolicy (hinv : StoreInv h l) (hx : x ∈ l) (hlive : live h.memory guid x = true)
    (hattrs : newAttributes < 2 ^ 64)
    (hlng : policy.length < 65536)
    (hfits : policy.length ≤ allocationSize h.memory (x + sizeOfEfiHobGuidType)) :
    Edit h l x (fillPolicy newAttributes policy (x + sizeOfEfiHobGuidType) h.memory) := by
  have h24 : sizeOfEfiHobGuidType = 24 := rfl
  have h32 : sizeOfPolicyHobHeader = 32 := rfl
  have hpol := isGuidHob_of_live hlive
  obtain ⟨hroom, hsize, hqt⟩ := hinv.policy x hx hpol
  obtain ⟨_, hsize', _, hguid', halloc', _, hdep'⟩ :=
    fillPolicy_fields (m := h.memory) (p := x + sizeOfEfiHobGuidType) hattrs hlng
  have hfrm : ∀ i, i < x + sizeOfEfiHobGuidType ∨ x + hobLength h.memory x ≤ i →
      fillPolicy newAttributes policy (x + sizeOfEfiHobGuidType) h.memory i = h.memory i :=
    fun i hi => fillPolicy_frame (by omega)
  refine ⟨hx, hpol, hfrm, ⟨?_, ?_, ?_⟩, hguid'⟩
  · have hlen' : hobLength (fillPolicy newAttributes policy (x + sizeOfEfiHobGuidType) h.memory)
        x = hobLength h.memory x := readU16_congr fun i hi => hfrm _ (.inl (by omega))
    rw [halloc', hlen']
    exact hroom
  · rw [hsize', halloc']
    exact hfits
  · rw [hdep']
    exact hqt

theorem getLsbD_or_one (b : Byte) : (b ||| 1).getLsbD 0 = true := by
  simp

theorem edit_markRemoved (hinv : StoreInv h l) (hx : x ∈ l) (hlive : live h.memory guid x = true) :
    Edit h l x (markRemoved (x + sizeOfEfiHobGuidType) h.memory) ∧
      removed (markRemoved (x + sizeOfEfiHobGuidType) h.memory) (x + sizeOfEfiHobGuidType) = true
      ∧ notifyDepth (markRemoved (x + sizeOfEfiHobGuidType) h.memory)
        (x + sizeOfEfiHobGuidType) = 0 := by
  have h32 : sizeOfPolicyHobHeader = 32 := rfl
  have hpol := isGuidHob_of_live hlive
  obtain ⟨hroom, hsize, hqt⟩ := hinv.policy x hx hpol
  generalize hp : x + sizeOfEfiHobGuidType = p at *
  have hone : [h.memory (p + 28) ||| 1].length = 1 := rfl
  have hfrm : ∀ i, i ≠ p + 28 → markRemoved p h.memory i = h.memory i := by
    intro i hi
    exact writeBytes_apart h.memory (by omega)
  have hdep : notifyDepth (markRemoved p h.memory) p = 0 := by
    rw [← hqt]
    exact readU16_congr fun i hi => hfrm _ (by omega)
  have hrem : removed (markRemoved p h.memory) p = true := by
    have hbyte : markRemoved p h.memory (p + 28) = h.memory (p + 28) ||| 1 :=
      writeBytes_add h.memory (p + 28) (l := [h.memory (p + 28) ||| 1]) (i := 0) (by omega)
    rw [removed, hbyte, getLsbD_or_one]
  have halloc' : allocationSize (markRemoved p h.memory) p = allocationSize h.memory p :=
    readU16_congr fun i hi => hfrm _ (by omega)
  refine ⟨⟨hx, hpol, fun i hi => hfrm i (by omega), ⟨?_, ?_, ?_⟩, ?_⟩, hrem, hdep⟩
  · have hlen' : hobLength (markRemoved p h.memory) x = hobLength h.memory x :=
      readU16_congr fun i hi => hfrm _ (by omega)
    rw [hp, halloc', hlen']
    exact hroom
  · have hsize' : policySize (markRemoved p h.memory) p = policySize h.memory p :=
      readU16_congr fun i hi => hfrm _ (by omega)
    rw [hp, halloc', hsize']
    exact hsize
  · rw [hp]
    exact hdep
  · rw [hp]
    exact readGuid_congr fun i hi => hfrm _ (by omega)

end Edits

variable {h h' : HobMemory}

section Hobs

variable {hob : Nat}

theorem otherHob_kept (hinv : StoreInv h l) {type : Nat} {content : List Byte}
    (htype : type < efiHobTypeEndOfHobList)
    (hoth : type = efiHobTypeGuidExtension → 16 ≤ content.length ∧
      ∃ i : Fin 16, content.getD i 0 ≠ policyHobGuid i)
    (hmk : peiCreateHob type (sizeOfEfiHobGenericHeader + content.length) h = .ok (h', hob)) :
    ∃ l', StoreInv { h' with
        memory := writeBytes h'.memory (hob + sizeOfEfiHobGenericHeader) content } l' ∧
      ∀ guid, contents (writeBytes h'.memory (hob + sizeOfEfiHobGenericHeader) content) l' guid =
        contents h.memory l guid := by
  have h8 : sizeOfEfiHobGenericHeader = 8 := rfl
  have h24 : sizeOfEfiHobGuidType = 24 := rfl
  have happ := peiCreateHob_appended hinv.hobs htype (by omega) hmk
  have hle := happ.length_le
  have happ' : Appended h { h' with
      memory := writeBytes h'.memory (hob + sizeOfEfiHobGenericHeader) content } l hob type
      (sizeOfEfiHobGenericHeader + content.length) :=
    happ.fill fun i hi => writeBytes_apart _ (by omega)
  have hnot : isGuidHob (writeBytes h'.memory (hob + sizeOfEfiHobGenericHeader) content)
      policyHobGuid hob = false := by
    apply decide_eq_false
    rintro ⟨hguid, hname⟩
    obtain ⟨hlng, i, hi⟩ := hoth (happ'.type ▸ hguid)
    apply hi
    rw [← hname, getD_eq_getElem _ _ (by omega : i.val < content.length)]
    exact (writeBytes_add _ _ _).symm
  have hdead : ∀ guid, live (writeBytes h'.memory (hob + sizeOfEfiHobGenericHeader) content)
      guid hob = false := by
    intro guid
    rw [live, hnot, Bool.false_and]
  have hinv' := hinv.append happ' (fun h4 => by have := (hoth h4).1; omega)
    (fun hp => by rw [hnot] at hp; cases hp) (fun guid hl => by rw [hdead guid] at hl; cases hl)
  exact ⟨_, hinv', fun guid => contents_append_other hinv happ' hinv' (hdead guid)⟩

theorem finishSet_kept (hinv : StoreInv h l) {p : Nat} (hdep : notifyDepth h.memory p = 0)
    (ppi : EfiStatus) (guid : GuidBytes) (newAttributes : Nat) :
    ∃ l', StoreInv (finishSet ppi guid newAttributes p h).1 l' ∧
      (∀ g, contents (finishSet ppi guid newAttributes p h).1.memory l' g = contents h.memory l g) ∧
      ((isFinalized newAttributes = true → ppi = .success ∧ 48 ≤ h.freeMemory) →
        (finishSet ppi guid newAttributes p h).2 = .success) := by
  have h8 : sizeOfEfiHobGenericHeader = 8 := rfl
  rw [finishSet, peiPolicyNotify_eq hdep]
  split
  case isFalse => exact ⟨l, hinv, fun _ => rfl, fun _ => rfl⟩
  case isTrue hfinal =>
    rw [peiInstallPolicyIndicatorPpi]
    have hlng : ∀ a, (ppiDescriptorBytes guid a).length = 40 := fun _ => by
      simp [ppiDescriptorBytes, length_bytesU64]
    cases hmk : peiCreateHob efiHobTypeMemoryPool (sizeOfEfiHobGenericHeader + 40) h with
    | error status =>
      refine ⟨l, hinv, fun _ => rfl, fun hroom => ?_⟩
      have hok : ∃ h' hob, peiCreateHob efiHobTypeMemoryPool (sizeOfEfiHobGenericHeader + 40) h =
          .ok (h', hob) := peiCreateHob_ok (by omega) (by have := (hroom hfinal).2; omega)
      obtain ⟨h', hob, hok⟩ := hok
      rw [hmk] at hok
      cases hok
    | ok r =>
      obtain ⟨h', hob⟩ := r
      rw [← hlng (hob + sizeOfEfiHobGenericHeader)] at hmk
      obtain ⟨l', hinv', hsame⟩ := otherHob_kept hinv (by decide) (fun h => by cases h) hmk
      exact ⟨l', hinv', hsame, fun hroom => (hroom hfinal).1⟩

end Hobs

def hobSize (size : Nat) : Nat :=
  (sizeOfEfiHobGuidType + sizeOfPolicyHobHeader + size + 7) / 8 * 8

def CanCreate (h : HobMemory) (size : Nat) : Prop :=
  size ≤ 0xFFF8 - (sizeOfEfiHobGuidType + sizeOfPolicyHobHeader) ∧ hobSize size ≤ h.freeMemory

/-- The 16-bit length of the HOB does not wrap. -/
def NoWrap (size : Nat) : Prop :=
  sizeOfEfiHobGuidType + sizeOfPolicyHobHeader + size ≤ 0xFFFF ∨
    0xFFFF < sizeOfPolicyHobHeader + size

section Create

variable {hob p : Nat}

theorem readGuid_writeBytes (m : Memory) (a : Nat) (guid : GuidBytes) :
    readGuid (writeBytes m a (List.ofFn guid)) a = guid := by
  funext i
  have hi : i.val < (List.ofFn guid).length := by simp
  rw [readGuid, writeBytes_add m a hi, List.getElem_ofFn]

theorem createdHob_appended (hattrs : newAttributes < 2 ^ 64) (hlng : policy.length < 65536)
    (happ : Appended h h' l hob efiHobTypeGuidExtension
      (sizeOfEfiHobGuidType + sizeOfPolicyHobHeader + policy.length)) {m₀ : Memory}
    (hm₀ : m₀ = writeBytes h'.memory (hob + 8) (List.ofFn policyHobGuid))
    (hm : m = fillPolicy newAttributes policy (hob + sizeOfEfiHobGuidType)
      (writeBytes
        (writeBytes (writeBytes m₀ (hob + sizeOfEfiHobGuidType) (replicate sizeOfPolicyHobHeader 0))
          (hob + sizeOfEfiHobGuidType + 26) (bytesU16 policy.length))
        (hob + sizeOfEfiHobGuidType) (List.ofFn guid))) :
    Appended h { h' with memory := m } l hob efiHobTypeGuidExtension
        (sizeOfEfiHobGuidType + sizeOfPolicyHobHeader + policy.length) ∧
      isGuidHob m policyHobGuid hob = true ∧ PolicyOk m hob ∧
      removed m (hob + sizeOfEfiHobGuidType) = false ∧
      policyGuid m (hob + sizeOfEfiHobGuidType) = guid ∧
      entry m hob = (newAttributes, policy) := by
  have h24 : sizeOfEfiHobGuidType = 24 := rfl
  have h32 : sizeOfPolicyHobHeader = 32 := rfl
  have hle := happ.length_le
  have hguid : ∀ guid : GuidBytes, (List.ofFn guid).length = 16 := fun _ => length_ofFn
  have hzeros : (replicate sizeOfPolicyHobHeader (0 : Byte)).length = 32 :=
    length_replicate
  rw [h24] at hm
  generalize hm₁ : writeBytes m₀ (hob + 24) (replicate sizeOfPolicyHobHeader 0) = m₁ at hm
  generalize hm₂ : writeBytes m₁ (hob + 24 + 26) (bytesU16 policy.length) = m₂ at hm
  generalize hm₃ : writeBytes m₂ (hob + 24) (List.ofFn guid) = m₃ at hm
  -- behind the name of the HOB everything is written into the header or behind it
  have hfrm₀ : ∀ i, i < hob + 24 ∨ hob + hobLength h'.memory hob ≤ i → m i = m₀ i := by
    intro i hi
    rw [hm, fillPolicy_frame (by omega), ← hm₃, writeBytes_apart _ (by rw [hguid]; omega), ← hm₂,
      writeBytes_apart _ (by rw [length_bytesU16]; omega), ← hm₁,
      writeBytes_apart _ (by rw [hzeros]; omega)]
  have hfrm : ∀ i, i < hob + 8 ∨ hob + hobLength h'.memory hob ≤ i → m i = h'.memory i := by
    intro i hi
    rw [hfrm₀ i (by omega), hm₀, writeBytes_apart _ (by rw [hguid]; omega)]
  have happ' := happ.fill hfrm
  have hname : readGuid m (hob + 8) = policyHobGuid := by
    rw [← readGuid_writeBytes h'.memory (hob + 8) policyHobGuid, ← hm₀]
    exact readGuid_congr fun i hi => hfrm₀ _ (by omega)
  have hpol : isGuidHob m policyHobGuid hob = true := decide_eq_true ⟨happ'.type, hname⟩
  -- the fields before the policy is filled
  have hzero : ∀ i < 32, m₁ (hob + 24 + i) = 0 := by
    intro i hi
    rw [← hm₁, writeBytes_add _ _ (by rw [hzeros]; omega), getElem_replicate]
  have hbyt : ∀ i, 28 ≤ i → i < 32 → m₃ (hob + 24 + i) = 0 := by
    intro i hlow hi
    rw [← hzero i hi, ← hm₃, ← hm₂]
    rw [writeBytes_of_le _ _ (by rw [hguid]; omega),
      writeBytes_of_le _ _ (by rw [length_bytesU16]; omega)]
  have halloc₃ : allocationSize m₃ (hob + 24) = policy.length := by
    rw [allocationSize, ← hm₃, readU16_writeBytes_apart (by rw [hguid]; omega), ← hm₂]
    exact readU16_writeBytes hlng
  have hrem₃ : removed m₃ (hob + 24) = false := by
    rw [removed, hbyt 28 (by omega) (by omega)]
    rfl
  have hdep₃ : notifyDepth m₃ (hob + 24) = 0 := by
    have h30 := hbyt 30 (by omega) (by omega)
    have h31 := hbyt 31 (by omega) (by omega)
    rw [notifyDepth, readU16, h30, add_assoc _ 30 1, h31]
    rfl
  have hguid₃ : policyGuid m₃ (hob + 24) = guid := by
    rw [policyGuid, ← hm₃, readGuid_writeBytes]
  obtain ⟨hattr, hsize, hdata, hpguid, halloc, hrem, hdep⟩ :=
    fillPolicy_fields (m := m₃) (p := hob + 24) hattrs hlng
  rw [← hm] at hattr hsize hdata hpguid halloc hrem hdep
  have hlen : hobLength m hob = hobLength h'.memory hob :=
    readU16_congr fun i hi => hfrm _ (.inl (by omega))
  refine ⟨happ', hpol, ⟨?_, ?_, ?_⟩, ?_, ?_, ?_⟩
  · rw [hlen, h24, halloc, halloc₃]
    exact hle
  · rw [h24, hsize, halloc, halloc₃]
  · rw [h24, hdep, hdep₃]
  · rw [h24, hrem, hrem₃]
  · rw [h24, hpguid, hguid₃]
  · rw [entry, h24, hattr, hsize, hdata]

theorem createPolicy_cases (hinv : StoreInv h l) (hdead : ∀ x ∈ l, live h.memory guid x = false)
    (hattrs : newAttributes < 2 ^ 64)
    (hlng : policy.length < 65536) (hwrap : NoWrap policy.length) (ppi : EfiStatus) :
    (¬ CanCreate h policy.length ∧ ∃ status, status ≠ .success ∧
      createPolicy ppi guid newAttributes policy h = (h, status)) ∨
    (CanCreate h policy.length ∧ ∃ l',
      StoreInv (createPolicy ppi guid newAttributes policy h).1 l' ∧
      contents (createPolicy ppi guid newAttributes policy h).1.memory l' guid =
        some (newAttributes, policy) ∧
      (∀ g, g ≠ guid →
        contents (createPolicy ppi guid newAttributes policy h).1.memory l' g =
          contents h.memory l g) ∧
      ((isFinalized newAttributes = true → ppi = .success ∧
          hobSize policy.length + 48 ≤ h.freeMemory) →
        (createPolicy ppi guid newAttributes policy h).2 = .success)) := by
  have h24 : sizeOfEfiHobGuidType = 24 := rfl
  have h32 : sizeOfPolicyHobHeader = 32 := rfl
  rw [createPolicy, peiCreatePolicyHob]
  by_cases hlarge : 0xFFFF < sizeOfPolicyHobHeader + policy.length
  · rw [if_pos hlarge]
    refine .inl ⟨fun hcan => ?_, .badBufferSize, by decide, rfl⟩
    have := hcan.1
    omega
  · rw [if_neg hlarge]
    have hmod : (sizeOfEfiHobGuidType + (sizeOfPolicyHobHeader + policy.length)) % 2 ^ 16 =
        sizeOfEfiHobGuidType + sizeOfPolicyHobHeader + policy.length := by
      rcases hwrap with hwrap | hwrap <;> omega
    rw [buildGuidHob, hmod]
    cases hmk : peiCreateHob efiHobTypeGuidExtension
        (sizeOfEfiHobGuidType + sizeOfPolicyHobHeader + policy.length) h with
    | error status =>
      refine .inl ⟨fun hcan => ?_, .outOfResources, by decide, rfl⟩
      have hok : ∃ h' hob, peiCreateHob efiHobTypeGuidExtension
          (sizeOfEfiHobGuidType + sizeOfPolicyHobHeader + policy.length) h = .ok (h', hob) :=
        peiCreateHob_ok (by have := hcan.1; omega) hcan.2
      obtain ⟨h', hob, hok⟩ := hok
      rw [hmk] at hok
      cases hok
    | ok r =>
      obtain ⟨h', hob⟩ := r
      have happ := peiCreateHob_appended hinv.hobs (by decide) (by omega) hmk
      have hroom := happ.room
      rw [happ.length_eq] at hroom
      have hcan : CanCreate h policy.length := ⟨by have := happ.fits; omega, hroom⟩
      refine .inr ⟨hcan, ?_⟩
      obtain ⟨happ', hpol, hok, hrem, hguid, hent⟩ :=
        createdHob_appended hattrs hlng happ rfl rfl
      dsimp only
      generalize fillPolicy newAttributes policy (hob + sizeOfEfiHobGuidType) _ = m at *
      have hlive : live m guid hob = true := live_iff.2 ⟨hpol, hrem, hguid.symm⟩
      have honly : ∀ g, live m g hob = true → g = guid := fun g hl =>
        (live_iff.1 hl).2.2.trans hguid
      have hinv' := hinv.append happ' (fun _ => by omega) (fun _ => hok)
        (fun g hl x hx => by rw [honly g hl]; exact hdead x hx)
      obtain ⟨l', hinv'', hsame, hstat⟩ :=
        finishSet_kept hinv' hok.quiet ppi guid newAttributes
      refine ⟨l', hinv'', ?_, ?_, ?_⟩
      · rw [hsame, hinv'.contents_eq (mem_append_right _ (mem_singleton_self _)) hlive, hent]
      · intro g hg
        rw [hsame]
        apply contents_append_other hinv happ' hinv'
        rw [Bool.eq_false_iff]
        exact fun hl => hg (honly g hl)
      · intro hfinal
        apply hstat
        intro hf
        obtain ⟨hppi, hfree⟩ := hfinal hf
        refine ⟨hppi, ?_⟩
        rw [freeMemory_appended hinv happ' hinv']
        rw [hobSize] at hfree
        omega

end Create

def PolicyMap.after (policies : PolicyMap) (status : EfiStatus) : Call → PolicyMap
  | .set _ guid newAttributes policy =>
    if status = .success then Function.update policies guid (some (newAttributes.toNat, policy))
    else policies
  | .remove _ guid =>
    if status = .success then Function.update policies guid none else policies
  | .get .. | .otherHob .. | .otherMemory .. => policies

def PpiInstalls (h : HobMemory) (ppiStatus : EfiStatus) (newAttributes taken : Nat) : Prop :=
  isFinalized newAttributes = true → ppiStatus = .success ∧ taken + 48 ≤ h.freeMemory

/-- The calls for which the store keeps to the map. A set must not make the 16-bit length
of a HOB wrap, a policy that outgrows its HOB must get a new one, and the PPI of a final
policy must be installed. When a policy to be removed is missing, the counter that the
stray pointer reaches must be zero or outside of the list. -/
def Allowed (h : HobMemory) : Call → Prop
  | .set ppiStatus guid newAttributes policy =>
    1 ≤ policy.length ∧ policy.length < 65536 ∧
      match peiGetPolicyHob guid h with
      | none =>
        NoWrap policy.length ∧ (CanCreate h policy.length →
          PpiInstalls h ppiStatus newAttributes.toNat (hobSize policy.length))
      | some p =>
        isFinalized (attributes h.memory p) = true ∨
        (policy.length ≤ allocationSize h.memory p ∧
          PpiInstalls h ppiStatus newAttributes.toNat 0) ∨
        (allocationSize h.memory p < policy.length ∧ CanCreate h policy.length ∧
          PpiInstalls h ppiStatus newAttributes.toNat (hobSize policy.length))
  | .get .. => True
  | .remove stray guid =>
    peiGetPolicyHob guid h = none → stray + 32 ≤ h.hobList ∨
      h.endOfHobList + sizeOfEfiHobGenericHeader ≤ stray + 30 ∨ notifyDepth h.memory stray = 0
  | .otherHob type content =>
    type < efiHobTypeEndOfHobList ∧ (type = efiHobTypeGuidExtension → 16 ≤ content.length ∧
      ∃ i : Fin 16, content.getD i 0 ≠ policyHobGuid i)
  | .otherMemory freeMemoryTop => h.freeMemoryBottom ≤ freeMemoryTop ∧ freeMemoryTop < 2 ^ 64

variable {ppi : EfiStatus} {newAttributes : BitVec 64}

section Steps

variable {policies : PolicyMap}

theorem represents_update {l' : List Nat} {value : Option (Nat × List Byte)}
    (hinv : StoreInv h' l') (hsame : ∀ g, contents h.memory l g = policies g)
    (hguid : contents h'.memory l' guid = value)
    (hoth : ∀ g, g ≠ guid → contents h'.memory l' g = contents h.memory l g) :
    Represents h' (update policies guid value) := by
  refine ⟨l', hinv, fun g => ?_⟩
  by_cases hg : g = guid
  · subst hg
    rw [hguid, update_self]
  · rw [hoth g hg, hsame, update_of_ne hg]

theorem createPolicy_represents (hinv : StoreInv h l)
    (hdead : ∀ x ∈ l, live h.memory guid x = false)
    (hlng : policy.length < 65536)
    (hwrap : NoWrap policy.length)
    (hppi : CanCreate h policy.length →
      PpiInstalls h ppi newAttributes.toNat (hobSize policy.length)) :
    (¬ CanCreate h policy.length ∧ ∃ status, status ≠ .success ∧
      createPolicy ppi guid newAttributes.toNat policy h = (h, status)) ∨
    (createPolicy ppi guid newAttributes.toNat policy h).2 = .success ∧
      ∀ policies : PolicyMap, (∀ g, g ≠ guid → contents h.memory l g = policies g) →
        Represents (createPolicy ppi guid newAttributes.toNat policy h).1
          (update policies guid (some (newAttributes.toNat, policy))) := by
  rcases createPolicy_cases hinv hdead newAttributes.isLt hlng hwrap ppi with
    hfail | ⟨hcan, l', hinv', hguid, hoth, hstat⟩
  · exact .inl hfail
  · refine .inr ⟨hstat (hppi hcan), fun policies hsame => ⟨l', hinv', fun g => ?_⟩⟩
    by_cases hg : g = guid
    · subst hg
      rw [hguid, update_self]
    · rw [hoth g hg, hsame g hg, update_of_ne hg]

section

variable (hinv : StoreInv h l) (hsame : ∀ g, contents h.memory l g = policies g)
include hinv hsame

theorem peiSetPolicy_represents (halw : Allowed h (.set ppi guid newAttributes policy)) :
    Represents (peiSetPolicy ppi guid newAttributes.toNat policy h).1
      (policies.after (peiSetPolicy ppi guid newAttributes.toNat policy h).2
        (.set ppi guid newAttributes policy)) := by
  obtain ⟨hpos, hlng, halw⟩ := halw
  rw [peiSetPolicy, if_neg (by omega)]
  rcases hinv.lookup guid with ⟨hget, _, hdead⟩ | ⟨x, hx, hlive, hget, hent⟩
  · rw [hget] at halw ⊢
    rcases createPolicy_represents hinv hdead hlng halw.1 halw.2 with
      ⟨_, status, hstat, hfail⟩ | ⟨hstat, hnew⟩
    · rw [hfail]
      refine ⟨l, hinv, fun g => ?_⟩
      rw [PolicyMap.after, if_neg hstat, hsame]
    · rw [PolicyMap.after, if_pos hstat]
      exact hnew policies fun g _ => hsame g
  · rw [hget] at halw ⊢
    dsimp only at halw ⊢
    split
    case isTrue hfinal =>
      refine ⟨l, hinv, fun g => ?_⟩
      rw [PolicyMap.after, if_neg (fun h => nomatch h), hsame]
    case isFalse hopen =>
      rcases halw with hfinal | ⟨hfits, hppi⟩ | ⟨hgrows, hcan, hppi⟩
      · exact absurd hfinal hopen
      · -- the policy is rewritten in its HOB
        rw [if_pos hfits]
        have hedit := edit_fillPolicy hinv hx hlive newAttributes.isLt hlng hfits
        obtain ⟨hattr, hsize, hdata, _, _, hrem, _⟩ := fillPolicy_fields (m := h.memory)
          (p := x + sizeOfEfiHobGuidType) newAttributes.isLt hlng
        have hkeep : removed h.memory (x + sizeOfEfiHobGuidType) = true →
            removed (fillPolicy newAttributes.toNat policy (x + sizeOfEfiHobGuidType) h.memory)
              (x + sizeOfEfiHobGuidType) = true := fun h => by rw [hrem, h]
        have hinv' := hedit.inv hinv hkeep
        obtain ⟨l', hinv'', hkept, hstat⟩ := finishSet_kept hinv' hedit.ok.quiet ppi guid
          newAttributes.toNat
        obtain ⟨hpol, hlive', hguid⟩ := live_iff.1 hlive
        rw [PolicyMap.after, if_pos (hstat hppi)]
        refine represents_update hinv'' hsame ?_ ?_
        · have hnow : live (fillPolicy newAttributes.toNat policy (x + sizeOfEfiHobGuidType)
              h.memory) guid x = true := by
            refine live_iff.2 ⟨?_, ?_, ?_⟩
            · rw [hedit.header.2.2]
              exact hpol
            · rw [hrem, hlive']
            · rw [hedit.guid, hguid]
          rw [hkept, hinv'.contents_eq hx hnow, entry, hattr, hsize, hdata]
        · intro g hg
          rw [hkept]
          exact hedit.contents_other hinv hkeep (hguid ▸ hg)
      · -- the policy moves to a new HOB
        rw [if_neg (by omega)]
        obtain ⟨hedit, hrem, _⟩ := edit_markRemoved hinv hx hlive
        have hinv' := hedit.inv hinv fun _ => hrem
        have hdead : ∀ y ∈ l, live (markRemoved (x + sizeOfEfiHobGuidType) h.memory) guid y =
            false := by
          intro y hy
          rw [Bool.eq_false_iff]
          intro hly
          have hpre := hedit.live_before hinv (fun _ => hrem) hy hly
          obtain rfl := hinv.unique y hy x hx guid hpre hlive
          rw [(live_iff.1 hly).2.1] at hrem
          cases hrem
        have hguid := (live_iff.1 hlive).2.2
        have hcan' : CanCreate { h with
            memory := markRemoved (x + sizeOfEfiHobGuidType) h.memory } policy.length := hcan
        have hwrap : NoWrap policy.length := .inl (by have := hcan.1; omega)
        rcases createPolicy_represents hinv' hdead hlng hwrap (fun _ => hppi) with
          ⟨hcannot, _⟩ | ⟨hstat, hnew⟩
        · exact absurd hcan' hcannot
        · rw [PolicyMap.after, if_pos hstat]
          refine hnew policies fun g hg => ?_
          rw [← hsame]
          exact hedit.contents_other hinv (fun _ => hrem) (hguid ▸ hg)

theorem peiRemovePolicy_represents {stray : Nat} (halw : Allowed h (.remove stray guid)) :
    Represents (peiRemovePolicy stray guid h).1
      (policies.after (peiRemovePolicy stray guid h).2 (.remove stray guid)) := by
  rw [peiRemovePolicy]
  rcases hinv.lookup guid with ⟨hget, _, _⟩ | ⟨x, hx, hlive, hget, _⟩
  · rw [hget]
    rw [PolicyMap.after, if_neg (fun h => nomatch h)]
    have hkept : StoreInv { h with memory := peiPolicyNotify stray h.memory } l ∧
        ∀ g, contents (peiPolicyNotify stray h.memory) l g = contents h.memory l g := by
      rcases halw hget with hbel | habv | hzero
      · exact hinv.agree fun i hlow _ => peiPolicyNotify_frame _ (by omega)
      · exact hinv.agree fun i _ hhigh => peiPolicyNotify_frame _ (by omega)
      · rw [peiPolicyNotify_eq hzero]
        exact ⟨hinv, fun _ => rfl⟩
    exact ⟨l, hkept.1, fun g => by rw [hkept.2 g, hsame g]⟩
  · rw [hget]
    dsimp only
    obtain ⟨hedit, hrem, hdep⟩ := edit_markRemoved hinv hx hlive
    rw [peiPolicyNotify_eq hdep, PolicyMap.after, if_pos rfl]
    refine represents_update (hedit.inv hinv fun _ => hrem) hsame
      (hedit.contents_removed hinv hlive hrem) fun g hg => ?_
    exact hedit.contents_other hinv (fun _ => hrem) ((live_iff.1 hlive).2.2 ▸ hg)

end

theorem Call.run_represents {call : Call} (hrep : Represents h policies) (halw : Allowed h call) :
    Represents (call.run h).1 (policies.after (call.run h).2 call) := by
  obtain ⟨l, hinv, hsame⟩ := hrep
  cases call with
  | set ppi guid newAttributes policy => exact peiSetPolicy_represents hinv hsame halw
  | get guid size => exact ⟨l, hinv, hsame⟩
  | remove stray guid => exact peiRemovePolicy_represents hinv hsame halw
  | otherHob type content =>
    rw [Call.run, createOtherHob]
    cases hmk : peiCreateHob type (sizeOfEfiHobGenericHeader + content.length) h with
    | error status => exact ⟨l, hinv, hsame⟩
    | ok r =>
      obtain ⟨h', hob⟩ := r
      obtain ⟨l', hinv', hkept⟩ := otherHob_kept hinv halw.1 halw.2 hmk
      exact ⟨l', hinv', fun g => (hkept g).trans (hsame g)⟩
  | otherMemory freeMemoryTop =>
    exact ⟨l, ⟨⟨hinv.hobs.aligned, hinv.hobs.log, hinv.hobs.closed⟩, hinv.guidHob, hinv.policy,
      hinv.unique, hinv.bottom, halw.1, halw.2⟩, hsame⟩

end Steps

/-- What `PeiGetPolicy` is to return for a stored value and a buffer of a size. -/
def getSpec (bufferSize : Nat) : Option (Nat × List Byte) → GetResult
  | none => { status := .notFound }
  | some (value, bytes) =>
    if bufferSize < bytes.length then
      { status := .bufferTooSmall, attributes := some value, policySize := some bytes.length }
    else
      { status := .success, attributes := some value, policySize := some bytes.length
        policy := some bytes }

/-- The services answer as a map from GUIDs to policies. -/
structure Faithful (h : HobMemory) (policies : PolicyMap) : Prop where
  get : ∀ guid bufferSize, peiGetPolicy guid bufferSize h = getSpec bufferSize (policies guid)
  room : ∀ guid value bytes, policies guid = some (value, bytes) →
    ∃ hob, peiGetPolicyHob guid h = some (hob + sizeOfEfiHobGuidType) ∧
      sizeOfEfiHobGuidType + sizeOfPolicyHobHeader + bytes.length ≤ hobLength h.memory hob
  refused : ∀ guid value bytes, policies guid = some (value, bytes) → isFinalized value = true →
    ∀ ppiStatus newAttributes policy, policy ≠ [] →
      peiSetPolicy ppiStatus guid newAttributes policy h = (h, .accessDenied)
  missing : ∀ guid, policies guid = none →
    ∀ stray, (peiRemovePolicy stray guid h).2 = .notFound

theorem Represents.faithful {policies : PolicyMap} (hrep : Represents h policies) :
    Faithful h policies := by
  obtain ⟨l, hinv, hsame⟩ := hrep
  have hlng : ∀ x, (policyData h.memory (x + sizeOfEfiHobGuidType)
      (policySize h.memory (x + sizeOfEfiHobGuidType))).length =
        policySize h.memory (x + sizeOfEfiHobGuidType) := fun x => length_slotRange _ _ _
  refine ⟨?_, ?_, ?_, ?_⟩
  · intro guid size
    rw [peiGetPolicy, ← hsame]
    rcases hinv.lookup guid with ⟨hget, hnone, _⟩ | ⟨x, hx, _, hget, hsome⟩
    · rw [hget, hnone]
      rfl
    · rw [hget, hsome, entry, getSpec, hlng]
  · intro guid value bytes hvl
    rcases hinv.lookup guid with ⟨_, hnone, _⟩ | ⟨x, hx, hlive, hget, hsome⟩
    · rw [← hsame, hnone] at hvl
      cases hvl
    · rw [← hsame, hsome] at hvl
      obtain ⟨hroom, hsize, _⟩ := hinv.policy x hx (isGuidHob_of_live hlive)
      have hbyt : bytes.length = policySize h.memory (x + sizeOfEfiHobGuidType) := by
        rw [← hlng x]
        exact congrArg (fun e => e.2.length) (Option.some.inj hvl).symm
      exact ⟨x, hget, by omega⟩
  · intro guid value bytes hvl hfinal ppi newAttributes policy hpol
    rcases hinv.lookup guid with ⟨_, hnone, _⟩ | ⟨x, hx, hlive, hget, hsome⟩
    · rw [← hsame, hnone] at hvl
      cases hvl
    · rw [← hsame, hsome] at hvl
      have hattr : attributes h.memory (x + sizeOfEfiHobGuidType) = value :=
        congrArg Prod.fst (Option.some.inj hvl)
      rw [peiSetPolicy, if_neg (by simpa using hpol), hget]
      dsimp only
      rw [hattr, if_pos hfinal]
  · intro guid hvl stray
    rcases hinv.lookup guid with ⟨hget, _, _⟩ | ⟨x, hx, hlive, hget, hsome⟩
    · rw [peiRemovePolicy, hget]
    · rw [← hsame, hsome] at hvl
      cases hvl

structure NoPolicies (h : HobMemory) (l : List Nat) : Prop where
  hobs : HobsAt h l
  guidHob : ∀ x ∈ l, hobType h.memory x = efiHobTypeGuidExtension →
    sizeOfEfiHobGuidType ≤ hobLength h.memory x
  empty : ∀ x ∈ l, isGuidHob h.memory policyHobGuid x = false
  bottom : h.freeMemoryBottom = h.endOfHobList + sizeOfEfiHobGenericHeader
  bottom_le : h.freeMemoryBottom ≤ h.freeMemoryTop
  top_lt : h.freeMemoryTop < 2 ^ 64

/-- The HOBs of a run, with the policies that its calls have set. -/
inductive Reached : HobMemory → PolicyMap → Prop
  | start {h : HobMemory} {l : List Nat} (hst : NoPolicies h l) : Reached h fun _ => none
  | call {h : HobMemory} {policies : PolicyMap} (call : Call) (hrch : Reached h policies)
      (halw : Allowed h call) :
      Reached (call.run h).1 (policies.after (call.run h).2 call)

theorem NoPolicies.represents (hst : NoPolicies h l) :
    Represents h fun _ => none := by
  have hdead : ∀ x ∈ l, ∀ guid, live h.memory guid x = false := by
    intro x hx guid
    rw [live, hst.empty x hx, Bool.false_and]
  refine ⟨l, ⟨hst.hobs, hst.guidHob, ?_, ?_, hst.bottom, hst.bottom_le,
    hst.top_lt⟩, fun guid => contents_eq_none fun x hx => hdead x hx guid⟩
  · intro x hx hpol
    rw [hst.empty x hx] at hpol
    cases hpol
  · intro x hx y hy guid hlive
    rw [hdead x hx guid] at hlive
    cases hlive

/-- In every state that allowed calls reach, the store is the map of the calls. -/
theorem reached_faithful {h : HobMemory} {policies : PolicyMap} (hreached : Reached h policies) :
    Faithful h policies := by
  have hrep : Represents h policies := by
    induction hreached with
    | start hstart => exact hstart.represents
    | call call _ hallowed ih => exact Call.run_represents ih hallowed
  exact hrep.faithful

def emptyHobs (freeMemoryTop : Nat) : HobMemory where
  memory := fun i => if i = 4096 ∨ i = 4097 then 0xFF else 0
  hobList := 4096
  endOfHobList := 4096
  freeMemoryBottom := 4104
  freeMemoryTop := freeMemoryTop

theorem noPolicies_emptyHobs : NoPolicies (emptyHobs 8192) [] := by
  have hclose : hobType (emptyHobs 8192).memory 4096 = efiHobTypeEndOfHobList := by decide
  refine ⟨⟨by decide, .nil fun _ => blockLength_closed hclose, hclose⟩, ?_, ?_, rfl,
    by decide, by decide⟩
  · intro x hx
    cases hx
  · intro x hx
    cases hx

def sampleGuid : GuidBytes := fun _ => 7

def setThree : Call := .set .success sampleGuid 0 [1, 2, 3]

theorem reached_faithful_setThree :
    peiGetPolicy sampleGuid 3 (setThree.run (emptyHobs 8192)).1 =
      getSpec 3 (some (0, [1, 2, 3])) := by
  have hallowed : Allowed (emptyHobs 8192) setThree := by
    refine ⟨by decide, by decide, ?_⟩
    exact ⟨.inl (by decide), fun _ hfinal => absurd hfinal (by decide)⟩
  have hfaithful := reached_faithful (.call setThree (.start noPolicies_emptyHobs) hallowed)
  exact hfaithful.get sampleGuid 3

/-- A policy that cannot grow for lack of memory is lost. -/
theorem peiSetPolicy_grow_loses_policy :
    peiGetPolicy sampleGuid 3 (setThree.run (emptyHobs 4168)).1 = getSpec 3 (some (0, [1, 2, 3])) ∧
      (peiSetPolicy .success sampleGuid 0 [1, 2, 3, 4, 5, 6, 7, 8, 9]
        (setThree.run (emptyHobs 4168)).1).2 = .outOfResources ∧
      peiGetPolicy sampleGuid 3 (peiSetPolicy .success sampleGuid 0 [1, 2, 3, 4, 5, 6, 7, 8, 9]
        (setThree.run (emptyHobs 4168)).1).1 = getSpec 3 none := by
  decide +kernel

end MuBasecore.PeiPolicyRuns
