import MuBasecore.GcdPartition

/-!
The relation between the attributes and the capabilities of the entries of the
memory space map. It does not depend on the addresses, so the results here hold
for every map, whether or not it is a partition.
-/

namespace MuBasecore.GcdCapabilities

open EfiTypes GcdMap GcdSpace GcdRange GcdPartition GcdMapEntry List BitVec

variable {a attributes b : AttributeMask} {xs : List GcdMapEntry} {σ : Type} {e : GcdMapEntry}
  {env : Environment} {g g' : Gcd} {status : EfiStatus}

/-- Every bit of `a` is a bit of `b`. -/
def MaskSubset (a b : AttributeMask) : Prop :=
  a &&& b = a

instance (a b : AttributeMask) : Decidable (MaskSubset a b) :=
  inferInstanceAs (Decidable (a &&& b = a))

theorem maskSubset_iff :
    MaskSubset a b ↔ ∀ i, i < 64 → a.getLsbD i = true → b.getLsbD i = true := by
  constructor
  · intro h i _ ha
    rw [← h, getLsbD_and, Bool.and_eq_true] at ha
    exact ha.2
  · intro h
    apply eq_of_getLsbD_eq
    intro i hi
    rw [getLsbD_and]
    cases ha : a.getLsbD i with
    | false => rfl
    | true => simpa using h i hi ha

variable {c : AttributeMask} {before behind : List GcdMapEntry} {entry : GcdMapEntry} {base : Nat}
  {convert : σ → GcdMapEntry → GcdMapEntry} {s : σ} {next : σ → GcdMapEntry → σ}

theorem maskSubset_or_iff : MaskSubset (a ||| b) c ↔ MaskSubset a c ∧ MaskSubset b c := by
  simp only [maskSubset_iff, getLsbD_or, Bool.or_eq_true]
  constructor
  · intro h
    exact ⟨fun i hi ha => h i hi (.inl ha), fun i hi hb => h i hi (.inr hb)⟩
  · rintro ⟨ha, hb⟩ i hi (h | h)
    · exact ha i hi h
    · exact hb i hi h

theorem maskSubset_and_left (h : MaskSubset a c) : MaskSubset (a &&& b) c := by
  rw [maskSubset_iff] at h ⊢
  intro i hi hab
  rw [getLsbD_and, Bool.and_eq_true] at hab
  exact h i hi hab.1

def Supported (l : GcdLabel) : Prop :=
  l.gcdMemoryType ≠ .nonExistent → MaskSubset l.attributes l.capabilities

/-- Memory that exists has no attribute outside its capabilities. -/
def SupportedEntries (es : List GcdMapEntry) : Prop :=
  ∀ e ∈ es, Supported e.label

theorem supported_append {ys : List GcdMapEntry} :
    SupportedEntries (xs ++ ys) ↔ SupportedEntries xs ∧ SupportedEntries ys := by
  simp only [SupportedEntries, mem_append, or_imp, forall_and]

theorem supported_cons {x : GcdMapEntry} :
    SupportedEntries (x :: xs) ↔ Supported x.label ∧ SupportedEntries xs := by
  simp [SupportedEntries]

theorem joins_supported : Joins fun xs ys => SupportedEntries xs ↔ SupportedEntries ys where
  refl _ := .rfl
  trans := Iff.trans
  cons e h := by rw [supported_cons, supported_cons, h]
  join xs hlabel := by
    rw [supported_cons, supported_cons, supported_cons, ← hlabel]
    exact ⟨fun h => ⟨h.1, h⟩, And.right⟩

theorem coreInsertGcdMapEntry_label (base length : Nat) :
    (∀ x ∈ (coreInsertGcdMapEntry e base length).bottomEntry, x.label = e.label) ∧
      (coreInsertGcdMapEntry e base length).entry.label = e.label ∧
      (∀ x ∈ (coreInsertGcdMapEntry e base length).topEntry, x.label = e.label) := by
  unfold coreInsertGcdMapEntry
  by_cases hbot : base > e.baseAddress
  · simp only [hbot, if_true]
    split <;> simp [label]
  · simp only [hbot, if_false]
    split <;> simp [label]

theorem supported_toList {o : Option GcdMapEntry} {l : GcdLabel}
    (hlab : ∀ x ∈ o, x.label = l) (h : Supported l) : SupportedEntries o.toList := by
  intro x hx
  rw [hlab x (by simpa using hx)]
  exact h

structure LabelWise {σ : Type} (next : σ → GcdMapEntry → σ)
    (convert : σ → GcdMapEntry → GcdMapEntry) : Prop where
  next_congr : ∀ s a b, a.label = b.label → next s a = next s b
  convert_congr : ∀ s a b, a.label = b.label → (convert s a).label = (convert s b).label

variable {es : List GcdMapEntry} {length : Nat}

theorem convertLoop_supported (hlabelWise : LabelWise next convert) {bottomUsed : Bool}
    {c : Converted} (hes : SupportedEntries es)
    (h : convertLoop next convert base length s bottomUsed es = some c) :
    SupportedEntries c.before ∧ SupportedEntries c.top ∧
      (SupportedEntries c.body ↔ SupportedEntries (visitEntries next convert s es)) := by
  induction es generalizing s bottomUsed c with
  | nil =>
    obtain ⟨⟩ := h
    simp [SupportedEntries, visitEntries]
  | cons e es ih =>
    obtain ⟨he, hrest⟩ := supported_cons.1 hes
    obtain ⟨hbot, hent, htop⟩ := coreInsertGcdMapEntry_label base length
    rw [convertLoop] at h
    generalize coreInsertGcdMapEntry e base length = inserted at *
    split at h
    · simp at h
    split at h
    · simp at h
    split at h
    · simp at h
    rename_i rest hloop
    obtain ⟨⟩ := h
    rw [hlabelWise.next_congr s _ _ hent] at hloop ⊢
    obtain ⟨hpre, htops, hbody⟩ := ih hrest hloop
    refine ⟨supported_toList hbot he, ?_, ?_⟩
    · exact supported_append.2 ⟨supported_toList htop he, htops⟩
    · simp only [visitEntries, supported_cons, supported_append, hbody,
        hlabelWise.convert_congr _ _ _ hent]
      tauto

variable {map : List GcdMapEntry} {first last : Nat}

theorem supported_linkRange
    (h : SupportedEntries map) : SupportedEntries (linkRange map first last) :=
  fun e he => h e (mem_of_mem_take (mem_of_mem_drop he))

theorem convertRange_supported (hlabelWise : LabelWise next convert) {map' : List GcdMapEntry}
    (hmap : SupportedEntries map)
    (h : convertRange next convert base length s map first last = some map') :
    SupportedEntries map' ↔
      SupportedEntries (visitEntries next convert s (linkRange map first last)) := by
  unfold convertRange at h
  split at h
  · simp at h
  next c hloop =>
    obtain ⟨⟩ := h
    obtain ⟨hpre, htop, hbody⟩ :=
      convertLoop_supported hlabelWise (supported_linkRange hmap) hloop
    have hfr : SupportedEntries (map.take first) :=
      fun e he => hmap e (mem_of_mem_take he)
    have hback : SupportedEntries (map.drop (last + 1)) :=
      fun e he => hmap e (mem_of_mem_drop he)
    rw [joins_supported.cleanup, reverse_reverse]
    simp only [supported_append, hbody]
    tauto

theorem convertEntry_labelWise (r : ConvertRequest) :
    LabelWise (nextAttributes r) (convertEntry r) where
  next_congr := by
    intro s a b hlab
    have hattr : a.attributes = b.attributes := congrArg GcdLabel.attributes hlab
    simp only [nextAttributes, hattr]
  convert_congr := by
    intro s a b hlab
    simp only [label, GcdLabel.mk.injEq] at hlab
    unfold convertEntry
    cases r.operation <;> simp [label, hlab]

theorem allocateEntry_labelWise (r : AllocateRequest) :
    LabelWise (fun (_ : Unit) _ => ()) (fun _ => allocateEntry r) where
  next_congr := fun _ _ _ _ => rfl
  convert_congr := by
    intro s a b hlab
    simp only [label, GcdLabel.mk.injEq] at hlab
    simp [allocateEntry, label, hlab]

theorem checkEntry_of_checkEntries {r : ConvertRequest}
    (h : checkEntries r es = .success) : ∀ e ∈ es, checkEntry r e = .success := by
  induction es with
  | nil => simp
  | cons e es ih =>
    rw [checkEntries] at h
    split at h
    next herr =>
      simp [h] at herr
    next herr =>
      rw [forall_mem_cons]
      exact ⟨by simpa using herr, ih h⟩

theorem visitEntries_eq_map
    (hnext : ∀ e, next s e = s) : visitEntries next convert s es = es.map (convert s) := by
  induction es with
  | nil => rfl
  | cons e es ih => rw [visitEntries, hnext, ih, map_cons]

/-- The capabilities that `CoreConvertSpace` gives to memory that is added. -/
def addedCapabilities (r : ConvertRequest) : AttributeMask :=
  if r.gcdMemoryType = .memoryMappedIo then r.capabilities ||| efiMemoryRuntime ||| efiMemoryPortIo
  else r.capabilities ||| efiMemoryRuntime

def keptAttributes (e : GcdMapEntry) : AttributeMask :=
  e.attributes &&& (efiCacheAttributeMask ||| efiMemoryAccessMask)

/-- The conversion leaves the entries of its range supported: memory is added
only over attributes that the new capabilities include, and a change of the
attributes without CPU attributes meets no entry in the range whose CPU
attributes a later entry lacks among its capabilities. -/
def KeepsSupportOn (r : ConvertRequest) (es : List GcdMapEntry) : Prop :=
  match r.operation with
  | .addMemory =>
    r.gcdMemoryType ≠ .nonExistent → ∀ e ∈ es, MaskSubset e.attributes (addedCapabilities r)
  | .setAttributesMemory =>
    r.cpuArchAttributes = 0 → r.attributes ≠ 0 →
      es.Pairwise fun a b =>
        b.gcdMemoryType ≠ .nonExistent → MaskSubset (keptAttributes a) b.capabilities
  | _ => True

section Visit

variable {r : ConvertRequest}

theorem nextAttributes_eq_self
    (h : ¬ (r.operation = .setAttributesMemory ∧ r.cpuArchAttributes = 0 ∧ attributes ≠ 0)) :
    nextAttributes r attributes e = attributes := by
  rw [nextAttributes, if_neg h]

theorem nextAttributes_eq_or
    (hop : r.operation = .setAttributesMemory) (hcpu : r.cpuArchAttributes = 0)
    (hne : attributes ≠ 0) :
    nextAttributes r attributes e = attributes ||| keptAttributes e := by
  rw [nextAttributes, if_pos ⟨hop, hcpu, hne⟩]
  rfl

theorem or_ne_zero (h : a ≠ 0) : a ||| b ≠ 0 := by
  intro hzero
  exact h (or_eq_zero_iff.1 hzero).1

theorem setAttributes_supported_iff (hop : r.operation = .setAttributesMemory) :
    Supported (convertEntry r attributes e).label ↔
      (e.gcdMemoryType ≠ .nonExistent → MaskSubset attributes e.capabilities) := by
  unfold convertEntry
  rw [hop]
  rfl

theorem visitEntries_accumulate_iff (hop : r.operation = .setAttributesMemory)
    (hcpu : r.cpuArchAttributes = 0) (hne : attributes ≠ 0)
    (hes : SupportedEntries es) :
    SupportedEntries (visitEntries (nextAttributes r) (convertEntry r) attributes es) ↔
      (∀ e ∈ es, e.gcdMemoryType ≠ .nonExistent → MaskSubset attributes e.capabilities) ∧
        es.Pairwise fun a b =>
          b.gcdMemoryType ≠ .nonExistent → MaskSubset (keptAttributes a) b.capabilities := by
  induction es generalizing attributes with
  | nil => simp [visitEntries, SupportedEntries]
  | cons e es ih =>
    obtain ⟨he, hrest⟩ := supported_cons.1 hes
    have hkept : e.gcdMemoryType ≠ .nonExistent → MaskSubset (keptAttributes e) e.capabilities :=
      fun hex => maskSubset_and_left (he hex)
    rw [visitEntries, nextAttributes_eq_or hop hcpu hne, supported_cons,
      setAttributes_supported_iff hop, ih (or_ne_zero hne) hrest,
      pairwise_cons, forall_mem_cons]
    simp only [maskSubset_or_iff, imp_and, forall_and]
    tauto

theorem visit_constant_iff
    (h : ¬ (r.operation = .setAttributesMemory ∧ r.cpuArchAttributes = 0 ∧ r.attributes ≠ 0)) :
    SupportedEntries (visitEntries (nextAttributes r) (convertEntry r) r.attributes es) ↔
      ∀ e ∈ es, Supported (convertEntry r r.attributes e).label := by
  rw [visitEntries_eq_map fun e => nextAttributes_eq_self h]
  simp [SupportedEntries]

theorem subset_of_checkEntry (h : checkEntry r e = .success) :
    (r.operation = .setAttributesMemory → MaskSubset r.attributes e.capabilities) ∧
      (r.operation = .setCapabilitiesMemory → MaskSubset e.attributes r.capabilities) := by
  refine ⟨fun hop => ?_, fun hop => ?_⟩ <;>
  · rw [checkEntry, hop] at h
    simp only at h
    split at h
    · simp at h
    split at h
    · simp at h
    next hsub =>
      rw [MaskSubset, BitVec.and_comm]
      simpa using hsub

theorem visitEntries_supported_iff (hspc : r.operation.space = .memory)
    (hes : SupportedEntries es) (hchk : checkEntries r es = .success) :
    SupportedEntries (visitEntries (nextAttributes r) (convertEntry r) r.attributes es) ↔
      KeepsSupportOn r es := by
  have hents := checkEntry_of_checkEntries hchk
  cases hop : r.operation with
  | addIo | freeIo | removeIo => simp [hop, ConvertOperation.space] at hspc
  | addMemory =>
    rw [visit_constant_iff (by simp [hop])]
    simp only [KeepsSupportOn, convertEntry, hop]
    constructor
    · intro h hex e he
      exact h e he hex
    · intro h e he hex
      exact h hex e he
  | freeMemory =>
    rw [visit_constant_iff (by simp [hop])]
    simp only [KeepsSupportOn, convertEntry, hop, iff_true]
    exact hes
  | removeMemory =>
    rw [visit_constant_iff (by simp [hop])]
    simp only [KeepsSupportOn, convertEntry, hop, iff_true]
    intro e he hex
    exact absurd rfl hex
  | setCapabilitiesMemory =>
    rw [visit_constant_iff (by simp [hop])]
    simp only [KeepsSupportOn, convertEntry, hop, iff_true]
    intro e he _
    exact (subset_of_checkEntry (hents e he)).2 hop
  | setAttributesMemory =>
    have hsub : ∀ e ∈ es, MaskSubset r.attributes e.capabilities :=
      fun e he => (subset_of_checkEntry (hents e he)).1 hop
    simp only [KeepsSupportOn, hop]
    by_cases haccu : r.cpuArchAttributes = 0 ∧ r.attributes ≠ 0
    · rw [visitEntries_accumulate_iff hop haccu.1 haccu.2 hes]
      constructor
      · exact fun h _ _ => h.2
      · exact fun h => ⟨fun e he _ => hsub e he, h haccu.1 haccu.2⟩
    · rw [visit_constant_iff (by tauto)]
      constructor
      · exact fun _ hcpu hne => absurd ⟨hcpu, hne⟩ haccu
      · exact fun _ e he =>
          (setAttributes_supported_iff hop).2 fun _ => hsub e he

end Visit

def rangeEntries (r : ConvertRequest) (map : List GcdMapEntry) : List GcdMapEntry :=
  match coreSearchGcdMapEntry r.baseAddress r.length map with
  | none => []
  | some (startLink, endLink) => linkRange map startLink endLink

/-- The call leaves its range supported. -/
def KeepsSupport (g : Gcd) : GcdCall → Prop
  | .convert r => KeepsSupportOn r (rangeEntries r g.memorySpaceMap)
  | .allocate _ => True

theorem coreConvertSpace_supported_iff {r : ConvertRequest} (hg : SupportedEntries g.memorySpaceMap)
    (hcall : coreConvertSpace env r g = some (status, g')) :
    SupportedEntries g'.memorySpaceMap ↔ (status = .success → KeepsSupport g (.convert r)) := by
  rcases convertSpace_cases env r g with
    ⟨status', hstat, heq⟩ | ⟨first, endLink, -, hfind, hchk, -, -, heq⟩
  · rw [heq] at hcall
    obtain ⟨⟩ := hcall
    exact ⟨fun _ hok => absurd hok hstat, fun _ => hg⟩
  · rw [heq] at hcall
    simp only [Option.map_eq_some_iff, Prod.mk.injEq] at hcall
    obtain ⟨map, hconv, rfl, rfl⟩ := hcall
    cases hspc : r.operation.space with
    | io =>
      have hkeep : KeepsSupport g (.convert r) := by
        unfold KeepsSupport KeepsSupportOn
        cases hop : r.operation <;> simp_all [ConvertOperation.space]
      exact ⟨fun _ _ => hkeep, fun _ => hg⟩
    | memory =>
      rw [hspc] at hfind hconv hchk
      have hrng : rangeEntries r g.memorySpaceMap = linkRange g.memorySpaceMap first endLink := by
        unfold rangeEntries
        rw [show coreSearchGcdMapEntry r.baseAddress r.length g.memorySpaceMap =
          some (first, endLink) from hfind]
      change SupportedEntries map ↔ _
      rw [convertRange_supported (convertEntry_labelWise r) hg hconv]
      simp only [KeepsSupport, hrng, true_imp_iff]
      exact visitEntries_supported_iff hspc (supported_linkRange hg) hchk

theorem visit_allocate_supported {r : AllocateRequest} (hes : SupportedEntries es) :
    SupportedEntries (visitEntries (fun (_ : Unit) _ => ()) (fun _ => allocateEntry r) () es) := by
  rw [visitEntries_eq_map fun _ => rfl]
  simp only [SupportedEntries, forall_mem_map]
  exact hes

theorem coreAllocateSpace_supported {r : AllocateRequest} (hg : SupportedEntries g.memorySpaceMap)
    (hcall : coreAllocateSpace env r g = some (status, base, g')) :
    SupportedEntries g'.memorySpaceMap := by
  rcases allocateSpace_cases with
    ⟨status', base', -, heq⟩ | ⟨-, -, heq⟩ | ⟨base', startLink, endLink, -, -, -, -, heq⟩
  · rw [heq] at hcall
    obtain ⟨⟩ := hcall
    exact hg
  · simp [heq] at hcall
  · rw [heq] at hcall
    simp only [Option.map_eq_some_iff, Prod.mk.injEq] at hcall
    obtain ⟨map, hconv, -, -, rfl⟩ := hcall
    cases hspc : r.space with
    | io => exact hg
    | memory =>
      rw [hspc] at hconv
      change SupportedEntries map
      rw [convertRange_supported (allocateEntry_labelWise r) hg hconv]
      exact visit_allocate_supported (supported_linkRange hg)

theorem run_supported_iff {call : GcdCall} (hg : SupportedEntries g.memorySpaceMap)
    (hrun : GcdCall.run env call g = some (status, base, g')) :
    SupportedEntries g'.memorySpaceMap ↔ (status = .success → KeepsSupport g call) := by
  cases call with
  | allocate r =>
    have hsup := coreAllocateSpace_supported hg hrun
    exact ⟨fun _ _ => trivial, fun _ => hsup⟩
  | convert r =>
    simp only [GcdCall.run] at hrun
    split at hrun
    · simp at hrun
    next hcall =>
      obtain ⟨⟩ := hrun
      exact coreConvertSpace_supported_iff hg hcall

/-- A call that succeeds only where it keeps the support. -/
def SupportedStep (g g' : Gcd) : Prop :=
  ∃ env call status base, GcdCall.run env call g = some (status, base, g') ∧
    (status = .success → KeepsSupport g call)

theorem initial_supported (memBits ioBits : Nat) :
    SupportedEntries (coreInitializeGcdServices memBits ioBits).memorySpaceMap := by
  intro e he hex
  obtain rfl := mem_singleton.1 he
  exact absurd rfl hex

theorem reachable_supported {memBits ioBits : Nat}
    (h : Relation.ReflTransGen SupportedStep (coreInitializeGcdServices memBits ioBits) g) :
    SupportedEntries g.memorySpaceMap := by
  induction h with
  | refl => exact initial_supported memBits ioBits
  | tail _ hstep ih =>
    obtain ⟨env, call, status, base, hrun, hkeep⟩ := hstep
    exact (run_supported_iff ih hrun).2 hkeep

/-- Along every run whose steps meet the condition the attributes of existing
memory stay among its capabilities, and the next call keeps them there exactly
when it meets the condition too. -/
theorem reachable_supported_step_iff (sizeOfMemorySpace sizeOfIoSpace : Nat) {g : Gcd}
    (h : Relation.ReflTransGen SupportedStep
      (coreInitializeGcdServices sizeOfMemorySpace sizeOfIoSpace) g)
    (env : Environment) (call : GcdCall) {status : EfiStatus} {base : Nat} {g' : Gcd}
    (hrun : GcdCall.run env call g = some (status, base, g')) :
    SupportedEntries g.memorySpaceMap ∧
      (SupportedEntries g'.memorySpaceMap ↔ (status = .success → KeepsSupport g call)) :=
  ⟨reachable_supported h, run_supported_iff (reachable_supported h) hrun⟩

def sampleAdded : Gcd where
  memorySpaceMap := [nonExistentEntry 0 0xFFF,
    systemMemoryEntry 0x1000 0x3FFF (efiMemoryWb ||| efiMemoryRuntime),
    nonExistentEntry 0x4000 (2 ^ 48 - 1)]
  ioSpaceMap := (coreInitializeGcdServices 48 16).ioSpaceMap

theorem add_keeps_support : SupportedEntries sampleAdded.memorySpaceMap :=
  (reachable_supported_step_iff 48 16 .refl sampleEnvironment
    (.convert (addSystemMemory 0x1000 0x3000 efiMemoryWb))
    (show _ = some (.success, 0x1000, sampleAdded) by decide +kernel)).2.mpr
    fun _ _ => by decide +kernel

def sampleCpuEnvironment : Environment where
  allocateGcdMapEntry := true
  cpu := some fun _ _ _ => .success

/-- Removing memory keeps its attributes, so that memory added there with other
capabilities has attributes that it does not support. -/
theorem remove_then_add_loses_support :
    ∃ g, runCalls sampleCpuEnvironment
        [.convert (addSystemMemory 0x1000 0x3000 efiMemoryWb),
          .convert { addSystemMemory 0x1000 0x3000 0 with
            operation := .setAttributesMemory, attributes := efiMemoryWb },
          .convert { addSystemMemory 0x1000 0x3000 0 with operation := .removeMemory },
          .convert (addSystemMemory 0x1000 0x3000 efiMemoryUc)]
        (coreInitializeGcdServices 48 16) = some g ∧
      ¬ SupportedEntries g.memorySpaceMap := by
  refine ⟨⟨[nonExistentEntry 0 0xFFF,
      { systemMemoryEntry 0x1000 0x3FFF (efiMemoryUc ||| efiMemoryRuntime) with
        attributes := efiMemoryWb },
      nonExistentEntry 0x4000 (2 ^ 48 - 1)], (coreInitializeGcdServices 48 16).ioSpaceMap⟩,
    by decide +kernel, ?_⟩
  intro h
  exact absurd (h { systemMemoryEntry 0x1000 0x3FFF (efiMemoryUc ||| efiMemoryRuntime) with
    attributes := efiMemoryWb } (by decide) (by decide)) (by decide)

end MuBasecore.GcdCapabilities
