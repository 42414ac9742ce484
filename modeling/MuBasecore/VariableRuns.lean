import MuBasecore.VariableCreation

/-!
`SetVariable` on the map that the stores represent: what a call does to it, and what any
sequence of calls does.
-/

namespace MuBasecore.VariableRuns

open EfiTypes ByteMemory ReclaimLookup StateWrites VariableCreation VariableErrorFlag VariableFormat
open VariableLookup VariableMap VariableServices Word64

def applyCall (call : SetVariableCall) (entries : Entries) : Entries :=
  let append := call.attributes.has efiVariableAppendWrite
  let attributes := call.attributes &&& ~~~efiVariableAppendWrite
  match entries call.name call.guid with
  | none =>
    if call.data = [] then entries
    else entries.set call.name call.guid (some (attributes, call.data))
  | some old =>
    if (¬ append ∧ call.data = []) ∨ noAccess call.attributes then
      entries.set call.name call.guid none
    else
      entries.set call.name call.guid
        (some (attributes, if append then old.2 ++ call.data else call.data))

/-- What a call does to the map: an error leaves it as it was, but a call that runs out of
resources after the end of DXE may clear bits of the error flag. -/
structure Outcome (cfg : Config) (g : VariableModule) (call : SetVariableCall)
    (r : EfiStatus × VariableModule) : Prop where
  inv : Inv cfg r.2
  endOfDxe : r.2.endOfDxe = g.endOfDxe
  atRuntime : r.2.atRuntime = g.atRuntime
  entries : ∃ mask, ((r.1 = .outOfResources ∧ g.endOfDxe) ∨ mask = 0xff) ∧
    entries cfg r.2 = maskFlag mask
      (if r.1 = .success then applyCall call (entries cfg g) else entries cfg g)

variable {status : EfiStatus}

variable {cfg : Config} {call : SetVariableCall}

section Outcomes

variable {g g₁ g' : VariableModule}
variable {r : EfiStatus × VariableModule} {v : PreparedVariable}

theorem outcome_failed (h : Inv cfg g) (hstat : status ≠ .success) :
    Outcome cfg g call (status, g) := by
  refine ⟨h, rfl, rfl, 0xff, .inr rfl, ?_⟩
  rw [maskFlag_ones, if_neg hstat]

theorem outcome_success (h : Inv cfg g') (hend : g'.endOfDxe = g.endOfDxe)
    (hrt : g'.atRuntime = g.atRuntime)
    (hents : entries cfg g' = applyCall call (entries cfg g)) :
    Outcome cfg g call (.success, g') := by
  refine ⟨h, hend, hrt, 0xff, .inr rfl, ?_⟩
  rw [maskFlag_ones, if_pos rfl]
  exact hents

theorem outcome_created (h : Created cfg g₁ v r) (hend : g₁.endOfDxe = g.endOfDxe)
    (hrt : g₁.atRuntime = g.atRuntime) (hsame : entries cfg g₁ = entries cfg g)
    (hcall : applyCall call (entries cfg g) =
      (entries cfg g).set v.name v.guid (some (v.attributes, v.data))) :
    Outcome cfg g call r := by
  cases h with
  | success inv _ endOfDxe atRuntime hents =>
    refine outcome_success inv (endOfDxe.trans hend) (atRuntime.trans hrt) ?_
    rw [hents, hsame, hcall]
  | full masked =>
    obtain ⟨mask, hmask, hents⟩ := masked.entries
    refine ⟨masked.inv, masked.endOfDxe.trans hend, masked.atRuntime.trans hrt, mask, ?_, ?_⟩
    · rw [hend] at hmask
      exact hmask.imp (fun hm => ⟨rfl, hm⟩) id
    · rw [if_neg (by simp), ← hsame]
      exact hents

end Outcomes

section Checks

variable {endOfDxe : Bool}

/-- What the checks of `SetVariable` let through. -/
structure Checked (cfg : Config) (endOfDxe : Bool) (call : SetVariableCall) : Prop where
  name : call.name.chars ≠ []
  size : getVariableHeaderSize cfg.authFormat + call.name.bytes.length + call.data.length ≤
    maxSize cfg call.attributes
  varCheck : varCheckLibSetVariableCheck cfg endOfDxe call = .success

theorem of_ite_success {c : Prop} [Decidable c] {next : EfiStatus}
    (hstat : status ≠ .success) (h : (if c then status else next) = .success) :
    ¬ c ∧ next = .success := by
  by_cases hc : c
  · rw [if_pos hc] at h
    exact absurd h hstat
  · rw [if_neg hc] at h
    exact ⟨hc, h⟩

theorem checkParameters_checked (hcfg : Config.Valid cfg)
    (h : checkParameters cfg endOfDxe call = .success) : Checked cfg endOfDxe call := by
  have hinvalid : ∀ c : Bool,
      (if c then EfiStatus.unsupported else EfiStatus.invalidParameter) ≠ .success := by
    intro c
    cases c <;> decide
  obtain ⟨hname, h⟩ := of_ite_success (by decide) h
  obtain ⟨_, h⟩ := of_ite_success (by decide) h
  obtain ⟨_, h⟩ := of_ite_success (hinvalid _) h
  obtain ⟨_, h⟩ := of_ite_success (hinvalid _) h
  obtain ⟨_, h⟩ := of_ite_success (by decide) h
  obtain ⟨_, h⟩ := of_ite_success (by decide) h
  obtain ⟨_, h⟩ := of_ite_success (by decide) h
  obtain ⟨hsize, h⟩ := of_ite_success (by decide) h
  obtain ⟨hhead, hmax⟩ := hcfg.maxSize call.attributes
  rw [sub64_eq (by omega) hhead] at hsize
  have hmor : ¬ call.morCheck.isError = true := by
    intro herr
    rw [if_pos herr] at h
    exact (EfiStatus.isError_iff _).1 herr h
  rw [if_neg hmor] at h
  exact ⟨hname, by omega, h⟩

theorem Checked.flagStays (h : Checked cfg endOfDxe call) (hcfg : Config.Valid cfg)
    (hend : endOfDxe) (hname : call.name = varErrorFlagName) (hguid : call.guid = varErrorFlagGuid)
    (hdata : call.attributes.has efiVariableAppendWrite ∨ call.data ≠ [])
    (haccess : noAccess call.attributes = false) :
    (call.attributes &&& ~~~efiVariableAppendWrite).has efiVariableNonVolatile := by
  have hcheck := h.varCheck
  simp only [varCheckLibSetVariableCheck, hend, if_true, hname, hguid, hcfg.flagProperty]
    at hcheck
  have hproperty : checkProperty cfg.trusted varErrorFlagProperty call = .success := by
    by_contra hne
    rw [if_pos ((EfiStatus.isError_iff _).2 hne)] at hcheck
    exact hne hcheck
  obtain ⟨_, hproperty⟩ := of_ite_success (by decide) hproperty
  have hwrite : ¬ ((¬ call.attributes.has efiVariableAppendWrite ∧ call.data = []) ∨
      call.attributes = 0) := by
    rintro (⟨hno, hnil⟩ | hzero)
    · exact hdata.elim hno fun hd => hd hnil
    · rw [hzero] at haccess
      exact absurd haccess (by decide)
  rw [if_neg hwrite] at hproperty
  obtain ⟨hattr, _⟩ := of_ite_success (by decide) hproperty
  have hsame : call.attributes &&& ~~~efiVariableAppendWrite = varErrorFlagProperty.attributes := by
    by_contra hne
    exact hattr ⟨by decide, hne⟩
  rw [hsame]
  decide

theorem attributes_ne (attrs : Attributes) :
    (attrs &&& ~~~efiVariableAppendWrite).toNat ≠ 0xffffffff := by
  intro h
  have hones : attrs &&& ~~~efiVariableAppendWrite = BitVec.allOnes 32 :=
    BitVec.eq_of_toNat_eq (by rw [h]; rfl)
  have hclear : attrs &&& ~~~efiVariableAppendWrite &&& efiVariableAppendWrite = 0 := by
    rw [BitVec.and_assoc, BitVec.not_and_self]
    exact BitVec.and_zero
  rw [hones] at hclear
  exact absurd hclear (by decide)

theorem Checked.writable (h : Checked cfg endOfDxe call) (hcfg : Config.Valid cfg)
    {data : List Byte} (hdata : data ≠ [])
    (hlen : data.length ≤ maxSize cfg call.attributes - getVariableHeaderSize cfg.authFormat) :
    Writable (call.prepared data) := by
  obtain ⟨hhead, hmax⟩ := hcfg.maxSize call.attributes
  have hsize := h.size
  have hpos := headerSize_eq cfg.authFormat
  have hoff := le_nameSizeOffset cfg.authFormat
  refine ⟨h.name, hdata, attributes_ne _, ?_, ?_⟩
  · change call.name.bytes.length < _
    omega
  · change data.length < _
    omega

end Checks

variable {g : VariableModule}

section Update

variable {b : Bool} {x : Nat} {l₁ l₂ : List Nat} {data : List Byte}

theorem Checked.flagStays_prepared (h : Checked cfg g.endOfDxe call) (hcfg : Config.Valid cfg)
    (hdata : call.attributes.has efiVariableAppendWrite ∨ call.data ≠ [])
    (haccess : noAccess call.attributes = false) : FlagStays g (call.prepared data) := by
  rintro hend htgt ⟨hname, hguid⟩
  have hnv := h.flagStays hcfg hend hname hguid hdata haccess
  change (!(call.attributes &&& ~~~efiVariableAppendWrite).has efiVariableNonVolatile) at htgt
  rw [hnv] at htgt
  exact absurd htgt (by decide)

theorem FoundAt.target_eq (hat : FoundAt cfg g call.name call.guid b x l₁ l₂) (h : Inv cfg g)
    (hattr : call.attributes &&& ~~~efiVariableAppendWrite = (recordAt cfg g b x).attributes) :
    target (call.prepared data) = b := by
  have hnv := (h.records b).nonVolatile _ (by rw [hat.stored_eq]; simp) hat.live
  rw [← hattr] at hnv
  change (!(call.attributes &&& ~~~efiVariableAppendWrite).has efiVariableNonVolatile) = b
  rw [hnv, Bool.not_not]

section

variable (hcfg : Config.Valid cfg)
include hcfg

section

variable (h : Inv cfg g)
include h

section

variable (hat : FoundAt cfg g call.name call.guid b x l₁ l₂)
include hat

theorem replaceVariable_outcome (hchk : Checked cfg g.endOfDxe call)
    (hattr : call.attributes &&& ~~~efiVariableAppendWrite = (recordAt cfg g b x).attributes)
    (hdata : call.attributes.has efiVariableAppendWrite ∨ call.data ≠ [])
    (haccess : noAccess call.attributes = false) (hwr : Writable (call.prepared data))
    (hcall : applyCall call (entries cfg g) = (entries cfg g).set call.name call.guid
      (some (call.attributes &&& ~~~efiVariableAppendWrite, data))) :
    Outcome cfg g call (replaceVariable cfg call ⟨b, x, none⟩ data g) := by
  obtain ⟨_, hx, hlast⟩ := FoundAt.inside hat h
  rw [replaceVariable, writeState_eq hcfg (by dsimp only; omega), andThen, if_pos rfl]
  obtain ⟨hinv, hat', hents⟩ := FoundAt.inv_inDeleted hat h hchk.name rfl
  have htgt : target (call.prepared data) = b := FoundAt.target_eq hat h hattr
  have hflag : FlagStays g (call.prepared data) :=
    hchk.flagStays_prepared hcfg hdata haccess
  dsimp only
  generalize variableState (g.store b) x &&& varInDeletedTransition = s at *
  have hsrc : Source cfg (stateWritten b x s g) (call.prepared data) (some ⟨b, x, none⟩) := by
    rw [← htgt] at hat' ⊢
    exact .found hat'
  have hnew := createVariable_created hcfg hinv hsrc hwr
    (by simpa [FlagStays] using hflag) call.poolAvailable
  exact outcome_created hnew (by simp) (by simp) hents hcall

theorem markOldDeleted_outcome (hname : call.name.chars ≠ [])
    (hcall : applyCall call (entries cfg g) = (entries cfg g).set call.name call.guid none) :
    Outcome cfg g call (markOldDeleted cfg false ⟨b, x, none⟩ g) := by
  obtain ⟨hdvd, hx, hlast⟩ := FoundAt.inside hat h
  obtain ⟨totals, hdel, htot⟩ :=
    markDeleted_spec (g := g) (b := b) (x := x) hcfg hdvd (by omega)
  change Outcome cfg g call (markDeleted cfg b false x g)
  rw [hdel]
  obtain ⟨hinv, _, hents⟩ := FoundAt.inv_deleted hat h hname rfl
  generalize variableState (g.store b) x &&& varDeleted = s at *
  refine outcome_success (Inv.with_totals hinv (by simpa using htot)) (by simp) (by simp) ?_
  rw [hcall, ← hents]
  rfl

theorem updateExisting_outcome (hchk : Checked cfg g.endOfDxe call)
    (hattr : call.attributes = 0 ∨ call.attributes &&& ~~~efiVariableAppendWrite =
      (recordAt cfg g b x).attributes) :
    Outcome cfg g call (updateExisting cfg call ⟨b, x, none⟩ g) := by
  have hold := hat.entries_eq h hchk.name
  rw [updateExisting]
  dsimp only
  split
  case isTrue => exact outcome_failed h (by decide)
  split
  case isTrue => exact outcome_failed h (by decide)
  split
  case isTrue => exact outcome_failed h (by decide)
  split
  case isTrue hdelete =>
    apply markOldDeleted_outcome hcfg h hat hchk.name
    rw [applyCall, hold]
    dsimp only
    rw [if_pos hdelete]
  case isFalse hdelete =>
    have haccess : noAccess call.attributes = false := by
      by_contra hno
      exact hdelete (.inr (Bool.not_eq_false _ ▸ hno))
    have hdata : call.attributes.has efiVariableAppendWrite ∨ call.data ≠ [] := by
      by_contra hno
      rw [not_or, not_not] at hno
      exact hdelete (.inl ⟨hno.1, hno.2⟩)
    have hattr' : call.attributes &&& ~~~efiVariableAppendWrite =
        (recordAt cfg g b x).attributes := by
      refine hattr.resolve_left fun hzero => ?_
      rw [hzero] at haccess
      exact absurd haccess (by decide)
    have hcall : applyCall call (entries cfg g) = (entries cfg g).set call.name call.guid
        (some (call.attributes &&& ~~~efiVariableAppendWrite,
          if call.attributes.has efiVariableAppendWrite then
            (recordAt cfg g b x).data ++ call.data else call.data)) := by
      rw [applyCall, hold]
      dsimp only
      rw [if_neg hdelete]
      rfl
    obtain ⟨hhead, hmax⟩ := hcfg.maxSize call.attributes
    split
    case isTrue hsame =>
      refine outcome_success h rfl rfl ?_
      rw [hcall, if_neg hsame.2, ← hsame.1, hattr']
      rw [value] at hold
      rw [← hold, Entries.set_self]
    split
    case isTrue happ =>
      rw [if_pos happ] at hcall
      split
      case isTrue => exact outcome_failed h (by decide)
      case isFalse hlen =>
        have hname : (recordAt cfg g b x).name = call.name.bytes :=
          (hasKey_iff.1 hat.key).2
        have hsize := hchk.size
        rw [hname, sub64_eq (by omega) (by omega)] at hlen
        have hne : (recordAt cfg g b x).data ≠ [] :=
          (h.records b).data _ (by rw [hat.stored_eq]; simp) hat.live
        apply replaceVariable_outcome hcfg h hat hchk hattr' hdata haccess _ hcall
        apply hchk.writable hcfg
        · simp [hne]
        · rw [List.length_append, recordAt]
          omega
    case isFalse happ =>
      rw [if_neg happ] at hcall
      have hsize := hchk.size
      apply replaceVariable_outcome hcfg h hat hchk hattr' hdata haccess _ hcall
      exact hchk.writable hcfg (hdata.resolve_left happ) (by omega)

end

theorem updateMissing_outcome
    (habs : ∀ b, VariableContents.Absent call.name call.guid (storedRecords cfg g b))
    (hchk : Checked cfg g.endOfDxe call) :
    Outcome cfg g call (updateMissing cfg call g) := by
  have hold := entries_absent h hchk.name habs
  have hcall : applyCall call (entries cfg g) =
      if call.data = [] then entries cfg g
      else (entries cfg g).set call.name call.guid
        (some (call.attributes &&& ~~~efiVariableAppendWrite, call.data)) := by
    rw [applyCall, hold]
  rw [updateMissing]
  split
  case isTrue happ =>
    refine outcome_success h rfl rfl ?_
    rw [hcall, if_pos happ.1]
  split
  case isTrue => exact outcome_failed h (by decide)
  case isFalse hwrite =>
    rw [not_or, Bool.not_eq_true] at hwrite
    obtain ⟨hdata, haccess⟩ := hwrite
    split
    case isTrue => exact outcome_failed h (by decide)
    case isFalse =>
      rw [if_neg hdata] at hcall
      have hsize := hchk.size
      obtain ⟨hhead, hmax⟩ := hcfg.maxSize call.attributes
      have hnew := createVariable_created hcfg h (v := call.prepared call.data)
        (.missing habs) (hchk.writable hcfg hdata (by omega))
        (hchk.flagStays_prepared hcfg (.inr hdata) haccess) call.poolAvailable
      exact outcome_created hnew rfl rfl rfl hcall

theorem setVariable_outcome (call : SetVariableCall) :
    Outcome cfg g call (setVariable cfg call g) := by
  rw [setVariable]
  dsimp only
  split
  case isTrue hstat => exact outcome_failed h ((EfiStatus.isError_iff _).1 hstat)
  case isFalse hstat =>
    have hok : checkParameters cfg g.endOfDxe call = .success := by
      by_contra hne
      exact hstat ((EfiStatus.isError_iff _).2 hne)
    have hchk := checkParameters_checked hcfg hok
    rcases h.cases call.name call.guid with habs | ⟨b, x, l₁, l₂, hat⟩
    · rw [findVariable_absent h hchk.name habs]
      exact updateMissing_outcome hcfg h habs hchk
    · rw [hat.findVariable h hchk.name, if_pos (by simp)]
      dsimp only
      split
      case isTrue => exact outcome_failed h (by decide)
      split
      case isTrue => exact outcome_failed h (by decide)
      case isFalse hattr =>
        apply updateExisting_outcome hcfg h hat hchk
        by_contra hno
        rw [not_or] at hno
        exact hattr hno

end

end

end Update

variable (cfg : Config)

def setVariables : List SetVariableCall → VariableModule →
    List (SetVariableCall × EfiStatus) × VariableModule
  | [], g => ([], g)
  | call :: calls, g =>
    let r := setVariable cfg call g
    let rest := setVariables calls r.2
    ((call, r.1) :: rest.1, rest.2)

/-- What a list of calls with their statuses does to a map of variables. -/
inductive MapRun (endOfDxe : Bool) :
    List (SetVariableCall × EfiStatus) → Entries → Entries → Prop
  | nil (entries : Entries) : MapRun endOfDxe [] entries entries
  | cons {call : SetVariableCall} {status : EfiStatus} {entries entries' : Entries} {mask : Byte}
      {calls : List (SetVariableCall × EfiStatus)}
      (hmask : (status = .outOfResources ∧ endOfDxe) ∨ mask = 0xff)
      (hrest : MapRun endOfDxe calls
        (maskFlag mask (if status = .success then applyCall call entries else entries)) entries') :
      MapRun endOfDxe ((call, status) :: calls) entries entries'

/-- What `GetVariable` returns for an entry. -/
def readEntry (atRuntime : Bool) (dataSize : Nat) :
    Option Entry → EfiStatus × Option (Attributes × Nat × List Byte)
  | none => (.notFound, none)
  | some (attributes, data) =>
    if atRuntime ∧ ¬ attributes.has efiVariableRuntimeAccess then (.notFound, none)
    else if data.length ≤ dataSize then (.success, some (attributes, data.length, data))
    else (.bufferTooSmall, some (attributes, data.length, []))

variable {cfg}

theorem getVariable_eq (h : Inv cfg g) (name : VariableName) (guid : GuidBytes) (len : Nat) :
    getVariable cfg name guid len g = readEntry g.atRuntime len (entries cfg g name guid) := by
  rw [getVariable]
  by_cases hname : name.chars = []
  · rw [if_pos hname, entries, if_pos hname]
    rfl
  · rw [if_neg hname]
    rcases h.cases name guid with habs | ⟨b, x, l₁, l₂, hat⟩
    · rw [findVariable_absent h hname habs, entries_absent h hname habs]
      rfl
    · rw [hat.findVariable h hname, hat.entries_eq h hname, value, readEntry]
      by_cases hhidden : g.atRuntime ∧
          ¬ (recordAt cfg g b x).attributes.has efiVariableRuntimeAccess
      · rw [if_pos hhidden, if_neg (by simp [hhidden])]
      · have hvis : ((false || !g.atRuntime) || (recordAt cfg g b
            x).attributes.has efiVariableRuntimeAccess) = true := by
          rcases Bool.eq_false_or_eq_true g.atRuntime with hrt | hrt
          · have hvis := not_not.1 fun hno => hhidden ⟨hrt, hno⟩
            simp [hvis]
          · simp [hrt]
        rw [if_neg hhidden, if_pos hvis]

theorem setVariables_inv (hcfg : Config.Valid cfg) (h : Inv cfg g) (calls : List SetVariableCall) :
    Inv cfg (setVariables cfg calls g).2 ∧ (setVariables cfg calls g).2.atRuntime = g.atRuntime ∧
      MapRun g.endOfDxe (setVariables cfg calls g).1 (entries cfg g)
        (entries cfg (setVariables cfg calls g).2) := by
  induction calls generalizing g with
  | nil => exact ⟨h, rfl, .nil _⟩
  | cons call calls ih =>
    have hout := setVariable_outcome hcfg h call
    obtain ⟨mask, hmask, hents⟩ := hout.entries
    obtain ⟨hinv, hrt, hrun⟩ := ih hout.inv
    refine ⟨hinv, hrt.trans hout.atRuntime, ?_⟩
    rw [hout.endOfDxe, hents] at hrun
    exact .cons hmask hrun

def emptyModule : VariableModule where
  volatileStore := erased
  volatileLastVariableOffset := getStartPointer
  flash := erased
  nvVariableCache := erased
  nonVolatileLastVariableOffset := getStartPointer
  totals := ⟨0, 0, 0⟩
  atRuntime := false
  endOfDxe := false
  reclaimedAtRuntime := false
  currentBootVarErrFlag := 0xff
  flashOps := []

theorem inv_emptyModule (hcfg : Config.Valid cfg) : Inv cfg emptyModule := by
  have hlay : ∀ size, getStartPointer ≤ size →
      StoreLayout cfg.authFormat erased size [] getStartPointer := by
    intro size hsize
    exact ⟨.nil fun _ => format_length_erased rfl, hsize, fun _ _ _ => rfl⟩
  have hgood : ∀ size nv, getStartPointer ≤ size →
      GoodStore cfg.authFormat erased size nv getStartPointer := by
    intro size nv hsize
    exact goodStore_of_layout (hlay size hsize) ⟨by simp, by simp, by simp, .nil⟩
  have hspc := hcfg.space
  have hempty : ∀ b, storedRecords cfg emptyModule b = [] := by
    intro b
    cases b with
    | true => exact (hlay _ hcfg.volatile_start).storeRecords_eq
    | false => exact (hlay cfg.nvSize (by omega)).storeRecords_eq
  refine ⟨?_, fun _ _ => rfl, ?_, by decide, Nat.zero_le _, Nat.dvd_zero 4, by simp [emptyModule]⟩
  · intro b
    cases b with
    | true => exact hgood _ _ hcfg.volatile_start
    | false => exact hgood cfg.nvSize _ (by omega)
  · rw [hempty true]
    simp

def smallConfig : Config where
  authFormat := false
  volatileSize := 256
  nvSize := 156
  fvEnd := 156
  limits := ⟨0, 128, 128, 128⟩
  maxVariableSize := 200
  maxVolatileVariableSize := 200
  maxHardwareErrorVariableSize := 200
  hasProperty := fun _ _ => false
  variableProperty := fun name guid =>
    if name.chars = varErrorFlagName.chars ∧ guid = varErrorFlagGuid then
      some varErrorFlagProperty else none
  trusted := false
  varCheckHandlers := []

theorem smallConfig_valid : Config.Valid smallConfig where
  volatile_start := by decide
  volatile_dvd := by decide
  nv_dvd := by decide
  hwErr_dvd := by decide
  space := by decide
  fvEnd := by decide
  maxSize attributes := by
    rw [maxSize]
    split
    · decide
    · split <;> decide
  flagProperty := by simp [smallConfig]

/-- A variable named `A` with the attributes and the data. -/
def setA (attributes : Attributes) (data : List Byte) : SetVariableCall :=
  ⟨⟨[0x41], by simp⟩, fun _ => 0, attributes, data, true, .success, by decide⟩

/-- The error flag is set to `0xff`, as it is at the end of DXE. -/
def setFlag : SetVariableCall :=
  ⟨varErrorFlagName, varErrorFlagGuid, varErrorFlagProperty.attributes, [0xff], true, .success,
    by decide⟩

def moduleWithFlag : VariableModule :=
  { (setVariable smallConfig setFlag emptyModule).2 with endOfDxe := true }

/-- Any sequence of calls of `SetVariable`, and `GetVariable` after it, behave as a map, but
for bits of the error flag that calls without room clear. -/
theorem setVariables_map (hcfg : Config.Valid cfg) (h : Inv cfg g) (calls : List SetVariableCall) :
    ∃ final : Entries, MapRun g.endOfDxe (setVariables cfg calls g).1 (entries cfg g) final ∧
      ∀ (name : VariableName) (guid : GuidBytes) (dataSize : Nat),
        getVariable cfg name guid dataSize (setVariables cfg calls g).2 =
          readEntry g.atRuntime dataSize (final name guid) := by
  obtain ⟨hinv, hruntime, hrun⟩ := setVariables_inv hcfg h calls
  refine ⟨_, hrun, ?_⟩
  intro name guid dataSize
  rw [getVariable_eq hinv, hruntime]

theorem setVariables_map_append :
    (setVariables smallConfig [setA 7 [1], setA 0x47 [2, 3]] emptyModule).1.map Prod.snd =
        [.success, .success] ∧
      ∃ final : Entries,
        MapRun false (setVariables smallConfig [setA 7 [1], setA 0x47 [2, 3]] emptyModule).1
          (entries smallConfig emptyModule) final ∧
        ∀ (name : VariableName) (guid : GuidBytes) (dataSize : Nat),
          getVariable smallConfig name guid dataSize
              (setVariables smallConfig [setA 7 [1], setA 0x47 [2, 3]] emptyModule).2 =
            readEntry false dataSize (final name guid) :=
  ⟨by decide +kernel, setVariables_map smallConfig_valid (inv_emptyModule smallConfig_valid) _⟩

/-- A call that fails for want of room changes another variable. -/
theorem setVariable_flag_cleared :
    (setVariable smallConfig (setA 3 (List.replicate 80 1)) moduleWithFlag).1 = .outOfResources ∧
      getVariable smallConfig varErrorFlagName varErrorFlagGuid 1 moduleWithFlag =
        (.success, some (7, 1, [0xff])) ∧
      getVariable smallConfig varErrorFlagName varErrorFlagGuid 1
          (setVariable smallConfig (setA 3 (List.replicate 80 1)) moduleWithFlag).2 =
        (.success, some (7, 1, [0xef])) := by
  decide +kernel

end MuBasecore.VariableRuns
