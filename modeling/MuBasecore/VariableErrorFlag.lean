import MuBasecore.StateWrites

/-!
`RecordVarErrorFlag`: after the end of DXE it clears bits of the data of the error flag
variable, in the flash and in its copy.
-/

namespace MuBasecore.VariableErrorFlag

open ByteMemory SlotBuffer StateWrites StoreWrites VariableFormat VariableLookup VariableMap Option
open VariableServices Function

def maskFirst (mask : Byte) : List Byte → List Byte
  | [] => []
  | b :: data => (b &&& mask) :: data

def maskFlag (mask : Byte) (entries : Entries) : Entries :=
  entries.set varErrorFlagName varErrorFlagGuid
    ((entries varErrorFlagName varErrorFlagGuid).map fun e => (e.1, maskFirst mask e.2))

variable {mask mask' : Byte} {data : List Byte}

theorem maskFirst_maskFirst :
    maskFirst mask' (maskFirst mask data) = maskFirst (mask &&& mask') data := by
  cases data with
  | nil => rfl
  | cons b data => rw [maskFirst, maskFirst, maskFirst, BitVec.and_assoc]

theorem maskFirst_ones : maskFirst 0xff data = data := by
  cases data with
  | nil => rfl
  | cons b data =>
    have hb : b &&& 0xff = b := BitVec.and_allOnes
    rw [maskFirst, hb]

theorem maskFlag_ones (entries : Entries) : maskFlag 0xff entries = entries := by
  have hsame : ((entries varErrorFlagName varErrorFlagGuid).map fun e =>
      (e.1, maskFirst 0xff e.2)) = entries varErrorFlagName varErrorFlagGuid := by
    cases entries varErrorFlagName varErrorFlagGuid with
    | none => rfl
    | some e => rw [map_some, maskFirst_ones]
  rw [maskFlag, hsame, Entries.set_self]

theorem maskFlag_maskFlag (mask mask' : Byte) (entries : Entries) :
    maskFlag mask' (maskFlag mask entries) = maskFlag (mask &&& mask') entries := by
  funext name guid
  simp only [maskFlag, Entries.set]
  by_cases hkey : name = varErrorFlagName ∧ guid = varErrorFlagGuid
  · simp only [hkey, and_self, if_true]
    cases entries varErrorFlagName varErrorFlagGuid with
    | none => rfl
    | some e => rw [map_some, map_some, map_some, maskFirst_maskFirst]
  · simp [hkey]

variable {x : Nat}

section Data

variable {auth : Bool} {m : Memory}

theorem variableRecord_setData {t : Byte} (hdata : 0 < dataSizeOfVariable auth m x) :
    startId (update m (getVariableDataPtr auth m x) t) x = startId m x ∧
      variableSize auth (update m (getVariableDataPtr auth m x) t) x =
        variableSize auth m x ∧
      variableRecord auth (update m (getVariableDataPtr auth m x) t) x =
        { variableRecord auth m x with data := t :: (variableRecord auth m x).data.tail } := by
  generalize hm' : update m (getVariableDataPtr auth m x) t = m'
  have hptr : getVariableDataPtr auth m x =
      x + getVariableHeaderSize auth + nameSizeOfVariable auth m x := rfl
  have hsame : ∀ i, i ≠ getVariableDataPtr auth m x → m' i = m i := by
    intro i hi
    rw [← hm', update_of_ne hi]
  have hhead : ∀ i < getVariableHeaderSize auth, m' (x + i) = m (x + i) :=
    fun i hi => hsame _ (by omega)
  have hsizes := headerSize_eq auth
  have hoff := le_nameSizeOffset auth
  refine ⟨startId_copy hhead, ?_, ?_⟩
  · rw [variableSize, variableSize, nameSize_copy hhead, dataSize_copy hhead]
  · have hattr : variableAttributes m' x = variableAttributes m x := by
      rw [variableAttributes, variableAttributes, readU32_copy hhead (by omega)]
    have hguid : vendorGuid auth m' x = vendorGuid auth m x := by
      funext i
      exact hsame _ (by omega)
    have hname : slotRange m' (x + getVariableHeaderSize auth) (nameSizeOfVariable auth m x) =
        slotRange m (x + getVariableHeaderSize auth) (nameSizeOfVariable auth m x) :=
      slotRange_congr fun j _ hj => hsame j (by omega)
    have hfst : m' (getVariableDataPtr auth m x) = t := by
      rw [← hm', update_self]
    obtain ⟨n, hn⟩ := Nat.exists_eq_add_of_le' hdata
    have hspl : ∀ m : Memory, ∀ a, slotRange m a (n + 1) = m a :: slotRange m (a + 1) n := by
      intro m a
      rw [add_comm, slotRange_add]
      rfl
    have htail : slotRange m' (getVariableDataPtr auth m x + 1) n =
        slotRange m (getVariableDataPtr auth m x + 1) n :=
      slotRange_congr fun j hj _ => hsame j (by omega)
    rw [variableRecord, variableRecord, variableState_copy hhead, hattr, hguid,
      nameSize_copy hhead, dataSize_copy hhead]
    have hptr' : getVariableDataPtr auth m' x = getVariableDataPtr auth m x := by
      rw [getVariableDataPtr, getVariableDataPtr, nameSize_copy hhead]
    rw [hptr', getVariableNamePtr, hname, hn, hspl, hspl, hfst, htail]
    rfl

end Data

structure FlagMasked (cfg : Config) (g g' : VariableModule) : Prop where
  inv : Inv cfg g'
  volatileStore : g'.volatileStore = g.volatileStore
  endOfDxe : g'.endOfDxe = g.endOfDxe
  atRuntime : g'.atRuntime = g.atRuntime
  entries : ∃ mask, (g.endOfDxe ∨ mask = 0xff) ∧ entries cfg g' = maskFlag mask (entries cfg g)

variable {cfg : Config} {g g' g'' : VariableModule}

theorem flagMasked_refl (h : Inv cfg g) : FlagMasked cfg g g :=
  ⟨h, rfl, rfl, rfl, 0xff, .inr rfl, (maskFlag_ones _).symm⟩

theorem FlagMasked.trans (h : FlagMasked cfg g g') (h' : FlagMasked cfg g' g'') :
    FlagMasked cfg g g'' := by
  obtain ⟨mask, hmask, hents⟩ := h.entries
  obtain ⟨mask', hmask', hents'⟩ := h'.entries
  refine ⟨h'.inv, h'.volatileStore.trans h.volatileStore, h'.endOfDxe.trans h.endOfDxe,
    h'.atRuntime.trans h.atRuntime, mask &&& mask', ?_, ?_⟩
  · rw [h.endOfDxe] at hmask'
    rcases hmask with hend | rfl
    · exact .inl hend
    · rcases hmask' with hend | rfl
      · exact .inl hend
      · exact .inr rfl
  · rw [hents', hents, maskFlag_maskFlag]

def byteWritten (a : Nat) (t : Byte) (g : VariableModule) : VariableModule :=
  { g with
    flash := Function.update g.flash a t
    nvVariableCache := Function.update g.nvVariableCache a t
    flashOps := g.flashOps ++ [.write a [t]] }

variable {name : VariableName} {guid : GuidBytes} {l₁ l₂ : List Nat}

theorem FoundAt.dataSize_pos (hat : FoundAt cfg g name guid false x l₁ l₂) (h : Inv cfg g) :
    0 < dataSizeOfVariable cfg.authFormat g.nvVariableCache x := by
  have hmem : recordAt cfg g false x ∈ storedRecords cfg g false := by
    rw [hat.stored_eq]
    simp
  have hdata := (h.records false).data _ hmem hat.live
  rcases Nat.eq_zero_or_pos (dataSizeOfVariable cfg.authFormat g.nvVariableCache x) with hz | hpos
  · refine absurd ?_ hdata
    change slotRange g.nvVariableCache _
      (dataSizeOfVariable cfg.authFormat g.nvVariableCache x) = []
    rw [hz]
    rfl
  · exact hpos

abbrev dataPtr (cfg : Config) (g : VariableModule) (x : Nat) : Nat :=
  getVariableDataPtr cfg.authFormat g.nvVariableCache x

section

variable (hat : FoundAt cfg g name guid false x l₁ l₂)
include hat

theorem FoundAt.byteWritten_record (h : Inv cfg g) (t : Byte) :
    recordAt cfg (byteWritten (dataPtr cfg g x) t g) false x =
      { variableRecord cfg.authFormat g.nvVariableCache x with
        data := t :: (variableRecord cfg.authFormat g.nvVariableCache x).data.tail } :=
  (variableRecord_setData (FoundAt.dataSize_pos hat h)).2.2

theorem FoundAt.replaced_byteWritten (h : Inv cfg g) (t : Byte) :
    Replaced cfg g (byteWritten (dataPtr cfg g x) t g) false x l₁ l₂ := by
  have hrec := FoundAt.byteWritten_record hat h t
  have hpos := FoundAt.dataSize_pos hat h
  obtain ⟨hst', hsize, _⟩ := variableRecord_setData (t := t) hpos
  have hlay := (h.store false).layout
  rw [hat.offsets] at hlay
  obtain ⟨_, _, hst, _⟩ := hlay.of_mem (x := x) (by simp)
  have hle := le_variableSize cfg.authFormat g.nvVariableCache x
  have hout : ∀ i, i < x ∨ x + variableSize cfg.authFormat g.nvVariableCache x ≤ i →
      update g.nvVariableCache (dataPtr cfg g x) t i = g.nvVariableCache i := by
    intro i hi
    apply update_of_ne
    rw [dataPtr, getVariableDataPtr, getVariableNamePtr]
    omega
  obtain ⟨hnew, h₁, h₂⟩ := layout_modify_split hlay hout (hst'.trans hst) hsize
  refine ⟨hnew, h₁, h₂, ?_, ?_, ?_, ?_, rfl, fun _ => rfl, ?_, rfl, rfl⟩
  · rw [hrec]
    rfl
  · rw [hrec]
    rfl
  · rw [hrec]
    rfl
  · rw [hrec]
    exact List.cons_ne_nil _ _
  · intro i hi
    change update g.flash _ t i = update g.nvVariableCache _ t i
    rw [update_apply, update_apply, h.synced i hi]

theorem FoundAt.dataPtr_lt (h : Inv cfg g) : dataPtr cfg g x < cfg.nvSize := by
  have hpos := FoundAt.dataSize_pos hat h
  have hlay := (h.store false).layout
  rw [hat.offsets] at hlay
  obtain ⟨_, _, _, hlast⟩ := hlay.of_mem (x := x) (by simp)
  have hle := le_variableSize cfg.authFormat g.nvVariableCache x
  have hlast' : x + variableSize cfg.authFormat g.nvVariableCache x ≤ lastOffset g false := hlast
  have hsize : lastOffset g false ≤ cfg.nvSize := hlay.last_le
  rw [dataPtr, getVariableDataPtr, getVariableNamePtr]
  omega

theorem FoundAt.data_eq (h : Inv cfg g) :
    (variableRecord cfg.authFormat g.nvVariableCache x).data =
      g.nvVariableCache (dataPtr cfg g x) ::
        (variableRecord cfg.authFormat g.nvVariableCache x).data.tail := by
  obtain ⟨n, hn⟩ := Nat.exists_eq_add_of_le' (FoundAt.dataSize_pos hat h)
  have hdata : (variableRecord cfg.authFormat g.nvVariableCache x).data =
      slotRange g.nvVariableCache (dataPtr cfg g x) (1 + n) := by
    rw [add_comm, ← hn]
    rfl
  rw [hdata, slotRange_add]
  rfl

end

theorem FoundAt.flagWritten (hat : FoundAt cfg g varErrorFlagName varErrorFlagGuid false x l₁ l₂)
    (h : Inv cfg g) (hend : g.endOfDxe) (flag : Byte) :
    FlagMasked cfg g
      (byteWritten (dataPtr cfg g x) (g.nvVariableCache (dataPtr cfg g x) &&& flag) g) := by
  have hname : varErrorFlagName.chars ≠ [] := by simp [varErrorFlagName]
  generalize ht : g.nvVariableCache (dataPtr cfg g x) &&& flag = t
  have hrepl := FoundAt.replaced_byteWritten hat h t
  have hrec := FoundAt.byteWritten_record hat h t
  refine ⟨hrepl.inv h hat, rfl, rfl, rfl, flag, .inl hend, ?_⟩
  have hlive : (recordAt cfg (byteWritten (dataPtr cfg g x) t g) false x).live := by
    rw [hrec]
    exact hat.live
  rw [hrepl.entries_eq h hat hname, if_pos hlive, hrec, maskFlag, hat.entries_eq h hname]
  change Entries.set _ _ _ (some (_, t :: _)) = Entries.set _ _ _ (some (_, maskFirst flag _))
  have hdata := FoundAt.data_eq hat h
  change _ = Entries.set _ _ _ (some (_, maskFirst flag
    (variableRecord cfg.authFormat g.nvVariableCache x).data))
  rw [hdata, maskFirst, ht]
  rfl

section

variable (hcfg : Config.Valid cfg) (h : Inv cfg g)
include hcfg h

theorem recordVarErrorFlag_cases (flag : Byte) :
    (∃ c, recordVarErrorFlag cfg flag g = { g with currentBootVarErrFlag := c }) ∨
      ∃ x l₁ l₂, FoundAt cfg g varErrorFlagName varErrorFlagGuid false x l₁ l₂ ∧ g.endOfDxe ∧
        recordVarErrorFlag cfg flag g =
          byteWritten (dataPtr cfg g x) (g.nvVariableCache (dataPtr cfg g x) &&& flag) g := by
  rw [recordVarErrorFlag]
  split
  case isFalse hend => exact .inl ⟨_, rfl⟩
  case isTrue hend =>
    have hname : varErrorFlagName.chars ≠ [] := by simp [varErrorFlagName]
    rcases h.cases varErrorFlagName varErrorFlagGuid with habs | ⟨b, x, l₁, l₂, hat⟩
    · rw [findVariable_absent h hname habs]
      exact .inl ⟨_, rfl⟩
    · -- the flag is not in the volatile store
      obtain rfl : b = false := by
        cases b with
        | false => rfl
        | true =>
          refine absurd hat.key (h.flag hend _ ?_ hat.live)
          rw [hat.stored_eq]
          simp
      rw [hat.findVariable h hname]
      split
      case h_1 => exact .inl ⟨_, rfl⟩
      case h_2 found hfnd =>
        split at hfnd
        case isFalse => exact absurd hfnd (by simp)
        case isTrue =>
          obtain ⟨⟩ := hfnd
          rw [if_neg (by simp)]
          dsimp only
          split
          case isTrue => exact .inl ⟨_, rfl⟩
          case isFalse =>
            have hbd := FoundAt.dataPtr_lt hat h
            have hfv := hcfg.fvEnd
            rw [dataPtr] at hbd
            rw [updateStore_nonVolatile (by rw [List.length_singleton]; omega), if_pos rfl]
            refine .inr ⟨x, l₁, l₂, hat, hend, ?_⟩
            simp only [byteWritten, writeBytes_singleton]

theorem recordVarErrorFlag_masked (flag : Byte) :
    FlagMasked cfg g (recordVarErrorFlag cfg flag g) := by
  rcases recordVarErrorFlag_cases hcfg h flag with ⟨c, heq⟩ | ⟨x, l₁, l₂, hat, hend, heq⟩
  · rw [heq]
    exact ⟨{ h with }, rfl, rfl, rfl, 0xff, .inr rfl, (maskFlag_ones _).symm⟩
  · rw [heq]
    exact FoundAt.flagWritten hat h hend flag

theorem recordErrors_masked (space : Nat)
    (v : PreparedVariable) : FlagMasked cfg g (recordErrors cfg space v g) := by
  have hone : ∀ g, Inv cfg g → ∀ (c : Bool) flag,
      FlagMasked cfg g (if c then recordVarErrorFlag cfg flag g else g) := by
    intro g h c flag
    cases c with
    | true => exact recordVarErrorFlag_masked hcfg h flag
    | false => exact flagMasked_refl h
  have hfst := hone g h (commonUserFull cfg v g) varErrorFlagUserError
  exact hfst.trans (hone _ hfst.inv _ _)

end

end MuBasecore.VariableErrorFlag
