import MuBasecore.VariableMap

/-!
The writes of a state byte by `UpdateVariable`: what they do to the stores and to the
map, for a variable with one live record.
-/

namespace MuBasecore.StateWrites

open ByteMemory ReclaimLookup StoreWrites VariableContents VariableFormat VariableLookup VariableMap
  List
open VariableServices VariableRecord

structure Replaced (cfg : Config) (g g' : VariableModule) (b : Bool) (x : Nat)
    (l₁ l₂ : List Nat) : Prop where
  layout : StoreLayout cfg.authFormat (g'.store b) (cfg.storeSize b) (l₁ ++ x :: l₂)
    (lastOffset g b)
  before : l₁.map (recordAt cfg g' b) =
    l₁.map (recordAt cfg g b)
  after : l₂.map (recordAt cfg g' b) =
    l₂.map (recordAt cfg g b)
  name : (recordAt cfg g' b x).name =
    (recordAt cfg g b x).name
  guid : (recordAt cfg g' b x).guid =
    (recordAt cfg g b x).guid
  attributes : (recordAt cfg g' b x).attributes =
    (recordAt cfg g b x).attributes
  data : (recordAt cfg g' b x).data ≠ []
  other : g'.store (!b) = g.store (!b)
  last : ∀ c, lastOffset g' c = lastOffset g c
  synced : ∀ i, i < cfg.nvSize → g'.flash i = g'.nvVariableCache i
  totals : g'.totals = g.totals
  endOfDxe : g'.endOfDxe = g.endOfDxe

variable {cfg : Config} {name : VariableName} {guid : GuidBytes} {b : Bool} {x : Nat}
  {l₁ l₂ : List Nat}

section Replace

variable {g g' : VariableModule}
variable (h : Replaced cfg g g' b x l₁ l₂)
include h

theorem Replaced.stored_eq :
    storedRecords cfg g' b =
      l₁.map (recordAt cfg g b) ++ recordAt cfg g' b x :: l₂.map (recordAt cfg g b) := by
  rw [storedRecords, h.layout.storeRecords_eq, map_append, map_cons, h.before, h.after]

theorem Replaced.storedRecords_not : storedRecords cfg g' (!b) = storedRecords cfg g (!b) := by
  rw [storedRecords, storedRecords, h.other]

theorem Replaced.key (hat : FoundAt cfg g name guid b x l₁ l₂) :
    hasKey name.bytes guid (recordAt cfg g' b x) := by
  rw [hasKey, h.name, h.guid]
  exact hat.key

theorem Replaced.rewritten (hinv : Inv cfg g)
    (hat : FoundAt cfg g name guid b x l₁ l₂) : Rewritten cfg g g' b name guid := by
  have hgood := hinv.records b
  have hprop : ProperName (recordAt cfg g b x).name :=
    hinv.proper b _ (by rw [hat.stored_eq]; simp) hat.live
  have hlast : g'.nonVolatileLastVariableOffset = g.nonVolatileLastVariableOffset := h.last false
  refine ⟨?_, h.other, h.last _, h.synced, ?_, ?_, ?_, ?_, ?_, h.endOfDxe⟩
  · refine goodStore_of_layout (l := l₁ ++ x :: l₂) ?_ ?_
    · rw [h.last]
      exact h.layout
    · rw [hat.stored_eq] at hgood
      rw [map_append, map_cons, h.before, h.after]
      exact hgood.replace h.name h.guid h.attributes (fun _ => hat.live) fun _ => h.data
  · intro name' guid' hname' hne
    have hold := selects_other hat.key hname' hne (fun _ => hprop) true
    have hnew := selects_other (h.key hat) hname' hne (fun _ => h.name ▸ hprop) true
    rw [h.stored_eq, hat.stored_eq, find_skip hnew, find_skip hold]
  · intro r hr hlive
    rw [h.stored_eq] at hr
    rw [hat.stored_eq]
    rcases mem_append.1 hr with hr | hr
    · exact .inr ⟨r, by simp [hr], hlive, rfl, rfl⟩
    · rcases mem_cons.1 hr with rfl | hr
      · exact .inl (h.key hat)
      · exact .inr ⟨r, by simp [hr], hlive, rfl, rfl⟩
  · rw [h.totals, hlast]
    exact hinv.space
  · rw [h.totals]
    exact hinv.hwErr_le
  · rw [h.totals]
    exact hinv.hwErr_dvd

theorem Replaced.inv (hinv : Inv cfg g) (hat : FoundAt cfg g name guid b x l₁ l₂) : Inv cfg g' := by
  apply (h.rewritten hinv hat).inv hinv hat.other
  -- the error flag is in no volatile record, and so not in this one
  rintro hend rfl ⟨rfl, rfl⟩
  refine hinv.flag hend _ ?_ hat.live hat.key
  rw [hat.stored_eq]
  simp

theorem Replaced.foundAt (hat : FoundAt cfg g name guid b x l₁ l₂)
    (hlive : (recordAt cfg g' b x).live) :
    FoundAt cfg g' name guid b x l₁ l₂ where
  offsets := h.layout.variableOffsets_eq
  live := hlive
  key := h.key hat
  before := h.before ▸ hat.before
  after := h.after ▸ hat.after
  other := h.storedRecords_not ▸ hat.other

theorem Replaced.absent (hat : FoundAt cfg g name guid b x l₁ l₂)
    (hdead : ¬ (recordAt cfg g' b x).live) (c : Bool) :
    Absent name guid (storedRecords cfg g' c) := by
  by_cases hc : c = b
  · rw [hc, h.stored_eq]
    intro r hr hlive
    rcases mem_append.1 hr with hr | hr
    · exact hat.before r hr hlive
    · rcases mem_cons.1 hr with rfl | hr
      · exact absurd hlive hdead
      · exact hat.after r hr hlive
  · rw [Bool.eq_not.2 hc, h.storedRecords_not]
    exact hat.other

theorem Replaced.entries_eq (hinv : Inv cfg g)
    (hat : FoundAt cfg g name guid b x l₁ l₂) (hname : name.chars ≠ []) :
    entries cfg g' = (entries cfg g).set name guid
      (if (recordAt cfg g' b x).live then
        some (value (recordAt cfg g' b x)) else none) := by
  rw [(h.rewritten hinv hat).entries_eq]
  congr 1
  split
  case isTrue hlive => exact (h.foundAt hat hlive).entries_eq (h.inv hinv hat) hname
  case isFalse hdead => exact entries_absent (h.inv hinv hat) hname (h.absent hat hdead)

end Replace

def stateWritten (b : Bool) (x : Nat) (s : Byte) (g : VariableModule) : VariableModule :=
  if b then { g with volatileStore := setState g.volatileStore x s }
  else
    { g with
      flash := setState g.flash x s
      nvVariableCache := setState g.nvVariableCache x s
      flashOps := g.flashOps ++ [.write (x + 2) [s]] }

section Fields

variable (b : Bool) (x : Nat) (s : Byte) (g : VariableModule)

@[simp] theorem stateWritten_store : (stateWritten b x s g).store b = setState (g.store b) x s := by
  cases b <;> rfl

@[simp] theorem stateWritten_store_not : (stateWritten b x s g).store (!b) = g.store (!b) := by
  cases b <;> rfl

@[simp] theorem written_lastOffset (c : Bool) :
    lastOffset (stateWritten b x s g) c = lastOffset g c := by
  cases b <;> rfl

@[simp] theorem stateWritten_totals : (stateWritten b x s g).totals = g.totals := by
  cases b <;> rfl

@[simp] theorem stateWritten_endOfDxe : (stateWritten b x s g).endOfDxe = g.endOfDxe := by
  cases b <;> rfl

@[simp] theorem stateWritten_atRuntime : (stateWritten b x s g).atRuntime = g.atRuntime := by
  cases b <;> rfl

variable {g} in
theorem stateWritten_synced {size : Nat}
    (hsynced : ∀ i, i < size → g.flash i = g.nvVariableCache i) :
    ∀ i, i < size → (stateWritten b x s g).flash i = (stateWritten b x s g).nvVariableCache i := by
  intro i hi
  cases b with
  | true => exact hsynced i hi
  | false =>
    change setState g.flash x s i = setState g.nvVariableCache x s i
    by_cases hix : i = x + 2
    · rw [hix, setState, setState, Function.update_self, Function.update_self]
    · rw [setState_of_ne _ hix, setState_of_ne _ hix, hsynced i hi]

end Fields

variable {bytes : List Byte} {offset : Nat} {r : VariableRecord} {g : VariableModule}

theorem FoundAt.inside (hat : FoundAt cfg g name guid b x l₁ l₂) (h : Inv cfg g) :
    4 ∣ x ∧ x + 32 ≤ lastOffset g b ∧ lastOffset g b ≤ cfg.storeSize b := by
  have hlay := (h.store b).layout
  rw [hat.offsets] at hlay
  obtain ⟨hdvd, _, _, hlast⟩ := hlay.of_mem (x := x) (by simp)
  have hheader := le_variableSize cfg.authFormat (g.store b) x
  have hheaderSize := headerSize_eq cfg.authFormat
  have hoff := le_nameSizeOffset cfg.authFormat
  exact ⟨hdvd, by omega, hlay.last_le⟩

theorem updateStore_volatile (h : offset + bytes.length ≤ cfg.volatileSize) :
    updateVariableStore cfg true offset bytes g =
      (.success, { g with volatileStore := writeBytes g.volatileStore offset bytes }) := by
  rw [updateVariableStore, if_pos rfl, if_neg (by omega)]

theorem updateStore_nonVolatile (h : offset + bytes.length ≤ cfg.fvEnd) :
    updateVariableStore cfg false offset bytes g =
      (.success, { g with
        flash := writeBytes g.flash offset bytes
        flashOps := g.flashOps ++ [.write offset bytes] }) := by
  have hbd : ¬ cfg.fvEnd < offset + bytes.length := by omega
  simp [updateVariableStore, hbd]

theorem writeState_eq (hcfg : Config.Valid cfg) (hx : x + 32 ≤ cfg.storeSize b) (s : Byte) :
    writeState cfg b x s g = (.success, stateWritten b x s g) := by
  have hfv := hcfg.fvEnd
  rw [writeState]
  cases b with
  | true =>
    change x + 32 ≤ cfg.volatileSize at hx
    rw [updateStore_volatile (by rw [length_singleton]; omega)]
    simp [andThen, stateWritten, writeBytes_state]
  | false =>
    change x + 32 ≤ cfg.nvSize at hx
    rw [updateStore_nonVolatile (by rw [length_singleton]; omega)]
    simp [andThen, stateWritten, writeBytes_state]

theorem live_state_ne (h : r.live) : r.state ≠ 0xff := by
  rw [VariableRecord.live, Bool.or_eq_true, added, inDeleted, beq_iff_eq, beq_iff_eq] at h
  rcases h with h | h <;> rw [h] <;> decide

theorem FoundAt.stateWritten_record (hat : FoundAt cfg g name guid b x l₁ l₂) {s : Byte}
    (hs : s ≠ 0xff) :
    recordAt cfg (stateWritten b x s g) b x = { recordAt cfg g b x with state := s } := by
  have hold : variableState (g.store b) x ≠ 0xff := live_state_ne hat.live
  rw [recordAt, stateWritten_store, record_setState hs hold]

theorem FoundAt.replaced_stateWritten (hat : FoundAt cfg g name guid b x l₁ l₂) (h : Inv cfg g)
    {s : Byte} (hs : s ≠ 0xff) : Replaced cfg g (stateWritten b x s g) b x l₁ l₂ := by
  have hlay := (h.store b).layout
  rw [hat.offsets] at hlay
  have hrec := FoundAt.stateWritten_record hat hs
  obtain ⟨hnew, h₁, h₂⟩ := layout_setState hlay hs (live_state_ne hat.live)
  have hdata := (h.records b).data _ (by rw [hat.stored_eq]; simp) hat.live
  refine ⟨?_, ?_, ?_, ?_, ?_, ?_, ?_, stateWritten_store_not b x s g,
    written_lastOffset b x s g, ?_, stateWritten_totals b x s g,
    stateWritten_endOfDxe b x s g⟩
  · rw [stateWritten_store]
    exact hnew
  · rw [recordAt, stateWritten_store]
    exact h₁
  · rw [recordAt, stateWritten_store]
    exact h₂
  · rw [hrec]
  · rw [hrec]
  · rw [hrec]
  · rw [hrec]
    exact hdata
  · exact stateWritten_synced b x s h.synced

theorem live_state (h : r.live) :
    r.state &&& varInDeletedTransition = varInDeleted ∧ r.state &&& varDeleted ≠ 0xff ∧
      r.state &&& varDeleted ≠ varAdded ∧ r.state &&& varDeleted ≠ varInDeleted := by
  rw [VariableRecord.live, Bool.or_eq_true, added, inDeleted, beq_iff_eq, beq_iff_eq] at h
  rcases h with h | h <;> rw [h] <;> decide

section

variable (hat : FoundAt cfg g name guid b x l₁ l₂) (h : Inv cfg g) (hname : name.chars ≠ [])
include hat h hname

theorem FoundAt.inv_inDeleted {g' : VariableModule}
    (hg' : g' = stateWritten b x (variableState (g.store b) x &&& varInDeletedTransition) g) :
    Inv cfg g' ∧ FoundAt cfg g' name guid b x l₁ l₂ ∧ entries cfg g' = entries cfg g := by
  have hs : variableState (g.store b) x &&& varInDeletedTransition = varInDeleted :=
    (live_state hat.live).1
  rw [hs] at hg'
  subst hg'
  have hne : varInDeleted ≠ 0xff := by decide
  have hrepl := FoundAt.replaced_stateWritten hat h hne
  have hrec := FoundAt.stateWritten_record hat hne
  have hlive : (recordAt cfg (stateWritten b x varInDeleted g) b x).live := by
    rw [hrec]
    simp [VariableRecord.live, inDeleted]
  refine ⟨hrepl.inv h hat, hrepl.foundAt hat hlive, ?_⟩
  rw [hrepl.entries_eq h hat hname, if_pos hlive, hrec]
  have hsame := hat.entries_eq h hname
  rw [value] at hsame
  rw [value, ← hsame, Entries.set_self]

theorem FoundAt.inv_deleted {g' : VariableModule}
    (hg' : g' = stateWritten b x (variableState (g.store b) x &&& varDeleted) g) :
    Inv cfg g' ∧ (∀ c, Absent name guid (storedRecords cfg g' c)) ∧
      entries cfg g' = (entries cfg g).set name guid none := by
  subst hg'
  obtain ⟨_, hne, hadd, hdel⟩ := live_state hat.live
  change variableState (g.store b) x &&& varDeleted ≠ 0xff at hne
  have hrepl := FoundAt.replaced_stateWritten hat h hne
  have hrec := FoundAt.stateWritten_record hat hne
  have hdead : ¬ (recordAt cfg (stateWritten b x (variableState (g.store b) x &&& varDeleted) g)
      b x).live := by
    change variableState (g.store b) x &&& varDeleted ≠ varAdded at hadd
    change variableState (g.store b) x &&& varDeleted ≠ varInDeleted at hdel
    rw [hrec]
    simp [VariableRecord.live, added, inDeleted, hadd, hdel]
  refine ⟨hrepl.inv h hat, hrepl.absent hat hdead, ?_⟩
  rw [hrepl.entries_eq h hat hname, if_neg hdead]

end

structure TotalsKept (totals totals' : VariableReclaim.TotalSizes) : Prop where
  sum_le : totals.hwErr + totals.common ≤ totals'.hwErr + totals'.common
  hwErr_le : totals'.hwErr ≤ totals.hwErr
  dvd : 4 ∣ totals.hwErr → 4 ∣ totals'.hwErr

theorem totalsKept_refl (totals : VariableReclaim.TotalSizes) : TotalsKept totals totals :=
  ⟨le_rfl, le_rfl, id⟩

theorem quota_kept (m : Memory) (hx : 4 ∣ x) (totals : VariableReclaim.TotalSizes) :
    TotalsKept totals (deletedHwErrRecToCommonQuota cfg m x totals) := by
  rw [deletedHwErrRecToCommonQuota]
  split
  · have hdvd : 4 ∣ getNextVariablePtr cfg.authFormat m x - x := ReclaimRecords.dvd_next_sub hx
    generalize getNextVariablePtr cfg.authFormat m x - x = size at hdvd
    refine ⟨?_, ?_, ?_⟩
    · change _ ≤ (if size < totals.hwErr then totals.hwErr - size else 0) + (totals.common + size)
      split <;> omega
    · change (if size < totals.hwErr then totals.hwErr - size else 0) ≤ _
      split <;> omega
    · intro h
      change 4 ∣ if size < totals.hwErr then totals.hwErr - size else 0
      split <;> omega
  · exact totalsKept_refl totals

theorem Inv.with_totals (h : Inv cfg g) {totals : VariableReclaim.TotalSizes}
    (htot : TotalsKept g.totals totals) : Inv cfg { g with totals := totals } :=
  { h with
    space := by
      have := h.space
      have := htot.sum_le
      change g.nonVolatileLastVariableOffset ≤ getStartPointer + totals.hwErr + totals.common
      omega
    hwErr_le := htot.hwErr_le.trans h.hwErr_le
    hwErr_dvd := htot.dvd h.hwErr_dvd }

theorem markDeleted_spec (hcfg : Config.Valid cfg) (hdvd : 4 ∣ x) (hx : x + 32 ≤ cfg.storeSize b) :
    ∃ totals, markDeleted cfg b false x g =
        (.success, { stateWritten b x (variableState (g.store b) x &&& varDeleted) g with
          totals := totals }) ∧
      TotalsKept g.totals totals := by
  rw [markDeleted, writeState_eq hcfg hx, andThen, if_pos rfl]
  cases b with
  | true => exact ⟨g.totals, rfl, totalsKept_refl _⟩
  | false =>
    refine ⟨_, rfl, ?_⟩
    exact quota_kept _ hdvd _

end MuBasecore.StateWrites
