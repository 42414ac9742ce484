import MuBasecore.VariableErrorFlag

/-!
The part of `UpdateVariable` that writes a new record: at the end of the store, or with a
`Reclaim` that leaves the old record out. What either of them does to the map.
-/

namespace MuBasecore.VariableCreation

open ByteMemory EfiTypes ReclaimLookup ReclaimRecords StateWrites StoreWrites VariableContents Bool
open VariableErrorFlag VariableFormat VariableLookup VariableMap VariableReclaim VariableServices
open List

/-- A variable that the checks of `SetVariable` let through. -/
structure Writable (v : PreparedVariable) : Prop where
  name : v.name.chars ≠ []
  data : v.data ≠ []
  encodable : Encodable v.attributes v.name.bytes v.data

def newRecord (v : PreparedVariable) : VariableRecord :=
  ⟨varAdded, v.attributes, v.guid, v.name.bytes, v.data⟩

def target (v : PreparedVariable) : Bool :=
  !v.attributes.has efiVariableNonVolatile

variable {cfg : Config} {g g' : VariableModule} {v : PreparedVariable} {rest : List VariableRecord}
  {x : Nat}

section Rest

structure Rest (cfg : Config) (g : VariableModule) (v : PreparedVariable)
    (rest : List VariableRecord) : Prop where
  good : GoodRecords (!target v) rest
  absent : Absent v.name v.guid rest
  keys : ∀ r ∈ rest, r.live → ∃ s ∈ storedRecords cfg g (target v),
    s.live ∧ s.name = r.name ∧ s.guid = r.guid
  find : ∀ name guid, name.chars ≠ [] → ¬ (name = v.name ∧ guid = v.guid) →
    find true name guid rest = find true name guid (storedRecords cfg g (target v))

variable {l l₁ l₂ : List Nat}

theorem rest_absent (h : Inv cfg g) (habs : Absent v.name v.guid (storedRecords cfg g (target v))) :
    Rest cfg g v (storedRecords cfg g (target v)) :=
  ⟨h.records _, habs, fun r hr hlive => ⟨r, hr, hlive, rfl, rfl⟩, fun _ _ _ _ => rfl⟩

theorem rest_found (h : Inv cfg g) (hat : FoundAt cfg g v.name v.guid (target v) x l₁ l₂) :
    Rest cfg g v ((l₁ ++ l₂).map (variableRecord cfg.authFormat (g.store (target v)))) := by
  have hgood := h.records (target v)
  have hprop : ProperName (variableRecord cfg.authFormat (g.store (target v)) x).name :=
    h.proper _ _ (by rw [hat.stored_eq]; simp) hat.live
  rw [hat.stored_eq] at hgood
  rw [map_append]
  refine ⟨hgood.remove, ?_, ?_, ?_⟩
  · intro r hr hlive
    rcases mem_append.1 hr with hr | hr
    · exact hat.before r hr hlive
    · exact hat.after r hr hlive
  · intro r hr hlive
    rw [hat.stored_eq]
    rcases mem_append.1 hr with hr | hr
    · exact ⟨r, mem_append_left _ hr, hlive, rfl, rfl⟩
    · exact ⟨r, mem_append_right _ (mem_cons_of_mem _ hr), hlive, rfl, rfl⟩
  · intro name guid hname hne
    rw [hat.stored_eq, find_skip (selects_other hat.key hname hne (fun _ => hprop) true)]

theorem Rest.reclaimed (h : Rest cfg g v rest) : Rest cfg g v (ReclaimLookup.reclaimed rest) where
  good := h.good.reclaimed
  absent r hr _ := by
    obtain ⟨_, s, hs, hlive, rfl⟩ := mem_reclaimed hr
    exact h.absent s hs hlive
  keys r hr _ := by
    obtain ⟨_, s, hs, hlive, rfl⟩ := mem_reclaimed hr
    exact h.keys s hs hlive
  find name guid hname hne := by
    rw [h.good.find_reclaimed hname, h.find name guid hname hne]

structure Stored (cfg : Config) (g g' : VariableModule) (v : PreparedVariable)
    (rest : List VariableRecord) : Prop where
  layout : ∃ l, StoreLayout cfg.authFormat (g'.store (target v)) (cfg.storeSize (target v)) l
      (lastOffset g' (target v)) ∧
    l.map (variableRecord cfg.authFormat (g'.store (target v))) = rest ++ [newRecord v]
  other : g'.store (!target v) = g.store (!target v)
  last : lastOffset g' (!target v) = lastOffset g (!target v)
  synced : ∀ i, i < cfg.nvSize → g'.flash i = g'.nvVariableCache i
  space : g'.nonVolatileLastVariableOffset ≤
    getStartPointer + g'.totals.hwErr + g'.totals.common
  hwErr_le : g'.totals.hwErr ≤ cfg.limits.hwErrStorageSize
  hwErr_dvd : 4 ∣ g'.totals.hwErr
  endOfDxe : g'.endOfDxe = g.endOfDxe
  atRuntime : g'.atRuntime = g.atRuntime

theorem newRecord_key : hasKey v.name.bytes v.guid (newRecord v) :=
  hasKey_iff.2 ⟨rfl, rfl⟩

theorem newRecord_live : (newRecord v).live := by
  simp [newRecord, VariableRecord.live, VariableRecord.added]

theorem Stored.stored_eq (h : Stored cfg g g' v rest) :
    storedRecords cfg g' (target v) = rest ++ [newRecord v] := by
  obtain ⟨l, hlay, hrecs⟩ := h.layout
  rw [storedRecords, hlay.storeRecords_eq, hrecs]

theorem Stored.volatileStore (h : Stored cfg g g' v rest) (htgt : target v = false) :
    g'.volatileStore = g.volatileStore := by
  have hoth := h.other
  rw [htgt] at hoth
  exact hoth

theorem Rest.good_append (hrest : Rest cfg g v rest) (hv : Writable v) :
    GoodRecords (!target v) (rest ++ [newRecord v]) := by
  apply hrest.good.append ⟨v.name, hv.name, rfl⟩ hv.data
  · rw [target, Bool.not_not]
    rfl
  · exact hrest.absent

section

variable (h : Stored cfg g g' v rest) (hrest : Rest cfg g v rest) (hv : Writable v)
include h hrest hv

theorem Stored.rewritten : Rewritten cfg g g' (target v) v.name v.guid := by
  refine ⟨?_, h.other, h.last, h.synced, ?_, ?_, h.space, h.hwErr_le, h.hwErr_dvd, h.endOfDxe⟩
  · obtain ⟨l, hlay, hrecs⟩ := h.layout
    refine goodStore_of_layout hlay ?_
    rw [hrecs]
    exact hrest.good_append hv
  · intro name guid hname hne
    have hnew := selects_other (newRecord_key) hname hne (fun _ => ⟨v.name, hv.name, rfl⟩) true
    rw [h.stored_eq, find_skip hnew, append_nil, hrest.find name guid hname hne]
  · intro r hr hlive
    rw [h.stored_eq] at hr
    rcases mem_append.1 hr with hr | hr
    · exact .inr (hrest.keys r hr hlive)
    · rw [mem_singleton.1 hr]
      exact .inl (newRecord_key)

theorem Stored.entries_eq (habs : Absent v.name v.guid (storedRecords cfg g !target v))
    (hinv : Inv cfg g) :
    entries cfg g' = (entries cfg g).set v.name v.guid (some (v.attributes, v.data)) := by
  have hrewritten := h.rewritten hrest hv
  have hfind : find true v.name v.guid (storedRecords cfg g' (target v)) =
      some (v.attributes, v.data) := by
    rw [h.stored_eq, find_single hv.name (hrest.good_append hv).proper hrest.absent
      (by simp [Absent]) (newRecord_live) (newRecord_key)]
    rfl
  rw [hrewritten.entries_eq]
  congr 1
  rw [entries, if_neg hv.name]
  generalize target v = b at *
  cases b with
  | true => rw [hfind, Option.some_or]
  | false =>
    have hoth : storedRecords cfg g' true = storedRecords cfg g true :=
      hrewritten.storedRecords_not
    rw [hoth, find_absent hv.name (hinv.proper true) habs, hfind, Option.none_or]

end

end Rest

variable {found : Option FoundVariable}

inductive Source (cfg : Config) (g : VariableModule) (v : PreparedVariable) :
    Option FoundVariable → Prop
  | missing (h : ∀ b, Absent v.name v.guid (storedRecords cfg g b)) : Source cfg g v none
  | found {x : Nat} {l₁ l₂ : List Nat} (h : FoundAt cfg g v.name v.guid (target v) x l₁ l₂) :
      Source cfg g v (some ⟨target v, x, none⟩)

inductive Created (cfg : Config) (g : VariableModule) (v : PreparedVariable) :
    EfiStatus × VariableModule → Prop
  | success {g' : VariableModule} (inv : Inv cfg g')
      (volatileStore : target v = false → g'.volatileStore = g.volatileStore)
      (endOfDxe : g'.endOfDxe = g.endOfDxe)
      (atRuntime : g'.atRuntime = g.atRuntime)
      (entries : entries cfg g' =
        (entries cfg g).set v.name v.guid (some (v.attributes, v.data))) :
      Created cfg g v (.success, g')
  | full {g' : VariableModule} (masked : FlagMasked cfg g g') :
      Created cfg g v (.outOfResources, g')

def FlagStays (g : VariableModule) (v : PreparedVariable) : Prop :=
  g.endOfDxe → target v → ¬ (v.name = varErrorFlagName ∧ v.guid = varErrorFlagGuid)

theorem Source.absent (h : Source cfg g v found) :
    Absent v.name v.guid (storedRecords cfg g !target v) := by
  cases h with
  | missing h => exact h _
  | found h => exact h.other

theorem Stored.created (h : Stored cfg g g' v rest) (hrest : Rest cfg g v rest)
    (hinv : Inv cfg g) (hv : Writable v) (hflag : FlagStays g v)
    (habs : Absent v.name v.guid (storedRecords cfg g !target v)) :
    Created cfg g v (.success, g') :=
  .success ((h.rewritten hrest hv).inv hinv habs hflag) h.volatileStore h.endOfDxe h.atRuntime
    (h.entries_eq hrest hv habs hinv)

section Append

def appended (cfg : Config) (v : PreparedVariable) (g : VariableModule) : VariableModule :=
  if target v then
    { g with
      volatileStore :=
        writeBytes g.volatileStore g.volatileLastVariableOffset (v.bytes cfg varAdded)
      volatileLastVariableOffset :=
        g.volatileLastVariableOffset + headerAlign (v.varSize cfg) }
  else
    { g with
      flash := writeBytes g.flash g.nonVolatileLastVariableOffset (v.bytes cfg varAdded)
      nvVariableCache :=
        writeBytes g.nvVariableCache g.nonVolatileLastVariableOffset (v.bytes cfg varAdded)
      nonVolatileLastVariableOffset :=
        g.nonVolatileLastVariableOffset + headerAlign (v.varSize cfg)
      totals := countWritten cfg v g
      flashOps := g.flashOps ++ [.write g.nonVolatileLastVariableOffset (v.bytes cfg 0xff)] ++
        [.write (g.nonVolatileLastVariableOffset + 2) [varAdded]] }

variable {g g₁ g' : VariableModule}

theorem appended_store :
    (appended cfg v g).store (target v) =
      writeBytes (g.store (target v)) (lastOffset g (target v)) (v.bytes cfg varAdded) := by
  rw [appended]
  cases target v <;> rfl

theorem appended_store_not : (appended cfg v g).store (!target v) = g.store (!target v) := by
  rw [appended]
  cases target v <;> rfl

theorem appended_lastOffset :
    lastOffset (appended cfg v g) (target v) =
      lastOffset g (target v) + headerAlign (v.varSize cfg) := by
  rw [appended]
  cases target v <;> rfl

theorem appended_lastOffset_not :
    lastOffset (appended cfg v g) (!target v) = lastOffset g (!target v) := by
  rw [appended]
  cases target v <;> rfl

theorem appended_endOfDxe : (appended cfg v g).endOfDxe = g.endOfDxe := by
  rw [appended]
  cases target v <;> rfl

theorem appended_atRuntime : (appended cfg v g).atRuntime = g.atRuntime := by
  rw [appended]
  cases target v <;> rfl

theorem appended_synced (h : Inv cfg g) {i : Nat} (hi : i < cfg.nvSize) :
    (appended cfg v g).flash i = (appended cfg v g).nvVariableCache i := by
  have hsynced := h.synced i hi
  rw [appended]
  cases target v with
  | true => exact hsynced
  | false =>
    change writeBytes _ _ _ i = writeBytes _ _ _ i
    rw [writeBytes, writeBytes, hsynced]

theorem appended_space (h : Inv cfg g) :
    (appended cfg v g).nonVolatileLastVariableOffset ≤
        getStartPointer + (appended cfg v g).totals.hwErr + (appended cfg v g).totals.common ∧
      4 ∣ (appended cfg v g).totals.hwErr := by
  have hspc := h.space
  have hdvd := h.hwErr_dvd
  rw [appended]
  cases target v with
  | true => exact ⟨hspc, hdvd⟩
  | false =>
    have hsize := dvd_headerAlign (v.varSize cfg)
    simp only [false_eq_true, if_false, countWritten]
    split
    · exact ⟨by dsimp only; omega, by dsimp only; omega⟩
    · exact ⟨by dsimp only; omega, hdvd⟩

theorem length_bytes (cfg : Config) (v : PreparedVariable) (state : Byte) :
    (v.bytes cfg state).length = v.varSize cfg := by
  rw [PreparedVariable.varSize, PreparedVariable.bytes, PreparedVariable.bytes,
    length_variableBytes, length_variableBytes]

structure Room (cfg : Config) (v : PreparedVariable) (g : VariableModule) : Prop where
  store : lastOffset g (target v) + headerAlign (v.varSize cfg) ≤ cfg.storeSize (target v)
  hwErr : (appended cfg v g).totals.hwErr ≤ cfg.limits.hwErrStorageSize

theorem stored_appended (h : Inv cfg g) (hv : Writable v) (hroom : Room cfg v g)
    (hstore : ∀ b, g'.store b = (appended cfg v g).store b)
    (hlast : ∀ b, lastOffset g' b = lastOffset (appended cfg v g) b)
    (hsynced : ∀ i, i < cfg.nvSize → g'.flash i = g'.nvVariableCache i)
    (htot : TotalsKept (appended cfg v g).totals g'.totals)
    (hend : g'.endOfDxe = g.endOfDxe) (hrt : g'.atRuntime = g.atRuntime) :
    Stored cfg g g' v (storedRecords cfg g (target v)) := by
  obtain ⟨hspc, hdvd⟩ := appended_space (v := v) h
  have hlastFalse : g'.nonVolatileLastVariableOffset =
      (appended cfg v g).nonVolatileLastVariableOffset := hlast false
  have hsum := htot.sum_le
  refine ⟨?_, ?_, ?_, hsynced, by omega, htot.hwErr_le.trans hroom.hwErr,
    htot.dvd hdvd, hend, hrt⟩
  · have hsize := hroom.store
    rw [← length_bytes cfg v varAdded] at hsize
    rw [hstore, hlast, appended_store, appended_lastOffset, ← length_bytes cfg v varAdded]
    exact ⟨_, layout_append (h.store (target v)).layout hv.encodable (by decide) hsize⟩
  · rw [hstore, appended_store_not]
  · rw [hlast, appended_lastOffset_not]

theorem appended_stateWritten (hx : x + 32 ≤ lastOffset g (target v)) (s : Byte) (b : Bool) :
    (stateWritten (target v) x s (appended cfg v g)).store b =
      (appended cfg v (stateWritten (target v) x s g)).store b := by
  have hcommute : ∀ (m : Memory) (last : Nat) (bytes : List Byte), x + 32 ≤ last →
      setState (writeBytes m last bytes) x s = writeBytes (setState m x s) last bytes := by
    intro m last bytes hlast
    funext i
    by_cases hi : i = x + 2
    · rw [writeBytes_of_lt (by omega), hi, setState, setState, Function.update_self,
        Function.update_self]
    · rw [setState_of_ne _ hi, writeBytes, writeBytes, setState_of_ne _ hi]
  by_cases hb : b = target v
  · rw [hb, stateWritten_store, appended_store, appended_store, stateWritten_store,
      written_lastOffset, hcommute _ _ _ hx]
  · rw [eq_not.2 hb, stateWritten_store_not, appended_store_not, appended_store_not,
      stateWritten_store_not]

theorem appended_stateWritten_rest (cfg : Config) (v : PreparedVariable) (g : VariableModule)
    (x : Nat) (s : Byte) :
    (appended cfg v (stateWritten (target v) x s g)).totals = (appended cfg v g).totals ∧
      ∀ b, lastOffset (stateWritten (target v) x s (appended cfg v g)) b =
        lastOffset (appended cfg v (stateWritten (target v) x s g)) b := by
  simp only [written_lastOffset]
  rw [appended, appended]
  cases target v <;> exact ⟨rfl, fun _ => rfl⟩

theorem deleteOld_appended (hcfg : Config.Valid cfg) (h : Inv cfg g)
    (hsrc : Source cfg g v found) (hv : Writable v) (hflag : FlagStays g v)
    (hroom : Room cfg v g) : Created cfg g v (deleteOld cfg found (appended cfg v g)) := by
  cases hsrc with
  | missing habs =>
    have hsto : Stored cfg g (appended cfg v g) v (storedRecords cfg g (target v)) :=
      stored_appended h hv hroom (fun _ => rfl) (fun _ => rfl) (fun _ hi => appended_synced h hi)
        (totalsKept_refl _) (appended_endOfDxe) (appended_atRuntime)
    exact hsto.created (rest_absent h (habs _)) h hv hflag (habs _)
  | @found x l₁ l₂ hat =>
    obtain ⟨hdvd, hx, hsize⟩ := FoundAt.inside hat h
    have hbd : x + 32 ≤ cfg.storeSize (target v) := by omega
    obtain ⟨totals, hdel, htot⟩ :=
      markDeleted_spec (g := appended cfg v g) hcfg hdvd hbd
    have hstt : variableState ((appended cfg v g).store (target v)) x =
        variableState (g.store (target v)) x := by
      rw [appended_store, variableState, variableState, writeBytes_of_lt (by omega)]
    rw [hstt] at hdel
    change Created cfg g v (markDeleted cfg (target v) false x (appended cfg v g))
    rw [hdel]
    -- the module without the old record, to which the new one is added
    obtain ⟨hinv, habs, hents⟩ := FoundAt.inv_deleted hat h hv.name rfl
    generalize variableState (g.store (target v)) x &&& varDeleted = s at *
    have hsame := appended_stateWritten_rest cfg v g x s
    have hroom₁ : Room cfg v (stateWritten (target v) x s g) := by
      refine ⟨?_, ?_⟩
      · rw [written_lastOffset]
        exact hroom.store
      · rw [hsame.1]
        exact hroom.hwErr
    have hsto : Stored cfg (stateWritten (target v) x s g)
        { stateWritten (target v) x s (appended cfg v g) with totals := totals } v
        (storedRecords cfg (stateWritten (target v) x s g) (target v)) :=
      stored_appended hinv hv hroom₁ (appended_stateWritten hx s) hsame.2
        (stateWritten_synced (target v) x s fun _ hi => appended_synced h hi)
        (hsame.1.symm ▸ htot)
        (by simp [appended_endOfDxe]) (by simp [appended_atRuntime])
    have hcre := hsto.created (rest_absent hinv (habs _)) hinv hv
      (by simpa [FlagStays] using hflag) (habs _)
    cases hcre with
    | success inv volatileStore endOfDxe atRuntime entries =>
      refine .success inv ?_ (by simpa using endOfDxe) (by simpa using atRuntime) ?_
      · intro htgt
        rw [volatileStore htgt, htgt]
        rfl
      rw [entries, hents, Entries.set_set]

theorem appendNonVolatile_eq (hcfg : Config.Valid cfg) (htgt : target v = false)
    (hroom : Room cfg v g) : appendNonVolatile cfg v g = (.success, appended cfg v g) := by
  have hfv := hcfg.fvEnd
  have hstore := hroom.store
  rw [htgt] at hstore
  change g.nonVolatileLastVariableOffset + _ ≤ cfg.nvSize at hstore
  have hle := le_headerAlign (v.varSize cfg)
  have hheader : 32 ≤ v.varSize cfg := by
    rw [← length_bytes cfg v 0xff, PreparedVariable.bytes, length_variableBytes]
    have := headerSize_eq cfg.authFormat
    have := le_nameSizeOffset cfg.authFormat
    omega
  rw [appendNonVolatile, updateStore_nonVolatile (by rw [length_bytes]; omega), andThen,
    if_pos rfl, updateStore_nonVolatile (by rw [length_singleton]; dsimp only; omega),
    andThen, if_pos rfl, appended, htgt]
  simp only [false_eq_true, if_false, writeBytes_state, PreparedVariable.bytes,
    setState_writeBytes]
  rfl

theorem room_nonVolatile (hcfg : Config.Valid cfg) (h : Inv cfg g) (htgt : target v = false)
    (hhwErr : hwErrFull cfg v g = false)
    (hcommon : commonFull cfg cfg.limits.commonVariableSpace v g = false) : Room cfg v g := by
  have hspc := h.space
  have hle := h.hwErr_le
  have hdvd := h.hwErr_dvd
  have hlast : 4 ∣ g.nonVolatileLastVariableOffset := (h.store false).layout.dvd_last
  have hnv := hcfg.nv_dvd
  have hhwErrDvd := hcfg.hwErr_dvd
  have htotal := hcfg.space
  have haln : headerAlign (v.varSize cfg) < v.varSize cfg + 4 := by
    rw [headerAlign]
    omega
  have hsize := dvd_headerAlign (v.varSize cfg)
  by_cases hhw : v.isHwErr
  · simp only [hwErrFull, hhw, Bool.true_and, or_eq_false_iff, decide_eq_false_iff_not]
      at hhwErr
    refine ⟨?_, ?_⟩
    · rw [htgt]
      change g.nonVolatileLastVariableOffset + _ ≤ cfg.nvSize
      omega
    · rw [appended, htgt]
      simp only [false_eq_true, if_false, countWritten, hhw, if_true]
      omega
  · simp only [commonFull, hhw, Bool.not_false, Bool.true_and, decide_eq_false_iff_not]
      at hcommon
    refine ⟨?_, ?_⟩
    · rw [htgt]
      change g.nonVolatileLastVariableOffset + _ ≤ cfg.nvSize
      omega
    · rw [appended, htgt]
      simp only [false_eq_true, if_false, countWritten, hhw]
      exact hle

end Append

variable {g : VariableModule}

theorem filter_ne {l₁ l₂ : List Nat} (h : (l₁ ++ x :: l₂).Nodup) :
    (l₁ ++ x :: l₂).filter (fun y => some y ≠ some x) = l₁ ++ l₂ := by
  rw [nodup_append, nodup_cons] at h
  obtain ⟨_, ⟨hx, _⟩, hne⟩ := h
  have h₁ : l₁.filter (fun y => some y ≠ some x) = l₁ := by
    rw [filter_eq_self]
    intro y hy
    simpa using hne y hy x mem_cons_self
  have h₂ : l₂.filter (fun y => some y ≠ some x) = l₂ := by
    rw [filter_eq_self]
    intro y hy
    have : y ≠ x := by
      rintro rfl
      exact hx hy
    simpa using this
  rw [filter_append, filter_cons_of_neg (by simp), h₁, h₂]

theorem Source.kept (h : Source cfg g v found) (hinv : Inv cfg g) :
    ∃ rest, Rest cfg g v rest ∧
      ∀ m : Memory, (∀ i, i < cfg.storeSize (target v) → m i = g.store (target v) i) →
        LiveInside cfg.authFormat m (cfg.storeSize (target v)) ∧
          keptRecords cfg.authFormat m (cfg.storeSize (target v))
            (found.map FoundVariable.currPtr) (found.bind FoundVariable.inDeletedTransitionPtr) =
              ReclaimLookup.reclaimed rest := by
  have hlay := (hinv.store (target v)).layout
  have hin : ∀ m : Memory, (∀ i, i < cfg.storeSize (target v) → m i = g.store (target v) i) →
      LiveInside cfg.authFormat m (cfg.storeSize (target v)) := by
    intro m hm x hx _
    have hlay' := hlay.congr hm
    rw [hlay'.variableOffsets_eq] at hx
    obtain ⟨_, _, _, hlast⟩ := hlay'.of_mem hx
    have hle := hlay'.last_le
    omega
  have hrecs : ∀ m : Memory,
      (∀ i, i < cfg.storeSize (target v) → m i = g.store (target v) i) →
        ∀ l : List Nat, l ⊆ variableOffsets cfg.authFormat (g.store (target v))
          (cfg.storeSize (target v)) →
        l.map (variableRecord cfg.authFormat m) =
          l.map (variableRecord cfg.authFormat (g.store (target v))) := by
    intro m hm l hl
    exact map_congr_left fun x hx => hlay.record_congr hm (hl hx)
  cases h with
  | missing habs =>
    refine ⟨_, rest_absent hinv (habs _), fun m hm => ⟨hin m hm, ?_⟩⟩
    change keptRecords _ _ _ none none = _
    rw [keptRecords_none, storeRecords, (hlay.congr hm).variableOffsets_eq,
      hrecs m hm _ (List.Subset.refl _)]
    rfl
  | @found x l₁ l₂ hat =>
    refine ⟨_, rest_found hinv hat, fun m hm => ⟨hin m hm, ?_⟩⟩
    have hoffs := (hlay.congr hm).variableOffsets_eq
    rw [hat.offsets] at hoffs
    have hfilter := filter_ne (hat.offsets ▸ hlay.log.nodup)
    have hfilter' : (l₁ ++ x :: l₂).filter (fun y => some y ≠ some x ∧ some y ≠ none) =
        l₁ ++ l₂ := by
      rw [← hfilter]
      exact filter_congr fun y _ => by simp
    change keptRecords _ _ _ (some x) none = _
    rw [keptRecords, hoffs, hfilter, hfilter', hrecs m hm, ReclaimLookup.reclaimed]
    rw [hat.offsets]
    intro y hy
    rcases mem_append.1 hy with hy | hy
    · exact mem_append_left _ hy
    · exact mem_append_right _ (mem_cons_of_mem _ hy)

theorem newVariable_spec (hv : Writable v) :
    startId (v.newVariable cfg).memory 0 = variableData ∧
      (v.newVariable cfg).size =
        variableSize cfg.authFormat (setState (v.newVariable cfg).memory 0 varAdded) 0 ∧
      variableRecord cfg.authFormat (setState (v.newVariable cfg).memory 0 varAdded) 0 =
        newRecord v := by
  have hmemo : setState (v.newVariable cfg).memory 0 varAdded =
      writeBytes erased 0 (v.bytes cfg varAdded) := by
    change setState (writeBytes erased 0 (v.bytes cfg 0xff)) 0 varAdded = _
    rw [PreparedVariable.bytes, setState_writeBytes]
    rfl
  have hwrit : Written cfg.authFormat (setState (v.newVariable cfg).memory 0 varAdded) 0
      varAdded v.attributes v.guid v.name.bytes v.data := by
    rw [hmemo]
    exact slotRange_write
  have hne : varAdded ≠ 0xff := by decide
  refine ⟨?_, ?_, hwrit.variableRecord_eq hv.encodable hne⟩
  · rw [← startId_setState varAdded]
    exact hwrit.startId_eq hv.encodable
  · rw [hwrit.variableSize_eq hv.encodable hne]
    change headerAlign (v.varSize cfg) = headerAlign (v.bytes cfg varAdded).length
    rw [length_bytes]

theorem Source.reclaim (h : Source cfg g v found) (hinv : Inv cfg g) (hv : Writable v)
    (hcfg : Config.Valid cfg) {m : Memory}
    (hm : ∀ i, i < cfg.storeSize (target v) → m i = g.store (target v) i)
    {vol : Bool} {isUser : Memory → Nat → Bool} {result : ReclaimResult}
    (hres : reclaim cfg.authFormat vol isUser cfg.limits m
      (cfg.storeSize (target v)) (found.map FoundVariable.currPtr)
      (found.bind FoundVariable.inDeletedTransitionPtr) (some (v.newVariable cfg)) = .ok result) :
    ∃ rest l, Rest cfg g v rest ∧
      StoreLayout cfg.authFormat result.store (cfg.storeSize (target v)) l
        result.lastVariableOffset ∧
      l.map (variableRecord cfg.authFormat result.store) = rest ++ [newRecord v] := by
  obtain ⟨rest, hrest, hkept⟩ := h.kept hinv
  obtain ⟨hin, hrecs⟩ := hkept m hm
  obtain ⟨hst, hsize, hnew⟩ := newVariable_spec hv
  have hstore : getStartPointer ≤ cfg.storeSize (target v) := by
    have hvol := hcfg.volatile_start
    have hspc := hcfg.space
    cases target v with
    | true => exact hvol
    | false =>
      change _ ≤ cfg.nvSize
      omega
  obtain ⟨l, hlay, hl⟩ :=
    reclaim_some _ _ _ _ _ hstore hin hst hsize hres
  rw [hrecs, hnew] at hl
  exact ⟨_, l, hrest.reclaimed, hlay, hl⟩

theorem syncCache_eq (h : Inv cfg g) : syncCache cfg g = g := by
  have hcache : (fun i => if i < cfg.nvSize then g.flash i else g.nvVariableCache i) =
      g.nvVariableCache := by
    funext i
    by_cases hi : i < cfg.nvSize
    · rw [if_pos hi, h.synced i hi]
    · rw [if_neg hi]
  rw [syncCache, hcache]

theorem flagMasked_of_reclaimed {c : Bool}
    (h : FlagMasked cfg { g with reclaimedAtRuntime := c } g') : FlagMasked cfg g g' :=
  ⟨h.inv, h.volatileStore, h.endOfDxe, h.atRuntime, h.entries⟩

section

variable (hcfg : Config.Valid cfg) (h : Inv cfg g) (hsrc : Source cfg g v found) (hv : Writable v)
    (hflag : FlagStays g v)
include hcfg h hsrc hv hflag

theorem reclaimNonVolatile_created (htgt : target v = false) (c : Bool) :
    Created cfg g v (reclaimNonVolatile cfg found v { g with reclaimedAtRuntime := c }) := by
  have hm : ∀ i, i < cfg.storeSize (target v) → g.flash i = g.store (target v) i := by
    rw [htgt]
    exact h.synced
  rw [reclaimNonVolatile]
  split
  case h_1 result hres =>
    have hres' := hres
    rw [show cfg.nvSize = cfg.storeSize (target v) by rw [htgt]; rfl] at hres'
    obtain ⟨rest, l, hrest, hlay, hl⟩ := hsrc.reclaim h hv hcfg hm hres'
    obtain ⟨hspc, hdvd, hle⟩ := reclaim_totals (dvd_headerAlign _) hres
    rw [htgt] at hlay
    have hcache : ∀ i, i < cfg.storeSize false →
        (fun i => if i < cfg.nvSize then result.store i else g.nvVariableCache i) i =
          result.store i := fun i hi => if_pos hi
    refine Stored.created ?_ hrest h hv hflag hsrc.absent
    refine ⟨?_, ?_, ?_, ?_, ?_, hle, hdvd, rfl, rfl⟩
    · rw [htgt]
      refine ⟨l, hlay.congr hcache, ?_⟩
      rw [← hl]
      exact map_congr_left fun x hx => hlay.record_congr hcache hx
    · rw [htgt]
      rfl
    · rw [htgt]
      rfl
    · intro i hi
      exact (hcache i hi).symm
    · exact le_of_eq hspc
  case h_2 status hres =>
    have hinv : Inv cfg { g with reclaimedAtRuntime := c } := { h with }
    rw [reclaim_error _ _ hres, syncCache_eq hinv]
    exact .full (flagMasked_of_reclaimed (recordErrors_masked hcfg hinv _ v))

theorem reclaimVolatile_created (htgt : target v = true) (avail : Bool) :
    Created cfg g v (reclaimVolatile cfg found v avail g) := by
  rw [reclaimVolatile]
  split
  case isFalse => exact .full (flagMasked_refl h)
  case isTrue =>
    split
    case h_1 result hres =>
      have hm : ∀ i, i < cfg.storeSize (target v) → g.volatileStore i = g.store (target v) i := by
        rw [htgt]
        exact fun _ _ => rfl
      rw [show cfg.volatileSize = cfg.storeSize (target v) by rw [htgt]; rfl] at hres
      obtain ⟨rest, l, hrest, hlay, hl⟩ := hsrc.reclaim h hv hcfg hm hres
      refine Stored.created ?_ hrest h hv hflag hsrc.absent
      refine ⟨⟨l, ?_⟩, ?_, ?_, h.synced, h.space, h.hwErr_le, h.hwErr_dvd, rfl, rfl⟩
      · rw [htgt] at hlay ⊢
        exact ⟨hlay, hl⟩
      · rw [htgt]
        rfl
      · rw [htgt]
        rfl
    case h_2 status hres =>
      rw [reclaim_error _ _ hres]
      exact .full (flagMasked_refl h)

end

section

variable (hcfg : Config.Valid cfg) (h : Inv cfg g) (hsrc : Source cfg g v found) (hv : Writable v)
    (hflag : FlagStays g v)
include hcfg h hsrc hv hflag

theorem createNonVolatile_created
    (htgt : target v = false) : Created cfg g v (createNonVolatile cfg found v g) := by
  rw [createNonVolatile]
  split
  case isTrue => exact .full (flagMasked_refl h)
  case isFalse hhwErr =>
    split
    case isTrue =>
      split
      · exact .full (recordErrors_masked hcfg h _ v)
      · exact reclaimNonVolatile_created hcfg h hsrc hv hflag htgt _
    case isFalse hcommon =>
      rw [not_eq_true, or_eq_false_iff, or_eq_false_iff] at hcommon
      have hroom := room_nonVolatile hcfg h htgt (eq_false_of_not_eq_true hhwErr) hcommon.1.1
      rw [appendNonVolatile_eq hcfg htgt hroom, andThen, if_pos rfl]
      exact deleteOld_appended hcfg h hsrc hv hflag hroom

theorem createVolatile_created (htgt : target v = true) (avail : Bool) :
    Created cfg g v (createVolatile cfg found v avail g) := by
  rw [createVolatile]
  split
  case isTrue => exact reclaimVolatile_created hcfg h hsrc hv hflag htgt avail
  case isFalse =>
    rw [updateVariableStore, if_pos rfl, length_bytes]
    split
    case isTrue => exact .full (flagMasked_refl h)
    case isFalse hsize =>
      rw [andThen, if_pos rfl]
      have hlast : 4 ∣ g.volatileLastVariableOffset := (h.store true).layout.dvd_last
      have hvol := hcfg.volatile_dvd
      have hroom : Room cfg v g := by
        refine ⟨?_, ?_⟩
        · rw [htgt]
          change g.volatileLastVariableOffset + _ ≤ cfg.volatileSize
          rw [← headerAlign_add hlast]
          exact headerAlign_le (by omega) hvol
        · rw [appended, htgt]
          exact h.hwErr_le
      have hcre := deleteOld_appended hcfg h hsrc hv hflag hroom
      rwa [appended, htgt] at hcre

theorem createVariable_created
    (avail : Bool) : Created cfg g v (createVariable cfg found v avail g) := by
  rw [createVariable]
  split
  case isTrue hnv =>
    exact createNonVolatile_created hcfg h hsrc hv hflag (by rw [target, hnv]; rfl)
  case isFalse hnv =>
    exact createVolatile_created hcfg h hsrc hv hflag (by simpa [target] using hnv) _

end

end MuBasecore.VariableCreation
