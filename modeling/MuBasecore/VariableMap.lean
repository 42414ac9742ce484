import MuBasecore.StoreWrites
import MuBasecore.VariableContents

/-!
The stores of the variable services as a map from names to attributes and data: the
invariant that makes them one, and what a lookup in them finds.
-/

namespace MuBasecore.VariableMap

open ByteMemory ReclaimLookup VariableContents VariableFormat VariableLookup VariableServices List
  Option

structure GoodStore (auth : Bool) (m : Memory) (size : Nat) (nonVolatile : Bool) (last : Nat) :
    Prop where
  layout : StoreLayout auth m size (variableOffsets auth m size) last
  records : GoodRecords nonVolatile (storeRecords auth m size)

theorem goodStore_of_layout {auth : Bool} {m : Memory} {size last : Nat} {l : List Nat}
    {nv : Bool} (hlay : StoreLayout auth m size l last)
    (hrecs : GoodRecords nv (l.map (variableRecord auth m))) :
    GoodStore auth m size nv last :=
  ⟨hlay.variableOffsets_eq.symm ▸ hlay, hlay.storeRecords_eq.symm ▸ hrecs⟩

/-- The stores are aligned and have the space that is promised. -/
structure Config.Valid (cfg : Config) : Prop where
  volatile_start : getStartPointer ≤ cfg.volatileSize
  volatile_dvd : 4 ∣ cfg.volatileSize
  nv_dvd : 4 ∣ cfg.nvSize
  hwErr_dvd : 4 ∣ cfg.limits.hwErrStorageSize
  space : getStartPointer + cfg.limits.hwErrStorageSize + cfg.limits.commonVariableSpace ≤
    cfg.nvSize
  fvEnd : cfg.nvSize ≤ cfg.fvEnd
  maxSize : ∀ attributes, getVariableHeaderSize cfg.authFormat ≤ maxSize cfg attributes ∧
    maxSize cfg attributes < 2 ^ 32
  flagProperty : cfg.variableProperty varErrorFlagName varErrorFlagGuid = some varErrorFlagProperty

def storedRecords (cfg : Config) (g : VariableModule) (isVolatile : Bool) :
    List VariableRecord :=
  storeRecords cfg.authFormat (g.store isVolatile) (cfg.storeSize isVolatile)

def lastOffset (g : VariableModule) (isVolatile : Bool) : Nat :=
  if isVolatile then g.volatileLastVariableOffset else g.nonVolatileLastVariableOffset

/-- What the services keep of the stores. -/
structure Inv (cfg : Config) (g : VariableModule) : Prop where
  store : ∀ isVolatile, GoodStore cfg.authFormat (g.store isVolatile)
    (cfg.storeSize isVolatile) (!isVolatile) (lastOffset g isVolatile)
  /-- The copy in memory is that of the flash. -/
  synced : ∀ i, i < cfg.nvSize → g.flash i = g.nvVariableCache i
  /-- No variable is in both stores. -/
  disjoint : ∀ r ∈ storedRecords cfg g true, r.live → ∀ s ∈ storedRecords cfg g false, s.live →
    ¬ hasKey r.name r.guid s
  /-- The totals account for the non-volatile store. -/
  space : g.nonVolatileLastVariableOffset ≤
    getStartPointer + g.totals.hwErr + g.totals.common
  hwErr_le : g.totals.hwErr ≤ cfg.limits.hwErrStorageSize
  hwErr_dvd : 4 ∣ g.totals.hwErr
  /-- The error flag is not a volatile variable. -/
  flag : g.endOfDxe → Absent varErrorFlagName varErrorFlagGuid (storedRecords cfg g true)

abbrev Entry := Attributes × List Byte

/-- The variables as a map. -/
abbrev Entries := VariableName → GuidBytes → Option Entry

def entries (cfg : Config) (g : VariableModule) : Entries := fun name guid =>
  if name.chars = [] then none
  else (find true name guid (storedRecords cfg g true)).or
    (find true name guid (storedRecords cfg g false))

abbrev recordAt (cfg : Config) (g : VariableModule) (isVolatile : Bool) : Nat → VariableRecord :=
  variableRecord cfg.authFormat (g.store isVolatile)

variable {cfg : Config} {name : VariableName} {guid : GuidBytes} {b : Bool}

section Find

variable {g : VariableModule}
variable {x : Nat} {l₁ l₂ : List Nat}

structure FoundAt (cfg : Config) (g : VariableModule) (name : VariableName) (guid : GuidBytes)
    (isVolatile : Bool) (x : Nat) (l₁ l₂ : List Nat) : Prop where
  offsets : variableOffsets cfg.authFormat (g.store isVolatile) (cfg.storeSize isVolatile) =
    l₁ ++ x :: l₂
  live : (variableRecord cfg.authFormat (g.store isVolatile) x).live
  key : hasKey name.bytes guid (variableRecord cfg.authFormat (g.store isVolatile) x)
  before : Absent name guid (l₁.map (variableRecord cfg.authFormat (g.store isVolatile)))
  after : Absent name guid (l₂.map (variableRecord cfg.authFormat (g.store isVolatile)))
  other : Absent name guid (storedRecords cfg g !isVolatile)

theorem FoundAt.stored_eq (h : FoundAt cfg g name guid b x l₁ l₂) :
    storedRecords cfg g b = l₁.map (recordAt cfg g b) ++
      recordAt cfg g b x :: l₂.map (recordAt cfg g b) := by
  rw [storedRecords, storeRecords, h.offsets, map_append, map_cons]

theorem Inv.records (h : Inv cfg g) (b : Bool) : GoodRecords (!b) (storedRecords cfg g b) :=
  (h.store b).records

theorem Inv.proper (h : Inv cfg g) (b : Bool) :
    ∀ r ∈ storedRecords cfg g b, r.live → ProperName r.name :=
  (h.records b).proper

theorem Inv.cases (h : Inv cfg g) (name : VariableName) (guid : GuidBytes) :
    (∀ b, Absent name guid (storedRecords cfg g b)) ∨
      ∃ b x l₁ l₂, FoundAt cfg g name guid b x l₁ l₂ := by
  have hoth : ∀ b r, r ∈ storedRecords cfg g b → r.live → hasKey name.bytes guid r →
      Absent name guid (storedRecords cfg g !b) := by
    intro b r hr hlive hkey s hs hsl hskey
    obtain ⟨hrguid, hrname⟩ := hasKey_iff.1 hkey
    obtain ⟨hsguid, hsname⟩ := hasKey_iff.1 hskey
    cases b with
    | true => exact h.disjoint r hr hlive s hs hsl (by rw [hrname, hrguid, hskey])
    | false => exact h.disjoint s hs hsl r hr hlive (by rw [hsname, hsguid, hkey])
  by_cases hex : ∃ b, ¬ Absent name guid (storedRecords cfg g b)
  · obtain ⟨b, hb⟩ := hex
    rcases (h.records b).cases name guid with habs | ⟨rs₁, r, rs₂, hrs, hlive, hkey, h₁, h₂⟩
    · exact absurd habs hb
    · have hr : r ∈ storedRecords cfg g b := by simp [hrs]
      rw [storedRecords, storeRecords, map_eq_append_iff] at hrs
      obtain ⟨l₁, l', hl, rfl, hl'⟩ := hrs
      obtain ⟨x, l₂, rfl, rfl, rfl⟩ := map_eq_cons_iff.1 hl'
      exact .inr ⟨b, x, l₁, l₂, hl, hlive, hkey, h₁, h₂, hoth b _ hr hlive hkey⟩
  · refine .inl fun b => ?_
    by_contra hb
    exact hex ⟨b, hb⟩

theorem findInStore_absent (h : Inv cfg g) (hname : name.chars ≠ [])
    (habs : Absent name guid (storedRecords cfg g b)) (all : Bool) :
    findInStore cfg g all name.bytes guid b = none := by
  rw [findInStore, findEx_absent]
  intro y hy
  exact selects_absent hname (h.proper b) habs all (mem_map_of_mem hy)

theorem FoundAt.findInStore (hat : FoundAt cfg g name guid b x l₁ l₂) (h : Inv cfg g)
    (hname : name.chars ≠ []) (all : Bool) :
    findInStore cfg g all name.bytes guid b =
      if all || (recordAt cfg g b x).attributes.has
        efiVariableRuntimeAccess then some ⟨b, x, none⟩ else none := by
  have hprop : ∀ y ∈ l₁ ++ x :: l₂, (recordAt cfg g b y).live →
      ProperName (recordAt cfg g b y).name := by
    intro y hy hlive
    apply h.proper b _ _ hlive
    rw [storedRecords, storeRecords, hat.offsets]
    exact mem_map_of_mem hy
  have hsel : ∀ l : List Nat, (∀ y ∈ l, y ∈ l₁ ++ x :: l₂) →
      Absent name guid (l.map (recordAt cfg g b)) → ∀ y ∈ l,
      selects all name.bytes guid (recordAt cfg g b y) = false := by
    intro l hl habs y hy
    apply selects_absent hname _ habs all (mem_map_of_mem hy)
    intro r hr
    obtain ⟨z, hz, rfl⟩ := mem_map.1 hr
    exact hprop z (hl z hz)
  have hsel₁ := hsel l₁ (fun y hy => by simp [hy]) hat.before
  have hsel₂ := hsel l₂ (fun y hy => by simp [hy]) hat.after
  have hselx : selects all name.bytes guid (recordAt cfg g b x) =
      (all || (recordAt cfg g b x).attributes.has efiVariableRuntimeAccess) := by
    rw [selects_eq ⟨name, hname, rfl⟩ all guid (hprop x (by simp) hat.live), hat.live, hat.key]
    simp
  rw [VariableServices.findInStore, hat.offsets]
  by_cases hvis : (all || (recordAt cfg g b x).attributes.has efiVariableRuntimeAccess) = true
  · rw [if_pos hvis, findVariableEx_single hsel₁ hsel₂ (hselx.trans hvis)]
    rfl
  · rw [if_neg hvis, findEx_absent]
    intro y hy
    rcases mem_append.1 hy with hy | hy
    · exact hsel₁ y hy
    · rcases mem_cons.1 hy with rfl | hy
      · rw [hselx]
        simpa using hvis
      · exact hsel₂ y hy

theorem findVariable_absent (h : Inv cfg g) (hname : name.chars ≠ [])
    (habs : ∀ b, Absent name guid (storedRecords cfg g b)) (ignoreRtCheck : Bool) :
    findVariable cfg g ignoreRtCheck name.bytes guid = none := by
  rw [findVariable, findInStore_absent h hname (habs true), findInStore_absent h hname (habs false)]
  rfl

theorem FoundAt.findVariable (hat : FoundAt cfg g name guid b x l₁ l₂) (h : Inv cfg g)
    (hname : name.chars ≠ []) (ignoreRtCheck : Bool) :
    findVariable cfg g ignoreRtCheck name.bytes guid =
      if (ignoreRtCheck || !g.atRuntime) ||
          (recordAt cfg g b x).attributes.has efiVariableRuntimeAccess then
        some ⟨b, x, none⟩ else none := by
  rw [VariableServices.findVariable]
  cases b with
  | true =>
    have hoth : Absent name guid (storedRecords cfg g false) := hat.other
    rw [hat.findInStore h hname, findInStore_absent h hname hoth, or_none]
  | false =>
    have hoth : Absent name guid (storedRecords cfg g true) := hat.other
    rw [findInStore_absent h hname hoth, hat.findInStore h hname, none_or]

theorem entries_absent (h : Inv cfg g) (hname : name.chars ≠ [])
    (habs : ∀ b, Absent name guid (storedRecords cfg g b)) : entries cfg g name guid = none := by
  rw [entries, if_neg hname, find_absent hname (h.proper true) (habs true),
    find_absent hname (h.proper false) (habs false)]
  rfl

theorem FoundAt.entries_eq (hat : FoundAt cfg g name guid b x l₁ l₂) (h : Inv cfg g)
    (hname : name.chars ≠ []) :
    entries cfg g name guid = some (value (recordAt cfg g b x)) := by
  have hfind : find true name guid (storedRecords cfg g b) = some (value (recordAt cfg g b x)) := by
    rw [hat.stored_eq, find_single hname (hat.stored_eq ▸ h.proper b) hat.before
      hat.after hat.live hat.key]
    rfl
  rw [entries, if_neg hname]
  cases b with
  | true => rw [hfind, some_or]
  | false => rw [find_absent hname (h.proper true) hat.other, hfind, none_or]

end Find

variable {g g' : VariableModule}

section Entries

variable {name name' : VariableName}
variable {guid guid' : GuidBytes} {rs₁ rs₂ : List VariableRecord}
variable {r r' : VariableRecord}

def Entries.set (entries : Entries) (name : VariableName) (guid : GuidBytes)
    (entry : Option Entry) : Entries := fun name' guid' =>
  if name' = name ∧ guid' = guid then entry else entries name' guid'

theorem selects_other (hkey : hasKey name.bytes guid r) (hname' : name'.chars ≠ [])
    (hne : ¬ (name' = name ∧ guid' = guid)) (hprop : r.live → ProperName r.name) (all : Bool) :
    selects all name'.bytes guid' r = false := by
  by_cases hlive : r.live
  · rw [selects_eq ⟨name', hname', rfl⟩ all guid' (hprop hlive)]
    obtain ⟨hrguid, hrname⟩ := hasKey_iff.1 hkey
    have hno : ¬ hasKey name'.bytes guid' r := by
      intro hkey'
      obtain ⟨hrguid', hrname'⟩ := hasKey_iff.1 hkey'
      exact hne ⟨VariableName.bytes_injective (hrname'.symm.trans hrname),
        hrguid'.symm.trans hrguid⟩
    simp [hno]
  · simp [selects, hlive]

theorem Entries.set_self (entries : Entries) :
    entries.set name guid (entries name guid) = entries := by
  funext name' guid'
  rw [Entries.set]
  by_cases hkey : name' = name ∧ guid' = guid
  · rw [if_pos hkey, hkey.1, hkey.2]
  · rw [if_neg hkey]

theorem Entries.set_set (entries : Entries) (entry entry' : Option Entry) :
    (entries.set name guid entry).set name guid entry' = entries.set name guid entry' := by
  funext name' guid'
  rw [Entries.set, Entries.set, Entries.set]
  by_cases hkey : name' = name ∧ guid' = guid
  · rw [if_pos hkey, if_pos hkey]
  · rw [if_neg hkey, if_neg hkey, if_neg hkey]

end Entries

section Rewrite

structure Rewritten (cfg : Config) (g g' : VariableModule) (b : Bool) (name : VariableName)
    (guid : GuidBytes) : Prop where
  good : GoodStore cfg.authFormat (g'.store b) (cfg.storeSize b) (!b) (lastOffset g' b)
  other : g'.store (!b) = g.store (!b)
  last : lastOffset g' (!b) = lastOffset g (!b)
  synced : ∀ i, i < cfg.nvSize → g'.flash i = g'.nvVariableCache i
  find : ∀ name' guid', name'.chars ≠ [] → ¬ (name' = name ∧ guid' = guid) →
    find true name' guid' (storedRecords cfg g' b) = find true name' guid' (storedRecords cfg g b)
  keys : ∀ r ∈ storedRecords cfg g' b, r.live → hasKey name.bytes guid r ∨
    ∃ s ∈ storedRecords cfg g b, s.live ∧ s.name = r.name ∧ s.guid = r.guid
  space : g'.nonVolatileLastVariableOffset ≤
    getStartPointer + g'.totals.hwErr + g'.totals.common
  hwErr_le : g'.totals.hwErr ≤ cfg.limits.hwErrStorageSize
  hwErr_dvd : 4 ∣ g'.totals.hwErr
  endOfDxe : g'.endOfDxe = g.endOfDxe

variable (h : Rewritten cfg g g' b name guid)
include h

theorem Rewritten.storedRecords_not : storedRecords cfg g' (!b) = storedRecords cfg g (!b) := by
  rw [storedRecords, storedRecords, h.other]

theorem Rewritten.disjoint (hinv : Inv cfg g)
    (habs : Absent name guid (storedRecords cfg g !b)) {r : VariableRecord}
    (hr : r ∈ storedRecords cfg g' b) (hlive : r.live) :
    ∀ s ∈ storedRecords cfg g (!b), s.live → ¬ hasKey r.name r.guid s := by
  intro s hs hsl
  rcases h.keys r hr hlive with hkey | ⟨t, ht, htlive, htname, htguid⟩
  · obtain ⟨hguid, hname⟩ := hasKey_iff.1 hkey
    rw [hname, hguid]
    exact habs s hs hsl
  · rw [← htname, ← htguid]
    cases b with
    | true => exact hinv.disjoint t ht htlive s hs hsl
    | false =>
      rw [hasKey_comm]
      exact hinv.disjoint s hs hsl t ht htlive

theorem Rewritten.flag (hinv : Inv cfg g)
    (hflag : g.endOfDxe → b → ¬ (name = varErrorFlagName ∧ guid = varErrorFlagGuid))
    (hend : g'.endOfDxe) :
    Absent varErrorFlagName varErrorFlagGuid (storedRecords cfg g' true) := by
  rw [h.endOfDxe] at hend
  cases b with
  | true =>
    intro r hr hlive hkey
    rcases h.keys r hr hlive with hown | ⟨s, hs, hsl, hsname, hsguid⟩
    · obtain ⟨hguid, hname⟩ := hasKey_iff.1 hkey
      obtain ⟨hguid', hname'⟩ := hasKey_iff.1 hown
      exact hflag hend rfl ⟨VariableName.bytes_injective (hname'.symm.trans hname),
        hguid'.symm.trans hguid⟩
    · refine hinv.flag hend s hs hsl ?_
      rwa [hasKey, hsname, hsguid]
  | false =>
    have hoth : storedRecords cfg g' true = storedRecords cfg g true := h.storedRecords_not
    rw [hoth]
    exact hinv.flag hend

theorem Rewritten.inv (hinv : Inv cfg g) (habs : Absent name guid (storedRecords cfg g !b))
    (hflag : g.endOfDxe → b → ¬ (name = varErrorFlagName ∧ guid = varErrorFlagGuid)) :
    Inv cfg g' where
  store c := by
    by_cases hc : c = b
    · rw [hc]
      exact h.good
    · rw [Bool.eq_not.2 hc, h.other, h.last]
      exact hinv.store _
  synced := h.synced
  disjoint r hr hlive s hs hsl := by
    have hoth := h.storedRecords_not
    cases b with
    | true =>
      have hs' : s ∈ storedRecords cfg g false := hoth ▸ hs
      exact h.disjoint hinv habs hr hlive s hs' hsl
    | false =>
      have hr' : r ∈ storedRecords cfg g true := hoth ▸ hr
      rw [hasKey_comm]
      exact h.disjoint hinv habs hs hsl r hr' hlive
  space := h.space
  hwErr_le := h.hwErr_le
  hwErr_dvd := h.hwErr_dvd
  flag := h.flag hinv hflag

theorem Rewritten.entries_eq :
    entries cfg g' = (entries cfg g).set name guid (entries cfg g' name guid) := by
  have hoth := h.storedRecords_not
  funext name' guid'
  rw [Entries.set]
  by_cases hkey : name' = name ∧ guid' = guid
  · rw [if_pos hkey, hkey.1, hkey.2]
  · rw [if_neg hkey, entries, entries]
    by_cases hname' : name'.chars = []
    · rw [if_pos hname', if_pos hname']
    · rw [if_neg hname', if_neg hname']
      cases b with
      | true =>
        have hoth' : storedRecords cfg g' false = storedRecords cfg g false := hoth
        rw [h.find name' guid' hname' hkey, hoth']
      | false =>
        have hoth' : storedRecords cfg g' true = storedRecords cfg g true := hoth
        rw [h.find name' guid' hname' hkey, hoth']

end Rewrite

end MuBasecore.VariableMap
