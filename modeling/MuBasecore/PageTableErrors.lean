import MuBasecore.PageTableRuns

/-!
Calls of `PageTableMap` that fail or report no change. The pass that writes meets an error only
if the pass before it, which writes nothing, has met one.
-/

namespace MuBasecore.PageTableErrors

open EfiTypes Function
open PagingEntries hiding isPle translate
open PageTableMap PageTableEffect PageTableUpdate
open PageTableQuery MapCall TableEntry

variable {c : MapCall} {level index offset : Nat} {acc acc' : MapAttribute} {size size' : Int}

variable {region : Nat} {node : Node level} {entered : MapCall.Entered (level + 1)}

section Children

variable {mapBelow mapBelow' : Nat → Node level → Int → Except EfiStatus (Node level × Int × Bool)}
  {table table' : Table (level + 1)}

theorem mapChild_runs_iff {below : Node level → Int → Except EfiStatus (Node level × Int × Bool)} :
    (∃ u, c.mapChild level acc below offset region node size = .ok u) ↔
      c.mapsWhole (level + 1) offset region node.1 = true ∨ ∃ u, below node size = .ok u := by
  rw [mapChild]
  split
  next hwh =>
    simp only [hwh, true_or, iff_true]
    split <;> exact ⟨_, rfl⟩
  next hwh =>
    rw [or_iff_right hwh]

theorem mapChildren_runs {P : Node level → Prop}
    (hkid : ∀ offset region node size, P node →
      ∃ u, c.mapChild level acc (mapBelow offset) offset region node size = .ok u)
    (htab : ∀ j, index ≤ j → P (table j)) (remaining offset region : Nat) (size : Int)
    (modified : Bool) :
    ∃ u, c.mapChildren level acc mapBelow none remaining index offset region table size
      modified = .ok u := by
  induction remaining generalizing index offset region table size modified with
  | zero => exact ⟨_, rfl⟩
  | succ remaining ih =>
    rw [mapChildren_succ]
    split
    · obtain ⟨u, hu⟩ := hkid offset region (table index) size (htab index le_rfl)
      rw [show pick none table index = table index from rfl, hu]
      refine ih ?_ ..
      intro j hj
      rw [place, update_of_ne (by omega)]
      exact htab j (by omega)
    · exact ⟨_, rfl⟩

/-- Children that are present alike are visited alike, whether they are written or not. -/
theorem mapChildren_follows
    (hkid : ∀ j offset region size size', index ≤ j →
      (∃ u, (asQuery c).mapChild level acc (mapBelow offset) offset region (table j) size = .ok u) →
      ∃ u, c.mapChild level acc' (mapBelow' offset) offset region (table' j) size' = .ok u)
    (remaining offset region : Nat) (size size' : Int) (modified isModified' : Bool)
    (h : ∃ u, (asQuery c).mapChildren level acc mapBelow none remaining
      index offset region table size modified = .ok u) :
    ∃ u, c.mapChildren level acc' mapBelow' none remaining index offset region table' size'
      isModified' = .ok u := by
  induction remaining generalizing index offset region table table' size size' modified
    isModified' with
  | zero => exact ⟨_, rfl⟩
  | succ remaining ih =>
    rw [mapChildren_succ] at h ⊢
    by_cases hoff : offset < c.length
    · rw [if_pos hoff] at h ⊢
      cases hquery : (asQuery c).mapChild level acc (mapBelow offset)
          offset region (table index) size with
      | error status =>
        rw [show pick none table index = table index from rfl, hquery] at h
        obtain ⟨u, hu⟩ := h
        cases hu
      | ok r =>
        obtain ⟨u, hu⟩ := hkid index offset region size size' le_rfl ⟨r, hquery⟩
        rw [show pick none table index = table index from rfl, hquery] at h
        rw [show pick none table' index = table' index from rfl, hu]
        refine ih ?_ _ _ _ _ _ _ h
        intro j offset region size size' hj
        rw [place, place, update_of_ne (by omega), update_of_ne (by omega)]
        exact hkid j offset region size size' (by omega)
    · rw [if_neg hoff]
      exact ⟨_, rfl⟩

theorem mapChildren_unmodified
    (hkid : ∀ offset region node size u,
      c.mapChild level acc (mapBelow offset) offset region node size = .ok u →
      u.2.2 = false → u.1 = node)
    {remaining : Nat} {modified : Bool} {u : Table (level + 1) × Int × Bool}
    (h : c.mapChildren level acc mapBelow none remaining index offset region table size
      modified = .ok u) (hflag : u.2.2 = false) : u.1 = table ∧ modified = false := by
  induction remaining generalizing index offset region table size modified with
  | zero =>
    cases h
    exact ⟨rfl, hflag⟩
  | succ remaining ih =>
    rw [mapChildren_succ] at h
    split at h
    · split at h
      · cases h
      next r hr =>
        obtain ⟨htab, hmodified⟩ := ih h
        obtain ⟨hpre, hnow⟩ := Bool.or_eq_false_iff.1 hmodified
        refine ⟨htab.trans ?_, hpre⟩
        rw [place, hkid _ _ _ _ _ hr hnow]
        exact update_eq_self index table
    · cases h
      exact ⟨rfl, hflag⟩

end Children

/-- The loop over the children of a node that has been entered. -/
abbrev visitChildren (c : MapCall) (level : Nat) (acc : MapAttribute) (offset : Nat)
    (node : Node (level + 1)) (size : Int) : Except EfiStatus (Table (level + 1) × Int × Bool) :=
  c.mapChildren level (pnleMapAttribute node.1 acc)
    (fun offset => c.mapInLevel level (pnleMapAttribute node.1 acc) offset) none
    (512 - c.pagingEntryIndex (level + 1) offset) (c.pagingEntryIndex (level + 1) offset) offset
    ((c.linearAddress + offset) / regionLength (level + 1) * regionLength (level + 1)) node.2 size
    false

theorem mapInLevel_eq {node : Node (level + 1)}
    (h : c.enter level acc offset node size = .ok (some entered)) (honeOf : entered.oneOf = none) :
    c.mapInLevel (level + 1) acc offset node size =
      (visitChildren c level acc offset entered.node entered.bufferSize).map fun u =>
        ((entered.node.1, u.1), u.2.1,
          u.2.2 || (c.modify && decide (entered.node.1 ≠ node.1))) := by
  rw [mapInLevel, h]
  dsimp only
  rw [honeOf]
  rw [visitChildren]
  generalize c.mapChildren _ _ _ _ _ _ _ _ _ _ _ = out
  cases out <;> rfl

theorem exists_map_ok {α β : Type} {f : α → β} {out : Except EfiStatus α} :
    (∃ u, out.map f = .ok u) ↔ ∃ u, out = .ok u := by
  cases out with
  | error status => simp [Except.map]
  | ok u => simp [Except.map]

theorem enter_cases (hmod : c.modify = true) {node : Node (level + 1)}
    (h : c.enter level acc offset node size = .ok (some entered)) :
    entered.oneOf = none ∧
      ((∃ address, entered.node = (newParent node.1 address,
          newTable level (partOf (level + 1) node.1 acc)) ∧
          (node.1.present = false ∨ isPle node.1 (level + 2) = true)) ∨
        entered.node = c.loosen level node ∧ node.1.present = true ∧
          isPle node.1 (level + 2) = false) := by
  rw [enter] at h
  simp only [hmod, if_true] at h
  split at h
  next hkind =>
    split at h
    · cases h
    · split at h
      · cases h
      · cases h
        exact ⟨rfl, .inl ⟨_, rfl, hkind⟩⟩
  next hkind =>
    rw [not_or, Bool.not_eq_false, Bool.not_eq_true] at hkind
    split at h
    · cases h
    · cases h
      exact ⟨rfl, .inr ⟨rfl, hkind⟩⟩

theorem enter_error_iff {node : Node (level + 1)} :
    (∃ status, c.enter level acc offset node size = .error status) ↔
      validForNonPresent c.attr c.mask = false ∧ (node.1.present = false ∨
        isPle node.1 (level + 2) = false ∧ c.hasNonPresent level offset node.2 = true) := by
  rw [enter]
  cases validForNonPresent c.attr c.mask <;> cases node.1.present <;>
    cases isPle node.1 (level + 2) <;> cases c.hasNonPresent level offset node.2 <;>
    cases c.modify <;> simp <;> split <;> simp

theorem loosen_of_same {node : Node (level + 1)} (h : c.loosenParent node.1 = node.1) :
    c.loosen level node = node := by
  have hmask : (c.childAttribute node.1).2 = zeroMask := by
    have hor : ∀ a b c : Bool, (a || (!a && b && c)) = a → (!a && b && c) = false := by decide
    have hand : ∀ a b c : Bool, (a && !(a && b && c)) = a → (a && b && c) = false := by decide
    rw [childAttribute]
    dsimp only
    rw [hor _ _ _ (congrArg readWrite h), hor _ _ _ (congrArg userSupervisor h),
      hand _ _ _ (congrArg nx h)]
    rfl
  rw [loosen]
  exact if_pos hmask

/-- Nothing fails where entries may be missing, or below a leaf that is present. -/
theorem mapInLevel_runs (hmod : c.modify = true) (hacc : acc.present = true)
    (h : validForNonPresent c.attr c.mask = true ∨
      node.1.present = true ∧ isPle node.1 (level + 1) = true) :
    ∃ u, c.mapInLevel level acc offset node size = .ok u := by
  induction level generalizing acc offset size with
  | zero => exact ⟨_, rfl⟩
  | succ level ih =>
    cases henter : c.enter level acc offset node size with
    | error status =>
      exfalso
      obtain ⟨hinv, hgap⟩ := enter_error_iff.1 ⟨status, henter⟩
      rcases h with hval | ⟨hpres, hleaf⟩
      · rw [hval] at hinv
        cases hinv
      · simp [hpres, hleaf] at hgap
    | ok entered =>
      cases entered with
      | none =>
        rw [mapInLevel, henter]
        exact ⟨_, rfl⟩
      | some entered =>
        obtain ⟨honeOf, hnode⟩ := enter_cases hmod henter
        rw [mapInLevel_eq henter honeOf, exists_map_ok]
        have hpar : (pnleMapAttribute entered.node.1 acc).present = true := by
          change (acc.present && entered.node.1.present) = true
          rw [hacc, Bool.true_and]
          rcases hnode with ⟨address, hnode, -⟩ | ⟨hnode, hpres, -⟩
          · rw [hnode]
            rfl
          · rw [hnode, loosen_fst]
            exact hpres
        refine mapChildren_runs (P := fun node => validForNonPresent c.attr c.mask = true ∨
          node.1.present = true ∧ isPle node.1 (level + 1) = true) ?_ ?_ ..
        · intro offset region node size hkid
          exact mapChild_runs_iff.2 (.inr (ih hpar hkid))
        · intro j _
          refine h.imp_right ?_
          rintro ⟨hpres, hleaf⟩
          rcases hnode with ⟨address, hnode, -⟩ | ⟨-, -, htab⟩
          · rw [hnode]
            refine ⟨oneOf_present hpres hacc, ?_⟩
            change isPle (addOffset _ _) (level + 1) = true
            rw [isPle_addOffset]
            exact isPle_oneOf (by have := isPle_level hleaf; omega) hpres _
          · rw [hleaf] at htab
            cases htab

/-- The pass that writes gets through wherever the query gets through. The two find other
rights in the entries, but the same entries present. -/
theorem mapInLevel_follows (hmod : c.modify = true) (hacc : acc'.present = true)
    {node' : Node level} (hpres : node'.1.present = node.1.present)
    (hleaf : isPle node'.1 (level + 1) = isPle node.1 (level + 1)) (htab : node'.2 = node.2)
    (h : ∃ u, (asQuery c).mapInLevel level acc offset node size = .ok u) :
    ∃ u, c.mapInLevel level acc' offset node' size' = .ok u := by
  induction level generalizing acc acc' offset size size' with
  | zero => exact ⟨_, rfl⟩
  | succ level ih =>
    by_cases hval : validForNonPresent c.attr c.mask = true
    · exact mapInLevel_runs hmod hacc (.inl hval)
    by_cases hkind : node.1.present = true ∧ isPle node.1 (level + 2) = true
    · exact mapInLevel_runs hmod hacc (.inr (by rw [hpres, hleaf]; exact hkind))
    -- a table, in which no entry of the range is missing
    have hsnd : ¬ ∃ status, (asQuery c).enter level acc offset node size = .error status := by
      rintro ⟨status, herr⟩
      rw [mapInLevel, herr] at h
      obtain ⟨u, hu⟩ := h
      cases hu
    rw [enter_error_iff, Bool.not_eq_true _ |>.mp hval] at hsnd
    have hnode : node.1.present = true := by
      by_contra hgap
      exact hsnd ⟨rfl, .inl (Bool.not_eq_true _ |>.mp hgap)⟩
    have hple : isPle node.1 (level + 2) = false :=
      Bool.not_eq_true _ |>.mp fun hple => hkind ⟨hnode, hple⟩
    have hfull : (asQuery c).hasNonPresent level offset node.2 = false :=
      Bool.not_eq_true _ |>.mp fun hgap => hsnd ⟨rfl, .inr ⟨hple, hgap⟩⟩
    have hquery : (asQuery c).enter level acc offset node size = .ok (some ⟨node, size, none⟩) := by
      rw [enter]
      simp [hnode, hple, hfull]
    have hwr : c.enter level acc' offset node' size' =
        .ok (some ⟨c.loosen level node', size', none⟩) := by
      rw [enter]
      simp [hpres, hleaf, htab, hnode, hple, hmod,
        (show c.hasNonPresent level offset node.2 = false from hfull)]
    rw [mapInLevel_eq hquery rfl, exists_map_ok] at h
    rw [mapInLevel_eq hwr rfl, exists_map_ok]
    have hpar : (pnleMapAttribute (c.loosen level node').1 acc').present = true := by
      rw [loosen_fst]
      change (acc'.present && node'.1.present) = true
      rw [hacc, hpres, hnode]
      rfl
    refine mapChildren_follows ?_ _ _ _ _ _ _ _ h
    intro j offset region size size' _ hkid
    obtain ⟨hpres', hleaf', htab'⟩ := loosen_child (c := c) node' j
    rw [htab] at hpres' hleaf' htab'
    have hwh : c.mapsWhole (level + 1) offset region ((c.loosen level node').2 j).1 =
        c.mapsWhole (level + 1) offset region (node.2 j).1 := by
      rw [mapsWhole, mapsWhole, hpres', hleaf']
    rw [mapChild_runs_iff] at hkid ⊢
    exact hkid.imp hwh.trans (ih hpar hpres' hleaf' htab')

theorem mapInLevel_unmodified (hmod : c.modify = true)
    {u : Node level × Int × Bool} (h : c.mapInLevel level acc offset node size = .ok u)
    (hflag : u.2.2 = false) : u.1 = node := by
  induction level generalizing acc offset size with
  | zero =>
    cases h
    rfl
  | succ level ih =>
    cases henter : c.enter level acc offset node size with
    | error status =>
      rw [mapInLevel, henter] at h
      cases h
    | ok entered =>
      cases entered with
      | none =>
        rw [mapInLevel, henter] at h
        cases h
        rfl
      | some entered =>
        obtain ⟨honeOf, hnode⟩ := enter_cases hmod henter
        rw [mapInLevel_eq henter honeOf] at h
        cases hvis : visitChildren c level acc offset entered.node entered.bufferSize with
        | error status =>
          rw [hvis] at h
          cases h
        | ok v =>
          rw [hvis] at h
          cases h
          obtain ⟨hkids, hent⟩ := Bool.or_eq_false_iff.1 hflag
          rw [hmod, Bool.true_and, decide_eq_false_iff_not, not_not] at hent
          have htab : v.1 = entered.node.2 := by
            refine (mapChildren_unmodified ?_ hvis hkids).1
            intro offset region node size u hu hflag
            rw [mapChild] at hu
            split at hu
            · cases hu
              exact Prod.ext (not_not.1 (of_decide_eq_false hflag)) rfl
            · exact ih hu hflag
          change (entered.node.1, v.1) = node
          rw [htab]
          rcases hnode with ⟨address, hnew, hkind⟩ | ⟨hloosen, -, -⟩
          · rw [hnew] at hent
            exfalso
            rcases hkind with hgap | hleaf
            · rw [← hent] at hgap
              cases hgap
            · rw [← hent, isPle_newParent] at hleaf
              cases hleaf
          · rw [hloosen, loosen_fst] at hent
            rw [hloosen, loosen_of_same hent]

section Calls

variable (mode : PagingMode) (pt : Option (PageTable mode.maxLevel))
  (buffer bufferSize linearAddress length : Nat) (attr mask : MapAttribute)

theorem pageTableMap_cases :
    pageTableMap mode pt buffer bufferSize linearAddress length attr mask =
        updatePageTable mode ⟨true, buffer, mode.maxLeafLevel, linearAddress, length, attr, mask⟩ pt
          bufferSize ∨
      (pageTableMap mode pt buffer bufferSize linearAddress length attr mask).pageTable = pt := by
  rw [pageTableMap]
  split_ifs <;> try exact .inr rfl
  dsimp only
  split
  · exact .inr rfl
  · split
    · exact .inr rfl
    · split
      · exact .inr rfl
      · exact .inl rfl

/-- A call on a page table of four or five levels that fails or reports no change leaves it as
it was, and the pass that writes is not begun if it would fail. As everywhere in the model, a new
table is apart from the old ones: the caller provides a `Buffer` that is page aligned and overlaps
no table. -/
theorem pageTableMap_frame (hmode : mode.maxLevel = 4 ∨ mode.maxLevel = 5) :
    ((pageTableMap mode pt buffer bufferSize linearAddress length attr mask).status ≠ .success ∨
        (pageTableMap mode pt buffer bufferSize linearAddress length attr mask).isModified = false →
      (pageTableMap mode pt buffer bufferSize linearAddress length attr mask).pageTable = pt) ∧
    ((∃ u, MapCall.mapInLevel ⟨false, 0, mode.maxLeafLevel, linearAddress, length, attr, mask⟩
        mode.maxLevel topAttribute 0 (topNode mode pt) 0 = .ok u) →
      ∃ u, MapCall.mapInLevel ⟨true, buffer, mode.maxLeafLevel, linearAddress, length, attr, mask⟩
        mode.maxLevel topAttribute 0 (topNode mode pt) bufferSize = .ok u) := by
  refine ⟨fun h => ?_, fun h => mapInLevel_follows rfl rfl rfl rfl rfl h⟩
  have hpae : mode ≠ .pagingPae := by
    rintro rfl
    revert hmode
    decide
  rcases pageTableMap_cases mode pt buffer bufferSize linearAddress length attr mask with
    heq | hsame
  · rw [heq, updatePageTable] at h ⊢
    split at h
    · rfl
    next top size isModified hupdate =>
      have hflag : isModified = false := h.resolve_left fun hne => hne rfl
      rw [show top = topNode mode pt from mapInLevel_unmodified rfl hupdate hflag,
        PageTableRuns.topNode_of_ne hpae, newPageTable.eq_def, if_neg hpae]
      cases pt <;> rfl
  · exact hsame

end Calls

open PageTableRuns in
theorem nextPage_frame :
    (nextPage.apply .paging4Level1GB
        (firstGigabyte.apply .paging4Level1GB none).pageTable).pageTable =
      (firstGigabyte.apply .paging4Level1GB none).pageTable :=
  (pageTableMap_frame .paging4Level1GB _ nextPage.buffer nextPage.bufferSize nextPage.linearAddress
    nextPage.length nextPage.attr nextPage.mask (.inl rfl)).1 (.inr (by decide +kernel))

end MuBasecore.PageTableErrors
