import MuBasecore.PageTableUpdate

/-!
The query pass of `PageTableLibMapInLevel` against the pass that modifies the tables: the two
visit nodes that are alike, and take the same number of bytes from the buffer.
-/

namespace MuBasecore.PageTableQuery

open EfiTypes Nat
open PagingEntries hiding isPle
open PageTableMap PageTableEffect PageTableUpdate MapCall MapAttribute

variable {i o : Nat} {e : TableEntry} {α : Type} {sizem sizeq : Int}

def taken {α : Type} (size : Int) (result : Except EfiStatus (α × Int × Bool)) :
    Except EfiStatus Int :=
  match result with
  | .error status => .error status
  | .ok r => .ok (size - r.2.1)

/-- The pass that finds out how much of the buffer is needed. -/
abbrev asQuery (c : MapCall) : MapCall :=
  { c with modify := false, buffer := 0 }

/-- The nodes that the query (first) and the update visit. They grant the same, and a leaf of
the update maps addresses that are moved on by a shift. -/
structure Alike (level shift : Nat) (accq : MapAttribute) (nq : Node level) (accm : MapAttribute)
    (nm : Node level) : Prop where
  present : nm.1.present = nq.1.present
  kind : isPle nm.1 (level + 1) = isPle nq.1 (level + 1)
  granted : nq.1.present = true → accq.present = true ∧ accm.present = true
  table : nq.1.present = true → isPle nq.1 (level + 1) = false →
    nm.2 = nq.2 ∧ ∀ a, accm.under (restrictBy nm.1 a) = accq.under (restrictBy nq.1 a)
  leaf : level ≠ 0 → nq.1.present = true → isPle nq.1 (level + 1) = true → ∀ y,
    accm.under (leafAttr (level + 1) nm.1 y) = accq.under (leafAttr (level + 1) nq.1 (shift + y))
  unshifted : 2 ≤ level → nq.1.present = true → shift = 0
  okq : Ok level nq
  okm : Ok level nm

theorem Alike.refl {level : Nat} {node : Node level} (acc : MapAttribute) (hok : Ok level node)
    (hacc : acc.present = true) : Alike level 0 acc node acc node where
  present := rfl
  kind := rfl
  granted _ := ⟨hacc, hacc⟩
  table _ _ := ⟨rfl, fun _ => rfl⟩
  leaf _ _ _ y := by rw [zero_add]
  unshifted _ _ := rfl
  okq := hok
  okm := hok

variable {acc : MapAttribute} {size : Int} {c : MapCall} {accq accm : MapAttribute}

section Children

variable {level shift : Nat} {node : Node (level + 1)}

theorem restrictBy_loosen_leaf (hleaf : isPle (node.2 i).1 (level + 1) = true) (y : Nat) :
    restrictBy (c.loosen level node).1 (leafAttr (level + 1) ((c.loosen level node).2 i).1 y) =
      restrictBy node.1 (leafAttr (level + 1) (node.2 i).1 y) := by
  rw [loosen]
  dsimp only
  split
  · rfl
  · change restrictBy (c.loosenParent node.1) (leafAttr (level + 1)
      (tightenChild (level + 1) _ _ (node.2 i).1) y) = _
    rw [tightenChild, if_pos hleaf, leafAttr_setPle (isPle_level hleaf)
      (fits_of_not_selected rfl), select_childAttribute, restrictBy_loosenParent]

theorem restrictBy_loosen_table
    (hleaf : isPle (node.2 i).1 (level + 1) = false) (a : MapAttribute) :
    restrictBy (c.loosen level node).1 (restrictBy ((c.loosen level node).2 i).1 a) =
      restrictBy node.1 (restrictBy (node.2 i).1 a) := by
  rw [loosen]
  dsimp only
  split
  · rfl
  · change restrictBy (c.loosenParent node.1)
      (restrictBy (tightenChild (level + 1) _ _ (node.2 i).1) a) = _
    rw [tightenChild, hleaf, if_neg (by decide), restrictBy_setPnle,
      restrictBy_loosenParent]

variable {nm nq : Node (level + 1)}

theorem Alike.child (h : Alike (level + 1) shift accq nq accm nm)
    (hpres : nq.1.present = true) (htab : isPle nq.1 (level + 2) = false)
    (hi : i < 512) :
    Alike level 0 (pnleMapAttribute nq.1 accq) (nq.2 i)
      (pnleMapAttribute (c.loosen level nm).1 accm) ((c.loosen level nm).2 i) := by
  obtain ⟨htables, hrights⟩ := h.table hpres htab
  obtain ⟨hsame, hkind, hbel⟩ := loosen_child (c := c) nm i
  have hpresm : (c.loosen level nm).1.present = true := by
    rw [loosen_fst]
    exact h.present.trans hpres
  rw [htables] at hsame hkind hbel
  refine ⟨hsame, hkind, fun _ => ?_, fun _ hleaf => ⟨hbel, fun a => ?_⟩, fun _ _ hleaf y => ?_,
    fun _ _ => rfl, h.okq.2 i hi, (ok_loosen h.okm (h.kind.trans htab)).2 i hi⟩
  · obtain ⟨hq, hm⟩ := h.granted hpres
    refine ⟨?_, ?_⟩
    · change (accq.present && nq.1.present) = true
      rw [hq, hpres]
      rfl
    · change (accm.present && (c.loosen level nm).1.present) = true
      rw [hm, hpresm]
      rfl
  · rw [pnle_under hpresm, pnle_under hpres,
      restrictBy_loosen_table (by rw [htables]; exact hleaf), hrights, htables]
  · rw [pnle_under hpresm, pnle_under hpres,
      restrictBy_loosen_leaf (by rw [htables]; exact hleaf), hrights, htables, zero_add]

theorem isPle_oneOf_of_not_present (h : e.present = false) (a : MapAttribute) :
    isPle (oneOfPagingEntry (level + 1) e a) (level + 1) =
      decide (level + 1 = 1 ∨ level + 1 = 2 ∨ level + 1 = 3) := by
  rw [oneOfPagingEntry, if_pos h]
  split
  next hlev =>
    rw [decide_eq_false (by omega), isPle, setPnle]
    simp only [Bool.and_false, Bool.or_false, beq_eq_false_iff_ne]
    exact hlev.1
  next hlev =>
    have hlev : level + 1 = 1 ∨ level + 1 = 2 ∨ level + 1 = 3 := by omega
    rw [isPle_setPle hlev, decide_eq_true hlev]

theorem Alike.create (h : Alike (level + 1) shift accq nq accm nm)
    (hpres : nq.1.present = false) (address i : Nat) :
    Alike level 0 (pnleMapAttribute nq.1 accq) (partOf (level + 1) nq.1 accq, .blank level)
      (pnleMapAttribute (newParent nm.1 address) accm)
      (newTable level (partOf (level + 1) nm.1 accm) i) := by
  have hpresm := h.present.trans hpres
  have hq : (partOf (level + 1) nq.1 accq).present =
      false := oneOf_not_present hpres _ (by rw [pleBMapAttribute, hpres, Bool.and_false])
  have hm : (newTable level (partOf (level + 1) nm.1 accm) i).1.present = false :=
    oneOf_not_present hpresm _ (by rw [pleBMapAttribute, hpresm, Bool.and_false])
  have habsurd : (partOf (level + 1) nq.1 accq).present = true → False :=
    fun h => Bool.false_ne_true (hq.symm.trans h)
  refine ⟨hm.trans hq.symm, ?_, fun h => (habsurd h).elim, fun h => (habsurd h).elim,
    fun _ h => (habsurd h).elim, fun _ _ => rfl, ok_blank level ?_, ok_blank level ?_⟩
  · rw [newTable, isPle_addOffset, isPle_oneOf_of_not_present hpresm,
      isPle_oneOf_of_not_present hpres]
  · exact ⟨oneOf_address_lt _, fun h => (habsurd h).elim⟩
  · exact ⟨addOffset_address_lt _, fun h => absurd (hm.symm.trans h) Bool.false_ne_true⟩

theorem under_restrictBy_leaf (y : Nat) :
    acc.under (restrictBy e (acc.under (leafAttr level e y))) = acc.under (leafAttr level e y) := by
  have hand : ∀ a b : Bool, (a && (b && (a && b))) = (a && b) := by decide
  have hor : ∀ a b : Bool, (a || (b || (a || b))) = (a || b) := by decide
  have hself : ∀ a b : Bool, (a && (a && b)) = (a && b) := by decide
  exact MapAttribute.ext (hself _ _) (hand _ _) (hand _ _) rfl rfl rfl rfl rfl rfl rfl rfl rfl rfl
    (hor _ _)

theorem Alike.split (h : Alike (level + 1) shift accq nq accm nm)
    (hpres : nq.1.present = true) (hleaf : isPle nq.1 (level + 2) = true) (address : Nat)
    (hi : i < 512) :
    Alike level (i * regionLength (level + 1)) (pnleMapAttribute nq.1 accq)
      (partOf (level + 1) nq.1 accq, .blank level)
      (pnleMapAttribute (newParent nm.1 address) accm)
      (newTable level (partOf (level + 1) nm.1 accm) i) := by
  have hpresm := h.present.trans hpres
  have hleafm := h.kind.trans hleaf
  obtain ⟨hq, hm⟩ := h.granted hpres
  have hsplitq := h.okq.entry.splits hpres hleaf
  have hsplitm := h.okm.entry.splits hpresm hleafm
  have hkindq := isPle_oneOf hsplitq.level_eq hpres (pleBMapAttribute nq.1 accq)
  have hkindm := isPle_oneOf hsplitm.level_eq hpresm (pleBMapAttribute nm.1 accm)
  have hpresentq' : (partOf (level + 1) nq.1 accq).present = true := oneOf_present hpres hq
  have hpresm' : (partOf (level + 1) nm.1 accm).present = true := oneOf_present hpresm hm
  refine ⟨hpresm'.trans hpresentq'.symm, hkindm.trans hkindq.symm, fun _ => ?_, fun _ h => ?_,
    fun hlev _ _ y => ?_, fun hlev => ?_, ok_blank level ?_, ok_blank level ?_⟩
  · refine ⟨?_, ?_⟩
    · change (accq.present && nq.1.present) = true
      rw [hq, hpres]
      rfl
    · change (accm.present && true) = true
      rw [hm]
      rfl
  · cases hkindq.symm.trans h
  · -- a 1G page: neither its own entry nor that of the update is shifted
    have hlev : 2 ≤ level + 1 := by omega
    have hroom := oneOf_room hsplitm hpresm hm hi
    rw [pnle_under (newParent_present), restrictBy_newParent, pnle_under hpres,
      newTable, leafAttr_addOffset hsplitm.level_eq hroom,
      leafAttr_oneOf hsplitm hpresm hm, leafAttr_oneOf hsplitq hpres hq, under_under,
      under_restrictBy_leaf]
    have hshift := h.unshifted hlev hpres
    have hsame := h.leaf (succ_ne_zero _) hpres hleaf (i * regionLength (level + 1) + y)
    rw [hshift, zero_add] at hsame
    exact hsame
  · have := hsplitq.level_eq
    omega
  · refine ⟨oneOf_address_lt _, fun _ _ => ?_⟩
    rw [oneOf_leafBase hsplitq hpres hq]
    have haln := hsplitq.aligned
    rw [regionLength_succ] at haln
    exact mod_eq_zero_of_dvd ((dvd_mul_left _ 512).trans (dvd_of_mod_eq_zero haln))
  · exact entryOk_newTable hsplitm hpresm hm hi

end Children

variable {oneOf : Option TableEntry} {index : Nat} {mask : MapAttribute}

section Loop

variable {level start : Nat}

def pick {level : Nat} (oneOf : Option TableEntry) (table : Table (level + 1)) (i : Nat) :
    Node level :=
  match oneOf with
  | some e => (e, .blank level)
  | none => table i

def place {level : Nat} (oneOf : Option TableEntry) (table : Table (level + 1)) (index : Nat)
    (child : Node level) : Table (level + 1) :=
  match oneOf with
  | some _ => table
  | none => Function.update table index child

theorem pick_place {table : Table (level + 1)} (child : Node level) (h : i ≠ index) :
    pick oneOf (place oneOf table index child) i = pick oneOf table i := by
  cases oneOf with
  | none => exact Function.update_of_ne h _ _
  | some e => rfl

theorem mapChildren_succ
    (mapBelow : Nat → Node level → Int → Except EfiStatus (Node level × Int × Bool))
    (remaining index offset region : Nat)
    (table : Table (level + 1)) (modified : Bool) :
    c.mapChildren level acc mapBelow oneOf (remaining + 1) index offset region table size modified =
      if offset < c.length then
        match c.mapChild level acc (mapBelow offset) offset region (pick oneOf table index)
          size with
        | .error status => .error status
        | .ok r => c.mapChildren level acc mapBelow oneOf remaining (index + 1)
            (offset + c.subLength (level + 1) offset region)
            (region + regionLength (level + 1)) (place oneOf table index r.1) r.2.1
            (modified || r.2.2)
      else .ok (table, size, modified) := by
  cases oneOf with
  | none =>
    rw [mapChildren]
    dsimp only [pick, place]
    cases c.mapChild level acc (mapBelow offset) offset region (table index) size <;> rfl
  | some e =>
    rw [mapChildren]
    dsimp only [pick, place]
    cases c.mapChild level acc (mapBelow offset) offset region (e, .blank level) size <;> rfl

theorem taken_ok (r : α × Int × Bool) :
    taken size (.ok r) = .ok (size - r.2.1) := rfl

theorem taken_from (size size' : Int) (result : Except EfiStatus (α × Int × Bool)) :
    taken size result = (taken size' result).map (· + (size - size')) := by
  cases result with
  | error status => rfl
  | ok r =>
    rw [taken_ok, taken_ok, Except.map]
    congr 1
    omega

theorem taken_eq_cases
    {rq rm : Except EfiStatus (α × Int × Bool)} (h : taken sizeq rq = taken sizem rm) :
    (∃ status, rq = .error status ∧ rm = .error status) ∨
      ∃ q m, rq = .ok q ∧ rm = .ok m ∧ sizeq - q.2.1 = sizem - m.2.1 := by
  cases rq with
  | error status =>
    cases rm with
    | error status' =>
      cases h
      exact .inl ⟨status, rfl, rfl⟩
    | ok m => cases h
  | ok q =>
    cases rm with
    | error status' => cases h
    | ok m => exact .inr ⟨q, m, rfl, rfl, Except.ok.inj h⟩

theorem mapChildren_taken (hc : Checked c)
    {belowq belowm : Nat → Node level → Int → Except EfiStatus (Node level × Int × Bool)}
    {remaining offset : Nat} {tableq tablem : Table (level + 1)}
    {modifiedq modifiedm : Bool} (hcnt : index + remaining = 512)
    (hvis : offset < c.length →
      Visit c (level + 1) (start + index * regionLength (level + 1)) offset)
    (hkid : ∀ i < 512, index ≤ i → ∀ o sizeq sizem,
      Visit c (level + 1) (start + i * regionLength (level + 1)) o →
        taken sizeq ((asQuery c).mapChild level accq (belowq o) o
            (start + i * regionLength (level + 1)) (pick oneOf tableq i) sizeq) =
          taken sizem (c.mapChild level accm (belowm o) o
            (start + i * regionLength (level + 1)) (tablem i) sizem)) :
    taken sizeq ((asQuery c).mapChildren level accq belowq oneOf remaining index offset
        (start + index * regionLength (level + 1)) tableq sizeq modifiedq) =
      taken sizem (c.mapChildren level accm belowm none remaining index offset
        (start + index * regionLength (level + 1)) tablem sizem modifiedm) := by
  induction remaining generalizing index offset tableq tablem sizeq sizem modifiedq modifiedm with
  | zero =>
    rw [mapChildren, mapChildren, taken_ok, taken_ok, Int.sub_self, Int.sub_self]
  | succ remaining ih =>
    rw [mapChildren_succ, mapChildren_succ]
    rcases lt_or_ge offset c.length with hin | hin
    · have hvis := hvis hin
      have hthis := hkid index (by omega) le_rfl offset sizeq sizem hvis
      rw [if_pos hin, if_pos (show offset < (asQuery c).length from hin)]
      rcases taken_eq_cases hthis with ⟨status, hq, hm⟩ | ⟨q, m, hq, hm, hsizes⟩
      · rw [hq, show pick none tablem index = tablem index from rfl, hm]
        rfl
      · have hst : start + index * regionLength (level + 1) + regionLength (level + 1) =
            start + (index + 1) * regionLength (level + 1) := by
          rw [succ_mul, add_assoc]
        have hnext := hvis.next hc
        rw [hst] at hnext
        rw [hq, show pick none tablem index = tablem index from rfl, hm, hst]
        rw [taken_from sizeq q.2.1, taken_from sizem m.2.1, hsizes]
        refine congrArg _ (ih (by omega) hnext fun i hi hle o sizeq sizem hvis' => ?_)
        have hkeep : place none tablem index m.1 i = tablem i :=
          Function.update_of_ne (by omega) _ _
        rw [pick_place _ (by omega), hkeep]
        exact hkid i hi (by omega) o sizeq sizem hvis'
    · rw [if_neg (show ¬ offset < (asQuery c).length from not_lt.2 hin),
        if_neg (not_lt.2 hin), taken_ok, taken_ok, Int.sub_self, Int.sub_self]

end Loop

/-- Where the range covers a 2M part of a 1G page that it does not replace as a whole, and the
page has the requested attributes: the requested physical address is not the one that the first
2M part of the page has at this place. -/
def Exact (c : MapCall) (level : Nat) (acc : MapAttribute) (start : Nat) (node : Node level) :
    Prop :=
  ∀ x < regionLength (level + 1), c.linearAddress ≤ start + x →
    start + x < c.linearAddress + c.length →
    leafLevel level node x = some 3 → c.mask.pageTableBaseAddress ≠ 0 →
    ∀ a, effective level acc node x = some a → masked a c.mask = masked c.attr c.mask →
      ¬ (2 ≤ c.maxLeafLevel ∧
        c.linearAddress ≤ (start + x) / regionLength 2 * regionLength 2 ∧
        (start + x) / regionLength 2 * regionLength 2 + regionLength 2 ≤
          c.linearAddress + c.length) →
      (start + x) % regionLength 3 / regionLength 2 ≠ 0 →
      c.attr.pageTableBaseAddress + (start + x - c.linearAddress) +
          (start + x) % regionLength 3 / regionLength 2 * regionLength 2 ≠
        a.pageTableBaseAddress

def Settled (c : MapCall) : (level : Nat) → Nat → MapAttribute → Nat → Node level → Prop
  | 0, _, _, _, _ => True
  | level + 1, shift, acc, offset, node =>
    shift ≠ 0 → node.1.present = true → isPle node.1 (level + 2) = true →
      c.mask.pageTableBaseAddress ≠ 0 →
      masked (pleBMapAttribute node.1 acc) c.mask = masked c.attr c.mask →
      ∀ s, s = 0 ∨ s = shift →
      node.1.base39 + s + regionLength (level + 1) * c.pagingEntryIndex (level + 1) offset ≠
        (c.attr.pageTableBaseAddress + offset) / regionLength (level + 1) *
          regionLength (level + 1)

variable {level shift start offset : Nat}

section Enter

theorem masked_of_not_selectsMore (h : selectsMore mask = false) (a : MapAttribute) :
    masked a mask = { zeroMask with present := a.present && mask.present } := by
  have hmask : { mask with present := false } = zeroMask :=
    not_not.1 (of_decide_eq_false h)
  simp only [zeroMask, MapAttribute.mk.injEq, true_and] at hmask
  obtain ⟨h1, h2, h3, h4, h5, h6, h7, h8, h9, -, h10, h11, h12⟩ := hmask
  simp [masked, zeroMask, h1, h2, h3, h4, h5, h6, h7, h8, h9, h10, h11, h12]

theorem base_of_not_selectsMore (h : selectsMore mask = false) : mask.pageTableBaseAddress = 0 :=
  congrArg pageTableBaseAddress (not_not.1 (of_decide_eq_false h))

theorem alreadyMapped_absent (hc : Checked c)
    (hval : validForNonPresent c.attr c.mask = true) {a : MapAttribute}
    (ha : a.present = false) :
    c.alreadyMapped level offset a = !(c.mask.present && c.attr.present) := by
  rw [Bool.eq_iff_iff, alreadyMapped_iff]
  cases hmask : c.mask.present with
  | true =>
    cases hattr : c.attr.present with
    | true =>
      refine ⟨fun h => ?_, fun h => nomatch h⟩
      have hpres : (a.present && c.mask.present) = (c.attr.present && c.mask.present) :=
        congrArg MapAttribute.present h.1
      rw [ha, hmask, hattr] at hpres
      cases hpres
    | false =>
      have hmore := hc.removal hattr hmask
      refine ⟨fun _ => rfl, fun _ => ⟨?_, .inl (base_of_not_selectsMore hmore)⟩⟩
      rw [masked_of_not_selectsMore hmore, masked_of_not_selectsMore hmore, ha, hattr]
  | false =>
    rw [validForNonPresent, hmask] at hval
    have hmore : selectsMore c.mask = false := by
      cases h : selectsMore c.mask with
      | false => rfl
      | true =>
        rw [h, Bool.false_and, if_neg (by decide)] at hval
        exact absurd hval (by decide)
    refine ⟨fun _ => rfl, fun _ => ⟨?_, .inl (base_of_not_selectsMore hmore)⟩⟩
    rw [masked_of_not_selectsMore hmore, masked_of_not_selectsMore hmore, hmask, Bool.and_false,
      Bool.and_false]

variable {nm nq : Node (level + 1)}

theorem alreadyMapped_same (hc : Checked c) (h : Alike (level + 1) shift accq nq accm nm)
    (hkind : nq.1.present = false ∨ isPle nq.1 (level + 2) = true)
    (hval : nq.1.present = false → validForNonPresent c.attr c.mask = true)
    (hset : Settled c (level + 1) shift accq offset nq) :
    c.alreadyMapped (level + 1) offset (pleBMapAttribute nq.1 accq) =
      c.alreadyMapped (level + 1) offset (pleBMapAttribute nm.1 accm) := by
  rcases Bool.eq_false_or_eq_true nq.1.present with hpres | hpres
  · have hleaf := hkind.resolve_left (by rw [hpres]; decide)
    have hpresm := h.present.trans hpres
    have hsame := h.leaf (succ_ne_zero _) hpres hleaf
    have hmasked : masked (pleBMapAttribute nm.1 accm) c.mask =
        masked (pleBMapAttribute nq.1 accq) c.mask := by
      rw [masked_pleB hpresm 0, masked_pleB hpres (shift + 0)]
      exact congrArg (masked · c.mask) (hsame 0)
    have hbase : nm.1.base39 = nq.1.base39 + shift := by
      have hbase : (if level + 2 = 1 then nm.1.base40 else nm.1.base39) + 0 =
          (if level + 2 = 1 then nq.1.base40 else nq.1.base39) + (shift + 0) :=
        congrArg pageTableBaseAddress (hsame 0)
      exact hbase
    rw [Bool.eq_iff_iff, alreadyMapped_iff, alreadyMapped_iff, hmasked]
    refine and_congr_right fun heq => or_congr_right' fun hselected => ?_
    change nq.1.base39 + _ = _ ↔ nm.1.base39 + _ = _
    rw [hbase]
    rcases eq_or_ne shift 0 with rfl | hshift
    · rfl
    · have hnot := hset hshift hpres hleaf hselected heq
      have hq := hnot 0 (.inl rfl)
      exact ⟨fun h => absurd h hq, fun h => absurd h (hnot shift (.inr rfl))⟩
  · have hval := hval hpres
    rw [alreadyMapped_absent hc hval, alreadyMapped_absent hc hval]
    · rw [pleBMapAttribute, h.present.trans hpres, Bool.and_false]
    · rw [pleBMapAttribute, hpres, Bool.and_false]

inductive EnterBoth (c : MapCall) (level : Nat) (accq accm : MapAttribute) (offset : Nat)
    (nq nm : Node (level + 1)) (sizeq sizem : Int) : Prop
  | error (status : EfiStatus)
      (hq : (asQuery c).enter level accq offset nq sizeq = .error status)
      (hm : c.enter level accm offset nm sizem = .error status)
  | mapped (hq : (asQuery c).enter level accq offset nq sizeq = .ok none)
      (hm : c.enter level accm offset nm sizem = .ok none)
  | create (address : Nat)
      (hkind : nq.1.present = false ∨ isPle nq.1 (level + 2) = true)
      (hnot : c.alreadyMapped (level + 1) offset (pleBMapAttribute nq.1 accq) = false)
      (hq : (asQuery c).enter level accq offset nq sizeq = .ok (some ⟨nq, sizeq - 4096,
        some (partOf (level + 1) nq.1 accq)⟩))
      (hm : c.enter level accm offset nm sizem = .ok (some ⟨(MapCall.newParent nm.1 address,
        MapCall.newTable level (partOf (level + 1) nm.1 accm)), sizem - 4096, none⟩))
  | table (hpres : nq.1.present = true) (htab : isPle nq.1 (level + 2) = false)
      (hq : (asQuery c).enter level accq offset nq sizeq = .ok (some ⟨nq, sizeq, none⟩))
      (hm : c.enter level accm offset nm sizem = .ok (some ⟨c.loosen level nm, sizem, none⟩))

theorem enter_both (hc : Checked c) (hmod : c.modify = true)
    (h : Alike (level + 1) shift accq nq accm nm)
    (hset : Settled c (level + 1) shift accq offset nq) (sizeq sizem : Int) :
    EnterBoth c level accq accm offset nq nm sizeq sizem := by
  rcases em (nq.1.present = false ∨ isPle nq.1 (level + 2) = true) with hkind | hkind
  · have hkindm : nm.1.present = false ∨ isPle nm.1 (level + 2) = true :=
      hkind.imp h.present.trans h.kind.trans
    rcases em (nq.1.present = false ∧ validForNonPresent c.attr c.mask = false) with
      hinv | hval
    · refine .error .invalidParameter ?_ ?_
      · rw [enter, if_pos hkind]
        exact if_pos hinv
      · rw [enter, if_pos hkindm]
        exact if_pos ⟨h.present.trans hinv.1, hinv.2⟩
    · have hvalidm : ¬ (nm.1.present = false ∧ validForNonPresent c.attr c.mask = false) := by
        rw [h.present]
        exact hval
      have hsame := alreadyMapped_same hc h hkind
        (fun hpres => Bool.eq_true_of_not_eq_false fun h => hval ⟨hpres, h⟩) hset
      cases hmap : c.alreadyMapped (level + 1) offset (pleBMapAttribute nq.1 accq) with
      | true =>
        refine .mapped ?_ ?_
        · rw [enter, if_pos hkind]
          exact (if_neg hval).trans (if_pos hmap)
        · rw [enter, if_pos hkindm]
          exact (if_neg hvalidm).trans (if_pos (hsame.symm.trans hmap))
      | false =>
        have hnot : ¬ c.alreadyMapped (level + 1) offset (pleBMapAttribute nq.1 accq) = true := by
          rw [hmap]
          decide
        have hnotm : ¬ c.alreadyMapped (level + 1) offset (pleBMapAttribute nm.1 accm) = true := by
          rw [← hsame]
          exact hnot
        refine .create (c.buffer + (sizem - 4096)).toNat hkind hmap ?_ ?_
        · rw [enter, if_pos hkind]
          refine (if_neg hval).trans ((if_neg hnot).trans ?_)
          rfl
        · rw [enter, if_pos hkindm]
          refine (if_neg hvalidm).trans ((if_neg hnotm).trans ?_)
          rw [hmod]
          rfl
  · have hkindm : ¬ (nm.1.present = false ∨ isPle nm.1 (level + 2) = true) := by
      rw [h.present, h.kind]
      exact hkind
    rw [not_or, Bool.not_eq_false, Bool.not_eq_true] at hkind
    have hkindq : ¬ (nq.1.present = false ∨ isPle nq.1 (level + 2) = true) := by
      rw [hkind.1, hkind.2]
      decide
    obtain ⟨htables, -⟩ := h.table hkind.1 hkind.2
    rcases em (c.hasNonPresent level offset nq.2 = true ∧
      validForNonPresent c.attr c.mask = false) with hinv | hval
    · refine .error .invalidParameter ?_ ?_
      · rw [enter, if_neg hkindq]
        exact if_pos hinv
      · rw [enter, if_neg hkindm, htables]
        exact if_pos hinv
    · refine .table hkind.1 hkind.2 ?_ ?_
      · rw [enter, if_neg hkindq]
        refine (if_neg hval).trans ?_
        rfl
      · rw [enter, if_neg hkindm, htables]
        refine (if_neg hval).trans ?_
        rw [hmod]
        rfl

end Enter

variable {node : Node (level + 1)}

theorem Exact.child (h : Exact c (level + 1) accq start node)
    (hpres : node.1.present = true) (htab : isPle node.1 (level + 2) = false)
    (hi : i < 512) :
    Exact c level (pnleMapAttribute node.1 accq) (start + i * regionLength (level + 1))
      (node.2 i) := by
  intro y hy hlow hhigh hlev hbase a ha
  have hx := child_offset_lt hi hy
  rw [add_assoc] at hlow hhigh ⊢
  refine h _ hx hlow hhigh ?_ hbase a ?_
  · rw [leafLevel_child hpres htab hy]
    exact hlev
  · rw [effective_child hpres htab hy]
    exact ha

theorem exact_of_leafLevel {node : Node level}
    (h : ∀ x, leafLevel level node x ≠ some 3) : Exact c level accq start node :=
  fun x _ _ _ hlev => absurd hlev (h x)

theorem masked_oneOf (hspl : Splits (level + 2) e) (hpres : e.present = true)
    (hacc : accq.present = true) :
    masked (pleBMapAttribute (partOf (level + 2) e accq)
      (pnleMapAttribute e accq)) mask = masked (pleBMapAttribute e accq) mask := by
  have honeOf : (partOf (level + 2) e accq).present = true :=
    oneOf_present hpres hacc
  rw [masked_pleB honeOf 0, masked_pleB hpres 0, pnle_under hpres,
    leafAttr_oneOf hspl hpres hacc, under_restrictBy_leaf]

theorem mapsWhole_two (hmax : 2 ≤ c.maxLeafLevel)
    (hkid : Visit c 2 start o) (hlow : c.linearAddress ≤ start)
    (hhigh : start + regionLength 2 ≤ c.linearAddress + c.length)
    (haln : (c.attr.pageTableBaseAddress + o) % regionLength 2 = 0)
    (hleaf : isPle e 2 = true) : c.mapsWhole 2 o start e = true := by
  have hst : c.linearAddress + o = start := by
    have := hkid.low
    rcases hkid.first with hfst | hfst
    · omega
    · exact hfst
  refine mapsWhole_iff.2 ⟨hmax, ?_, haln, ?_, .inr hleaf⟩
  · rw [hst]
    exact hkid.aligned
  · rw [subLength, hst]
    omega

theorem settled_split (hc : Checked c) {nq : Node 2} (hok : Ok 2 nq)
    (hpres : nq.1.present = true) (hleaf : isPle nq.1 3 = true) (hacc : accq.present = true)
    (hvis : Visit c 3 start offset) (hexact : Exact c 2 accq start nq)
    (hnot : c.alreadyMapped 2 offset (pleBMapAttribute nq.1 accq) = false)
    (hi : i < 512) (hkid : Visit c 2 (start + i * regionLength 2) o)
    (hwh : c.mapsWhole 2 o (start + i * regionLength 2) (partOf 2 nq.1 accq) = false) :
    Settled c 1 (i * regionLength 2) (pnleMapAttribute nq.1 accq) o
      (partOf 2 nq.1 accq, .blank 1) := by
  intro hshift _ _ hbase hmasked s hs heq
  have hspl : Splits 2 nq.1 := hok.entry.splits hpres hleaf
  rw [masked_oneOf hspl hpres hacc] at hmasked
  have hbaseOne : (partOf 2 nq.1 accq).base39 =
      nq.1.base39 := oneOf_leafBase hspl hpres hacc
  rw [hbaseOne, pagingEntryIndex, show regionLength (0 + 1) = 4096 from rfl] at heq
  have hsplitAligned := hspl.aligned
  have hlinear := hc.linear
  have hphys := hc.base
  have hlow := hkid.low
  have hhigh := hkid.high
  have hin := hkid.inside
  have hst := hvis.aligned
  have hlowUp := hvis.low
  have hhighUp := hvis.high
  rw [regionLength_three] at hsplitAligned hst hhighUp
  rw [regionLength_two] at hlow hhigh hs hshift
  rcases hs with rfl | rfl
  · -- the query: this is the request that the condition excludes
    have hx : start + (c.linearAddress + o - start) = c.linearAddress + o := by omega
    have hmiss := hexact (c.linearAddress + o - start)
      (by rw [show regionLength (2 + 1) = 1073741824 from rfl]; omega)
    rw [hx, regionLength_two, regionLength_three] at hmiss
    have hleafLevel : leafLevel 2 nq (c.linearAddress + o - start) = some 3 :=
      leafLevel_leaf hpres hleaf _
    have hfnd : effective 2 accq nq (c.linearAddress + o - start) =
        some (accq.under (leafAttr 3 nq.1 (c.linearAddress + o - start))) :=
      effective_leaf accq hpres hleaf _
    refine hmiss (by omega) (by omega) hleafLevel hbase _ hfnd
      ((masked_pleB hpres _).symm.trans hmasked) ?_ (by omega) ?_
    · rintro ⟨hmax, hbegin, hend⟩
      have hwh' : c.mapsWhole 2 o (start + i * regionLength 2) (partOf 2 nq.1 accq) = true := by
        refine mapsWhole_two hmax hkid ?_ ?_ ?_ (isPle_oneOf (.inr rfl) hpres _)
        · rw [regionLength_two]
          omega
        · rw [regionLength_two]
          omega
        · have hfst := hkid.first
          rw [regionLength_two] at hfst ⊢
          omega
      rw [hwh] at hwh'
      cases hwh'
    · change _ = nq.1.base39 + (c.linearAddress + o - start)
      omega
  · -- the update: the page would map the whole range as requested
    have hmap : c.alreadyMapped 2 offset (pleBMapAttribute nq.1 accq) = true := by
      refine alreadyMapped_iff.2 ⟨hmasked, .inr ?_⟩
      change nq.1.base39 + _ = _
      rw [pagingEntryIndex, regionLength_two]
      omega
    rw [hnot] at hmap
    cases hmap

theorem mapChild_taken {nq nm : Node level} (h : Alike level shift accq nq accm nm)
    {belowq belowm : Node level → Int → Except EfiStatus (Node level × Int × Bool)}
    (hbel : c.mapsWhole (level + 1) o start nq.1 = false →
      taken sizeq (belowq nq sizeq) = taken sizem (belowm nm sizem)) :
    taken sizeq ((asQuery c).mapChild level accq belowq o start nq sizeq) =
      taken sizem (c.mapChild level accm belowm o start nm sizem) := by
  have hwh : c.mapsWhole (level + 1) o start nm.1 = c.mapsWhole (level + 1) o start nq.1 := by
    rw [mapsWhole, mapsWhole, h.present, h.kind]
  have hquery : (asQuery c).mapsWhole (level + 1) o start nq.1 =
      c.mapsWhole (level + 1) o start nq.1 := rfl
  rw [mapChild, mapChild, hwh, hquery]
  cases hcase : c.mapsWhole (level + 1) o start nq.1 with
  | true =>
    rw [if_pos rfl, if_pos rfl]
    split <;> split <;> rw [taken_ok, taken_ok, Int.sub_self, Int.sub_self]
  | false => exact hbel hcase

theorem taken_entered {entered : MapCall.Entered (level + 1)}
    (h : c.enter level acc offset node size = .ok (some entered))
    (hst : start + c.pagingEntryIndex (level + 1) offset * regionLength (level + 1) =
      (c.linearAddress + offset) / regionLength (level + 1) * regionLength (level + 1))
    (size' : Int) :
    taken size' (c.mapInLevel (level + 1) acc offset node size) =
      taken size' (c.mapChildren level (pnleMapAttribute entered.node.1 acc)
        (fun offset => c.mapInLevel level (pnleMapAttribute entered.node.1 acc) offset)
        entered.oneOf (512 - c.pagingEntryIndex (level + 1) offset)
        (c.pagingEntryIndex (level + 1) offset) offset
        (start + c.pagingEntryIndex (level + 1) offset * regionLength (level + 1)) entered.node.2
        entered.bufferSize false) := by
  rw [mapInLevel, h, hst]
  dsimp only
  split
  next hloop =>
    rw [hloop]
    rfl
  next hloop =>
    rw [hloop]
    rfl

theorem create_alike (hc : Checked c) {nq nm : Node (level + 1)}
    (h : Alike (level + 1) shift accq nq accm nm) (hvis : Visit c (level + 2) start offset)
    (hexact : Exact c (level + 1) accq start nq)
    (hkind : nq.1.present = false ∨ isPle nq.1 (level + 2) = true)
    (hnot : c.alreadyMapped (level + 1) offset (pleBMapAttribute nq.1 accq) = false) (address : Nat)
    (hi : i < 512)
    (hkid : Visit c (level + 1) (start + i * regionLength (level + 1)) o) :
    ∃ shift', Alike level shift' (pnleMapAttribute nq.1 accq)
        (partOf (level + 1) nq.1 accq, .blank level)
        (pnleMapAttribute (newParent nm.1 address) accm)
        (newTable level (partOf (level + 1) nm.1 accm) i) ∧
      (c.mapsWhole (level + 1) o (start + i * regionLength (level + 1))
          (partOf (level + 1) nq.1 accq) = false →
        Settled c level shift' (pnleMapAttribute nq.1 accq) o
          (partOf (level + 1) nq.1 accq, .blank level)) ∧
      Exact c level (pnleMapAttribute nq.1 accq) (start + i * regionLength (level + 1))
        (partOf (level + 1) nq.1 accq, .blank level) := by
  rcases Bool.eq_false_or_eq_true nq.1.present with hpres | hpres
  · have hleaf := hkind.resolve_left (by rw [hpres]; decide)
    have hacc := (h.granted hpres).1
    have hlev := (h.okq.entry.splits hpres hleaf).level_eq
    refine ⟨_, h.split hpres hleaf address hi, fun hwh => ?_, exact_of_leafLevel fun x hx => ?_⟩
    · obtain rfl | rfl : level = 0 ∨ level = 1 := by omega
      · exact trivial
      · exact settled_split hc h.okq hpres hleaf hacc hvis hexact hnot hi hkid hwh
    · have hle := leafLevel_le hx
      omega
  · have hchildPresent : (partOf (level + 1) nq.1 accq).present = false :=
      oneOf_not_present hpres _ (by rw [pleBMapAttribute, hpres, Bool.and_false])
    refine ⟨0, h.create hpres address i, fun _ => ?_, exact_of_leafLevel fun x hx => ?_⟩
    · cases level with
      | zero => exact trivial
      | succ level => exact fun hshift => absurd rfl hshift
    · have hnone : leafLevel level (partOf (level + 1) nq.1 accq, .blank level) x = none :=
        leafLevel_absent hchildPresent x
      rw [hnone] at hx
      cases hx

theorem mapInLevel_taken (hc : Checked c) (hmod : c.modify = true) {nq nm : Node level}
    (h : Alike level shift accq nq accm nm) (hvis : Visit c (level + 1) start offset)
    (hexact : Exact c level accq start nq) (hset : Settled c level shift accq offset nq)
    (sizeq sizem : Int) :
    taken sizeq ((asQuery c).mapInLevel level accq offset nq sizeq) =
      taken sizem (c.mapInLevel level accm offset nm sizem) := by
  induction level generalizing shift accq accm start offset sizeq sizem with
  | zero =>
    rw [mapInLevel, mapInLevel, taken_ok, taken_ok, Int.sub_self, Int.sub_self]
  | succ level ih =>
    have hidx := hvis.index
    have hcnt : c.pagingEntryIndex (level + 1) offset +
        (512 - c.pagingEntryIndex (level + 1) offset) = 512 := by omega
    cases enter_both hc hmod h hset sizeq sizem with
    | error status hq hm =>
      rw [mapInLevel, mapInLevel, hq, hm]
      rfl
    | mapped hq hm =>
      rw [mapInLevel, mapInLevel, hq, hm]
      rw [taken_ok, taken_ok, Int.sub_self, Int.sub_self]
    | create address hkind hnot hq hm =>
      rw [taken_entered hq hidx.1, taken_entered hm hidx.1,
        taken_from sizeq (sizeq - 4096), taken_from sizem (sizem - 4096), Int.sub_sub_self,
        Int.sub_sub_self]
      refine congrArg _ (mapChildren_taken hc hcnt (fun _ => hvis.child) ?_)
      intro i hi _ o sizeq sizem hkid
      obtain ⟨shift', halike, hset', hexact'⟩ :=
        create_alike hc h hvis hexact hkind hnot address hi hkid
      exact mapChild_taken halike fun hwh =>
        ih halike hkid hexact' (hset' hwh) sizeq sizem
    | table hpres htab hq hm =>
      rw [taken_entered hq hidx.1, taken_entered hm hidx.1]
      refine mapChildren_taken hc hcnt (fun _ => hvis.child) ?_
      intro i hi _ o sizeq sizem hkid
      have halike := h.child (c := c) hpres htab hi
      refine mapChild_taken halike fun _ => ?_
      refine ih halike hkid (hexact.child hpres htab hi) ?_ sizeq sizem
      cases level with
      | zero => exact trivial
      | succ level => exact fun hshift => absurd rfl hshift

end MuBasecore.PageTableQuery
