import MuBasecore.PageTableMap

/-!
What the processor finds in a page table, and how the operations on single entries change it.
-/

namespace MuBasecore.PageTableEffect

open Nat

open PagingEntries hiding isPle
open PageTableMap MapCall TableEntry MapAttribute

def leafAttr (level : Nat) (e : TableEntry) (offset : Nat) : MapAttribute where
  present := true
  readWrite := e.readWrite
  userSupervisor := e.userSupervisor
  writeThrough := e.writeThrough
  cacheDisabled := e.cacheDisabled
  accessed := e.accessed
  dirty := e.dirty
  pat := if level = 1 then e.bit7 else e.pleBPat
  global := e.global
  reserved1 := 0
  pageTableBaseAddress := (if level = 1 then e.base40 else e.base39) + offset
  reserved2 := 0
  protectionKey := e.protectionKey
  nx := e.nx

def restrictBy (e : TableEntry) (a : MapAttribute) : MapAttribute :=
  { a with
    readWrite := e.readWrite && a.readWrite
    userSupervisor := e.userSupervisor && a.userSupervisor
    nx := e.nx || a.nx }

/-- The page walk in a tree of tables, for an offset into the region of its entry. -/
def nodeWalk : (level : Nat) → Node level → Nat → Option MapAttribute
  | 0, node, offset => if node.1.present then some (leafAttr 1 node.1 offset) else none
  | level + 1, node, offset =>
    if node.1.present then
      if isPle node.1 (level + 2) then some (leafAttr (level + 2) node.1 offset)
      else (nodeWalk level (node.2 (offset / regionLength (level + 1)))
        (offset % regionLength (level + 1))).map (restrictBy node.1)
    else none

variable {level : Nat} {node : Node level}

theorem nodeWalk_absent (h : node.1.present = false)
    (offset : Nat) : nodeWalk level node offset = none := by
  cases level with
  | zero =>
    rw [nodeWalk, h]
    rfl
  | succ level =>
    rw [nodeWalk, h]
    rfl

theorem isPle_one (e : TableEntry) : isPle e 1 = true := rfl

theorem nodeWalk_leaf (h : node.1.present = true)
    (hleaf : isPle node.1 (level + 1) = true) (offset : Nat) :
    nodeWalk level node offset = some (leafAttr (level + 1) node.1 offset) := by
  cases level with
  | zero => rw [nodeWalk, if_pos h]
  | succ level => rw [nodeWalk, if_pos h, if_pos hleaf]

theorem nodeWalk_table {node : Node (level + 1)} (h : node.1.present = true)
    (hleaf : isPle node.1 (level + 2) = false) (offset : Nat) :
    nodeWalk (level + 1) node offset =
      (nodeWalk level (node.2 (offset / regionLength (level + 1)))
        (offset % regionLength (level + 1))).map (restrictBy node.1) := by
  rw [nodeWalk, if_pos h, hleaf]
  rfl

variable {e : TableEntry}

theorem nodeWalk_pair {t : Table (level + 1)}
    (h : e.present = true) (hleaf : isPle e (level + 2) = false) (offset : Nat) :
    nodeWalk (level + 1) (e, t) offset =
      (nodeWalk level (t (offset / regionLength (level + 1)))
        (offset % regionLength (level + 1))).map (restrictBy e) :=
  nodeWalk_table h hleaf offset

def effective (level : Nat) (acc : MapAttribute) (node : Node level) (offset : Nat) :
    Option MapAttribute :=
  (nodeWalk level node offset).map acc.under

theorem effective_of_not_present (acc : MapAttribute)
    (h : node.1.present = false) (offset : Nat) : effective level acc node offset = none := by
  rw [effective, nodeWalk_absent h]
  rfl

theorem effective_leaf (acc : MapAttribute)
    (h : node.1.present = true) (hleaf : isPle node.1 (level + 1) = true) (offset : Nat) :
    effective level acc node offset = some (acc.under (leafAttr (level + 1) node.1 offset)) := by
  rw [effective, nodeWalk_leaf h hleaf]
  rfl

theorem pnle_under (h : e.present = true) (acc a : MapAttribute) :
    (pnleMapAttribute e acc).under a = acc.under (restrictBy e a) := by
  simp only [under, pnleMapAttribute, restrictBy, h, Bool.and_true, Bool.and_assoc, Bool.or_assoc]

theorem effective_table {node : Node (level + 1)} (acc : MapAttribute)
    (h : node.1.present = true) (hleaf : isPle node.1 (level + 2) = false) (offset : Nat) :
    effective (level + 1) acc node offset =
      effective level (pnleMapAttribute node.1 acc) (node.2 (offset / regionLength (level + 1)))
        (offset % regionLength (level + 1)) := by
  rw [effective, effective, nodeWalk_table h hleaf, Option.map_map]
  congr 1
  funext a
  exact (pnle_under h acc a).symm

theorem under_under (acc a : MapAttribute) : acc.under (acc.under a) = acc.under a := by
  simp only [under, MapAttribute.mk.injEq, true_and]
  refine ⟨?_, ?_, ?_, ?_⟩
  · cases acc.present <;> rfl
  · cases acc.readWrite <;> rfl
  · cases acc.userSupervisor <;> rfl
  · cases acc.nx <;> rfl

def select (attr mask : MapAttribute) (offset : Nat) (a : MapAttribute) : MapAttribute :=
  { a with
    readWrite := if mask.readWrite then attr.readWrite else a.readWrite
    userSupervisor := if mask.userSupervisor then attr.userSupervisor else a.userSupervisor
    writeThrough := if mask.writeThrough then attr.writeThrough else a.writeThrough
    cacheDisabled := if mask.cacheDisabled then attr.cacheDisabled else a.cacheDisabled
    accessed := if mask.accessed then attr.accessed else a.accessed
    dirty := if mask.dirty then attr.dirty else a.dirty
    pat := if mask.pat then attr.pat else a.pat
    global := if mask.global then attr.global else a.global
    pageTableBaseAddress :=
      if mask.pageTableBaseAddress ≠ 0 then attr.pageTableBaseAddress + offset
      else a.pageTableBaseAddress
    protectionKey := if mask.protectionKey ≠ 0 then attr.protectionKey else a.protectionKey
    nx := if mask.nx then attr.nx else a.nx }

def anyPage : MapAttribute :=
  { zeroMask with present := true }

/-- What a request makes of the translation of an address. -/
def update (attr mask : MapAttribute) (offset : Nat) : Option MapAttribute → Option MapAttribute
  | none => if mask.present && attr.present then some (select attr mask offset anyPage) else none
  | some a => if mask.present && !attr.present then none else some (select attr mask offset a)

structure NoConflict (attr mask acc : MapAttribute) : Prop where
  present : acc.present = true
  readWrite : mask.readWrite = true → attr.readWrite = true → acc.readWrite = true
  userSupervisor : mask.userSupervisor = true → attr.userSupervisor = true →
    acc.userSupervisor = true
  nx : mask.nx = true → attr.nx = false → acc.nx = false

section Entries

variable {attr mask acc : MapAttribute} {offset : Nat}

def leafBase (level : Nat) (e : TableEntry) : Nat :=
  if level = 1 then e.base40 else e.base39

theorem leafAttr_base :
    (leafAttr level e offset).pageTableBaseAddress = leafBase level e + offset := rfl

structure EntryOk (level : Nat) (e : TableEntry) : Prop where
  address_lt : e.address < 2 ^ 40
  aligned : e.present = true → isPle e level = true → leafBase level e % regionLength level = 0

theorem regionLength_one : regionLength 1 = 4096 := rfl

theorem regionLength_two : regionLength 2 = 2097152 := rfl

theorem regionLength_three : regionLength 3 = 1073741824 := rfl

theorem setPle_of_ne (h : level ≠ 1) :
    setPle level e offset attr mask = setPleB e offset attr mask :=
  if_neg h

theorem setPle_present :
    (setPle level e offset attr mask).present =
      if mask.present then attr.present else e.present := by
  rcases eq_or_ne mask.pageTableBaseAddress 0 with hbase | hbase <;>
    rcases eq_or_ne level 1 with hlev | hlev <;>
    simp [setPle, setPte4K, setPleB, setCommon, hbase, hlev]

theorem isPle_setPle (hlev : level = 1 ∨ level = 2 ∨ level = 3) :
    isPle (setPle level e offset attr mask) level = true := by
  rcases hlev with rfl | rfl | rfl <;> rfl

theorem lor_of_even {y b : Nat} (hy : y % 2 = 0) (hb : b < 2) : y ||| b = y + b := by
  have h := (two_pow_add_eq_or_of_lt (i := 1) (b := b) hb (y / 2)).symm
  rw [pow_one, show 2 * (y / 2) = y by omega] at h
  exact h

/-- The page that is asked for is aligned, and has a physical address. -/
def Fits (level offset : Nat) (attr mask : MapAttribute) : Prop :=
  mask.pageTableBaseAddress ≠ 0 →
    (attr.pageTableBaseAddress + offset) % regionLength level = 0 ∧
      attr.pageTableBaseAddress + offset < 2 ^ 52

theorem leafAttr_setPte4K (hfits : Fits 1 offset attr mask) (x : Nat) :
    leafAttr 1 (setPte4K e offset attr mask) x =
      select attr mask (offset + x) (leafAttr 1 e x) := by
  rw [setPte4K]
  split
  next hbase =>
    obtain ⟨haln, hlt⟩ := hfits hbase
    rw [regionLength_one] at haln
    simp only [leafAttr, select, setCommon, base40, if_true,
      MapAttribute.mk.injEq, true_and, and_true, hbase, ne_eq, not_false_eq_true]
    omega
  next hbase =>
    simp [leafAttr, select, setCommon, base40, hbase]

theorem leafAttr_setPleB (hlev : level = 2 ∨ level = 3) (hfits : Fits level offset attr mask)
    (x : Nat) :
    leafAttr level (setPleB e offset attr mask) x =
      select attr mask (offset + x) (leafAttr level e x) := by
  have hne : level ≠ 1 := by omega
  have hpat : ∀ (a : Nat) (b : Bool), (2 * (a / 2) + b.toNat) % 2 = b.toNat := by
    intro a b
    have := b.toNat_lt
    omega
  rw [setPleB]
  split
  next hbase =>
    obtain ⟨haln, hlt⟩ := hfits hbase
    have heven : (attr.pageTableBaseAddress + offset) / 4096 % 2 ^ 40 % 2 = 0 ∧
        8192 * ((attr.pageTableBaseAddress + offset) / 4096 % 2 ^ 40 / 2) =
          attr.pageTableBaseAddress + offset := by
      rcases hlev with rfl | rfl
      · rw [regionLength_two] at haln
        omega
      · rw [regionLength_three] at haln
        omega
    have hor := lor_of_even heven.1 (mod_lt e.address (show 0 < 2 by decide))
    simp only [leafAttr, select, setCommon, base39, pleBPat, hne,
      if_false, MapAttribute.mk.injEq, true_and, and_true, hbase, ne_eq, not_false_eq_true, if_true,
      hor]
    refine ⟨?_, ?_⟩
    · cases mask.pat
      · simp only [Bool.false_eq_true, if_false]
        congr 1
        omega
      · simp only [if_true, hpat]
        cases attr.pat <;> rfl
    · cases mask.pat
      · simp only [Bool.false_eq_true, if_false]
        omega
      · have := attr.pat.toNat_lt
        simp only [if_true]
        omega
  next hbase =>
    simp only [leafAttr, select, setCommon, base39, pleBPat, hne,
      if_false, MapAttribute.mk.injEq, true_and, and_true, hbase]
    refine ⟨?_, ?_⟩
    · cases mask.pat
      · simp
      · simp only [if_true, hpat]
        cases attr.pat <;> rfl
    · cases mask.pat
      · simp
      · have := attr.pat.toNat_lt
        simp only [if_true]
        omega

theorem leafAttr_setPle (hlev : level = 1 ∨ level = 2 ∨ level = 3)
    (hfits : Fits level offset attr mask) (x : Nat) :
    leafAttr level (setPle level e offset attr mask) x =
      select attr mask (offset + x) (leafAttr level e x) := by
  rcases hlev with rfl | hlev
  · exact leafAttr_setPte4K hfits x
  · rw [setPle_of_ne (by omega)]
    exact leafAttr_setPleB hlev hfits x

theorem setPle_address_lt (h : e.address < 2 ^ 40) :
    (setPle level e offset attr mask).address < 2 ^ 40 := by
  have hpat := attr.pat.toNat_lt
  have hmod : (attr.pageTableBaseAddress + offset) / 4096 % 2 ^ 40 < 2 ^ 40 :=
    mod_lt _ (by decide)
  have hor : (attr.pageTableBaseAddress + offset) / 4096 % 2 ^ 40 ||| e.address % 2 < 2 ^ 40 :=
    or_lt_two_pow hmod (by omega)
  rcases eq_or_ne mask.pageTableBaseAddress 0 with hbase | hbase <;>
    rcases eq_or_ne level 1 with hlev | hlev <;>
    simp only [setPle, setPte4K, setPleB, setCommon, hbase, hlev, ne_eq,
      not_true_eq_false, not_false_eq_true, if_true, if_false]
  · exact h
  · split <;> omega
  · exact hmod
  · split <;> omega

theorem leafBase_setPle_mod (hlev : level = 1 ∨ level = 2 ∨ level = 3)
    (haln : (attr.pageTableBaseAddress + offset) % regionLength level = 0)
    (hbase : mask.pageTableBaseAddress ≠ 0) :
    leafBase level (setPle level e offset attr mask) % regionLength level = 0 := by
  have hpat := attr.pat.toNat_lt
  rcases hlev with rfl | hlev
  · exact mul_mod_right 4096 _
  · have heven : (attr.pageTableBaseAddress + offset) / 4096 % 2 ^ 40 % 2 = 0 ∧
        8192 * ((attr.pageTableBaseAddress + offset) / 4096 % 2 ^ 40 / 2) % regionLength level =
          0 := by
      rcases hlev with rfl | rfl
      · rw [regionLength_two] at haln ⊢
        omega
      · rw [regionLength_three] at haln ⊢
        omega
    have hor := lor_of_even heven.1 (mod_lt e.address (show 0 < 2 by decide))
    have hne : level ≠ 1 := by omega
    have haddr : (setPle level e offset attr mask).address / 2 =
        (attr.pageTableBaseAddress + offset) / 4096 % 2 ^ 40 / 2 := by
      simp only [setPle, if_neg hne, setPleB, setCommon, if_pos hbase, hor]
      split <;> omega
    rw [leafBase, if_neg hne, base39, haddr]
    exact heven.2

theorem leafBase_setPle_keep (hbase : mask.pageTableBaseAddress = 0) :
    leafBase level (setPle level e offset attr mask) = leafBase level e := by
  have hpat := attr.pat.toNat_lt
  rcases eq_or_ne level 1 with rfl | hne
  · simp [leafBase, setPle, setPte4K, setCommon, base40, hbase]
  · simp only [leafBase, setPle, setPleB, setCommon, base39, hbase, ne_eq,
      not_true_eq_false, if_neg hne, if_false]
    split <;> omega

theorem EntryOk.setPle (h : EntryOk level e) (hlev : level = 1 ∨ level = 2 ∨ level = 3)
    (haln : mask.pageTableBaseAddress ≠ 0 →
      (attr.pageTableBaseAddress + offset) % regionLength level = 0)
    (hold : mask.pageTableBaseAddress = 0 →
      (PageTableMap.setPle level e offset attr mask).present = true →
        e.present = true ∧ isPle e level = true) :
    EntryOk level (PageTableMap.setPle level e offset attr mask) := by
  refine ⟨setPle_address_lt h.address_lt, fun hpres _ => ?_⟩
  rcases eq_or_ne mask.pageTableBaseAddress 0 with hbase | hbase
  · obtain ⟨hpre, hleaf⟩ := hold hbase hpres
    rw [leafBase_setPle_keep hbase]
    exact h.aligned hpre hleaf
  · exact leafBase_setPle_mod hlev (haln hbase) hbase

theorem and_ite_granted {p m v o : Bool} (h : m = true → v = true → p = true) :
    (p && if (m && p) = true then v else o) = if m = true then v else p && o := by
  revert p m v o
  decide

theorem or_ite_denied {p m v o : Bool} (h : m = true → v = false → p = false) :
    (p || if (m && !p) = true then v else o) = if m = true then v else p || o := by
  revert p m v o
  decide

theorem under_select (c : MapCall) (h : NoConflict c.attr c.mask acc) (offset : Nat)
    (a : MapAttribute) :
    acc.under (select c.attr (c.currentMask acc) offset a) =
      select c.attr c.mask offset (acc.under a) := by
  exact MapAttribute.ext rfl (and_ite_granted h.readWrite) (and_ite_granted h.userSupervisor) rfl
    rfl rfl rfl rfl rfl rfl rfl rfl rfl (or_ite_denied h.nx)

theorem select_of_selectsAll (h : selectsAll mask = true) (offset : Nat) {a b : MapAttribute}
    (hpres : a.present = b.present) (hresv : a.reserved1 = b.reserved1)
    (hresv' : a.reserved2 = b.reserved2) :
    select attr mask offset a = select attr mask offset b := by
  simp only [selectsAll, Bool.and_eq_true, decide_eq_true_eq] at h
  obtain ⟨⟨⟨⟨⟨⟨⟨⟨⟨⟨hread, huser⟩, hwr⟩, hcache⟩, haccessed⟩, hdirty⟩, hpat⟩, hglobal⟩, hbase⟩,
    hkey⟩, hnx⟩ := h
  simp only [select, hread, huser, hwr, hcache, haccessed, hdirty, hpat, hglobal, hbase, hkey,
    hnx, hpres, hresv, hresv', ne_eq, not_false_eq_true, if_true]

theorem isPle_level (h : isPle e level = true) : level = 1 ∨ level = 2 ∨ level = 3 := by
  rw [isPle, Bool.or_eq_true, Bool.and_eq_true, Bool.or_eq_true, beq_iff_eq, beq_iff_eq,
    beq_iff_eq] at h
  tauto

theorem fits_of_not_selected (h : mask.pageTableBaseAddress = 0) : Fits level offset attr mask :=
  fun hbase => absurd h hbase

end Entries

variable {m v : Bool} {parent : TableEntry} {a : MapAttribute} {address : Nat}

section Loosen

variable {c : MapCall}

def tightened (mask : MapAttribute) (a : MapAttribute) : MapAttribute :=
  { a with
    readWrite := a.readWrite && !mask.readWrite
    userSupervisor := a.userSupervisor && !mask.userSupervisor
    nx := a.nx || mask.nx }

theorem ite_false_eq_and : (if m = true then false else v) = (v && !m) := by
  revert m v
  decide

theorem ite_self_eq_or : (if m = true then m else v) = (v || m) := by
  revert m v
  decide

theorem select_childAttribute (offset : Nat) (a : MapAttribute) :
    select (c.childAttribute parent).1 (c.childAttribute parent).2 offset a =
      tightened (c.childAttribute parent).2 a :=
  MapAttribute.ext rfl (ite_false_eq_and) (ite_false_eq_and) rfl rfl rfl rfl rfl rfl rfl
    rfl rfl rfl (ite_self_eq_or)

theorem restrictBy_setPnle (parent e : TableEntry) (a : MapAttribute) :
    restrictBy (setPnle e (c.childAttribute parent).1 (c.childAttribute parent).2) a =
      tightened (c.childAttribute parent).2 (restrictBy e a) := by
  refine MapAttribute.ext rfl ?_ ?_ rfl rfl rfl rfl rfl rfl rfl rfl rfl rfl ?_
  · refine (congrArg (· && a.readWrite) (ite_false_eq_and)).trans ?_
    exact Bool.and_right_comm _ _ _
  · refine (congrArg (· && a.userSupervisor) (ite_false_eq_and)).trans ?_
    exact Bool.and_right_comm _ _ _
  · refine (congrArg (· || a.nx) (ite_self_eq_or)).trans ?_
    exact Bool.or_right_comm _ _ _

theorem restrictBy_loosenParent :
    restrictBy (c.loosenParent parent) (tightened (c.childAttribute parent).2 a) =
      restrictBy parent a := by
  have hgrant : ∀ p m v o : Bool,
      ((p || (!p && m && v)) && (o && !(!p && m && v))) = (p && o) := by decide
  have hdeny : ∀ p m v o : Bool, ((p && !(p && m && !v)) || (o || (p && m && !v))) = (p || o) := by
    decide
  exact MapAttribute.ext rfl (hgrant ..) (hgrant ..) rfl rfl rfl rfl rfl rfl rfl rfl rfl rfl
    (hdeny ..)

theorem tightenChild_present (level : Nat) (c : MapCall) (parent e : TableEntry) :
    (tightenChild level (c.childAttribute parent).1 (c.childAttribute parent).2 e).present =
      e.present := by
  rw [tightenChild]
  split
  · rw [setPle_present]
    rfl
  · rfl

theorem isPle_tightenChild (level : Nat) (c : MapCall) (parent e : TableEntry) :
    isPle (tightenChild level (c.childAttribute parent).1 (c.childAttribute parent).2 e)
      level = isPle e level := by
  rw [tightenChild]
  split
  next hleaf =>
    rw [isPle_setPle (isPle_level hleaf), hleaf]
  next hleaf =>
    have hne : level ≠ 1 := by
      rintro rfl
      exact hleaf rfl
    rw [Bool.not_eq_true _ |>.mp hleaf, isPle]
    simp only [setPnle, Bool.and_false, Bool.or_false, beq_eq_false_iff_ne]
    exact hne

theorem nodeWalk_tightenChild (child : Node level) (x : Nat) :
    nodeWalk level (tightenChild (level + 1) (c.childAttribute parent).1
        (c.childAttribute parent).2 child.1, child.2) x =
      (nodeWalk level child x).map (tightened (c.childAttribute parent).2) := by
  have hsame := tightenChild_present (level + 1) c parent child.1
  have hkind := isPle_tightenChild (level + 1) c parent child.1
  rcases Bool.eq_false_or_eq_true child.1.present with hpres | hpres
  · rw [hpres] at hsame
    rcases Bool.eq_false_or_eq_true (isPle child.1 (level + 1)) with hleaf | hleaf
    · rw [nodeWalk_leaf hsame (hkind.trans hleaf), nodeWalk_leaf hpres hleaf, Option.map_some,
        tightenChild, if_pos hleaf, leafAttr_setPle (isPle_level hleaf)
        (fits_of_not_selected rfl), select_childAttribute]
    · cases level with
      | zero => exact absurd hleaf (by rw [isPle_one]; decide)
      | succ level =>
        rw [nodeWalk_table hsame (hkind.trans hleaf), nodeWalk_table hpres hleaf, Option.map_map]
        congr 1
        funext a
        rw [Function.comp, ← restrictBy_setPnle, tightenChild, hleaf]
        rfl
  · rw [hpres] at hsame
    rw [nodeWalk_absent hsame, nodeWalk_absent hpres]
    rfl

theorem nodeWalk_loosen {node : Node (level + 1)} (hpres : node.1.present = true)
    (hleaf : isPle node.1 (level + 2) = false) (x : Nat) :
    nodeWalk (level + 1) (c.loosen level node) x = nodeWalk (level + 1) node x := by
  rw [loosen]
  dsimp only
  split
  · rfl
  · rw [nodeWalk_pair (e := c.loosenParent node.1) hpres hleaf, nodeWalk_table hpres hleaf,
      nodeWalk_tightenChild, Option.map_map]
    congr 1
    funext a
    exact restrictBy_loosenParent

end Loosen

variable {i : Nat}

section Create

variable {acc : MapAttribute}

theorem addOffset_eq {s : Nat} (h : e.address + s < 2 ^ 40) :
    e.addOffset (4096 * s) = { e with address := e.address + s } := by
  have hsum : (e.address + s) / 2 ^ 40 = 0 := div_eq_of_lt h
  have hnx := e.nx.toNat_lt
  have hlow : BitVec.ofNat 7 (e.available3.toNat + 128 * e.protectionKey.toNat +
      2048 * e.nx.toNat) = e.available3 := by
    apply BitVec.eq_of_toNat_eq
    rw [BitVec.toNat_ofNat]
    omega
  have hmid : BitVec.ofNat 4 ((e.available3.toNat + 128 * e.protectionKey.toNat +
      2048 * e.nx.toNat) / 128) = e.protectionKey := by
    apply BitVec.eq_of_toNat_eq
    rw [BitVec.toNat_ofNat]
    omega
  have hhigh : ((e.available3.toNat + 128 * e.protectionKey.toNat + 2048 * e.nx.toNat) / 2048 % 2
      == 1) = e.nx := by
    have hdiv : (e.available3.toNat + 128 * e.protectionKey.toNat + 2048 * e.nx.toNat) / 2048 % 2 =
        e.nx.toNat := by omega
    rw [hdiv]
    cases e.nx <;> rfl
  rw [addOffset]
  simp only [Nat.mul_div_cancel_left _ (show 0 < 4096 by decide), hsum, add_zero, hlow, hmid,
    hhigh, Nat.mod_eq_of_lt h]

theorem isPle_addOffset (offset level : Nat) : isPle (e.addOffset offset) level = isPle e level :=
  rfl

theorem addOffset_address_lt (offset : Nat) : (e.addOffset offset).address < 2 ^ 40 :=
  mod_lt _ (by decide)

theorem leafAttr_addOffset {x : Nat} (hlev : level = 1 ∨ level = 2)
    (h : e.address + i * regionLength level / 4096 < 2 ^ 40) :
    leafAttr level (e.addOffset (i * regionLength level)) x =
      leafAttr level e (i * regionLength level + x) := by
  rcases hlev with rfl | rfl
  · rw [regionLength_one] at h ⊢
    rw [mul_comm i, addOffset_eq (by omega)]
    refine MapAttribute.ext rfl rfl rfl rfl rfl rfl rfl rfl rfl rfl ?_ rfl rfl rfl
    simp only [leafAttr, base40, if_true]
    omega
  · rw [regionLength_two] at h ⊢
    rw [show i * 2097152 = 4096 * (512 * i) by omega, addOffset_eq (by omega)]
    refine MapAttribute.ext rfl rfl rfl rfl rfl rfl rfl ?_ rfl rfl ?_ rfl rfl rfl
    · simp only [leafAttr, pleBPat, show ¬ 2 = 1 by decide, if_false]
      congr 1
      omega
    · simp only [leafAttr, base39, show ¬ 2 = 1 by decide, if_false]
      omega

theorem newParent_present : (newParent e address).present = true := rfl

theorem isPle_newParent : isPle (newParent e address) (level + 2) = false := by
  rw [isPle, newParent, setPnle, Bool.and_false, Bool.or_false, beq_eq_false_iff_ne]
  omega

theorem restrictBy_newParent :
    restrictBy (newParent e address) a = a := rfl

theorem entryOk_newParent : EntryOk (level + 2) (newParent e address) := by
  refine ⟨mod_lt _ (by decide), fun _ hleaf => ?_⟩
  rw [isPle_newParent] at hleaf
  cases hleaf

theorem oneOf_not_present (h : e.present = false) (pleBAttr : MapAttribute)
    (hattr : pleBAttr.present = false) :
    (oneOfPagingEntry level e pleBAttr).present = false := by
  rw [oneOfPagingEntry, if_pos h]
  split
  · exact hattr
  · rw [setPle_present]
    exact hattr

structure Splits (level : Nat) (e : TableEntry) : Prop where
  level_eq : level = 1 ∨ level = 2
  aligned : e.base39 % regionLength (level + 1) = 0
  room : e.base39 + regionLength (level + 1) ≤ 2 ^ 52

theorem EntryOk.splits (h : EntryOk (level + 2) e) (hpres : e.present = true)
    (hleaf : isPle e (level + 2) = true) : Splits (level + 1) e := by
  have hlev : level + 1 = 1 ∨ level + 1 = 2 := by
    rcases isPle_level hleaf with h | h | h <;> omega
  have haln : e.base39 % regionLength (level + 1 + 1) = 0 := by
    have haln := h.aligned hpres hleaf
    rwa [leafBase, if_neg (by omega)] at haln
  refine ⟨hlev, haln, ?_⟩
  have hlt := h.address_lt
  rcases hlev with hlev | hlev
  · rw [hlev, regionLength_two, base39] at haln ⊢
    omega
  · rw [hlev, regionLength_three, base39] at haln ⊢
    omega

abbrev partOf (level : Nat) (e : TableEntry) (acc : MapAttribute) : TableEntry :=
  MapCall.oneOfPagingEntry level e (pleBMapAttribute e acc)

theorem leafAttr_oneOf (h : Splits level e) (hpres : e.present = true)
    (hacc : acc.present = true) (x : Nat) :
    leafAttr level (partOf level e acc) x = acc.under (leafAttr (level + 1) e x) := by
  have hlev : level = 1 ∨ level = 2 ∨ level = 3 := h.level_eq.imp_right .inl
  have hdvd : e.base39 % regionLength level = 0 := by
    have haln := h.aligned
    rw [regionLength_succ] at haln
    exact mod_eq_zero_of_dvd ((dvd_mul_left _ 512).trans (dvd_of_mod_eq_zero haln))
  have hroom := h.room
  have hpos := regionLength_pos (level + 1)
  rw [partOf, oneOfPagingEntry, if_neg (by rw [hpres]; decide), leafAttr_setPle hlev
    (fun _ => ⟨hdvd, show e.base39 + 0 < 2 ^ 52 by omega⟩)]
  have hne : level + 1 ≠ 1 := by
    rcases h.level_eq with h | h <;> omega
  refine MapAttribute.ext ?_ rfl rfl rfl rfl rfl rfl ?_ rfl rfl ?_ rfl rfl rfl
  · change true = (acc.present && true)
    rw [hacc]
    rfl
  · change e.pleBPat = if level + 1 = 1 then e.bit7 else e.pleBPat
    rw [if_neg hne]
  · change e.base39 + (0 + x) = (if level + 1 = 1 then e.base40 else e.base39) + x
    rw [if_neg hne, zero_add]

theorem oneOf_present (h : e.present = true) (hacc : acc.present = true) :
    (partOf level e acc).present = true := by
  rw [partOf, oneOfPagingEntry, if_neg (by rw [h]; decide), setPle_present]
  change (acc.present && e.present) = true
  rw [hacc, h]
  rfl

theorem oneOf_address_lt (pleBAttr : MapAttribute) :
    (oneOfPagingEntry level e pleBAttr).address < 2 ^ 40 := by
  rw [oneOfPagingEntry]
  split
  · split
    · exact Nat.two_pow_pos _
    · exact setPle_address_lt (Nat.two_pow_pos _)
  · exact setPle_address_lt (Nat.two_pow_pos _)

section

variable (h : Splits level e) (hpres : e.present = true) (hacc : acc.present = true)
include h hpres hacc

theorem oneOf_leafBase : leafBase level (partOf level e acc) = e.base39 := by
  have hbase := congrArg MapAttribute.pageTableBaseAddress (leafAttr_oneOf h hpres hacc 0)
  have hne : level + 1 ≠ 1 := by
    rcases h.level_eq with h | h <;> omega
  refine hbase.trans ?_
  change (if level + 1 = 1 then e.base40 else e.base39) + 0 = e.base39
  rw [if_neg hne, add_zero]

theorem oneOf_room (hi : i < 512) :
    (partOf level e acc).address + i * regionLength level / 4096 < 2 ^ 40 := by
  have hbase := oneOf_leafBase h hpres hacc
  have hroom := h.room
  rw [leafBase] at hbase
  rcases h.level_eq with rfl | rfl
  · rw [if_pos rfl, base40] at hbase
    rw [regionLength_two] at hroom
    rw [regionLength_one]
    omega
  · rw [if_neg (by decide), base39] at hbase
    rw [regionLength_three] at hroom
    rw [regionLength_two]
    omega

end

theorem isPle_oneOf (h : level = 1 ∨ level = 2) (hpres : e.present = true)
    (pleBAttr : MapAttribute) :
    isPle (oneOfPagingEntry level e pleBAttr) level = true := by
  rw [oneOfPagingEntry, if_neg (by rw [hpres]; decide)]
  exact isPle_setPle (h.imp_right .inl)

section

variable (h : Splits (level + 1) e) (hpres : e.present = true) (hacc : acc.present = true)
    (hi : i < 512)
include h hpres hacc hi

theorem nodeWalk_newTable (x : Nat) :
    nodeWalk level (newTable level (partOf (level + 1) e acc) i) x =
      some (acc.under (leafAttr (level + 2) e (i * regionLength (level + 1) + x))) := by
  rw [newTable, nodeWalk_leaf (oneOf_present hpres hacc) (isPle_oneOf h.level_eq hpres _),
    leafAttr_addOffset h.level_eq (oneOf_room h hpres hacc hi),
    leafAttr_oneOf h hpres hacc]

theorem entryOk_newTable : EntryOk (level + 1) (newTable level (partOf (level + 1) e acc) i).1 := by
  refine ⟨addOffset_address_lt _, fun _ _ => ?_⟩
  have hbase := congrArg MapAttribute.pageTableBaseAddress
    (leafAttr_addOffset (x := 0) h.level_eq (oneOf_room h hpres hacc hi))
  rw [leafAttr_base, leafAttr_base, add_zero, add_zero, oneOf_leafBase h hpres hacc]
    at hbase
  have haln := h.aligned
  rw [regionLength_succ] at haln
  have hdvd : regionLength (level + 1) ∣ e.base39 :=
    (dvd_mul_left _ 512).trans (dvd_of_mod_eq_zero haln)
  rw [newTable, hbase]
  exact mod_eq_zero_of_dvd (dvd_add hdvd (dvd_mul_left _ _))

end

variable {t : Table (level + 1)}

theorem effective_split (h : EntryOk (level + 2) e)
    (hpres : e.present = true) (hleaf : isPle e (level + 2) = true)
    (hacc : acc.present = true) (address : Nat) {x : Nat} (hx : x < regionLength (level + 2)) :
    effective (level + 1) acc (newParent e address, newTable level (partOf (level + 1) e acc)) x =
      effective (level + 1) acc (e, t) x := by
  have hsplits := h.splits hpres hleaf
  have hi : x / regionLength (level + 1) < 512 := by
    rw [div_lt_iff_lt_mul (regionLength_pos _), ← regionLength_succ]
    exact hx
  have hx : x / regionLength (level + 1) * regionLength (level + 1) +
      x % regionLength (level + 1) = x := by
    rw [mul_comm]
    exact div_add_mod x _
  have hold : nodeWalk (level + 1) (e, t) x = some (leafAttr (level + 2) e x) :=
    nodeWalk_leaf hpres hleaf x
  rw [effective, effective, nodeWalk_pair (newParent_present) (isPle_newParent),
    nodeWalk_newTable hsplits hpres hacc hi, hold, hx]
  simp [restrictBy_newParent, under_under]

theorem effective_create (hpres : e.present = false) (address x : Nat) :
    effective (level + 1) acc (newParent e address, newTable level (partOf (level + 1) e acc)) x =
      effective (level + 1) acc (e, t) x := by
  have hkid : (newTable level (partOf (level + 1) e acc)
      (x / regionLength (level + 1))).1.present = false :=
    oneOf_not_present hpres _ (by rw [pleBMapAttribute, hpres, Bool.and_false])
  have hold : nodeWalk (level + 1) (e, t) x = none := nodeWalk_absent hpres x
  rw [effective, effective, nodeWalk_pair (newParent_present) (isPle_newParent),
    nodeWalk_absent hkid, hold]
  rfl

end Create

def Ok : (level : Nat) → Node level → Prop
  | 0, node => EntryOk 1 node.1
  | level + 1, node => EntryOk (level + 2) node.1 ∧ ∀ i < 512, Ok level (node.2 i)

theorem Ok.entry (h : Ok level node) :
    EntryOk (level + 1) node.1 := by
  cases level with
  | zero => exact h
  | succ level => exact h.1

theorem Ok.withEntry (h : Ok level node) (he : EntryOk (level + 1) e) : Ok level (e, node.2) := by
  cases level with
  | zero => exact he
  | succ level => exact ⟨he, h.2⟩

theorem entryOk_zero (level : Nat) : EntryOk level .zero :=
  ⟨Nat.two_pow_pos _, fun h => nomatch h⟩

theorem ok_blank (level : Nat) (he : EntryOk (level + 1) e) :
    Ok level (e, .blank level) := by
  induction level generalizing e with
  | zero => exact he
  | succ level ih => exact ⟨he, fun i _ => ih (entryOk_zero _)⟩

def leafLevel : (level : Nat) → Node level → Nat → Option Nat
  | 0, node, _ => if node.1.present then some 1 else none
  | level + 1, node, offset =>
    if node.1.present then
      if isPle node.1 (level + 2) then some (level + 2)
      else leafLevel level (node.2 (offset / regionLength (level + 1)))
        (offset % regionLength (level + 1))
    else none

theorem leafLevel_leaf (h : node.1.present = true)
    (hleaf : isPle node.1 (level + 1) = true) (offset : Nat) :
    leafLevel level node offset = some (level + 1) := by
  cases level with
  | zero => rw [leafLevel, if_pos h]
  | succ level => rw [leafLevel, if_pos h, if_pos hleaf]

theorem leafLevel_absent (h : node.1.present = false)
    (offset : Nat) : leafLevel level node offset = none := by
  cases level with
  | zero =>
    rw [leafLevel, h]
    rfl
  | succ level =>
    rw [leafLevel, h]
    rfl

theorem leafLevel_table {node : Node (level + 1)} (h : node.1.present = true)
    (hleaf : isPle node.1 (level + 2) = false) (offset : Nat) :
    leafLevel (level + 1) node offset =
      leafLevel level (node.2 (offset / regionLength (level + 1)))
        (offset % regionLength (level + 1)) := by
  rw [leafLevel, if_pos h, hleaf]
  rfl

theorem leafLevel_le {n : Nat} {offset : Nat}
    (h : leafLevel level node offset = some n) : n ≤ level + 1 := by
  induction level generalizing offset with
  | zero =>
    rw [leafLevel] at h
    split at h
    · cases h
      exact le_rfl
    · cases h
  | succ level ih =>
    rw [leafLevel] at h
    split at h
    · split at h
      · cases h
        exact le_rfl
      · exact le_succ_of_le (ih h)
    · cases h

theorem leafLevel_congr {e' : TableEntry} {t : Table level}
    (hpres : e'.present = e.present) (hleaf : isPle e' (level + 1) = isPle e (level + 1))
    (offset : Nat) : leafLevel level (e', t) offset = leafLevel level (e, t) offset := by
  cases level with
  | zero => rw [leafLevel, leafLevel, hpres]
  | succ level => rw [leafLevel, leafLevel, hpres, hleaf]

end MuBasecore.PageTableEffect
