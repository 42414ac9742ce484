import MuBasecore.PageTableEffect

/-!
A call of `PageTableLibMapInLevel` that modifies the tables changes exactly what is requested.
-/

namespace MuBasecore.PageTableUpdate

open EfiTypes Nat Nat
open PagingEntries hiding isPle
open PageTableMap PageTableEffect MapCall MapAttribute

variable {e : TableEntry} {a attr mask : MapAttribute} {i o y : Nat} {size : Int}

/-- What the checks of `PageTableMap` and the format of its arguments guarantee. -/
structure Checked (c : MapCall) : Prop where
  maxLeaf : 1 ≤ c.maxLeafLevel ∧ c.maxLeafLevel ≤ 3
  linear : c.linearAddress % 4096 = 0
  length : c.length % 4096 = 0
  base : c.attr.pageTableBaseAddress % 4096 = 0
  removal : c.attr.present = false → c.mask.present = true → selectsMore c.mask = false

structure Proper (c : MapCall) : Prop extends Checked c where
  bounded : c.mask.pageTableBaseAddress ≠ 0 → c.attr.pageTableBaseAddress + c.length ≤ 2 ^ 52
  key : c.mask.protectionKey = 0 ∨ c.mask.protectionKey = BitVec.allOnes 4

def wanted (c : MapCall) (offset p : Nat) (found : Option MapAttribute) : Option MapAttribute :=
  if c.linearAddress + offset ≤ p ∧ p < c.linearAddress + c.length then
    update c.attr c.mask (p - c.linearAddress) found
  else found

structure Visit (c : MapCall) (level start offset : Nat) : Prop where
  aligned : start % regionLength level = 0
  low : start ≤ c.linearAddress + offset
  high : c.linearAddress + offset < start + regionLength level
  inside : offset < c.length
  page : offset % 4096 = 0
  first : offset = 0 ∨ c.linearAddress + offset = start

/-- At the first address of the range in each 1G page: if the page has the requested
attributes, and the requested physical address lies in the same 2M frame as the present one,
the two addresses are the same. -/
def Clear (c : MapCall) (level : Nat) (acc : MapAttribute) (start : Nat) (node : Node level) :
    Prop :=
  ∀ x < regionLength (level + 1), c.linearAddress ≤ start + x →
    start + x < c.linearAddress + c.length →
    start + x = c.linearAddress ∨ (start + x) % regionLength 3 = 0 →
    leafLevel level node x = some 3 → c.mask.pageTableBaseAddress ≠ 0 →
    ∀ a, effective level acc node x = some a → masked a c.mask = masked c.attr c.mask →
      a.pageTableBaseAddress / regionLength 2 =
        (c.attr.pageTableBaseAddress + (start + x - c.linearAddress)) / regionLength 2 →
      a.pageTableBaseAddress = c.attr.pageTableBaseAddress + (start + x - c.linearAddress)

def Mapped (c : MapCall) (level : Nat) (acc : MapAttribute) (start offset : Nat)
    (node node' : Node level) : Prop :=
  ∀ x < regionLength (level + 1), effective level acc node' x =
    wanted c offset (start + x) (effective level acc node x)

variable {c : MapCall} {level : Nat} {acc : MapAttribute} {start offset : Nat}

theorem mapsWhole_iff :
    c.mapsWhole level offset start e = true ↔
      level ≤ c.maxLeafLevel ∧ (c.linearAddress + offset) % regionLength level = 0 ∧
        (c.attr.pageTableBaseAddress + offset) % regionLength level = 0 ∧
        c.subLength level offset start = regionLength level ∧
        (e.present = false ∨ isPle e level = true) := by
  simp only [mapsWhole, Bool.and_eq_true, decide_eq_true_eq, Bool.or_eq_true,
    Bool.not_eq_true', and_assoc]

theorem Visit.start_eq (hvis : Visit c level start offset)
    (h : (c.linearAddress + offset) % regionLength level = 0) :
    c.linearAddress + offset = start := by
  obtain ⟨k, hk⟩ := dvd_of_mod_eq_zero h
  obtain ⟨j, hj⟩ := dvd_of_mod_eq_zero hvis.aligned
  have hlow := hvis.low
  have hhigh := hvis.high
  have hpos := regionLength_pos level
  rw [hk, hj] at hlow hhigh
  have hle : j ≤ k := le_of_mul_le_mul_left hlow hpos
  have hlt : k < j + 1 := by
    exact Nat.lt_of_mul_lt_mul_left hhigh
  rw [hk, hj, show k = j by omega]

theorem validForNonPresent_all
    (h : validForNonPresent attr mask = true) (hmask : mask.present = true)
    (hattr : attr.present = true) : selectsAll mask = true := by
  rw [validForNonPresent, hmask, hattr] at h
  exact h

variable {node : Node level}

theorem setPle_effective (hconf : NoConflict c.attr c.mask acc)
    (hlev : level + 1 = 1 ∨ level + 1 = 2 ∨ level + 1 = 3)
    (hfits : Fits (level + 1) offset c.attr (c.currentMask acc))
    (hkind : node.1.present = false ∨ isPle node.1 (level + 1) = true)
    (hval : node.1.present = false → validForNonPresent c.attr c.mask = true) (x : Nat) :
    effective level acc (setPle (level + 1) node.1 offset c.attr (c.currentMask acc), node.2) x =
      update c.attr c.mask (offset + x) (effective level acc node x) := by
  obtain ⟨e, t⟩ := node
  have hpres : (setPle (level + 1) e offset c.attr (c.currentMask acc)).present =
      if c.mask.present then c.attr.present else e.present := by
    rw [setPle_present, currentMask, hconf.present, Bool.and_true]
  have hnew : effective level acc (setPle (level + 1) e offset c.attr (c.currentMask acc), t) x =
      if (setPle (level + 1) e offset c.attr (c.currentMask acc)).present then
        some (select c.attr c.mask (offset + x) (acc.under (leafAttr (level + 1) e x)))
      else none := by
    split
    next h =>
      rw [← under_select c hconf, ← leafAttr_setPle hlev hfits]
      exact effective_leaf acc h (isPle_setPle hlev) x
    next h => exact effective_of_not_present acc (Bool.eq_false_of_not_eq_true h) x
  rw [hnew, hpres]
  rcases Bool.eq_false_or_eq_true e.present with hpre | hpre
  · have hleaf := hkind.resolve_left (by rw [hpre]; decide)
    have hold : effective level acc (e, t) x = some (acc.under (leafAttr (level + 1) e x)) :=
      effective_leaf acc hpre hleaf x
    rw [hold, update, hpre]
    cases c.mask.present <;> cases c.attr.present <;> rfl
  · have hold : effective level acc (e, t) x = none := effective_of_not_present acc hpre x
    rw [hold, update, hpre]
    cases hmask : c.mask.present <;> cases hattr : c.attr.present <;> try rfl
    -- all that a new page needs is selected
    refine congrArg some (select_of_selectsAll (validForNonPresent_all (hval hpre) hmask hattr) _
      ?_ rfl rfl)
    change (acc.present && true) = true
    rw [hconf.present]
    rfl

theorem mapsWhole_level (hc : Checked c)
    (hwh : c.mapsWhole level offset start e = true) (hlev : level ≠ 0) :
    level = 1 ∨ level = 2 ∨ level = 3 := by
  have hmax := (mapsWhole_iff.1 hwh).1
  have hleaf := hc.maxLeaf.2
  omega

theorem setPle_mapped (hc : Proper c) (hconf : NoConflict c.attr c.mask acc)
    (hvis : Visit c (level + 1) start offset)
    (hval : node.1.present = false → validForNonPresent c.attr c.mask = true)
    (hwh : c.mapsWhole (level + 1) offset start node.1 = true) :
    Mapped c level acc start offset node
      (setPle (level + 1) node.1 offset c.attr (c.currentMask acc), node.2) := by
  obtain ⟨hmax, haln, hphys, hsub, hkind⟩ := mapsWhole_iff.1 hwh
  have hlev := mapsWhole_level hc.toChecked hwh (succ_ne_zero level)
  have hst := hvis.start_eq haln
  have hin := hvis.inside
  have hend : start + regionLength (level + 1) ≤ c.linearAddress + c.length := by
    have hle : regionLength (level + 1) ≤ c.length - offset := hsub ▸ min_le_left _ _
    omega
  have hfits : Fits (level + 1) offset c.attr (c.currentMask acc) := by
    intro hbase
    have hbounded := hc.bounded hbase
    exact ⟨hphys, by omega⟩
  intro x hx
  have hrng : c.linearAddress + offset ≤ start + x ∧ start + x < c.linearAddress + c.length := by
    omega
  have hoff : start + x - c.linearAddress = offset + x := by omega
  rw [wanted, if_pos hrng, hoff]
  exact setPle_effective hconf hlev hfits hkind hval x

theorem setPle_ok (hc : Checked c) (hconf : NoConflict c.attr c.mask acc) (hok : Ok level node)
    (hval : node.1.present = false → validForNonPresent c.attr c.mask = true)
    (hwh : c.mapsWhole (level + 1) offset start node.1 = true) :
    Ok level (setPle (level + 1) node.1 offset c.attr (c.currentMask acc), node.2) := by
  obtain ⟨hmax, haln, hphys, hsub, hkind⟩ := mapsWhole_iff.1 hwh
  have hlev := mapsWhole_level hc hwh (succ_ne_zero level)
  refine hok.withEntry (hok.entry.setPle hlev (fun _ => hphys) fun hbase hnew => ?_)
  rcases Bool.eq_false_or_eq_true node.1.present with hpre | hpre
  · exact ⟨hpre, hkind.resolve_left (by rw [hpre]; decide)⟩
  · -- an entry that becomes present has its address selected
    rw [setPle_present, hpre, currentMask, hconf.present, Bool.and_true] at hnew
    split at hnew
    next hmask =>
      have hall := validForNonPresent_all (hval hpre) hmask hnew
      simp only [selectsAll, Bool.and_eq_true, decide_eq_true_eq] at hall
      exact absurd hbase hall.1.1.2
    · cases hnew

variable {node : Node (level + 1)}

theorem ite_self_of_and {m v o : Bool} (h : (o && m) = (v && m)) :
    (if m = true then v else o) = o := by
  revert m v o
  decide

theorem select_eq_self (hkey : mask.protectionKey = 0 ∨ mask.protectionKey = BitVec.allOnes 4)
    (h : masked a mask = masked attr mask)
    (hbase : mask.pageTableBaseAddress ≠ 0 →
      a.pageTableBaseAddress = attr.pageTableBaseAddress + o) :
    select attr mask o a = a := by
  simp only [masked, MapAttribute.mk.injEq] at h
  obtain ⟨-, hread, huser, hwr, hcache, haccessed, hdirty, hpat, hglobal, -, -, -, hprotection,
    hnx⟩ := h
  refine MapAttribute.ext rfl (ite_self_of_and hread) (ite_self_of_and huser)
    (ite_self_of_and hwr) (ite_self_of_and hcache) (ite_self_of_and haccessed)
    (ite_self_of_and hdirty) (ite_self_of_and hpat) (ite_self_of_and hglobal) rfl ?_ rfl
    ?_ (ite_self_of_and hnx)
  · change (if mask.pageTableBaseAddress ≠ 0 then _ else _) = _
    split
    next hselected =>
      exact (hbase hselected).symm
    · rfl
  · change (if mask.protectionKey ≠ 0 then _ else _) = _
    rcases hkey with hkey | hkey
    · rw [if_neg (not_not.2 hkey)]
    · rw [hkey, BitVec.and_allOnes, BitVec.and_allOnes] at hprotection
      rw [if_pos (by rw [hkey]; decide), hprotection]

theorem masked_pleB (hpres : e.present = true) (x : Nat) :
    masked (pleBMapAttribute e acc) mask = masked (acc.under (leafAttr (level + 2) e x)) mask := by
  refine MapAttribute.ext ?_ rfl rfl rfl rfl rfl rfl ?_ rfl rfl rfl rfl rfl rfl
  · change (acc.present && e.present && mask.present) = (acc.present && true && mask.present)
    rw [hpres]
  · change (e.pleBPat && mask.pat) = ((if level + 2 = 1 then e.bit7 else e.pleBPat) && mask.pat)
    rw [if_neg (by omega)]

theorem update_none_of_masked (hpres : a.present = false) (h : masked a mask = masked attr mask) :
    update attr mask o none = none := by
  have hattr : (a.present && mask.present) = (attr.present && mask.present) :=
    congrArg MapAttribute.present h
  rw [hpres, Bool.false_and, Bool.and_comm] at hattr
  rw [update, ← hattr]
  rfl

theorem update_some_of_masked
    (hkey : mask.protectionKey = 0 ∨ mask.protectionKey = BitVec.allOnes 4)
    (hpres : a.present = true) (h : masked a mask = masked attr mask)
    (hbase : mask.pageTableBaseAddress ≠ 0 →
      a.pageTableBaseAddress = attr.pageTableBaseAddress + o) :
    update attr mask o (some a) = some a := by
  have hattr : (a.present && mask.present) = (attr.present && mask.present) :=
    congrArg MapAttribute.present h
  have hstay : ∀ m v : Bool, (true && m) = (v && m) → (m && !v) = false := by decide
  rw [hpres] at hattr
  rw [update, hstay _ _ hattr, select_eq_self hkey h hbase]
  rfl

theorem alreadyMapped_iff {pleBAttr : MapAttribute} :
    c.alreadyMapped level offset pleBAttr = true ↔
      masked pleBAttr c.mask = masked c.attr c.mask ∧
        (c.mask.pageTableBaseAddress = 0 ∨
          pleBAttr.pageTableBaseAddress + regionLength level * c.pagingEntryIndex level offset =
            (c.attr.pageTableBaseAddress + offset) / regionLength level * regionLength level) := by
  simp [alreadyMapped]

theorem Visit.index (hvis : Visit c (level + 1) start offset) :
    start + c.pagingEntryIndex level offset * regionLength level =
      (c.linearAddress + offset) / regionLength level * regionLength level ∧
    c.pagingEntryIndex level offset < 512 := by
  obtain ⟨k, hk⟩ := dvd_of_mod_eq_zero hvis.aligned
  have hlow := hvis.low
  have hhigh := hvis.high
  have hpos := regionLength_pos level
  rw [regionLength_succ] at hk hhigh
  have hk : start = k * 512 * regionLength level := by
    rw [hk]
    ac_rfl
  have hlow : k * 512 ≤ (c.linearAddress + offset) / regionLength level := by
    rw [le_div_iff_mul_le hpos, ← hk]
    exact hlow
  have hhigh : (c.linearAddress + offset) / regionLength level < k * 512 + 512 := by
    rw [div_lt_iff_lt_mul hpos, add_mul, ← hk]
    exact hhigh
  have hidx : (c.linearAddress + offset) / regionLength level =
      k * 512 + c.pagingEntryIndex level offset := by
    rw [pagingEntryIndex]
    omega
  refine ⟨?_, mod_lt _ (by decide)⟩
  rw [hidx, add_mul, hk]

section

variable (hc : Proper c) (hvis : Visit c (level + 2) start offset)
  (hclear : Clear c (level + 1) acc start node)
include hc hvis hclear

theorem leaf_address (hpres : node.1.present = true) (hleaf : isPle node.1 (level + 2) = true)
    (hbase : c.mask.pageTableBaseAddress ≠ 0)
    (hmasked : masked (pleBMapAttribute node.1 acc) c.mask = masked c.attr c.mask)
    (haddr : node.1.base39 + regionLength (level + 1) * c.pagingEntryIndex (level + 1) offset =
      (c.attr.pageTableBaseAddress + offset) / regionLength (level + 1) *
        regionLength (level + 1)) :
    node.1.base39 + (c.linearAddress + offset - start) = c.attr.pageTableBaseAddress + offset := by
  obtain ⟨hidx, -⟩ := hvis.index
  have hin := hvis.inside
  have hlev : level = 0 ∨ level = 1 := by
    rcases isPle_level hleaf with h | h | h <;> omega
  rcases hlev with rfl | rfl
  · have hlinear := hc.linear
    have hphys := hc.base
    rw [show regionLength (0 + 1) = 4096 from rfl] at hidx haddr
    omega
  · -- below a 1G page the addresses have been compared in steps of 2M only
    rw [show regionLength (1 + 1) = 2097152 from rfl] at hidx haddr
    have hx : start + (c.linearAddress + offset - start) = c.linearAddress + offset := by omega
    have hfst : c.linearAddress + offset = c.linearAddress ∨
        (c.linearAddress + offset) % regionLength 3 = 0 := by
      refine hvis.first.imp (fun h => by omega) fun h => ?_
      rw [h]
      exact hvis.aligned
    have hhigh : c.linearAddress + offset < start + regionLength (1 + 1 + 1) := hvis.high
    have hclear := hclear (c.linearAddress + offset - start) (by omega)
    rw [hx] at hclear
    have hfnd : effective 2 acc node (c.linearAddress + offset - start) = _ :=
      effective_leaf acc hpres hleaf _
    have hsame := hclear (by omega) (by omega) hfst (leafLevel_leaf hpres hleaf _) hbase _
      hfnd ((masked_pleB hpres _).symm.trans hmasked)
    have hvl : (acc.under (leafAttr (2 + 1) node.1
        (c.linearAddress + offset - start))).pageTableBaseAddress =
        node.1.base39 + (c.linearAddress + offset - start) := rfl
    rw [hvl, regionLength_two, Nat.add_sub_cancel_left] at hsame
    apply hsame
    omega

theorem wanted_of_alreadyMapped (hacc : acc.present = true)
    (hkind : node.1.present = false ∨ isPle node.1 (level + 2) = true)
    (h : c.alreadyMapped (level + 1) offset (pleBMapAttribute node.1 acc) = true) (x : Nat) :
    wanted c offset (start + x) (effective (level + 1) acc node x) =
      effective (level + 1) acc node x := by
  obtain ⟨hmasked, haddr⟩ := alreadyMapped_iff.1 h
  rw [wanted]
  split
  next hrng =>
    rcases Bool.eq_false_or_eq_true node.1.present with hpres | hpres
    · have hleaf := hkind.resolve_left (by rw [hpres]; decide)
      rw [effective_leaf acc hpres hleaf]
      refine update_some_of_masked hc.key ?_ ((masked_pleB hpres x).symm.trans hmasked) ?_
      · change (acc.present && true) = true
        rw [hacc]
        rfl
      · intro hbase
        have hfst := leaf_address hc hvis hclear hpres hleaf hbase hmasked
          (haddr.resolve_left hbase)
        have hlow := hvis.low
        change (if level + 2 = 1 then node.1.base40 else node.1.base39) + x = _
        rw [if_neg (by omega)]
        omega
    · rw [effective_of_not_present acc hpres]
      refine update_none_of_masked ?_ hmasked
      rw [pleBMapAttribute, hpres, Bool.and_false]
  · rfl

end

structure Ready (c : MapCall) (level : Nat) (acc : MapAttribute) (offset : Nat)
    (node entered : Node (level + 1)) : Prop where
  present : entered.1.present = true
  table : isPle entered.1 (level + 2) = false
  ok : Ok (level + 1) entered
  conflict : NoConflict c.attr c.mask (pnleMapAttribute entered.1 acc)
  found : ∀ x < regionLength (level + 2),
    effective (level + 1) acc entered x = effective (level + 1) acc node x
  levels : ∀ x < regionLength (level + 2), leafLevel (level + 1) entered x = some 3 →
    leafLevel (level + 1) node x = some 3
  valid : ∀ i < 512, c.pagingEntryIndex (level + 1) offset ≤ i →
    i ≤ c.pagingEntryIndexEnd (level + 1) offset → (entered.2 i).1.present = false →
      validForNonPresent c.attr c.mask = true

theorem index_lt {x : Nat} (hx : x < regionLength (level + 1)) : x / regionLength level < 512 := by
  rw [div_lt_iff_lt_mul (regionLength_pos _), ← regionLength_succ]
  exact hx

theorem noConflict_newParent (h : NoConflict c.attr c.mask acc) (address : Nat) :
    NoConflict c.attr c.mask (pnleMapAttribute (newParent e address) acc) where
  present := by
    change (acc.present && true) = true
    rw [h.present]
    rfl
  readWrite hmask hattr := by
    change (acc.readWrite && true) = true
    rw [h.readWrite hmask hattr]
    rfl
  userSupervisor hmask hattr := by
    change (acc.userSupervisor && true) = true
    rw [h.userSupervisor hmask hattr]
    rfl
  nx hmask hattr := by
    change (acc.nx || false) = false
    rw [h.nx hmask hattr]
    rfl

theorem ready_create (hconf : NoConflict c.attr c.mask acc)
    (hpres : node.1.present = false) (hval : validForNonPresent c.attr c.mask = true)
    (address : Nat) :
    Ready c level acc offset node (newParent node.1 address, newTable level
      (partOf (level + 1) node.1 acc)) := by
  have hkid : ∀ i, (newTable level (partOf (level + 1) node.1 acc) i).1.present = false :=
    fun i =>
    oneOf_not_present hpres _ (by rw [pleBMapAttribute, hpres, Bool.and_false])
  refine ⟨rfl, isPle_newParent, ⟨entryOk_newParent, fun i _ => ok_blank level ?_⟩,
    noConflict_newParent hconf _, fun x _ => effective_create hpres _ _, fun x _ h => ?_,
    fun _ _ _ _ _ => hval⟩
  · exact ⟨addOffset_address_lt _, fun h => absurd ((hkid i).symm.trans h) Bool.false_ne_true⟩
  · rw [leafLevel_table rfl (isPle_newParent), leafLevel_absent (hkid _)] at h
    cases h

theorem ready_split (hconf : NoConflict c.attr c.mask acc)
    (hok : Ok (level + 1) node) (hpres : node.1.present = true)
    (hleaf : isPle node.1 (level + 2) = true) (address : Nat) :
    Ready c level acc offset node (newParent node.1 address, newTable level
      (partOf (level + 1) node.1 acc)) := by
  have hspl := hok.entry.splits hpres hleaf
  have hkid : ∀ i, (newTable level (partOf (level + 1) node.1 acc) i).1.present = true :=
    fun i =>
    oneOf_present hpres hconf.present
  refine ⟨rfl, isPle_newParent, ⟨entryOk_newParent, fun i hi => ok_blank level ?_⟩,
    noConflict_newParent hconf _, fun x hx => effective_split hok.entry hpres hleaf
      hconf.present _ hx, fun x _ h => ?_, fun i _ _ _ h => ?_⟩
  · exact entryOk_newTable hspl hpres hconf.present hi
  · rw [leafLevel_table rfl (isPle_newParent)] at h
    have hle := leafLevel_le h
    have := hspl.level_eq
    omega
  · rw [hkid i] at h
    cases h

theorem loosen_fst (node : Node (level + 1)) : (c.loosen level node).1 = c.loosenParent node.1 := by
  rw [loosen]
  dsimp only
  split
  next hmask =>
    rw [loosenParent, hmask]
    simp [zeroMask]
  · rfl

theorem loosen_child (node : Node (level + 1)) (i : Nat) :
    ((c.loosen level node).2 i).1.present = (node.2 i).1.present ∧
      isPle ((c.loosen level node).2 i).1 (level + 1) = isPle (node.2 i).1 (level + 1) ∧
      ((c.loosen level node).2 i).2 = (node.2 i).2 := by
  rw [loosen]
  dsimp only
  split
  · exact ⟨rfl, rfl, rfl⟩
  · exact ⟨tightenChild_present _ c node.1 _, isPle_tightenChild _ c node.1 _, rfl⟩

theorem entryOk_tightenChild (parent : TableEntry) (h : EntryOk level e) :
    EntryOk level (tightenChild level (c.childAttribute parent).1
      (c.childAttribute parent).2 e) := by
  have hpres := tightenChild_present level c parent e
  have hkind := isPle_tightenChild level c parent e
  cases hleaf : isPle e level with
  | true =>
    rw [tightenChild, if_pos hleaf] at hpres ⊢
    refine h.setPle (isPle_level hleaf) (fun hbase => absurd rfl hbase) fun _ hnew => ?_
    exact ⟨hpres.symm.trans hnew, hleaf⟩
  | false =>
    refine ⟨?_, fun _ hnew => ?_⟩
    · rw [tightenChild, hleaf]
      exact h.address_lt
    · rw [hkind, hleaf] at hnew
      cases hnew

theorem ok_loosen (hok : Ok (level + 1) node)
    (hleaf : isPle node.1 (level + 2) = false) : Ok (level + 1) (c.loosen level node) := by
  refine ⟨?_, fun i hi => ?_⟩
  · rw [loosen_fst]
    refine ⟨hok.1.address_lt, fun _ hnew => ?_⟩
    have hkind : isPle (c.loosenParent node.1) (level + 2) = isPle node.1 (level + 2) := rfl
    rw [hkind, hleaf] at hnew
    cases hnew
  · rw [loosen]
    dsimp only
    split
    · exact hok.2 i hi
    · exact (hok.2 i hi).withEntry (entryOk_tightenChild _ (hok.2 i hi).entry)

theorem noConflict_loosenParent (h : NoConflict c.attr c.mask acc) (hpres : e.present = true) :
    NoConflict c.attr c.mask (pnleMapAttribute (c.loosenParent e) acc) where
  present := by
    change (acc.present && e.present) = true
    rw [h.present, hpres]
    rfl
  readWrite hmask hattr := by
    change (acc.readWrite && (e.readWrite || (!e.readWrite && c.mask.readWrite &&
      c.attr.readWrite))) = true
    rw [h.readWrite hmask hattr, hmask, hattr]
    cases e.readWrite <;> rfl
  userSupervisor hmask hattr := by
    change (acc.userSupervisor && (e.userSupervisor || (!e.userSupervisor &&
      c.mask.userSupervisor && c.attr.userSupervisor))) = true
    rw [h.userSupervisor hmask hattr, hmask, hattr]
    cases e.userSupervisor <;> rfl
  nx hmask hattr := by
    change (acc.nx || (e.nx && !(e.nx && c.mask.nx && !c.attr.nx))) = false
    rw [h.nx hmask hattr, hmask, hattr]
    cases e.nx <;> rfl

variable {table : Table (level + 1)}

theorem hasNonPresent_of (hi : i < 512) (hlow : c.pagingEntryIndex (level + 1) offset ≤ i)
    (hhigh : i ≤ c.pagingEntryIndexEnd (level + 1) offset)
    (hpres : (table i).1.present = false) : c.hasNonPresent level offset table = true := by
  rw [hasNonPresent, List.any_eq_true]
  refine ⟨i, List.mem_range.2 hi, ?_⟩
  rw [hpres, decide_eq_true hlow, decide_eq_true hhigh]
  rfl

theorem ready_loosen (hconf : NoConflict c.attr c.mask acc)
    (hok : Ok (level + 1) node) (hpres : node.1.present = true)
    (hleaf : isPle node.1 (level + 2) = false)
    (hval : c.hasNonPresent level offset node.2 = true → validForNonPresent c.attr c.mask = true) :
    Ready c level acc offset node (c.loosen level node) := by
  have hnew : (c.loosen level node).1.present = true := by
    rw [loosen_fst]
    exact hpres
  have htab : isPle (c.loosen level node).1 (level + 2) = false := by
    rw [loosen_fst]
    exact hleaf
  refine ⟨hnew, htab, ok_loosen hok hleaf, ?_, fun x _ => ?_, fun x _ h => ?_,
    fun i hi hlow hhigh h => ?_⟩
  · rw [loosen_fst]
    exact noConflict_loosenParent hconf hpres
  · rw [effective, nodeWalk_loosen hpres hleaf]
    rfl
  · obtain ⟨hsame, hkind, hbel⟩ := loosen_child (c := c) node (x / regionLength (level + 1))
    rw [leafLevel_table hnew htab] at h
    rw [leafLevel_table hpres hleaf]
    refine (leafLevel_congr hsame hkind _).symm.trans ?_
    rw [← hbel]
    exact h
  · rw [(loosen_child node i).1] at h
    exact hval (hasNonPresent_of hi hlow hhigh h)

theorem enter_ready (hmodify : c.modify = true) (hconf : NoConflict c.attr c.mask acc)
    (hok : Ok (level + 1) node)
    {r : Option (MapCall.Entered (level + 1))}
    (h : c.enter level acc offset node size = .ok r) :
    (r = none ∧ (node.1.present = false ∨ isPle node.1 (level + 2) = true) ∧
        c.alreadyMapped (level + 1) offset (pleBMapAttribute node.1 acc) = true) ∨
      ∃ entered, r = some entered ∧ entered.oneOf = none ∧
        Ready c level acc offset node entered.node := by
  rw [enter, hmodify] at h
  dsimp only at h
  split at h
  next hkind =>
    split at h
    · cases h
    next hval =>
      split at h
      next hmap =>
        cases h
        exact .inl ⟨rfl, hkind, hmap⟩
      · rw [if_pos rfl] at h
        cases h
        refine .inr ⟨_, rfl, rfl, ?_⟩
        rcases Bool.eq_false_or_eq_true node.1.present with hpres | hpres
        · exact ready_split hconf hok hpres (hkind.resolve_left (by rw [hpres]; decide)) _
        · refine ready_create hconf hpres ?_ _
          exact Bool.eq_true_of_not_eq_false fun h => hval ⟨hpres, h⟩
  next hkind =>
    rw [not_or, Bool.not_eq_false, Bool.not_eq_true] at hkind
    split at h
    · cases h
    next hval =>
      cases h
      refine .inr ⟨_, rfl, rfl, ready_loosen hconf hok hkind.1 hkind.2 fun hnon => ?_⟩
      exact Bool.eq_true_of_not_eq_false fun h => hval ⟨hnon, h⟩

variable {p : Nat}

theorem regionLength_mod_page : regionLength (level + 1) % 4096 = 0 := by
  rw [regionLength, show (level + 1) * 9 + 3 = 12 + level * 9 by omega, pow_add]
  exact mul_mod_right 4096 _

theorem mod_page {a : Nat} (h : a % regionLength (level + 1) = 0) : a % 4096 = 0 :=
  mod_eq_zero_of_dvd ((dvd_of_mod_eq_zero (regionLength_mod_page)).trans
    (dvd_of_mod_eq_zero h))

theorem mapsWhole_one (hc : Checked c) (hvis : Visit c 1 start offset) (e : TableEntry) :
    c.mapsWhole 1 offset start e = true := by
  have hlinear := hc.linear
  have hlen := hc.length
  have hbase := hc.base
  have hpage := hvis.page
  have hin := hvis.inside
  have hst := hvis.start_eq (by rw [regionLength_one]; omega)
  refine mapsWhole_iff.2 ⟨hc.maxLeaf.1, ?_, ?_, ?_, .inr rfl⟩
  · rw [regionLength_one]
    omega
  · rw [regionLength_one]
    omega
  · rw [subLength, regionLength_one]
    omega

theorem Visit.next (hc : Checked c) (hvis : Visit c (level + 1) start offset)
    (hin : offset + c.subLength (level + 1) offset start < c.length) :
    Visit c (level + 1) (start + regionLength (level + 1))
      (offset + c.subLength (level + 1) offset start) := by
  have hlow := hvis.low
  have hhigh := hvis.high
  have hlinear := hc.linear
  have haln : (start + regionLength (level + 1)) % regionLength (level + 1) = 0 := by
    rw [add_mod_right]
    exact hvis.aligned
  have hpage := mod_page haln
  have hnext : c.linearAddress + (offset + c.subLength (level + 1) offset start) =
      start + regionLength (level + 1) := by
    rw [subLength] at hin ⊢
    omega
  exact ⟨haln, by omega, by omega, hin, by omega, .inr hnext⟩

theorem wanted_next (hvis : Visit c level start offset)
    (hp : start + regionLength level ≤ p) (found : Option MapAttribute) :
    wanted c (offset + c.subLength level offset start) p found = wanted c offset p found := by
  have hhigh := hvis.high
  rw [wanted, wanted, subLength]
  congr 1
  apply propext
  constructor
  · intro h
    omega
  · intro h
    omega

theorem wanted_outside (h : c.length ≤ offset ∨ p < c.linearAddress + offset)
    (found : Option MapAttribute) : wanted c offset p found = found := by
  rw [wanted, if_neg]
  omega

/-- What becomes of a child in the loop: it is kept, since it lies in front of the children that
are visited or behind the range, or it is visited from an offset on. -/
inductive ChildVisit (c : MapCall) (level : Nat) (acc : MapAttribute)
    (mapBelow : Nat → Node level → Int → Except EfiStatus (Node level × Int × Bool))
    (start offset index i : Nat) (node node' : Node level) : Prop
  | kept (hnode : node' = node)
      (hout : i < index ∨ ∀ p found, start + i * regionLength (level + 1) ≤ p →
        wanted c offset p found = found)
  | visited (o : Nat) (size : Int) (r : Node level × Int × Bool)
      (hvis : Visit c (level + 1) (start + i * regionLength (level + 1)) o) (hle : index ≤ i)
      (hsame : ∀ p found, start + i * regionLength (level + 1) ≤ p →
        wanted c o p found = wanted c offset p found)
      (h : c.mapChild level acc (mapBelow o) o (start + i * regionLength (level + 1)) node size =
        .ok r)
      (hnode : node' = r.1)

theorem mapChildren_visit (hc : Checked c)
    {mapBelow : Nat → Node level → Int → Except EfiStatus (Node level × Int × Bool)}
    {remaining index : Nat} {modified : Bool}
    {r : Table (level + 1) × Int × Bool} (hcnt : index + remaining = 512)
    (hvis : offset < c.length →
      Visit c (level + 1) (start + index * regionLength (level + 1)) offset)
    (h : c.mapChildren level acc mapBelow none remaining index offset
      (start + index * regionLength (level + 1)) table size modified = .ok r)
    (hi : i < 512) :
    ChildVisit c level acc mapBelow start offset index i (table i) (r.1 i) := by
  induction remaining generalizing index offset table size modified with
  | zero =>
    cases h
    exact .kept rfl (.inl (by omega))
  | succ remaining ih =>
    rw [mapChildren] at h
    split at h
    next hin =>
      have hvis := hvis hin
      dsimp only at h
      split at h
      · cases h
      next child size' childModified hkid =>
        have hst : start + index * regionLength (level + 1) + regionLength (level + 1) =
            start + (index + 1) * regionLength (level + 1) := by
          rw [succ_mul, add_assoc]
        have hnext := hvis.next hc
        rw [hst] at h hnext
        have hrest := ih (by omega) hnext h
        rcases lt_trichotomy i index with hlt | rfl | hgt
        · rw [Function.update_of_ne (by omega)] at hrest
          cases hrest with
          | kept hnode _ => exact .kept hnode (.inl hlt)
          | visited _ _ _ _ hle => omega
        · rw [Function.update_self] at hrest
          cases hrest with
          | kept hnode _ =>
            exact .visited offset size _ hvis le_rfl (fun _ _ _ => rfl) hkid hnode
          | visited _ _ _ _ hle => omega
        · have hback : ∀ p found, start + i * regionLength (level + 1) ≤ p →
              wanted c (offset + c.subLength (level + 1) offset
                (start + index * regionLength (level + 1))) p found =
              wanted c offset p found := by
            intro p found hp
            refine wanted_next hvis ?_ found
            have hle : (index + 1) * regionLength (level + 1) ≤ i * regionLength (level + 1) :=
              mul_le_mul_right _ hgt
            omega
          rw [Function.update_of_ne (by omega)] at hrest
          cases hrest with
          | kept hnode hout =>
            refine .kept hnode (.inr fun p found hp => ?_)
            rw [← hback p found hp]
            exact hout.resolve_left (by omega) p found hp
          | visited o size r hvis' _ hsame h hnode =>
            refine .visited o size r hvis' (by omega) (fun p found hp => ?_) h hnode
            rw [hsame p found hp, hback p found hp]
    next hin =>
      cases h
      exact .kept rfl (.inr fun p found _ => wanted_outside (.inl (by omega)) found)

theorem Visit.child (hvis : Visit c (level + 1) start offset) :
    Visit c level (start + c.pagingEntryIndex level offset * regionLength level) offset := by
  have hpos := regionLength_pos level
  have hdiv := div_add_mod (c.linearAddress + offset) (regionLength level)
  have hmod := mod_lt (c.linearAddress + offset) hpos
  rw [mul_comm] at hdiv
  rw [hvis.index.1]
  refine ⟨mul_mod_left _ _, by omega, by omega, hvis.inside, hvis.page, ?_⟩
  refine hvis.first.imp_right fun h => ?_
  have haln : (c.linearAddress + offset) % regionLength level = 0 := by
    have haln := hvis.aligned
    rw [h]
    rw [regionLength_succ] at haln
    exact mod_eq_zero_of_dvd ((dvd_mul_left _ 512).trans (dvd_of_mod_eq_zero haln))
  omega

theorem le_pagingEntryIndexEnd (hvis : Visit c (level + 1) start offset) (hi : i < 512)
    (h : start + i * regionLength level < c.linearAddress + c.length) :
    i ≤ c.pagingEntryIndexEnd level offset := by
  have hpos := regionLength_pos level
  have hposUp := regionLength_pos (level + 1)
  have hlow := hvis.low
  have hhigh := hvis.high
  obtain ⟨k, hk⟩ := dvd_of_mod_eq_zero hvis.aligned
  have hbegin : (c.linearAddress + offset) / regionLength (level + 1) = k := by
    apply Nat.div_eq_of_lt_le
    · rw [mul_comm, ← hk]
      exact hlow
    · rw [succ_mul, mul_comm, ← hk]
      exact hhigh
  rw [pagingEntryIndexEnd]
  split
  · omega
  next hsame =>
    rw [not_not, hbegin] at hsame
    have hlast : c.linearAddress + c.length - 1 < start + regionLength (level + 1) := by
      have := lt_succ_self ((c.linearAddress + c.length - 1) / regionLength (level + 1))
      rw [div_lt_iff_lt_mul hposUp, hsame, succ_mul, mul_comm, ← hk] at this
      exact this
    rw [regionLength_succ] at hk hlast
    have hk : start = k * 512 * regionLength level := by
      rw [hk]
      ac_rfl
    have hge : k * 512 + i ≤ (c.linearAddress + c.length - 1) / regionLength level := by
      rw [le_div_iff_mul_le hpos, add_mul, ← hk]
      omega
    have hlt : (c.linearAddress + c.length - 1) / regionLength level < k * 512 + 512 := by
      rw [div_lt_iff_lt_mul hpos, add_mul, ← hk]
      exact hlast
    omega

theorem child_index {length : Nat} (hy : y < length) :
    (i * length + y) / length = i ∧ (i * length + y) % length = y := by
  have hpos : 0 < length := zero_lt_of_lt hy
  rw [mul_comm, mul_add_div hpos, div_eq_of_lt hy, mul_add_mod, mod_eq_of_lt hy]
  exact ⟨rfl, rfl⟩

section

variable (hpres : node.1.present = true) (htab : isPle node.1 (level + 2) = false)
  (hy : y < regionLength (level + 1))
include hpres htab hy

theorem effective_child :
    effective (level + 1) acc node (i * regionLength (level + 1) + y) =
      effective level (pnleMapAttribute node.1 acc) (node.2 i) y := by
  rw [effective_table acc hpres htab, (child_index hy).1, (child_index hy).2]

theorem leafLevel_child :
    leafLevel (level + 1) node (i * regionLength (level + 1) + y) =
      leafLevel level (node.2 i) y := by
  rw [leafLevel_table hpres htab, (child_index hy).1, (child_index hy).2]

end

theorem child_offset_lt (hi : i < 512) (hy : y < regionLength (level + 1)) :
    i * regionLength (level + 1) + y < regionLength (level + 2) := by
  have hle : (i + 1) * regionLength (level + 1) ≤ 512 * regionLength (level + 1) :=
    mul_le_mul_right _ hi
  rw [succ_mul] at hle
  rw [regionLength_succ (level + 1)]
  omega

variable {entered : Node (level + 1)}

theorem Clear.child (hclear : Clear c (level + 1) acc start node)
    (hrdy : Ready c level acc offset node entered) (hi : i < 512) :
    Clear c level (pnleMapAttribute entered.1 acc) (start + i * regionLength (level + 1))
      (entered.2 i) := by
  intro y hy hlow hhigh hfst hlev hbase a ha
  have hx := child_offset_lt hi hy
  rw [add_assoc] at hlow hhigh hfst ⊢
  refine hclear _ hx hlow hhigh hfst (hrdy.levels _ hx ?_) hbase a ?_
  · rw [leafLevel_child hrdy.present hrdy.table hy]
    exact hlev
  · rw [← hrdy.found _ hx, effective_child hrdy.present hrdy.table hy]
    exact ha

theorem mapInLevel_cases (hc : Checked c) (hmodify : c.modify = true)
    (hconf : NoConflict c.attr c.mask acc)
    (hok : Ok (level + 1) node) (hvis : Visit c (level + 2) start offset)
    {r : Node (level + 1) × Int × Bool}
    (h : c.mapInLevel (level + 1) acc offset node size = .ok r) :
    (r.1 = node ∧ (node.1.present = false ∨ isPle node.1 (level + 2) = true) ∧
        c.alreadyMapped (level + 1) offset (pleBMapAttribute node.1 acc) = true) ∨
      ∃ entered : Node (level + 1), Ready c level acc offset node entered ∧
        r.1.1 = entered.1 ∧ ∀ i < 512, ChildVisit c level (pnleMapAttribute entered.1 acc)
          (fun offset => c.mapInLevel level (pnleMapAttribute entered.1 acc) offset) start offset
          (c.pagingEntryIndex (level + 1) offset) i (entered.2 i) (r.1.2 i) := by
  rw [mapInLevel] at h
  split at h
  · cases h
  next hentered =>
    cases h
    rcases enter_ready hmodify hconf hok hentered with ⟨-, hkind, hmap⟩ | ⟨_, hnone, -⟩
    · exact .inl ⟨rfl, hkind, hmap⟩
    · cases hnone
  next entered hentered =>
    rcases enter_ready hmodify hconf hok hentered with ⟨hnone, -⟩ | ⟨_, hsome, honeOf, hrdy⟩
    · cases hnone
    · cases hsome
      dsimp only at h
      rw [honeOf, ← hvis.index.1] at h
      split at h
      · cases h
      next hkids =>
        cases h
        have hidx := hvis.index.2
        exact .inr ⟨entered.node, hrdy, rfl, fun i hi =>
          mapChildren_visit hc (by omega) (fun _ => hvis.child) hkids hi⟩

theorem Ready.valid_visited
    (hrdy : Ready c level acc offset node entered) (hvis : Visit c (level + 2) start offset)
    (hi : i < 512) (hle : c.pagingEntryIndex (level + 1) offset ≤ i)
    (hkid : Visit c (level + 1) (start + i * regionLength (level + 1)) o)
    (hpres : (entered.2 i).1.present = false) : validForNonPresent c.attr c.mask = true := by
  refine hrdy.valid i hi hle (le_pagingEntryIndexEnd hvis hi ?_) hpres
  have hlow := hkid.low
  have hin := hkid.inside
  omega

variable {r : Node level × Int × Bool}

theorem mapInLevel_ok (hc : Checked c) (hmodify : c.modify = true)
    (hconf : NoConflict c.attr c.mask acc) {node : Node level} (hok : Ok level node)
    (hvis : Visit c (level + 1) start offset)
    (h : c.mapInLevel level acc offset node size = .ok r) : Ok level r.1 := by
  induction level generalizing acc start offset size with
  | zero =>
    cases h
    exact hok
  | succ level ih =>
    rcases mapInLevel_cases hc hmodify hconf hok hvis h with
      ⟨hsame, -⟩ | ⟨entered, hrdy, hent, hkids⟩
    · rw [hsame]
      exact hok
    · refine ⟨hent ▸ hrdy.ok.1, fun i hi => ?_⟩
      cases hkids i hi with
      | kept hnode _ =>
        rw [hnode]
        exact hrdy.ok.2 i hi
      | visited o size r hvis' hle _ h hnode =>
        rw [hnode]
        rw [mapChild, hmodify] at h
        split at h
        next hwh =>
          cases h
          exact setPle_ok hc hrdy.conflict (hrdy.ok.2 i hi)
            (hrdy.valid_visited hvis hi hle hvis') hwh
        · exact ih hrdy.conflict (hrdy.ok.2 i hi) hvis' h

theorem mapped_of_children {node' : Node (level + 1)}
    (hrdy : Ready c level acc offset node entered) (hent : node'.1 = entered.1)
    (hkids : ∀ i < 512, ∀ y < regionLength (level + 1),
      effective level (pnleMapAttribute entered.1 acc) (node'.2 i) y =
        wanted c offset (start + i * regionLength (level + 1) + y)
          (effective level (pnleMapAttribute entered.1 acc) (entered.2 i) y)) :
    Mapped c (level + 1) acc start offset node node' := by
  intro x hx
  have hy := mod_lt x (regionLength_pos (level + 1))
  rw [← hrdy.found x hx, effective_table acc (hent ▸ hrdy.present) (hent ▸ hrdy.table),
    effective_table acc hrdy.present hrdy.table, hent,
    hkids _ (index_lt hx) _ hy, add_assoc, div_add_mod']

theorem mapInLevel_mapped (hc : Proper c) (hmodify : c.modify = true)
    (hconf : NoConflict c.attr c.mask acc) {node : Node level} (hok : Ok level node)
    (hvis : Visit c (level + 1) start offset) (hclear : Clear c level acc start node)
    (hlev : level ≠ 0)
    (h : c.mapInLevel level acc offset node size = .ok r) :
    Mapped c level acc start offset node r.1 := by
  induction level generalizing acc start offset size with
  | zero => exact absurd rfl hlev
  | succ level ih =>
    rcases mapInLevel_cases hc.toChecked hmodify hconf hok hvis h with
      ⟨hsame, hkind, hmap⟩ | ⟨entered, hrdy, hent, hkids⟩
    · rw [hsame]
      exact fun x _ =>
        (wanted_of_alreadyMapped hc hvis hclear hconf.present hkind hmap x).symm
    · refine mapped_of_children hrdy hent fun i hi y hy => ?_
      cases hkids i hi with
      | kept hnode hout =>
        rw [hnode]
        rcases hout with hlt | hout
        · refine (wanted_outside (.inr ?_) _).symm
          have hle : (i + 1) * regionLength (level + 1) ≤
              c.pagingEntryIndex (level + 1) offset * regionLength (level + 1) :=
            mul_le_mul_right _ hlt
          have hlow := hvis.child.low
          rw [succ_mul] at hle
          omega
        · exact (hout _ _ (le_add_right _ _)).symm
      | visited o size r hvis' hle hsame h hnode =>
        rw [hnode, ← hsame _ _ (le_add_right _ _)]
        rw [mapChild, hmodify] at h
        split at h
        next hwh =>
          cases h
          exact setPle_mapped hc hrdy.conflict hvis' (hrdy.valid_visited hvis hi hle hvis') hwh y hy
        next hwh =>
          refine ih hrdy.conflict (hrdy.ok.2 i hi) hvis' (hclear.child hrdy hi) ?_ h y hy
          rintro rfl
          exact hwh (mapsWhole_one hc.toChecked hvis' _)

end MuBasecore.PageTableUpdate
