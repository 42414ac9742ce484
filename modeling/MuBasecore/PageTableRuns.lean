import MuBasecore.PageTableQuery

/-!
Runs of `PageTableMap`: what is found in the page tables that successful calls leave, and how
much the calls take from their buffers.
-/

namespace MuBasecore.PageTableRuns

open EfiTypes Nat
open PagingEntries hiding isPle translate
open PageTableMap PageTableEffect PageTableUpdate
open PageTableQuery MapCall

variable {size : Int} {maxLevel : Nat}

/-- The arguments of a call of `PageTableMap`. -/
structure MapRequest where
  buffer : Nat
  bufferSize : Nat
  linearAddress : Nat
  length : Nat
  attr : MapAttribute
  mask : MapAttribute
  base_aligned : attr.pageTableBaseAddress % 4096 = 0
  buffer_aligned : buffer % 4096 = 0
  buffer_end : buffer + bufferSize ≤ 2 ^ 52

namespace MapRequest

variable (r : MapRequest) (mode : PagingMode)

def query : MapCall :=
  ⟨false, 0, mode.maxLeafLevel, r.linearAddress, r.length, r.attr, r.mask⟩

def call : MapCall :=
  { r.query mode with modify := true, buffer := r.buffer }

/-- `PageTableMap` with the arguments of the request. -/
def apply (pt : Option (PageTable mode.maxLevel)) : MapResult mode.maxLevel :=
  pageTableMap mode pt r.buffer r.bufferSize r.linearAddress r.length r.attr r.mask

/-- What the request asks for at the address `p`. -/
def wanted (p : Nat) (found : Option MapAttribute) : Option MapAttribute :=
  if r.linearAddress ≤ p ∧ p < r.linearAddress + r.length then
    update r.attr r.mask (p - r.linearAddress) found
  else found

end MapRequest

/-- The request passes the checks of the parameters. -/
structure Accepted (mode : PagingMode) (r : MapRequest) : Prop where
  length : r.length ≠ 0
  supported : ¬ (mode = .paging32bit ∨ mode.value ≥ PagingMode.pagingModeMax.value)
  bufferSize : r.bufferSize % 4096 = 0
  linear : r.linearAddress % 4096 = 0 ∧ r.length % 4096 = 0
  buffer : r.bufferSize ≠ 0 → r.buffer ≠ 0
  removal : r.attr.present = false → r.mask.present = true → selectsMore r.mask = false
  inside : r.linearAddress + r.length ≤ maxLinearAddress mode

section Results

variable {c : MapCall} {level offset : Nat} {acc : MapAttribute} {status : EfiStatus}
  {node : Node (level + 1)}

theorem enter_error
    (h : c.enter level acc offset node size = .error status) : status = .invalidParameter := by
  rw [enter] at h
  dsimp only at h
  split at h
  · split at h
    · cases h
      rfl
    · split at h
      · cases h
      · split at h <;> cases h
  · split at h
    · cases h
      rfl
    · cases h

theorem enter_fst {entered : MapCall.Entered (level + 1)}
    (h : c.enter level acc offset node size = .ok (some entered)) :
    (entered.bufferSize = size - 4096 ∧ (node.1.present = false ∨ isPle node.1 (level + 2) = true) ∧
        (c.modify = true → entered.node.1 = newParent node.1 (c.buffer + (size - 4096)).toNat)) ∨
      (entered.bufferSize = size ∧ node.1.present = true ∧
        (c.modify = true → entered.node.1 = c.loosenParent node.1)) := by
  rw [enter] at h
  dsimp only at h
  split at h
  next hkind =>
    split at h
    · cases h
    · split at h
      · cases h
      · split at h
        · cases h
          exact .inl ⟨rfl, hkind, fun _ => rfl⟩
        next hquery =>
          cases h
          exact .inl ⟨rfl, hkind, fun hmod => absurd hmod hquery⟩
  next hkind =>
    rw [not_or, Bool.not_eq_false] at hkind
    split at h
    · cases h
    · cases h
      refine .inr ⟨rfl, hkind.1, fun hmod => ?_⟩
      rw [if_pos hmod, loosen_fst]

def Frugal {α : Type} (size : Int) : Except EfiStatus (α × Int × Bool) → Prop
  | .error status => status = .invalidParameter
  | .ok r => r.2.1 ≤ size

theorem Frugal.mono {α : Type} {size' : Int} {out : Except EfiStatus (α × Int × Bool)}
    (h : Frugal size out) (hle : size ≤ size') : Frugal size' out := by
  cases out with
  | error status => exact h
  | ok r => exact Int.le_trans h hle

theorem mapChildren_frugal
    {mapBelow : Nat → Node level → Int → Except EfiStatus (Node level × Int × Bool)}
    (hbel : ∀ o node size, Frugal size (mapBelow o node size))
    (oneOf : Option TableEntry) (remaining index region : Nat) (table : Table (level + 1))
    (size : Int) (modified : Bool) :
    Frugal size (c.mapChildren level acc mapBelow oneOf remaining index offset region table
      size modified) := by
  induction remaining generalizing index offset region table size modified with
  | zero => exact Int.le_refl _
  | succ remaining ih =>
    rw [mapChildren_succ]
    split
    · have hkid : ∀ node, Frugal size
          (c.mapChild level acc (mapBelow offset) offset region node size) := by
        intro node
        rw [mapChild]
        split
        · split <;> exact Int.le_refl _
        · exact hbel _ _ _
      split
      next herr =>
        exact (herr ▸ hkid _ : Frugal size (.error _))
      next hok =>
        exact (ih ..).mono (hok ▸ hkid _ : Frugal size (.ok _))
    · exact Int.le_refl _

theorem mapInLevel_frugal (node : Node level) (size : Int) :
    Frugal size (c.mapInLevel level acc offset node size) := by
  induction level generalizing acc offset size with
  | zero => exact Int.le_refl _
  | succ level ih =>
    rw [mapInLevel]
    split
    next henter =>
      exact enter_error henter
    · exact Int.le_refl _
    next entered henter =>
      have hsize : entered.bufferSize ≤ size := by
        rcases enter_fst henter with ⟨hsize, -⟩ | ⟨hsize, -⟩ <;> omega
      dsimp only
      split
      next hkids =>
        exact (hkids ▸ mapChildren_frugal (fun _ node => ih node) .. : Frugal _ (.error _))
      next hkids =>
        exact ((hkids ▸ mapChildren_frugal (fun _ node => ih node) .. :
          Frugal entered.bufferSize (.ok _)).mono hsize :)

theorem mapInLevel_error {node : Node level}
    (h : c.mapInLevel level acc offset node size = .error status) : status = .invalidParameter :=
  (h ▸ mapInLevel_frugal node size : Frugal size (.error status))

theorem mapInLevel_fst (hmod : c.modify = true) (hlev : level ≠ 0) {node : Node level}
    {u : Node level × Int × Bool}
    (h : c.mapInLevel level acc offset node size = .ok u) :
    u.1 = node ∨
      (u.1.1 = newParent node.1 (c.buffer + (size - 4096)).toNat ∧ u.2.1 ≤ size - 4096 ∧
        (node.1.present = false ∨ isPle node.1 (level + 1) = true)) ∨
      (u.1.1 = c.loosenParent node.1 ∧ node.1.present = true) := by
  cases level with
  | zero => exact absurd rfl hlev
  | succ level =>
    rw [mapInLevel] at h
    split at h
    · cases h
    · cases h
      exact .inl rfl
    next entered henter =>
      dsimp only at h
      split at h
      · cases h
      next hkids =>
        cases h
        have hle : Frugal entered.bufferSize (.ok _) :=
          hkids ▸ mapChildren_frugal (fun _ node => mapInLevel_frugal node) ..
        rcases enter_fst henter with ⟨hsize, hkind, hnode⟩ | ⟨-, hpres, hnode⟩
        · exact .inr (.inl ⟨hnode hmod, hsize ▸ hle, hkind⟩)
        · exact .inr (.inr ⟨hnode hmod, hpres⟩)

end Results

variable {mode : PagingMode} {pt : Option (PageTable mode.maxLevel)} {r : MapRequest}

theorem maxLeafLevel_ok
    (h : ¬ (mode = .paging32bit ∨ mode.value ≥ PagingMode.pagingModeMax.value)) :
    (1 ≤ mode.maxLeafLevel ∧ mode.maxLeafLevel ≤ 3) ∧ mode.maxLevel ≠ 0 := by
  cases mode <;> first
    | decide
    | exact absurd h (by decide)

theorem Accepted.checked (h : Accepted mode r) : Checked (r.call mode) where
  maxLeaf := (maxLeafLevel_ok h.supported).1
  linear := h.linear.1
  length := h.linear.2
  base := r.base_aligned
  removal := h.removal

theorem maxLinearAddress_le (mode : PagingMode) :
    maxLinearAddress mode ≤ regionLength (mode.maxLevel + 1) := by
  rw [maxLinearAddress, regionLength]
  split
  next hpae =>
    rw [hpae]
    decide
  · rw [show (mode.maxLevel + 1) * 9 + 3 = 12 + mode.maxLevel * 9 by omega]

theorem Accepted.visit (h : Accepted mode r) : Visit (r.call mode) (mode.maxLevel + 1) 0 0 := by
  have hle := maxLinearAddress_le mode
  have hin := h.inside
  have hlen := h.length
  refine ⟨zero_mod _, Nat.zero_le _, ?_, Nat.pos_of_ne_zero hlen, rfl, .inl rfl⟩
  change r.linearAddress + 0 < 0 + _
  omega

theorem apply_of_accepted (h : Accepted mode r) :
    r.apply mode pt =
      match (r.query mode).mapInLevel mode.maxLevel topAttribute 0 (topNode mode pt) 0 with
      | .error status => ⟨status, pt, r.bufferSize, false⟩
      | .ok (_, size, _) =>
        if (-size).toNat > r.bufferSize then ⟨.bufferTooSmall, pt, (-size).toNat, false⟩
        else if (-size).toNat ≠ 0 ∧ r.buffer = 0 then
          ⟨.invalidParameter, pt, r.bufferSize, false⟩
        else updatePageTable mode (r.call mode) pt r.bufferSize := by
  have hlinear := h.linear
  have hin := h.inside
  rw [MapRequest.apply, pageTableMap, if_neg h.length, if_neg h.supported,
    if_neg (not_not.2 h.bufferSize), if_neg (by omega),
    if_neg fun hnull => h.buffer hnull.1 hnull.2,
    if_neg fun hgone => absurd hgone.2.2 (by rw [h.removal hgone.1 hgone.2.1]; decide),
    if_neg (by omega)]
  rfl

theorem accepted_of_success (h : (r.apply mode pt).status = .success) (hlen : r.length ≠ 0) :
    Accepted mode r := by
  rw [MapRequest.apply, pageTableMap, if_neg hlen] at h
  split at h
  · cases h
  next hsup =>
    split at h
    · cases h
    · split at h
      · cases h
      · split at h
        · cases h
        next hbuf =>
          split at h
          · cases h
          next hremoval =>
            split at h
            · cases h
            · refine ⟨hlen, hsup, by omega, by omega, fun h h' => hbuf ⟨h, h'⟩,
                fun ha hm => ?_, by omega⟩
              exact Bool.eq_false_of_not_eq_true fun h => hremoval ⟨ha, hm, h⟩

theorem apply_success (h : (r.apply mode pt).status = .success) :
    (r.length = 0 ∧ r.apply mode pt = ⟨.success, pt, r.bufferSize, false⟩) ∨
      Accepted mode r ∧ ∃ q u,
        (r.query mode).mapInLevel mode.maxLevel topAttribute 0 (topNode mode pt) 0 = .ok q ∧
        -q.2.1 ≤ r.bufferSize ∧
        (r.call mode).mapInLevel mode.maxLevel topAttribute 0 (topNode mode pt) r.bufferSize =
          .ok u ∧
        r.apply mode pt = ⟨.success, newPageTable mode pt u.1, u.2.1, u.2.2⟩ := by
  rcases eq_or_ne r.length 0 with hlen | hlen
  · refine .inl ⟨hlen, ?_⟩
    rw [MapRequest.apply, pageTableMap, if_pos hlen]
  · have hacc := accepted_of_success h hlen
    refine .inr ⟨hacc, ?_⟩
    rw [apply_of_accepted hacc] at h ⊢
    cases hquery : (r.query mode).mapInLevel mode.maxLevel topAttribute 0 (topNode mode pt) 0 with
    | error status =>
      rw [hquery] at h
      cases (mapInLevel_error hquery).symm.trans h
    | ok q =>
      obtain ⟨node, size, flag⟩ := q
      rw [hquery] at h
      dsimp only at h ⊢
      split at h
      · cases h
      next hrequired =>
        split at h
        · cases h
        next hnull =>
          rw [if_neg hrequired, if_neg hnull]
          rw [updatePageTable] at h ⊢
          cases hupd : (r.call mode).mapInLevel mode.maxLevel topAttribute 0
            (topNode mode pt) r.bufferSize with
          | error status =>
            rw [hupd] at h
            cases (mapInLevel_error hupd).symm.trans h
          | ok u =>
            refine ⟨(node, size, flag), u, rfl, ?_, rfl, rfl⟩
            dsimp only
            omega

/-- The page tables that successful calls reach from none. A call that takes more than its buffer
writes to memory that is not part of the model; it is not followed. -/
inductive Reachable : (maxLevel : Nat) → Option (PageTable maxLevel) → Prop
  | empty (maxLevel : Nat) : Reachable maxLevel none
  | step {mode : PagingMode} {pt : Option (PageTable mode.maxLevel)} {r : MapRequest}
      (h : Reachable mode.maxLevel pt) (hsucc : (r.apply mode pt).status = .success)
      (hbuf : 0 ≤ (r.apply mode pt).bufferSize) :
      Reachable mode.maxLevel (r.apply mode pt).pageTable

variable {e : TableEntry}

theorem entryOk_of_bit7 {level : Nat} (haddr : e.address < 2 ^ 40)
    (hbit : e.bit7 = false) : EntryOk level e := by
  refine ⟨haddr, fun _ hleaf => ?_⟩
  have hlev : level = 1 := by
    rw [isPle, hbit, Bool.and_false, Bool.or_false, beq_iff_eq] at hleaf
    exact hleaf
  subst hlev
  exact mul_mod_right 4096 _

theorem ok_mapTopFour {f : TableEntry → TableEntry}
    (hf : ∀ level e, EntryOk level e → EntryOk level (f e))
    {node : Node maxLevel} (hok : Ok maxLevel node) :
    Ok maxLevel (node.1, mapTopFour f node.2) := by
  cases maxLevel with
  | zero => exact hok
  | succ level =>
    refine ⟨hok.1, fun i hi => ?_⟩
    change Ok level (if i < 4 then (f (node.2 i).1, (node.2 i).2) else node.2 i)
    split
    · exact (hok.2 i hi).withEntry (hf _ _ (hok.2 i hi).entry)
    · exact hok.2 i hi

theorem entryOk_paeAllRights (level : Nat) (e : TableEntry) (h : EntryOk level e) :
    EntryOk level (paeAllRights e) :=
  ⟨h.address_lt, h.aligned⟩

theorem entryOk_paeMustBeZero (level : Nat) (e : TableEntry) (h : EntryOk level e) :
    EntryOk level (paeMustBeZero e) :=
  entryOk_of_bit7 h.address_lt rfl

theorem ok_topNode (hok : Ok mode.maxLevel (topPagingEntry pt)) :
    Ok mode.maxLevel (topNode mode pt) := by
  rw [topNode]
  split
  · exact ok_mapTopFour entryOk_paeAllRights hok
  · exact hok

theorem ok_topPagingEntry {table : Table maxLevel} (hok : Ok maxLevel (e, table)) (address : Nat) :
    Ok maxLevel (topPagingEntry (some ⟨address, table⟩)) :=
  hok.withEntry (entryOk_of_bit7 (mod_lt _ (by decide)) rfl)

theorem ok_newPageTable {node : Node mode.maxLevel} (hok : Ok mode.maxLevel node) :
    Ok mode.maxLevel (topPagingEntry (newPageTable mode pt node)) := by
  have htab : Ok mode.maxLevel (node.1,
      if mode = .pagingPae then mapTopFour paeMustBeZero node.2 else node.2) := by
    split
    · exact ok_mapTopFour entryOk_paeMustBeZero hok
    · exact hok
  cases pt with
  | some t => exact ok_topPagingEntry htab _
  | none =>
    rw [newPageTable]
    split
    · exact ok_blank _ (entryOk_zero _)
    · exact ok_topPagingEntry htab _

theorem noConflict_topAttribute (attr mask : MapAttribute) : NoConflict attr mask topAttribute :=
  ⟨rfl, fun _ _ => rfl, fun _ _ => rfl, fun _ _ => rfl⟩

theorem apply_ok (hok : Ok mode.maxLevel (topPagingEntry pt))
    (h : (r.apply mode pt).status = .success) :
    Ok mode.maxLevel (topPagingEntry (r.apply mode pt).pageTable) := by
  rcases apply_success h with ⟨-, hsame⟩ | ⟨hacc, q, u, -, -, hupd, hres⟩
  · rw [hsame]
    exact hok
  · rw [hres]
    exact ok_newPageTable (mapInLevel_ok hacc.checked rfl (noConflict_topAttribute _ _)
      (ok_topNode hok) hacc.visit hupd)

theorem Reachable.ok {pt : Option (PageTable maxLevel)}
    (h : Reachable maxLevel pt) : Ok maxLevel (topPagingEntry pt) := by
  induction h with
  | empty maxLevel => exact ok_blank maxLevel (entryOk_zero _)
  | step _ hsucc _ ih => exact apply_ok ih hsucc

/-- No 2M part of a 1G page with the requested attributes that the request changes in parts, the
first one apart, is to be mapped where the first one is. -/
def Fair (mode : PagingMode) (pt : Option (PageTable mode.maxLevel)) (r : MapRequest) : Prop :=
  Exact (r.call mode) mode.maxLevel topAttribute 0 (topNode mode pt)

theorem settled_zero (c : MapCall) (level : Nat) (acc : MapAttribute) (offset : Nat)
    (node : Node level) : Settled c level 0 acc offset node := by
  cases level with
  | zero => exact trivial
  | succ level => exact fun hshift => absurd rfl hshift

theorem passes_take_same (hok : Ok mode.maxLevel (topPagingEntry pt)) (hacc : Accepted mode r)
    (hfair : Fair mode pt r) (size : Int) :
    taken 0 ((r.query mode).mapInLevel mode.maxLevel topAttribute 0 (topNode mode pt) 0) =
      taken size ((r.call mode).mapInLevel mode.maxLevel topAttribute 0 (topNode mode pt) size) :=
  mapInLevel_taken hacc.checked rfl (Alike.refl topAttribute (ok_topNode hok) rfl)
    hacc.visit hfair (settled_zero _ _ _ _ _) 0 size

theorem bufferSize_nonneg (hok : Ok mode.maxLevel (topPagingEntry pt)) (hfair : Fair mode pt r)
    (h : (r.apply mode pt).status = .success) : 0 ≤ (r.apply mode pt).bufferSize := by
  rcases apply_success h with ⟨-, hsame⟩ | ⟨hacc, q, u, hquery, hrequired, hupd, hres⟩
  · rw [hsame]
    exact Int.natCast_nonneg _
  · have htaken := passes_take_same hok hacc hfair r.bufferSize
    rw [hquery, hupd, taken_ok, taken_ok] at htaken
    have hsizes := Except.ok.inj htaken
    rw [hres]
    dsimp only
    omega

/-- The query of every request on every reachable page table reports what the update takes, and
the update stays in the buffer. -/
theorem pageTableMap_query_size (hreach : Reachable mode.maxLevel pt)
    (haccepted : Accepted mode r) (hfair : Fair mode pt r) :
    taken 0 ((r.query mode).mapInLevel mode.maxLevel topAttribute 0 (topNode mode pt) 0) =
        taken r.bufferSize
          ((r.call mode).mapInLevel mode.maxLevel topAttribute 0 (topNode mode pt) r.bufferSize) ∧
      ((r.apply mode pt).status = .success → 0 ≤ (r.apply mode pt).bufferSize) :=
  ⟨passes_take_same hreach.ok haccepted hfair r.bufferSize, bufferSize_nonneg hreach.ok hfair⟩

def firstGigabyte : MapRequest where
  buffer := 0x100000
  bufferSize := 0x10000
  linearAddress := 0
  length := 0x40000000
  attr := .nop
  mask := allOneMask
  base_aligned := by decide
  buffer_aligned := by decide
  buffer_end := by decide

theorem firstGigabyte_reachable :
    Reachable PagingMode.paging4Level1GB.maxLevel
      (firstGigabyte.apply .paging4Level1GB none).pageTable :=
  .step (.empty _) (by decide +kernel) (by decide +kernel)

/-- One page of the first gigabyte is mapped elsewhere. -/
def movedPage : MapRequest where
  buffer := 0x200000
  bufferSize := 0x10000
  linearAddress := 0x1000
  length := 0x1000
  attr := { MapAttribute.nop with pageTableBaseAddress := 0x402000 }
  mask := allOneMask
  base_aligned := by decide
  buffer_aligned := by decide
  buffer_end := by decide

theorem movedPage_fair :
    Fair .paging4Level1GB (firstGigabyte.apply .paging4Level1GB none).pageTable movedPage := by
  intro x _ _ hend _ _ _ _ _ _ hpart
  have hlast : 0 + x < 0x1000 + 0x1000 := hend
  exact absurd (show (0 + x) % 0x40000000 / 0x200000 = 0 by omega) hpart

/-- Below the 1G page two tables are needed. -/
theorem movedPage_query_size :
    let out := movedPage.apply .paging4Level1GB
      (firstGigabyte.apply .paging4Level1GB none).pageTable
    out.status = .success ∧ out.bufferSize = 0x10000 - 2 * 0x1000 ∧ 0 ≤ out.bufferSize := by
  have hsucc : (movedPage.apply .paging4Level1GB
    (firstGigabyte.apply .paging4Level1GB none).pageTable).status = .success := by decide +kernel
  have haccepted : Accepted .paging4Level1GB movedPage :=
    ⟨by decide, by decide, by decide, by decide, by decide, by decide, by decide⟩
  exact ⟨hsucc, by decide +kernel,
    (pageTableMap_query_size firstGigabyte_reachable haccepted movedPage_fair).2 hsucc⟩

def pageBelow : MapRequest where
  buffer := 0x200000
  bufferSize := 0x1000
  linearAddress := 0x201000
  length := 0x1000
  attr := { MapAttribute.nop with pageTableBaseAddress := 0x1000 }
  mask := allOneMask
  base_aligned := by decide
  buffer_aligned := by decide
  buffer_end := by decide

/-- The query reports one table, the update takes two. -/
theorem pageBelow_takes_more :
    Reachable PagingMode.paging4Level1GB.maxLevel
        (firstGigabyte.apply .paging4Level1GB none).pageTable ∧
      (pageBelow.apply .paging4Level1GB
        (firstGigabyte.apply .paging4Level1GB none).pageTable).status = .success ∧
      (pageBelow.apply .paging4Level1GB
        (firstGigabyte.apply .paging4Level1GB none).pageTable).bufferSize = -4096 :=
  ⟨firstGigabyte_reachable, by decide +kernel, by decide +kernel⟩

/-- What the processor finds for an address, in the tree of tables. -/
def translate {maxLevel : Nat} (pt : Option (PageTable maxLevel)) (p : Nat) :
    Option MapAttribute :=
  nodeWalk maxLevel (topPagingEntry pt) p

section Memory

/-- The fields of an entry in memory. -/
def tableEntry (e : PagingEntry) : TableEntry where
  present := e.present
  readWrite := e.readWrite
  userSupervisor := e.userSupervisor
  writeThrough := e.writeThrough
  cacheDisabled := e.cacheDisabled
  accessed := e.accessed
  dirty := e.dirty
  bit7 := e.mustBeOne
  global := e.global
  available := e.extractLsb' 9 3
  address := e.toNat / 4096 % 2 ^ 40
  available3 := e.extractLsb' 52 7
  protectionKey := e.protectionKey
  nx := e.nx

/-- The tree that a table in memory and the tables below it form. -/
def tree (m : TableMemory) : (level : Nat) → (Nat → PagingEntry) → Table level
  | 0, _ => ()
  | level + 1, table => fun index =>
    (tableEntry (table index), tree m level (tableAt m (table index).base40))

variable {m : TableMemory} {e : PagingEntry}

/-- A mask of the bits from `low` on, `len` of them, leaves that part of the number. -/
theorem toNat_and_mask {mask : BitVec 64} (low len : Nat) (hfit : low + len ≤ 64)
    (h : ∀ i < 64, mask.getLsbD i = decide (low ≤ i ∧ i < low + len)) :
    (e &&& mask).toNat = 2 ^ low * (e.toNat / 2 ^ low % 2 ^ len) := by
  apply Nat.eq_of_testBit_eq
  intro i
  rw [testBit_two_pow_mul, testBit_mod_two_pow, testBit_div_two_pow, BitVec.toNat_and, testBit_and]
  by_cases hi : i < 64
  · change (_ && mask.getLsbD i) = _
    rw [h i hi]
    by_cases hlow : low ≤ i
    · rw [show i - low + low = i by omega, Bool.and_comm]
      simp [hlow, show i < low + len ↔ i - low < len by omega]
    · simp [hlow]
  · have hout : ¬ i - low < len := by omega
    rw [show mask.toNat.testBit i = false from mask.getLsbD_of_ge i (by omega)]
    simp [hout]

theorem leafAttr_tableEntry (level offset : Nat) :
    leafAttr level (tableEntry e) offset = leafAttribute level e offset := by
  have hbase40 : (tableEntry e).base40 = e.base40 :=
    (toNat_and_mask 12 40 (by decide) (by decide)).symm
  have hbase39 : (tableEntry e).base39 = e.base39 := by
    rw [PagingEntry.base39, toNat_and_mask 13 39 (by decide) (by decide)]
    change 8192 * (e.toNat / 4096 % 2 ^ 40 / 2) = _
    omega
  have hpat : (tableEntry e).pleBPat = e.pleBPat := by
    rw [PagingEntry.pleBPat, BitVec.getLsbD, testBit_eq_decide_div_mod_eq]
    change (e.toNat / 4096 % 2 ^ 40 % 2 == 1) = _
    rw [mod_mod_of_dvd _ (by decide)]
    rfl
  rw [leafAttr, leafAttribute, hbase40, hbase39, hpat]
  rfl

theorem nodeWalk_tree (level : Nat) (table : Nat → PagingEntry) (offset : Nat) :
    nodeWalk level (tree m (level + 1) table (offset / regionLength (level + 1)))
      (offset % regionLength (level + 1)) = pageWalk m (level + 1) table offset := by
  induction level generalizing table offset with
  | zero =>
    rw [pageWalk, tree, nodeWalk]
    dsimp only
    rw [leafAttr_tableEntry]
    rfl
  | succ level ih =>
    rw [pageWalk, tree, nodeWalk]
    dsimp only
    rw [leafAttr_tableEntry, ih]
    rfl

/-- On the tables in memory the walk is the one of the processor. -/
theorem translate_tree {mode : PagingMode} (hmode : mode.maxLevel = 4 ∨ mode.maxLevel = 5)
    {pageTable p : Nat} (hp : p < 512 * regionLength mode.maxLevel) (hpt : pageTable ≠ 0) :
    translate (some ⟨pageTable, tree m mode.maxLevel (tableAt m pageTable)⟩) p =
      PagingEntries.translate m mode pageTable p := by
  rw [PagingEntries.translate, if_neg hpt, if_neg (by omega), if_pos hp, translate]
  generalize mode.maxLevel = level at *
  obtain ⟨n, rfl⟩ : ∃ n, level = n + 1 := ⟨level - 1, by omega⟩
  rw [topPagingEntry, nodeWalk_table rfl, nodeWalk_tree]
  · exact Option.map_id'
  · rcases hmode with h | h <;> obtain rfl := Nat.succ.inj h <;> rfl

end Memory

/-- The conditions under which a request is carried out exactly: the physical addresses fit into
52 bits, the protection key is selected as a whole, and two conditions on the 1G pages with the
requested attributes that the range meets. -/
structure Meets (mode : PagingMode) (pt : Option (PageTable mode.maxLevel)) (r : MapRequest) :
    Prop where
  bounded : r.mask.pageTableBaseAddress ≠ 0 → r.attr.pageTableBaseAddress + r.length ≤ 2 ^ 52
  key : r.mask.protectionKey = 0 ∨ r.mask.protectionKey = BitVec.allOnes 4
  clear : Clear (r.call mode) mode.maxLevel topAttribute 0 (topNode mode pt)
  fair : Fair mode pt r

theorem effective_topAttribute {level : Nat} (node : Node level) (p : Nat) :
    effective level topAttribute node p = nodeWalk level node p := by
  have hunder : topAttribute.under = id := by
    funext a
    simp [MapAttribute.under, topAttribute, MapAttribute.nop]
  rw [effective, hunder, Option.map_id_fun, id]

section

variable (hmode : mode ≠ .pagingPae)
include hmode

theorem topNode_of_ne : topNode mode pt = topPagingEntry pt :=
  if_neg hmode

theorem topEntry_newPageTable (hacc : Accepted mode r) {u : Node mode.maxLevel × Int × Bool}
    (hupd : (r.call mode).mapInLevel mode.maxLevel topAttribute 0 (topNode mode pt)
      r.bufferSize = .ok u) (hbuf : 0 ≤ u.2.1) :
    topPagingEntry (newPageTable mode pt u.1) = u.1 := by
  have hlev := (maxLeafLevel_ok hacc.supported).2
  rw [topNode_of_ne hmode] at hupd
  have hfst := mapInLevel_fst rfl hlev hupd
  cases pt with
  | some t =>
    have hent : u.1.1 = (topPagingEntry (some t)).1 := by
      rcases hfst with hsame | ⟨-, -, hkind⟩ | ⟨hloosen, -⟩
      · rw [hsame]
      · exfalso
        rcases hkind with hpres | hleaf
        · cases hpres
        · have hbit : isPle (topPagingEntry (some t)).1 (mode.maxLevel + 1) =
              (mode.maxLevel + 1 == 1 || ((mode.maxLevel + 1 == 3 || mode.maxLevel + 1 == 2) &&
                false)) := rfl
          rw [hbit, Bool.and_false, Bool.or_false, beq_iff_eq] at hleaf
          omega
      · exact hloosen
    rw [newPageTable, if_neg hmode]
    exact Prod.ext hent.symm rfl
  | none =>
    rcases hfst with hsame | ⟨hnew, hsize, -⟩ | ⟨-, hpres⟩
    · rw [hsame]
      rfl
    · have haddr : u.1.1.address = (r.buffer + (r.bufferSize - 4096 : Int)).toNat / 4096 %
          2 ^ 40 := by
        rw [hnew]
        rfl
      have hne : u.1.1.address ≠ 0 := by
        have hnull := hacc.buffer (by omega)
        have haligned := r.buffer_aligned
        have hend := r.buffer_end
        omega
      have hlt : u.1.1.address < 2 ^ 40 := by
        rw [haddr]
        exact mod_lt _ (by decide)
      rw [newPageTable, if_neg hne, if_neg hmode]
      refine Prod.ext ?_ rfl
      rw [topPagingEntry]
      rw [Nat.mul_div_cancel_left _ (by decide), mod_eq_of_lt hlt, haddr, hnew]
      rfl
    · cases hpres

theorem apply_translate (hok : Ok mode.maxLevel (topPagingEntry pt))
    (hmeets : Meets mode pt r) (h : (r.apply mode pt).status = .success) {p : Nat}
    (hp : p < maxLinearAddress mode) :
    translate (r.apply mode pt).pageTable p = r.wanted p (translate pt p) := by
  have hbuf := bufferSize_nonneg hok hmeets.fair h
  rcases apply_success h with ⟨hlen, hsame⟩ | ⟨hacc, q, u, -, -, hupd, hres⟩
  · rw [hsame, MapRequest.wanted, if_neg (by omega)]
  · have hprop : Proper (r.call mode) := ⟨hacc.checked, hmeets.bounded, hmeets.key⟩
    rw [hres] at hbuf ⊢
    have hmap := mapInLevel_mapped hprop rfl (noConflict_topAttribute _ _) (ok_topNode hok)
      hacc.visit hmeets.clear (maxLeafLevel_ok hacc.supported).2 hupd p
      (hp.trans_le (maxLinearAddress_le mode))
    rw [effective_topAttribute, effective_topAttribute, topNode_of_ne hmode, zero_add]
      at hmap
    rw [translate, topEntry_newPageTable hmode hacc hupd hbuf, hmap]
    rfl

end

/-- Every successful call on a reachable page table of four or five levels changes what the
processor finds exactly as requested, if it meets the conditions. -/
theorem pageTableMap_translates (hmode : mode.maxLevel = 4 ∨ mode.maxLevel = 5)
    (hreach : Reachable mode.maxLevel pt) (hmeets : Meets mode pt r)
    (h : (r.apply mode pt).status = .success) {p : Nat} (hp : p < maxLinearAddress mode) :
    translate (r.apply mode pt).pageTable p = r.wanted p (translate pt p) := by
  refine apply_translate ?_ hreach.ok hmeets h hp
  rintro rfl
  revert hmode
  decide

theorem movedPage_meets :
    Meets .paging4Level1GB (firstGigabyte.apply .paging4Level1GB none).pageTable movedPage := by
  refine ⟨by decide, by decide, ?_, movedPage_fair⟩
  intro x _ hstart hend hfirst _ _ a ha _ hframe
  have hlow : 0x1000 ≤ 0 + x := hstart
  have hhigh : 0 + x < 0x1000 + 0x1000 := hend
  have hcase : 0 + x = 0x1000 ∨ (0 + x) % 0x40000000 = 0 := hfirst
  obtain rfl : x = 0x1000 := by omega
  have hpage : effective 4 topAttribute (topNode .paging4Level1GB
      (firstGigabyte.apply .paging4Level1GB none).pageTable) 0x1000 =
        some { MapAttribute.nop with pageTableBaseAddress := 0x1000 } := by decide +kernel
  obtain rfl := Option.some.inj (hpage.symm.trans ha)
  exact absurd hframe (by decide)

theorem movedPage_translates :
    translate (movedPage.apply .paging4Level1GB
      (firstGigabyte.apply .paging4Level1GB none).pageTable).pageTable 0x1000 =
        some { MapAttribute.nop with pageTableBaseAddress := 0x402000 } :=
  (pageTableMap_translates (.inl rfl) firstGigabyte_reachable movedPage_meets (by decide +kernel)
    (by decide)).trans (by decide +kernel)

def nextPage : MapRequest where
  buffer := 0x200000
  bufferSize := 0x10000
  linearAddress := 0x1000
  length := 0x1000
  attr := { MapAttribute.nop with pageTableBaseAddress := 0x2000 }
  mask := allOneMask
  base_aligned := by decide
  buffer_aligned := by decide
  buffer_end := by decide

/-- The call succeeds and changes nothing: below the 1G page the addresses are compared in steps
of 2M. -/
theorem nextPage_not_mapped :
    Reachable PagingMode.paging4Level1GB.maxLevel
        (firstGigabyte.apply .paging4Level1GB none).pageTable ∧
      (nextPage.apply .paging4Level1GB
        (firstGigabyte.apply .paging4Level1GB none).pageTable).status = .success ∧
      translate (nextPage.apply .paging4Level1GB
          (firstGigabyte.apply .paging4Level1GB none).pageTable).pageTable 0x1000 =
        some { MapAttribute.nop with pageTableBaseAddress := 0x1000 } ∧
      nextPage.wanted 0x1000
          (translate (firstGigabyte.apply .paging4Level1GB none).pageTable 0x1000) =
        some { MapAttribute.nop with pageTableBaseAddress := 0x2000 } :=
  ⟨firstGigabyte_reachable, by decide +kernel, by decide +kernel, by decide +kernel⟩

/-- Requests one after the other, each of which succeeds under its conditions. -/
def Carried (mode : PagingMode) : List MapRequest → Option (PageTable mode.maxLevel) → Prop
  | [], _ => True
  | r :: rs, pt => Meets mode pt r ∧ (r.apply mode pt).status = .success ∧
    Carried mode rs (r.apply mode pt).pageTable

/-- The page table after a run of requests refines the map of addresses to which the same
changes are made one after the other. -/
theorem run_translates {rs : List MapRequest} (hmode : mode.maxLevel = 4 ∨ mode.maxLevel = 5)
    (hreach : Reachable mode.maxLevel pt) (h : Carried mode rs pt) {p : Nat}
    (hp : p < maxLinearAddress mode) :
    translate (rs.foldl (fun pt r => (r.apply mode pt).pageTable) pt) p =
      rs.foldl (fun found r => r.wanted p found) (translate pt p) := by
  have hpae : mode ≠ .pagingPae := by
    rintro rfl
    revert hmode
    decide
  induction rs generalizing pt with
  | nil => rfl
  | cons r rs ih =>
    obtain ⟨hmeets, hsucc, hrest⟩ := h
    have hnext := hreach.step hsucc (bufferSize_nonneg hreach.ok hmeets.fair hsucc)
    rw [List.foldl_cons, ih hnext hrest, apply_translate hpae hreach.ok hmeets hsucc hp]
    rfl

theorem firstGigabyte_meets : Meets .paging4Level1GB none firstGigabyte := by
  have hnone : ∀ x, leafLevel 4 (topNode .paging4Level1GB none) x = none :=
    fun x => leafLevel_absent rfl x
  refine ⟨by decide, by decide, fun x _ _ _ _ hlevel => ?_, exact_of_leafLevel fun x hlevel => ?_⟩
  · cases (hnone x).symm.trans hlevel
  · cases (hnone x).symm.trans hlevel

/-- Of two requests for one page the later one wins; the page after it stays where the earlier
one put it. -/
theorem overlapping_run :
    let pt := [firstGigabyte, movedPage].foldl
      (fun pt r => (r.apply .paging4Level1GB pt).pageTable) none
    translate pt 0x1000 = some { MapAttribute.nop with pageTableBaseAddress := 0x402000 } ∧
      translate pt 0x2000 = some { MapAttribute.nop with pageTableBaseAddress := 0x2000 } := by
  have hrun : Carried .paging4Level1GB [firstGigabyte, movedPage] none :=
    ⟨firstGigabyte_meets, by decide +kernel, movedPage_meets, by decide +kernel, trivial⟩
  exact ⟨(run_translates (.inl rfl) (.empty _) hrun (by decide)).trans (by decide +kernel),
    (run_translates (.inl rfl) (.empty _) hrun (by decide)).trans (by decide +kernel)⟩

end MuBasecore.PageTableRuns
