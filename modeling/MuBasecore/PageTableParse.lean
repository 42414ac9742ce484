import MuBasecore.EfiTypes
import MuBasecore.PagingEntries
import MuBasecore.StretchMerge

/-!
`PageTableParse`: the ranges of linear addresses that a page table maps. The entries of the
tables are visited in order; a region that goes on where the last range ends is added to it.
-/

namespace MuBasecore.PageTableParse

open EfiTypes PagingEntries StretchMerge Function List Nat List

structure MapEntry where
  linearAddress : Nat
  length : Nat
  attr : MapAttribute
deriving DecidableEq

/-- Where `LastEntry` may point to: into the array of the caller, or to the entry that is used
once the array is full. -/
inductive MapSlot
  | map (index : Nat)
  | oneEntry
deriving DecidableEq

structure ParseState where
  map : Nat → MapEntry
  mapCount : Nat
  lastEntry : Option MapSlot
  oneEntry : MapEntry

def ParseState.read (s : ParseState) : MapSlot → MapEntry
  | .map index => s.map index
  | .oneEntry => s.oneEntry

def ParseState.write (s : ParseState) (entry : MapEntry) : MapSlot → ParseState
  | .map index => { s with map := Function.update s.map index entry }
  | .oneEntry => { s with oneEntry := entry }

def canExtend (last : MapEntry) (regionStart : Nat) (attr : MapAttribute) : Bool :=
  (last.linearAddress + last.length) % 2 ^ 64 == regionStart &&
    (last.attr.pageTableBaseAddress + last.length) % 2 ^ 64 ==
      attr.pageTableBaseAddress &&
    last.attr.attributes == attr.attributes

def ParseState.newEntry (capacity regionStart length : Nat) (attr : MapAttribute)
    (s : ParseState) : ParseState :=
  let slot := if s.mapCount < capacity then MapSlot.map s.mapCount else MapSlot.oneEntry
  let s := s.write ⟨regionStart, length, attr⟩ slot
  { s with lastEntry := some slot, mapCount := s.mapCount + 1 }

def ParseState.record (capacity regionStart length : Nat) (attr : MapAttribute)
    (s : ParseState) : ParseState :=
  match s.lastEntry with
  | some slot =>
    let last := s.read slot
    if canExtend last regionStart attr then
      s.write { last with length := (last.length + length) % 2 ^ 64 } slot
    else s.newEntry capacity regionStart length attr
  | none => s.newEntry capacity regionStart length attr

def pagingEntryNumber (maxLevel level : Nat) : Nat :=
  if maxLevel = 3 ∧ level = 3 then 4 else 512

def parsePnle (m : TableMemory) (maxLevel capacity : Nat) :
    Nat → (Nat → PagingEntry) → Nat → MapAttribute → ParseState → ParseState
  | 0, _, _, _, s => s
  | level + 1, table, regionStart, parent, s =>
    (List.range (pagingEntryNumber maxLevel (level + 1))).foldl (fun s index =>
      let entry := table index
      let start := regionStart + index * regionLength (level + 1)
      if entry.present = false then s
      else if isPle entry (level + 1) then
        s.record capacity start (regionLength (level + 1))
          (getPleMapAttribute (level + 1) entry parent)
      else
        parsePnle m maxLevel capacity level (tableAt m entry.base40) start
          (getPnleMapAttribute entry parent) s) s

def paeTopEntry (e : PagingEntry) : PagingEntry :=
  (e ||| 0x6#64) &&& ~~~0x8000000000000000#64

def topTable (m : TableMemory) (mode : PagingMode) (pageTable : Nat) : Nat → PagingEntry :=
  if mode = .pagingPae then fun index => paeTopEntry (tableAt m pageTable index)
  else tableAt m pageTable

structure ParseResult where
  status : EfiStatus
  map : Nat → MapEntry
  mapCount : Nat

/-- `mapCount` is the capacity of the array. What the entry for a full array holds before is
`oneEntry`. -/
def pageTableParse (m : TableMemory) (pageTable : Nat) (mode : PagingMode)
    (map : Nat → MapEntry) (mapIsNull : Bool) (mapCount : Nat) (oneEntry : MapEntry) :
    ParseResult :=
  if mode = .paging32bit ∨ mode.value ≥ PagingMode.pagingModeMax.value then
    ⟨.unsupported, map, mapCount⟩
  else if mapCount ≠ 0 ∧ mapIsNull = true then ⟨.invalidParameter, map, mapCount⟩
  else if pageTable = 0 then ⟨.success, map, 0⟩
  else
    let s := parsePnle m mode.maxLevel mapCount mode.maxLevel (topTable m mode pageTable) 0 .nop
      ⟨map, 0, none, oneEntry⟩
    ⟨if s.mapCount > mapCount then .bufferTooSmall else .success, s.map, s.mapCount⟩

def progress : Progress MapAttribute where
  after n a := { a with pageTableBaseAddress := a.pageTableBaseAddress + n }
  after_zero _ := rfl
  after_add m n a := by simp only [Nat.add_assoc]

def leaves (m : TableMemory) (maxLevel : Nat) :
    Nat → (Nat → PagingEntry) → Nat → MapAttribute → List (Stretch MapAttribute)
  | 0, _, _, _ => []
  | level + 1, table, regionStart, parent =>
    (List.range (pagingEntryNumber maxLevel (level + 1))).flatMap fun index =>
      let entry := table index
      let start := regionStart + index * regionLength (level + 1)
      if entry.present = false then []
      else if isPle entry (level + 1) then
        [⟨start, regionLength (level + 1), getPleMapAttribute (level + 1) entry parent⟩]
      else
        leaves m maxLevel level (tableAt m entry.base40) start (getPnleMapAttribute entry parent)

def ParseState.recordLeaf (capacity : Nat) (s : ParseState) (piece : Stretch MapAttribute) :
    ParseState :=
  s.record capacity piece.first piece.length piece.label

theorem parsePnle_eq (m : TableMemory) (maxLevel capacity level : Nat)
    (table : Nat → PagingEntry) (region : Nat) (parent : MapAttribute) (s : ParseState) :
    parsePnle m maxLevel capacity level table region parent s =
      (leaves m maxLevel level table region parent).foldl (ParseState.recordLeaf capacity) s := by
  induction level generalizing table region parent s with
  | zero => rfl
  | succ level ih =>
    rw [parsePnle, leaves, foldl_flatMap]
    congr 1
    funext s index
    dsimp only
    split
    · rfl
    · split
      · rfl
      · exact ih ..

variable {n length p : Nat} {f : Nat → List (Stretch MapAttribute)} {a : MapAttribute}
  {pieces : List (Stretch MapAttribute)} {m : TableMemory}

section Leaves

variable {maxLevel level : Nat} {table : Nat → PagingEntry} {start : Nat} {parent : MapAttribute}

theorem pagingEntryNumber_of_lt (h : level < maxLevel) : pagingEntryNumber maxLevel level = 512 :=
  if_neg fun ⟨hmax, hlev⟩ => by omega

def entryLeaves (m : TableMemory) (maxLevel level : Nat) (entry : PagingEntry) (start : Nat)
    (parent : MapAttribute) : List (Stretch MapAttribute) :=
  if entry.present = false then []
  else if isPle entry (level + 1) then
    [⟨start, regionLength (level + 1), getPleMapAttribute (level + 1) entry parent⟩]
  else leaves m maxLevel level (tableAt m entry.base40) start (getPnleMapAttribute entry parent)

theorem leaves_succ :
    leaves m maxLevel (level + 1) table start parent =
      (range (pagingEntryNumber maxLevel (level + 1))).flatMap fun index =>
        entryLeaves m maxLevel level (table index) (start + index * regionLength (level + 1))
          parent := rfl

structure LeavesIn (lower upper : Nat) (pieces : List (Stretch MapAttribute)) : Prop where
  before : pieces.Pairwise Before
  range : ∀ s ∈ pieces, lower ≤ s.first ∧ s.first + s.length ≤ upper
  proper : ∀ s ∈ pieces, 0 < s.length ∧ s.label.pageTableBaseAddress < 2 ^ 52

theorem leavesIn_nil (lower upper : Nat) : LeavesIn lower upper [] :=
  ⟨.nil, fun _ hs => (not_mem_nil hs).elim, fun _ hs => (not_mem_nil hs).elim⟩

theorem leavesIn_flatMap
    (h : ∀ i < n, LeavesIn (start + i * length) (start + (i + 1) * length) (f i)) :
    LeavesIn start (start + n * length) ((range n).flatMap f) := by
  induction n with
  | zero => exact leavesIn_nil _ _
  | succ n ih =>
    have hinit := ih fun i hi => h i (lt_succ_of_lt hi)
    have hlast := h n (lt_succ_self n)
    rw [range_succ, flatMap_append, flatMap_singleton]
    have hstep : start + n * length ≤ start + (n + 1) * length := by
      rw [succ_mul]
      omega
    refine ⟨pairwise_append.2 ⟨hinit.before, hlast.before, ?_⟩, ?_, ?_⟩
    · intro s hs t ht
      exact le_trans (hinit.range s hs).2 (hlast.range t ht).1
    · intro s hs
      rcases mem_append.1 hs with hs | hs
      · exact ⟨(hinit.range s hs).1, le_trans (hinit.range s hs).2 hstep⟩
      · exact ⟨le_trans (Nat.le_add_right ..) (hlast.range s hs).1, (hlast.range s hs).2⟩
    · intro s hs
      rcases mem_append.1 hs with hs | hs
      · exact hinit.proper s hs
      · exact hlast.proper s hs

theorem leavesIn_leaves (hlev : level ≤ maxLevel) :
    LeavesIn start (start + pagingEntryNumber maxLevel level * regionLength level)
      (leaves m maxLevel level table start parent) := by
  induction level generalizing table start parent with
  | zero => exact leavesIn_nil _ _
  | succ level ih =>
    rw [leaves_succ]
    refine leavesIn_flatMap fun i hi => ?_
    have hend : start + (i + 1) * regionLength (level + 1) =
        start + i * regionLength (level + 1) + regionLength (level + 1) := by
      rw [succ_mul, add_assoc]
    rw [entryLeaves, hend]
    split
    · exact leavesIn_nil _ _
    · split
      · refine ⟨pairwise_singleton _ _, ?_, ?_⟩
        · intro s hs
          rw [mem_singleton.1 hs]
          exact ⟨le_rfl, le_rfl⟩
        · intro s hs
          rw [mem_singleton.1 hs]
          exact ⟨regionLength_pos _, getPleMapAttribute_base_lt ..⟩
      · rw [regionLength_succ level, ← pagingEntryNumber_of_lt hlev]
        exact ih (le_of_succ_le hlev)

def entryWalk (m : TableMemory) (level : Nat) (e : PagingEntry) (offset : Nat) :
    Option MapAttribute :=
  if e.present then
    if isPle e (level + 1) then some (leafAttribute (level + 1) e offset)
    else (pageWalk m level (tableAt m e.base40) offset).map (restrict e)
  else none

theorem pageWalk_succ (offset : Nat) :
    pageWalk m (level + 1) table offset =
      entryWalk m level (table (offset / regionLength (level + 1)))
        (offset % regionLength (level + 1)) := rfl

def Tells (pieces : List (Stretch MapAttribute)) (start length : Nat) (parent : MapAttribute)
    (walk : Nat → Option MapAttribute) : Prop :=
  ∀ p a, At progress pieces p a ↔
    start ≤ p ∧ p < start + length ∧ ∃ b, walk (p - start) = some b ∧ parent.under b = a

theorem tells_entryLeaves {e : PagingEntry}
    (hkid : e.present = true → Tells
      (leaves m maxLevel level (tableAt m e.base40) start (getPnleMapAttribute e parent)) start
      (regionLength (level + 1)) (getPnleMapAttribute e parent)
      (pageWalk m level (tableAt m e.base40))) :
    Tells (entryLeaves m maxLevel level e start parent) start (regionLength (level + 1)) parent
      (entryWalk m level e) := by
  intro p a
  rw [entryLeaves, entryWalk]
  split
  next hpres =>
    rw [if_neg (by rw [hpres]; decide)]
    constructor
    · intro h
      exact absurd h (at_nil progress)
    · rintro ⟨-, -, b, hb, -⟩
      cases hb
  next hpres =>
    have hpres : e.present = true := by simpa using hpres
    split
    · rw [at_cons, or_iff_left (at_nil progress), Stretch.Has]
      refine and_congr_right fun hfst => and_congr_right fun hlast => ?_
      have hafter : progress.after (p - start) (getPleMapAttribute (level + 1) e parent) =
          parent.under (leafAttribute (level + 1) e (p - start)) := by
        rw [getPleMapAttribute_eq hpres]
        rfl
      constructor
      · intro h
        exact ⟨_, rfl, hafter ▸ h⟩
      · rintro ⟨b, hb, h⟩
        cases hb
        exact hafter ▸ h
    · rw [hkid hpres p a]
      refine and_congr_right fun hfst => and_congr_right fun hlast => ?_
      constructor
      · rintro ⟨b, hb, h⟩
        rw [getPnleMapAttribute_under hpres] at h
        exact ⟨restrict e b, by rw [hb]; rfl, h⟩
      · rintro ⟨b, hb, h⟩
        obtain ⟨c, hc, rfl⟩ := Option.map_eq_some_iff.1 hb
        exact ⟨c, hc, by rw [getPnleMapAttribute_under hpres]; exact h⟩

theorem tells_flatMap {walk : Nat → Nat → Option MapAttribute} (hlng : 0 < length)
    (h : ∀ i < n, Tells (f i) (start + i * length) length parent (walk i)) :
    Tells ((range n).flatMap f) start (n * length) parent
      (fun offset => walk (offset / length) (offset % length)) := by
  intro p a
  rw [at_flatMap]
  constructor
  · rintro ⟨i, hi, hat⟩
    have hi := mem_range.1 hi
    obtain ⟨hfst, hlast, b, hb, ha⟩ := (h i hi p a).1 hat
    have hsucc : (i + 1) * length ≤ n * length := mul_le_mul_right _ hi
    rw [succ_mul] at hsucc
    have hoff : p - start = (p - (start + i * length)) + length * i := by
      rw [mul_comm length]
      omega
    refine ⟨by omega, by omega, b, ?_, ha⟩
    change walk ((p - start) / length) ((p - start) % length) = some b
    rw [hoff, add_mul_div_left _ _ hlng, add_mul_mod_self_left,
      div_eq_of_lt (by omega), mod_eq_of_lt (by omega), zero_add]
    exact hb
  · rintro ⟨hfst, hlast, b, hb, ha⟩
    have hdiv := div_add_mod (p - start) length
    have hmod := mod_lt (p - start) hlng
    have hi : (p - start) / length < n := by
      rw [div_lt_iff_lt_mul hlng]
      omega
    refine ⟨(p - start) / length, mem_range.2 hi, (h _ hi p a).2 ?_⟩
    rw [mul_comm] at hdiv
    refine ⟨by omega, by omega, b, ?_, ha⟩
    rw [show p - (start + (p - start) / length * length) = (p - start) % length by omega]
    exact hb

theorem tells_leaves (hlev : level ≤ maxLevel) :
    Tells (leaves m maxLevel level table start parent) start
      (pagingEntryNumber maxLevel level * regionLength level) parent (pageWalk m level table) := by
  induction level generalizing table start parent with
  | zero =>
    intro p a
    constructor
    · intro h
      exact absurd h (at_nil progress)
    · rintro ⟨-, -, b, hb, -⟩
      cases hb
  | succ level ih =>
    refine tells_flatMap (regionLength_pos _) fun i _ => tells_entryLeaves fun _ => ?_
    rw [regionLength_succ level, ← pagingEntryNumber_of_lt hlev]
    exact ih (le_of_succ_le hlev)

end Leaves

section Recording

def MapEntry.stretch (e : MapEntry) : Stretch MapAttribute :=
  ⟨e.linearAddress, e.length, e.attr⟩

def lastSlot (capacity : Nat) : Nat → Option MapSlot
  | 0 => none
  | n + 1 => some (if n < capacity then .map n else .oneEntry)

structure Holds (capacity : Nat) (map₀ : Nat → MapEntry) (s : ParseState)
    (l : List (Stretch MapAttribute)) : Prop where
  count : s.mapCount = l.length
  listed : ∀ i < capacity, ∀ t, l.reverse[i]? = some t → (s.map i).stretch = t
  kept : ∀ i, l.length ≤ i ∨ capacity ≤ i → s.map i = map₀ i
  last : s.lastEntry = lastSlot capacity l.length
  lastRead : ∀ t ∈ l.head?, ∀ slot ∈ s.lastEntry, (s.read slot).stretch = t

def Small (s : Stretch MapAttribute) : Prop :=
  s.first + s.length ≤ 2 ^ 57 ∧ 0 < s.length ∧ s.label.pageTableBaseAddress < 2 ^ 52

theorem after_eq_iff {b : MapAttribute} :
    progress.after n a = b ↔
      a.pageTableBaseAddress + n = b.pageTableBaseAddress ∧ a.attributes = b.attributes := by
  cases a
  cases b
  simp only [progress, MapAttribute.attributes, MapAttribute.mk.injEq]
  tauto

theorem canExtend_iff {last : MapEntry} {piece : Stretch MapAttribute}
    (hlast : Small last.stretch) :
    canExtend last piece.first piece.label = true ↔ Continues progress last.stretch piece := by
  obtain ⟨hend, -, hbase⟩ := hlast
  change last.linearAddress + last.length ≤ 2 ^ 57 at hend
  change last.attr.pageTableBaseAddress < 2 ^ 52 at hbase
  rw [canExtend, Bool.and_eq_true, Bool.and_eq_true, beq_iff_eq, beq_iff_eq, beq_iff_eq,
    mod_eq_of_lt (by omega), mod_eq_of_lt (by omega), and_assoc, Continues, after_eq_iff]
  rfl

variable {capacity : Nat} {map₀ : Nat → MapEntry} {s : ParseState}
  {l : List (Stretch MapAttribute)} {piece : Stretch MapAttribute}

theorem getElem?_reverse_cons {i : Nat} {t : Stretch MapAttribute} (hi : i < l.length) :
    (t :: l).reverse[i]? = l.reverse[i]? := by
  rw [reverse_cons, List.getElem?_append_left (by rwa [length_reverse])]

theorem listed_concat {map : Nat → MapEntry} (entry : MapEntry)
    (hl : ∀ i < capacity, ∀ t, l.reverse[i]? = some t → (map i).stretch = t) :
    ∀ i < capacity, ∀ t, (entry.stretch :: l).reverse[i]? = some t →
      (update map l.length entry i).stretch = t := by
  intro i hi t ht
  have hlen := (List.getElem?_eq_some_iff.1 ht).1
  rw [length_reverse, length_cons] at hlen
  rcases eq_or_ne i l.length with heq | hne
  · rw [heq, reverse_cons, ← length_reverse, List.getElem?_concat_length] at ht
    rw [heq, update_self]
    exact Option.some.inj ht
  · rw [getElem?_reverse_cons (by omega)] at ht
    rw [update_of_ne hne]
    exact hl i hi t ht

theorem Holds.newEntry (h : Holds capacity map₀ s l) :
    Holds capacity map₀ (s.newEntry capacity piece.first piece.length piece.label)
      (piece :: l) := by
  have hcnt := h.count
  rcases lt_or_ge l.length capacity with hroom | hfull
  · have hnew : s.newEntry capacity piece.first piece.length piece.label =
        { s with
          map := update s.map l.length ⟨piece.first, piece.length, piece.label⟩
          lastEntry := some (.map l.length)
          mapCount := l.length + 1 } := by
      rw [ParseState.newEntry, hcnt, if_pos hroom]
      simp only [ParseState.write, hcnt]
    rw [hnew]
    refine ⟨rfl, ?_, ?_, ?_, ?_⟩
    · exact listed_concat ⟨piece.first, piece.length, piece.label⟩ h.listed
    · intro i hi
      dsimp only
      rw [length_cons] at hi
      rw [update_of_ne (by omega)]
      exact h.kept i (by omega)
    · rw [length_cons, lastSlot, if_pos hroom]
    · intro t ht slot hslot
      cases hslot
      cases ht
      simp [ParseState.read, MapEntry.stretch]
  · have hnew : s.newEntry capacity piece.first piece.length piece.label =
        { s with
          oneEntry := ⟨piece.first, piece.length, piece.label⟩
          lastEntry := some .oneEntry
          mapCount := l.length + 1 } := by
      rw [ParseState.newEntry, hcnt, if_neg (not_lt.2 hfull)]
      simp only [ParseState.write, hcnt]
    rw [hnew]
    refine ⟨rfl, ?_, ?_, ?_, ?_⟩
    · intro i hi t ht
      rw [getElem?_reverse_cons (by omega)] at ht
      exact h.listed i hi t ht
    · intro i hi
      rw [length_cons] at hi
      exact h.kept i (by omega)
    · rw [length_cons, lastSlot, if_neg (not_lt.2 hfull)]
    · intro t ht slot hslot
      cases hslot
      cases ht
      rfl

theorem lastSlot_succ (n : Nat) :
    lastSlot capacity (n + 1) = some (if n < capacity then .map n else .oneEntry) := rfl

theorem Holds.rewrite {t t' : Stretch MapAttribute} (h : Holds capacity map₀ s (t :: l))
    {slot : MapSlot} (hslot : s.lastEntry = some slot) {entry : MapEntry}
    (hent : entry.stretch = t') : Holds capacity map₀ (s.write entry slot) (t' :: l) := by
  have hwhere := h.last
  rw [hslot, length_cons, lastSlot_succ, Option.some.injEq] at hwhere
  rcases lt_or_ge l.length capacity with hroom | hfull
  · rw [if_pos hroom] at hwhere
    subst hwhere
    refine ⟨h.count, ?_, ?_, ?_, ?_⟩
    · refine hent ▸ listed_concat entry fun i hi r hr => h.listed i hi r ?_
      rwa [getElem?_reverse_cons]
      simpa using (List.getElem?_eq_some_iff.1 hr).1
    · intro i hi
      change update s.map l.length entry i = map₀ i
      rw [length_cons] at hi
      rw [update_of_ne (by omega)]
      exact h.kept i (by rw [length_cons]; exact hi)
    · exact h.last
    · intro r hr slot' hslot'
      change slot' ∈ s.lastEntry at hslot'
      rw [hslot] at hslot'
      cases hslot'
      cases hr
      change (update s.map l.length entry l.length).stretch = _
      rw [update_self, hent]
  · rw [if_neg (not_lt.2 hfull)] at hwhere
    subst hwhere
    refine ⟨h.count, ?_, h.kept, h.last, ?_⟩
    · intro i hi r hr
      have hi' := h.listed i hi
      rw [getElem?_reverse_cons (by omega)] at hr hi'
      exact hi' r hr
    · intro r hr slot' hslot'
      change slot' ∈ s.lastEntry at hslot'
      rw [hslot] at hslot'
      cases hslot'
      cases hr
      exact hent

theorem Holds.record (h : Holds capacity map₀ s l) (hl : ∀ t ∈ l, Small t) (hpiece : Small piece) :
    Holds capacity map₀ (s.recordLeaf capacity piece) (push progress l piece) := by
  rw [ParseState.recordLeaf, ParseState.record]
  cases l with
  | nil =>
    have hlast : s.lastEntry = none := h.last
    rw [hlast]
    exact h.newEntry
  | cons t l =>
    obtain ⟨slot, hslot⟩ : ∃ slot, s.lastEntry = some slot := ⟨_, h.last⟩
    have hread : (s.read slot).stretch = t := h.lastRead t rfl slot hslot
    have ht : Small (s.read slot).stretch := hread ▸ hl t (mem_cons_self ..)
    rw [hslot, push]
    dsimp only
    split
    next hextend =>
      have hcont := (canExtend_iff ht).1 hextend
      rw [hread] at hcont
      rw [if_pos hcont]
      refine h.rewrite hslot ?_
      have hlng : ((s.read slot).length + piece.length) % 2 ^ 64 = t.length + piece.length := by
        have hend := hcont.1
        have hpiece := hpiece.1
        rw [← hread] at hend ⊢
        change (s.read slot).linearAddress + (s.read slot).length = piece.first at hend
        exact mod_eq_of_lt (by omega)
      rw [MapEntry.stretch, hlng, ← hread]
      rfl
    next hextend =>
      rw [if_neg fun hcont => hextend ((canExtend_iff ht).2 (hread ▸ hcont))]
      exact h.newEntry

theorem small_push (hl : ∀ t ∈ l, Small t) (hpiece : Small piece) :
    ∀ t ∈ push progress l piece, Small t := by
  cases l with
  | nil =>
    intro t ht
    rw [mem_singleton.1 ht]
    exact hpiece
  | cons r l =>
    rw [push]
    split
    next hcont =>
      intro t ht
      rcases mem_cons.1 ht with rfl | ht
      · have hend := hcont.1
        have hpiece := hpiece.1
        obtain ⟨-, hpos, hbase⟩ := hl r (mem_cons_self ..)
        exact ⟨by dsimp only; omega, by dsimp only; omega, hbase⟩
      · exact hl t (mem_cons_of_mem _ ht)
    · intro t ht
      rcases mem_cons.1 ht with rfl | ht
      · exact hpiece
      · exact hl t ht

theorem small_foldl (hl : ∀ t ∈ l, Small t)
    (hpts : ∀ t ∈ pieces, Small t) : ∀ t ∈ pieces.foldl (push progress) l, Small t := by
  induction pieces generalizing l with
  | nil => exact hl
  | cons piece pieces ih =>
    refine ih (small_push hl (hpts piece (mem_cons_self ..))) fun t ht => ?_
    exact hpts t (mem_cons_of_mem _ ht)

theorem Holds.foldl (h : Holds capacity map₀ s l)
    (hl : ∀ t ∈ l, Small t) (hpts : ∀ t ∈ pieces, Small t) :
    Holds capacity map₀ (pieces.foldl (ParseState.recordLeaf capacity) s)
      (pieces.foldl (push progress) l) := by
  induction pieces generalizing s l with
  | nil => exact h
  | cons piece pieces ih =>
    have hpiece := hpts piece (mem_cons_self ..)
    exact ih (h.record hl hpiece) (small_push hl hpiece) fun t ht =>
      hpts t (mem_cons_of_mem _ ht)

end Recording

variable {mode : PagingMode} {pageTable : Nat}

def MapEntry.attrAt (e : MapEntry) (p : Nat) : MapAttribute :=
  { e.attr with pageTableBaseAddress := e.attr.pageTableBaseAddress + (p - e.linearAddress) }

def MapEntry.Mergeable (e f : MapEntry) : Prop :=
  e.linearAddress + e.length = f.linearAddress ∧
    { e.attr with pageTableBaseAddress := e.attr.pageTableBaseAddress + e.length } = f.attr

/-- The entries are the maximal runs of the translation. -/
structure Lists (translation : Nat → Option MapAttribute) (l : List MapEntry) : Prop where
  complete : ∀ p a, (∃ e ∈ l, e.linearAddress ≤ p ∧ p < e.linearAddress + e.length ∧
    e.attrAt p = a) ↔ translation p = some a
  sorted : l.Pairwise fun e f => e.linearAddress + e.length ≤ f.linearAddress
  maximal : l.IsChain fun e f => ¬ e.Mergeable f
  nonempty : ∀ e ∈ l, 0 < e.length

/-- What a call returns, whatever the array is: the number of the ranges; the array has as
many of them as it can hold, and is otherwise as it was. -/
def Reports (m : TableMemory) (pageTable : Nat) (mode : PagingMode) (l : List MapEntry) : Prop :=
  ∀ (map : Nat → MapEntry) (mapIsNull : Bool) (capacity : Nat) (oneEntry : MapEntry),
    (capacity ≠ 0 → mapIsNull = false) →
    let r := pageTableParse m pageTable mode map mapIsNull capacity oneEntry
    r.mapCount = l.length ∧
      r.status = (if l.length ≤ capacity then .success else .bufferTooSmall) ∧
      (∀ i < capacity, ∀ e, l[i]? = some e → r.map i = e) ∧
      ∀ i, l.length ≤ i ∨ capacity ≤ i → r.map i = map i

/-- The parser returns the runs of the translation. -/
def ParsesExactly (m : TableMemory) (pageTable : Nat) (mode : PagingMode) : Prop :=
  ∃ l, Lists (PagingEntries.translate m mode pageTable) l ∧ Reports m pageTable mode l

def PagingMode.Supported (mode : PagingMode) : Prop :=
  mode ≠ .paging32bit ∧ mode ≠ .pagingModeMax

theorem supported_value (h : PagingMode.Supported mode) :
    ¬ (mode = .paging32bit ∨ mode.value ≥ PagingMode.pagingModeMax.value) := by
  rintro (hmode | hmode)
  · exact h.1 hmode
  · cases mode with
    | pagingModeMax => exact h.2 rfl
    | _ => exact absurd hmode (by decide)

theorem maxLevel_le : mode.maxLevel ≤ 5 := by
  cases mode <;> decide

def parsedTranslation (m : TableMemory) (mode : PagingMode) (pageTable p : Nat) :
    Option MapAttribute :=
  if pageTable = 0 then none
  else if p < pagingEntryNumber mode.maxLevel mode.maxLevel * regionLength mode.maxLevel then
    pageWalk m mode.maxLevel (topTable m mode pageTable) p
  else none

def Stretch.entry (s : Stretch MapAttribute) : MapEntry :=
  ⟨s.first, s.length, s.label⟩

def parsedRanges (m : TableMemory) (mode : PagingMode) (pageTable : Nat) : List MapEntry :=
  if pageTable = 0 then []
  else (((leaves m mode.maxLevel mode.maxLevel (topTable m mode pageTable) 0 .nop).foldl
    (push progress) []).map Stretch.entry).reverse

theorem pagingEntryNumber_le (maxLevel level : Nat) : pagingEntryNumber maxLevel level ≤ 512 := by
  rw [pagingEntryNumber]
  split
  · decide
  · exact le_rfl

theorem topLength_le (mode : PagingMode) :
    pagingEntryNumber mode.maxLevel mode.maxLevel * regionLength mode.maxLevel ≤ 2 ^ 57 :=
  calc pagingEntryNumber mode.maxLevel mode.maxLevel * regionLength mode.maxLevel
      ≤ 512 * 2 ^ 48 := Nat.mul_le_mul (pagingEntryNumber_le _ _) (regionLength_le (maxLevel_le))
    _ = 2 ^ 57 := by decide

theorem top_small (mode : PagingMode) (table : Nat → PagingEntry) :
    ∀ t ∈ leaves m mode.maxLevel mode.maxLevel table 0 .nop, Small t := by
  intro t ht
  have hin : LeavesIn 0 _ (leaves m mode.maxLevel mode.maxLevel table 0 .nop) :=
    leavesIn_leaves le_rfl
  have hrng := (hin.range t ht).2
  have htop := topLength_le mode
  exact ⟨by omega, hin.proper t ht⟩

theorem parsed_lists :
    Lists (parsedTranslation m mode pageTable) (parsedRanges m mode pageTable) := by
  rw [parsedRanges]
  rcases eq_or_ne pageTable 0 with hzero | hzero
  · rw [if_pos hzero]
    refine ⟨fun p a => ⟨?_, fun h => ?_⟩, .nil, .nil, fun e he => nomatch he⟩
    · rintro ⟨e, he, -⟩
      cases he
    · rw [parsedTranslation, if_pos hzero] at h
      cases h
  · rw [if_neg hzero]
    have hin : LeavesIn 0 _ (leaves m mode.maxLevel mode.maxLevel (topTable m mode pageTable) 0
      .nop) := leavesIn_leaves le_rfl
    have htells : Tells (leaves m mode.maxLevel mode.maxLevel (topTable m mode pageTable) 0 .nop)
      0 _ .nop _ := tells_leaves le_rfl
    obtain ⟨hmerge, hat⟩ := foldl_push (merged_nil progress 0) (zero_le _) hin.before hin.range
    have hsml := small_foldl (l := []) (fun t ht => (not_mem_nil ht).elim)
      (top_small (m := m) mode (topTable m mode pageTable))
    refine ⟨fun p a => ?_, ?_, ?_, ?_⟩
    · have hmem : (∃ e ∈ ((foldl (push progress) [] (leaves m mode.maxLevel mode.maxLevel
          (topTable m mode pageTable) 0 .nop)).map Stretch.entry).reverse,
          e.linearAddress ≤ p ∧ p < e.linearAddress + e.length ∧ e.attrAt p = a) ↔
          At progress (foldl (push progress) [] (leaves m mode.maxLevel mode.maxLevel
            (topTable m mode pageTable) 0 .nop)) p a := by
        simp only [mem_reverse, mem_map, exists_exists_and_eq_and]
        rfl
      rw [hmem, hat, or_iff_right (at_nil progress), htells p a, parsedTranslation, if_neg hzero]
      simp only [zero_le, true_and, zero_add, under_nop, exists_eq_right]
      split
      next hp =>
        exact and_iff_right hp
      next hp =>
        exact ⟨fun h => absurd h.1 hp, fun h => nomatch h⟩
    · rw [pairwise_reverse, pairwise_map]
      exact hmerge.before
    · rw [isChain_reverse, isChain_map]
      exact hmerge.maximal
    · intro e he
      obtain ⟨t, ht, rfl⟩ := mem_map.1 (mem_reverse.1 he)
      exact (hsml t ht).2.1

theorem parsed_reports (hmode : PagingMode.Supported mode) :
    Reports m pageTable mode (parsedRanges m mode pageTable) := by
  intro map mapIsNull capacity oneEntry hnull
  rw [pageTableParse, if_neg (supported_value hmode),
    if_neg (fun h => by rw [hnull h.1] at h; exact nomatch h.2), parsedRanges]
  rcases eq_or_ne pageTable 0 with hzero | hzero
  · rw [if_pos hzero, if_pos hzero]
    exact ⟨rfl, rfl, fun i _ e he => (nomatch he), fun i _ => rfl⟩
  · rw [if_neg hzero, if_neg hzero]
    dsimp only
    rw [parsePnle_eq]
    have hst : Holds capacity map ⟨map, 0, none, oneEntry⟩ [] :=
      ⟨rfl, fun i _ t ht => (nomatch ht), fun i _ => rfl, rfl, fun t ht => (nomatch ht)⟩
    have hhold := hst.foldl (fun t ht => (not_mem_nil ht).elim)
      (top_small (m := m) mode (topTable m mode pageTable))
    rw [length_reverse, length_map, hhold.count]
    refine ⟨rfl, ?_, ?_, hhold.kept⟩
    · simp only [gt_iff_lt, ← not_le, ite_not]
    · intro i hi e he
      rw [← map_reverse, List.getElem?_map] at he
      obtain ⟨t, ht, rfl⟩ := Option.map_eq_some_iff.1 he
      rw [← hhold.listed i hi t ht]
      rfl

theorem PagingEntry.bit_eq_false {e : PagingEntry} (h : e.PdptePaeOk) {i : Nat}
    (hi : (0xFFF00000000001E6#64).getLsbD i = true) : e.getLsbD i = false := by
  have hbit := congrArg (BitVec.getLsbD · i) h
  rw [BitVec.getLsbD_and, hi, Bool.and_true] at hbit
  exact hbit.trans BitVec.getLsbD_zero

variable {e : PagingEntry}

theorem paeTopEntry_bit (i : Nat) :
    (paeTopEntry e).getLsbD i =
      ((e.getLsbD i || (0x6#64).getLsbD i) && (~~~0x8000000000000000#64).getLsbD i) := by
  rw [paeTopEntry, BitVec.getLsbD_and, BitVec.getLsbD_or]

theorem paeTopEntry_base40 : (paeTopEntry e).base40 = e.base40 := by
  have hmask : paeTopEntry e &&& baseAddressMask40 = e &&& baseAddressMask40 := by
    refine BitVec.eq_of_getLsbD_eq fun i _ => ?_
    have hset := congrArg (BitVec.getLsbD · i) (show 0x6#64 &&& baseAddressMask40 = 0#64 by decide)
    have hcleared := congrArg (BitVec.getLsbD · i)
      (show ~~~0x8000000000000000#64 &&& baseAddressMask40 = baseAddressMask40 by decide)
    rw [BitVec.getLsbD_and] at hset hcleared
    rw [BitVec.getLsbD_and, BitVec.getLsbD_and, paeTopEntry_bit]
    revert hset hcleared
    cases e.getLsbD i <;> cases (0x6#64).getLsbD i <;> cases baseAddressMask40.getLsbD i <;> simp
  rw [PagingEntry.base40, PagingEntry.base40, hmask]

theorem pageWalk_pae {table top : Nat → PagingEntry}
    (hpres : ∀ i, (top i).present = (table i).present)
    (hbase : ∀ i, (top i).base40 = (table i).base40)
    (hleaf : (table (p / regionLength 3)).present = true →
      (top (p / regionLength 3)).mustBeOne = false) :
    pageWalk m 3 top p = (paeWalk m table p).map (restrict (top (p / regionLength 3))) := by
  rw [pageWalk_succ, entryWalk, paeWalk, hpres, hbase]
  rcases Bool.eq_false_or_eq_true (table (p / regionLength 3)).present with h | h
  · have hnonleaf : isPle (top (p / regionLength 3)) 3 = false := by
      rw [isPle, hleaf h]
      rfl
    rw [h, if_pos rfl, if_pos rfl, hnonleaf]
    rfl
  · rw [h]
    rfl

theorem restrict_of_rights (hread : e.readWrite = true)
    (huser : e.userSupervisor = true) (hnx : e.nx = false) (a : MapAttribute) :
    restrict e a = a := by
  simp [restrict, hread, huser, hnx]

theorem maxLevel_eq_three (h : mode.maxLevel = 3) : mode = .pagingPae ∨ mode = .pagingPae4KB := by
  cases mode with
  | pagingPae => exact .inl rfl
  | pagingPae4KB => exact .inr rfl
  | _ => exact absurd h (by decide)

theorem translate_pae (h : mode.maxLevel = 3) (hzero : pageTable ≠ 0) (p : Nat) :
    PagingEntries.translate m mode pageTable p =
      if p < 4 * regionLength 3 then paeWalk m (tableAt m pageTable) p else none := by
  rw [PagingEntries.translate, if_neg hzero, if_pos h]

theorem parsedTranslation_pae (h : mode.maxLevel = 3) (hzero : pageTable ≠ 0) (p : Nat) :
    parsedTranslation m mode pageTable p =
      if p < 4 * regionLength 3 then pageWalk m 3 (topTable m mode pageTable) p else none := by
  rw [parsedTranslation, if_neg hzero, h]
  rfl

theorem parsedTranslation_eq (hwf : WellFormed m mode pageTable) (hmode : mode ≠ .pagingPae4KB)
    (p : Nat) :
    parsedTranslation m mode pageTable p = PagingEntries.translate m mode pageTable p := by
  rcases eq_or_ne pageTable 0 with hzero | hzero
  · rw [parsedTranslation, PagingEntries.translate, if_pos hzero, if_pos hzero]
  · rcases eq_or_ne mode.maxLevel 3 with hlev | hlev
    · rw [parsedTranslation_pae hlev hzero, translate_pae hlev hzero]
      have hpae : mode = .pagingPae := (maxLevel_eq_three hlev).resolve_right hmode
      have htop : topTable m mode pageTable = fun i => paeTopEntry (tableAt m pageTable i) := by
        rw [topTable, if_pos hpae]
      rw [htop]
      split
      next hp =>
        have hidx : p / regionLength 3 < 4 := (div_lt_iff_lt_mul (regionLength_pos 3)).2 hp
        have hrights : restrict (paeTopEntry (tableAt m pageTable (p / regionLength 3))) = id := by
          funext a
          refine restrict_of_rights ?_ ?_ ?_ a
          · rw [PagingEntry.readWrite, paeTopEntry_bit, show (0x6#64).getLsbD 1 = true from rfl,
              Bool.or_true]
            rfl
          · rw [PagingEntry.userSupervisor, paeTopEntry_bit,
              show (0x6#64).getLsbD 2 = true from rfl, Bool.or_true]
            rfl
          · rw [PagingEntry.nx, paeTopEntry_bit]
            exact Bool.and_false _
        refine (pageWalk_pae (fun i => ?_) (fun i => paeTopEntry_base40) ?_).trans ?_
        · rw [PagingEntry.present, paeTopEntry_bit]
          exact (Bool.and_true _).trans (Bool.or_false _)
        · intro hpres
          rw [PagingEntry.mustBeOne, paeTopEntry_bit,
            PagingEntry.bit_eq_false (hwf hlev _ hidx hpres) rfl]
          rfl
        · rw [hrights, Option.map_id_apply]
      · rfl
    · have htop : topTable m mode pageTable = tableAt m pageTable := by
        rw [topTable, if_neg]
        rintro rfl
        exact hlev rfl
      have hnum : pagingEntryNumber mode.maxLevel mode.maxLevel = 512 :=
        if_neg fun h => hlev h.1
      rw [parsedTranslation, PagingEntries.translate, if_neg hzero, if_neg hzero, if_neg hlev,
        htop, hnum]

def withoutRights (a : MapAttribute) : MapAttribute :=
  { a with readWrite := false, userSupervisor := false }

theorem withoutRights_eq (hread : a.readWrite = false)
    (huser : a.userSupervisor = false) : withoutRights a = a := by
  cases a
  subst hread huser
  rfl

theorem parsedTranslation_pae4KB (hwf : WellFormed m .pagingPae4KB pageTable) (p : Nat) :
    parsedTranslation m .pagingPae4KB pageTable p =
      (PagingEntries.translate m .pagingPae4KB pageTable p).map withoutRights := by
  rcases eq_or_ne pageTable 0 with hzero | hzero
  · rw [parsedTranslation, PagingEntries.translate, if_pos hzero, if_pos hzero]
    rfl
  · rw [parsedTranslation_pae rfl hzero, translate_pae rfl hzero]
    have htop : topTable m .pagingPae4KB pageTable = tableAt m pageTable := rfl
    rw [htop]
    split
    next hp =>
      have hidx : p / regionLength 3 < 4 := (div_lt_iff_lt_mul (regionLength_pos 3)).2 hp
      refine (pageWalk_pae (fun i => rfl) (fun i => rfl) fun hpres => ?_).trans ?_
      · exact PagingEntry.bit_eq_false (hwf rfl _ hidx hpres) rfl
      · rcases Bool.eq_false_or_eq_true (tableAt m pageTable (p / regionLength 3)).present with
          hpres | hpres
        · have hok := hwf rfl _ hidx hpres
          congr 1
          funext a
          simp only [restrict, withoutRights, PagingEntry.readWrite, PagingEntry.userSupervisor,
            PagingEntry.nx, PagingEntry.bit_eq_false hok (i := 1) rfl,
            PagingEntry.bit_eq_false hok (i := 2) rfl, PagingEntry.bit_eq_false hok (i := 63) rfl,
            Bool.false_and, Bool.false_or]
        · rw [paeWalk, hpres]
          rfl
    · rfl

theorem reports_unique (hmode : PagingMode.Supported mode) {l : List MapEntry}
    (h : Reports m pageTable mode l) : l = parsedRanges m mode pageTable := by
  have hown : Reports m pageTable mode _ := parsed_reports hmode
  let blank : MapEntry := ⟨0, 0, .nop⟩
  obtain ⟨hcnt, -, hlisted, -⟩ := h (fun _ => blank) false l.length blank fun _ => rfl
  obtain ⟨hcnt', -, hlisted', -⟩ := hown (fun _ => blank) false l.length blank fun _ => rfl
  have hlng : l.length = (parsedRanges m mode pageTable).length := hcnt.symm.trans hcnt'
  refine ext_getElem hlng fun i hi hi' => ?_
  exact (hlisted i hi _ (List.getElem?_eq_getElem hi)).symm.trans
    (hlisted' i hi _ (List.getElem?_eq_getElem hi'))

theorem no_rights_of_parsesExactly (hwf : WellFormed m .pagingPae4KB pageTable)
    (h : ParsesExactly m pageTable .pagingPae4KB)
    (ha : PagingEntries.translate m .pagingPae4KB pageTable p = some a) :
    a.readWrite = false ∧ a.userSupervisor = false := by
  obtain ⟨l, hlists, hreports⟩ := h
  have hl := reports_unique ⟨by decide, by decide⟩ hreports
  have hparsed : parsedTranslation m .pagingPae4KB pageTable p = some a := by
    rw [← (parsed_lists).complete, ← hl, hlists.complete]
    exact ha
  rw [parsedTranslation_pae4KB hwf, ha, Option.map_some, Option.some.injEq] at hparsed
  exact ⟨hparsed ▸ rfl, hparsed ▸ rfl⟩

/-- The ranges are listed exactly, unless the mode is that of three levels without 2M pages
and some page may be written or is accessible to the user. -/
theorem pageTableParse_exact_iff (hmode : PagingMode.Supported mode)
    (hwf : WellFormed m mode pageTable) :
    ParsesExactly m pageTable mode ↔
      (mode = .pagingPae4KB → ∀ p a, PagingEntries.translate m mode pageTable p = some a →
        a.readWrite = false ∧ a.userSupervisor = false) := by
  constructor
  · rintro h rfl p a ha
    exact no_rights_of_parsesExactly hwf h ha
  · intro h
    refine ⟨parsedRanges m mode pageTable, ?_, parsed_reports hmode⟩
    have hsame : parsedTranslation m mode pageTable = PagingEntries.translate m mode pageTable := by
      funext p
      rcases eq_or_ne mode .pagingPae4KB with rfl | hne
      · rw [parsedTranslation_pae4KB hwf]
        cases ha : PagingEntries.translate m .pagingPae4KB pageTable p with
        | none => rfl
        | some a =>
          obtain ⟨hread, huser⟩ := h rfl p a ha
          rw [Option.map_some, withoutRights_eq hread huser]
      · exact parsedTranslation_eq hwf hne p
    exact hsame ▸ parsed_lists

def userPageMemory : TableMemory := fun address =>
  if address = 0x1000 then 0x2001#64
  else if address = 0x2000 then 0x3007#64
  else if address = 0x3000 then 0x5007#64
  else 0

theorem userPageMemory_wellFormed : WellFormed userPageMemory mode 0x1000 := by
  have hok : ∀ index < 4, (tableAt userPageMemory 0x1000 index).PdptePaeOk := by decide
  exact fun _ index hidx _ => hok index hidx

theorem pageTableParse_exact_pae :
    ParsesExactly userPageMemory 0x1000 .pagingPae ∧
      (PagingEntries.translate userPageMemory .pagingPae 0x1000 0).isSome = true := by
  refine ⟨(pageTableParse_exact_iff ⟨by decide, by decide⟩ (userPageMemory_wellFormed)).2 ?_,
    by decide +kernel⟩
  intro h
  cases h

/-- The user may write the page, but its range says that nobody may. -/
theorem pageTableParse_pae4KB_loses_rights :
    ¬ ParsesExactly userPageMemory 0x1000 .pagingPae4KB := by
  intro h
  have hpage : PagingEntries.translate userPageMemory .pagingPae4KB 0x1000 0 =
      some (leafAttribute 1 0x5007#64 0) := by decide +kernel
  have hrights := no_rights_of_parsesExactly (userPageMemory_wellFormed) h hpage
  exact absurd hrights.1 (by decide)

end MuBasecore.PageTableParse
