import Mathlib

/-!
`FindFreeMem`: the search for memory that no descriptor and no data block of a capsule
block list occupies. Addresses are natural numbers, since they do not wrap, and `NULL` is 0.
-/

namespace MuBasecore.CapsuleFreeMem

open List

def isOverlapped (buff1 size1 buff2 size2 : Nat) : Bool :=
  if buff1 + size1 ≤ buff2 ∨ buff1 ≥ buff2 + size2 then false else true

def sizeOfBlockDescriptor : Nat := 16

/-- Block descriptors that lie one behind the other: the addresses and lengths of the data
blocks, and a last descriptor of length zero, which names the next ones. -/
structure DescriptorList where
  first : Nat
  blocks : List (Nat × Nat)

/-- What the search looks at: the descriptors of a list together, and each data block. -/
structure Obstacle where
  start : Nat
  size : Nat
  isBlock : Bool

def Obstacle.stop (o : Obstacle) : Nat := o.start + o.size

/-- The obstacles in the order in which the two loops come to them. -/
def obstacles (blockList : List DescriptorList) : List Obstacle :=
  blockList.flatMap fun l =>
    ⟨l.first, sizeOfBlockDescriptor * (l.blocks.length + 1), false⟩ ::
      l.blocks.map fun block => ⟨block.1, block.2, true⟩

/-- The range in which `dataSize` bytes are looked for. -/
structure Request where
  memBase : Nat
  memSize : Nat
  dataSize : Nat
  pos : 0 < dataSize
  noWrap : dataSize ≤ memBase + memSize

def Request.memEnd (r : Request) : Nat :=
  r.memBase + r.memSize - r.dataSize

def Request.meets (r : Request) (memBase : Nat) (o : Obstacle) : Bool :=
  isOverlapped memBase r.dataSize o.start o.size

/-- The list from the second descriptor on. If the first one has no data block, this is what
lies `behind` it in memory. -/
def secondDescriptor (behind : List DescriptorList) : List DescriptorList → List DescriptorList
  | ⟨first, _ :: blocks⟩ :: rest => ⟨first + sizeOfBlockDescriptor, blocks⟩ :: rest
  | _ => behind

variable (r : Request) (blockList behind : List DescriptorList)

/-- After a data block in the way the search goes back to the head of the list, but then
still counts `CurrDesc` on. -/
def findLoop : Nat → Nat → List DescriptorList → Option Nat
  | 0, _, _ => none
  | fuel + 1, memBase, currDesc =>
    match (obstacles currDesc).find? (r.meets memBase) with
    | none => some memBase
    | some o =>
      if o.stop > r.memEnd then some 0
      else findLoop fuel o.stop (if o.isBlock then secondDescriptor behind blockList else blockList)

def findFreeMem : Option Nat :=
  findLoop r blockList behind (r.memEnd + 2) r.memBase blockList

def Clear (base : Nat) (blockList : List DescriptorList) : Prop :=
  ∀ o ∈ obstacles blockList, r.meets base o = false

/-- The memory that is found is inside the range and clear of the blocks. -/
structure Sound (result : Nat) : Prop where
  inside : result ≠ 0 → r.memBase ≤ result ∧ result + r.dataSize ≤ r.memBase + r.memSize
  clear : result ≠ 0 → Clear r result blockList
  large : r.memSize < r.dataSize → result = 0

/-- All that the search may look at. -/
def seen : List DescriptorList :=
  blockList ++ secondDescriptor behind blockList

/-- Where a data block ends, and no place in front of it is clear, a buffer that is clear of
the list from the second descriptor on is clear of the first one and its data block too. -/
def RestartsSafely : Prop :=
  ∀ o ∈ obstacles (seen blockList behind), o.isBlock = true → r.memBase < o.stop →
    o.stop ≤ r.memEnd → (∀ p, r.memBase ≤ p → p < o.stop → ¬ Clear r p (seen blockList behind)) →
    Clear r o.stop (secondDescriptor behind blockList) → Clear r o.stop blockList

/-- The places the search comes to from the head of the list, as long as only descriptors are
in its way. -/
inductive FromHead : Nat → Prop
  | start : FromHead r.memBase
  | next {base : Nat} {o : Obstacle} (h : FromHead base)
      (hfirst : (obstacles blockList).find? (r.meets base) = some o) (hdesc : o.isBlock = false)
      (hle : o.stop ≤ r.memEnd) : FromHead o.stop

/-- At none of these places a data block is what makes the search start again. -/
def MeetsNoBlock : Prop :=
  ∀ base o, FromHead r blockList base → (obstacles blockList).find? (r.meets base) = some o →
    o.stop ≤ r.memEnd → o.isBlock = false

variable {r blockList behind} {base fuel : Nat} {o : Obstacle} {currDesc : List DescriptorList}

theorem Request.meets_iff :
    r.meets base o = true ↔ o.start < base + r.dataSize ∧ base < o.stop := by
  rw [Request.meets, isOverlapped, Obstacle.stop]
  split <;> simp <;> omega

theorem mem_seen (h : currDesc = blockList ∨ currDesc = secondDescriptor behind blockList)
    (ho : o ∈ obstacles currDesc) : o ∈ obstacles (seen blockList behind) := by
  rw [obstacles, seen, flatMap_append]
  rcases h with rfl | rfl
  · exact mem_append_left _ ho
  · exact mem_append_right _ ho

/-- A round starts at the head of the list, or at its second descriptor once a data block has
moved the base. -/
structure Starts (r : Request) (blockList behind : List DescriptorList) (base : Nat)
    (currDesc : List DescriptorList) : Prop where
  head : currDesc = blockList ∨ currDesc = secondDescriptor behind blockList
  clear : Clear r base currDesc → Clear r base blockList
  le : r.memBase ≤ base
  passed : ∀ p, r.memBase ≤ p → p < base → ¬ Clear r p (seen blockList behind)

theorem Starts.next (h : Starts r blockList behind base currDesc)
    (hsafe : RestartsSafely r blockList behind) (ho : o ∈ obstacles currDesc)
    (hmeets : r.meets base o = true) (hle : o.stop ≤ r.memEnd) :
    Starts r blockList behind o.stop
      (if o.isBlock then secondDescriptor behind blockList else blockList) := by
  have hlt := Request.meets_iff.1 hmeets
  have hmem := mem_seen h.head ho
  have hbase := h.le
  have hpassed : ∀ p, r.memBase ≤ p → p < o.stop → ¬ Clear r p (seen blockList behind) := by
    intro p hp hstop hclear
    rcases lt_or_ge p base with hlow | hhigh
    · exact h.passed p hp hlow hclear
    · have hstill : r.meets p o = true := Request.meets_iff.2 ⟨by omega, hstop⟩
      rw [hclear o hmem] at hstill
      cases hstill
  cases hblock : o.isBlock with
  | false => exact ⟨.inl rfl, fun h => h, by omega, hpassed⟩
  | true => exact ⟨.inr rfl, hsafe o hmem hblock (by omega) hle hpassed, by omega, hpassed⟩

section Loop

variable (Inv : Nat → List DescriptorList → Prop)
  (hclear : ∀ base currDesc, Inv base currDesc → Clear r base currDesc → Clear r base blockList)
  (hnext : ∀ base currDesc o, Inv base currDesc →
    (obstacles currDesc).find? (r.meets base) = some o → o.stop ≤ r.memEnd →
    Inv o.stop (if o.isBlock then secondDescriptor behind blockList else blockList))
include hclear hnext

/-- The loop ends, and with an invariant that makes its last round one for the whole list the
result is clear. -/
theorem findLoop_clear (hfuel : r.memEnd + 1 - base < fuel) (hinv : Inv base currDesc) :
    ∃ result, findLoop r blockList behind fuel base currDesc = some result ∧
      (result ≠ 0 → base ≤ result ∧ (result = base ∨ result ≤ r.memEnd) ∧
        Clear r result blockList) := by
  induction fuel generalizing base currDesc with
  | zero => omega
  | succ fuel ih =>
    rw [findLoop]
    split
    next hnone =>
      refine ⟨base, rfl, fun _ => ⟨le_rfl, .inl rfl, hclear _ _ hinv fun o ho => ?_⟩⟩
      exact Bool.eq_false_iff.2 (find?_eq_none.1 hnone o ho)
    next o hsome =>
      split
      · exact ⟨0, rfl, fun h => absurd rfl h⟩
      next hle =>
        have hlt := Request.meets_iff.1 (find?_some hsome)
        obtain ⟨result, hrun, hresult⟩ := ih (by omega) (hnext _ _ _ hinv hsome (by omega))
        refine ⟨result, hrun, fun hne => ?_⟩
        obtain ⟨hge, hlast, hclear⟩ := hresult hne
        exact ⟨by omega, .inr (by omega), hclear⟩

theorem findFreeMem_clear (hsize : r.dataSize ≤ r.memSize) (hinv : Inv r.memBase blockList) :
    ∃ result, findFreeMem r blockList behind = some result ∧ Sound r blockList result := by
  have hend : r.memEnd = r.memBase + r.memSize - r.dataSize := rfl
  have hfuel : r.memEnd + 1 - r.memBase < r.memEnd + 2 := by omega
  obtain ⟨result, hrun, hresult⟩ := findLoop_clear Inv hclear hnext hfuel hinv
  refine ⟨result, hrun, fun hne => ?_, fun hne => (hresult hne).2.2, by omega⟩
  obtain ⟨hge, hlast, -⟩ := hresult hne
  omega

end Loop

theorem FromHead.reached (h : FromHead r blockList base) (behind : List DescriptorList) :
    ∃ fuel, r.memEnd + 1 - base < fuel ∧
      findFreeMem r blockList behind = findLoop r blockList behind fuel base blockList := by
  induction h with
  | start => exact ⟨r.memEnd + 2, by omega, rfl⟩
  | @next base o _ hfirst hdesc hle ih =>
    obtain ⟨fuel, hfuel, hrun⟩ := ih
    have hlt := Request.meets_iff.1 (find?_some hfirst)
    obtain ⟨fuel, rfl⟩ : ∃ n, fuel = n + 1 := ⟨fuel - 1, by omega⟩
    refine ⟨fuel, by omega, ?_⟩
    rw [hrun, findLoop, hfirst]
    dsimp only
    rw [if_neg (by omega), hdesc]
    rfl

/-- A buffer that is larger than the memory is refused if and only if something is in its way.
Another one is placed soundly if no data block makes the search start again, or every such
restart is safe; in the other cases the search does go on from the second descriptor. -/
theorem findFreeMem_sound (r : Request) (blockList behind : List DescriptorList) :
    (r.memSize < r.dataSize →
      ((∃ result, findFreeMem r blockList behind = some result ∧ Sound r blockList result) ↔
        ¬ Clear r r.memBase blockList)) ∧
    (r.dataSize ≤ r.memSize → MeetsNoBlock r blockList ∨ RestartsSafely r blockList behind →
      ∃ result, findFreeMem r blockList behind = some result ∧ Sound r blockList result) ∧
    (¬ MeetsNoBlock r blockList → ∃ o ∈ obstacles blockList, o.isBlock = true ∧ ∃ fuel,
      findFreeMem r blockList behind =
        findLoop r blockList behind fuel o.stop (secondDescriptor behind blockList)) := by
  have hwrap := r.noWrap
  have hend : r.memEnd = r.memBase + r.memSize - r.dataSize := rfl
  refine ⟨?_, ?_, ?_⟩
  · intro hlarge
    rw [findFreeMem, findLoop]
    split
    next hnone =>
      refine iff_of_false ?_ (not_not.2 fun o ho => ?_)
      · rintro ⟨result, ⟨⟩, hsound⟩
        have hzero := hsound.large hlarge
        omega
      · exact Bool.eq_false_iff.2 (find?_eq_none.1 hnone o ho)
    next o hsome =>
      have hmeets := find?_some hsome
      have hlt := Request.meets_iff.1 hmeets
      rw [if_pos (by omega)]
      refine iff_of_true ⟨0, rfl, fun h => absurd rfl h, fun h => absurd rfl h, fun _ => rfl⟩ ?_
      exact fun hclear => absurd hmeets (by simp [hclear o (mem_of_find?_eq_some hsome)])
  · rintro hsize (hhead | hsafe)
    · refine findFreeMem_clear (fun base l => l = blockList ∧ FromHead r blockList base)
        ?_ ?_ hsize ⟨rfl, .start⟩
      · rintro base _ ⟨rfl, -⟩ hclear
        exact hclear
      · rintro base _ o ⟨rfl, hcome⟩ hfirst hle
        have hdesc := hhead base o hcome hfirst hle
        rw [hdesc]
        exact ⟨rfl, hcome.next hfirst hdesc hle⟩
    · exact findFreeMem_clear (Starts r blockList behind) (fun _ _ h => h.clear)
        (fun _ _ _ h hfirst => h.next hsafe (mem_of_find?_eq_some hfirst) (find?_some hfirst))
        hsize ⟨.inl rfl, fun h => h, le_rfl, fun p hp hlt => by omega⟩
  · intro hmet
    simp only [MeetsNoBlock, not_forall, Bool.not_eq_false] at hmet
    obtain ⟨base, o, hcome, hfirst, hle, hblock⟩ := hmet
    refine ⟨o, mem_of_find?_eq_some hfirst, hblock, ?_⟩
    obtain ⟨fuel, hfuel, hrun⟩ := hcome.reached behind
    obtain ⟨fuel, rfl⟩ : ∃ n, fuel = n + 1 := ⟨fuel - 1, by omega⟩
    refine ⟨fuel, ?_⟩
    rw [hrun, findLoop, hfirst]
    dsimp only
    rw [if_neg (by omega), hblock]
    rfl

def request (memBase memSize : Nat) (h : 0x20 ≤ memBase) : Request :=
  ⟨memBase, memSize, 0x20, by decide, by omega⟩

def oneBlock : List DescriptorList :=
  [⟨0x100, [(0x30, 0x10)]⟩]

/-- Both the descriptors and the data block are in the way at first, and the descriptors are
met first. -/
def blockInFront : List DescriptorList :=
  [⟨0x100, [(0xC0, 0x28)]⟩]

theorem blockInFront_meetsNoBlock : MeetsNoBlock (request 0xE4 0x90 (by decide)) blockInFront := by
  have hfst : (obstacles blockInFront).find? ((request 0xE4 0x90 (by decide)).meets 0xE4) =
    some ⟨0x100, 0x20, false⟩ := rfl
  have hsnd : (obstacles blockInFront).find? ((request 0xE4 0x90 (by decide)).meets 0x120) =
    none := rfl
  intro base o hcome hfirst _
  have hbase : base = 0xE4 ∨ base = 0x120 := by
    clear hfirst
    induction hcome with
    | start => exact .inl rfl
    | next _ hfirst _ _ ih =>
      rcases ih with rfl | rfl
      · cases hfst.symm.trans hfirst
        exact .inr rfl
      · cases hsnd.symm.trans hfirst
  rcases hbase with rfl | rfl
  · cases hfst.symm.trans hfirst
    rfl
  · cases hsnd.symm.trans hfirst

theorem oneBlock_sound :
    (∃ result, findFreeMem (request 0x20 0x18 (by decide)) oneBlock [] = some result ∧
      Sound (request 0x20 0x18 (by decide)) oneBlock result) ∧
    (∃ result, findFreeMem (request 0x20 0x90 (by decide)) oneBlock [] = some result ∧
      Sound (request 0x20 0x90 (by decide)) oneBlock result) ∧
    ∃ result, findFreeMem (request 0xE4 0x90 (by decide)) blockInFront [] = some result ∧
      Sound (request 0xE4 0x90 (by decide)) blockInFront result := by
  refine ⟨((findFreeMem_sound _ oneBlock []).1 (by decide)).2 ?_,
    (findFreeMem_sound _ oneBlock []).2.1 (by decide) (.inr ?_),
    (findFreeMem_sound _ blockInFront []).2.1 (by decide) (.inl blockInFront_meetsNoBlock)⟩
  · unfold Clear
    decide
  · intro o ho hblock _ _ _ _
    revert o
    unfold Clear
    decide

/-- The second data block moves the base, and the first one is not looked at again. -/
theorem firstBlock_skipped :
    findFreeMem (request 0x20 0x90 (by decide)) [⟨0x100, [(0x50, 0x10), (0x30, 0x10)]⟩] [] =
        some 0x40 ∧ isOverlapped 0x40 0x20 0x50 0x10 = true := by
  decide

end MuBasecore.CapsuleFreeMem
