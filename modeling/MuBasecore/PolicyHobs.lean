import MuBasecore.PeiPolicy

/-!
What the HOB list says about the policies: the lookup on the list of HOBs, and how the
contents of the store change when one HOB is edited or appended.
-/

namespace MuBasecore.PolicyHobs

open ByteMemory HobList RecordLog SlotBuffer PeiPolicy List Option Bool

def live (m : Memory) (guid : GuidBytes) (hob : Nat) : Bool :=
  isGuidHob m policyHobGuid hob &&
    (!removed m (hob + sizeOfEfiHobGuidType) && guid == policyGuid m (hob + sizeOfEfiHobGuidType))

def entry (m : Memory) (hob : Nat) : Nat × List Byte :=
  let p := hob + sizeOfEfiHobGuidType
  (attributes m p, policyData m p (policySize m p))

theorem policyWalk_eq {m : Memory} {guid : GuidBytes} {stop a e : Nat} {l : List Nat}
    (hlog : Log hobFormat m stop a l e) (hclose : hobType m e = efiHobTypeEndOfHobList)
    {inner rounds : Nat} (hinner : l.length < inner) (hrnd : l.length < rounds) :
    policyWalk m guid inner rounds a =
      (l.find? (live m guid)).map fun hob => hob + sizeOfEfiHobGuidType := by
  induction hlog generalizing rounds with
  | nil h =>
    obtain ⟨rounds, rfl⟩ := Nat.exists_eq_succ_of_ne_zero (Nat.ne_zero_of_lt hrnd)
    rw [policyWalk, getNextGuidHob_eq (.nil h) hclose hinner]
    rfl
  | cons ha hn hl ih =>
    rename_i a n e l
    have hnext : getNextGuidHob m policyHobGuid inner a =
        (a :: l).find? (isGuidHob m policyHobGuid) :=
      getNextGuidHob_eq (.cons ha hn hl) hclose hinner
    rw [length_cons] at hinner hrnd
    obtain ⟨rounds, rfl⟩ := Nat.exists_eq_succ_of_ne_zero (Nat.ne_zero_of_lt hrnd)
    rw [find?_cons] at hnext ⊢
    rw [policyWalk, hnext]
    cases hpolicy : isGuidHob m policyHobGuid a with
    | true =>
      dsimp only
      rw [live, hpolicy, Bool.true_and]
      by_cases hlive : !removed m (a + sizeOfEfiHobGuidType) ∧
          guid = policyGuid m (a + sizeOfEfiHobGuidType)
      · rw [if_pos (by simpa using hlive)]
        have : (!removed m (a + sizeOfEfiHobGuidType) &&
            guid == policyGuid m (a + sizeOfEfiHobGuidType)) = true := by simpa using hlive
        rw [this]
        rfl
      · rw [if_neg (by simpa using hlive)]
        have : (!removed m (a + sizeOfEfiHobGuidType) &&
            guid == policyGuid m (a + sizeOfEfiHobGuidType)) = false := by
          simpa using hlive
        rw [this, (blockLength_some hn).2.1]
        exact ih hclose (by omega) (by omega)
    | false =>
      -- the search for the next policy skips the first HOB
      have hskip := ih hclose (by omega) (by omega : l.length < rounds + 1)
      rw [policyWalk, getNextGuidHob_eq hl hclose (by omega)] at hskip
      rw [live, hpolicy, Bool.false_and]
      exact hskip

structure PolicyOk (m : Memory) (hob : Nat) : Prop where
  room : sizeOfEfiHobGuidType + sizeOfPolicyHobHeader +
    allocationSize m (hob + sizeOfEfiHobGuidType) ≤ hobLength m hob
  size_le : policySize m (hob + sizeOfEfiHobGuidType) ≤
    allocationSize m (hob + sizeOfEfiHobGuidType)
  quiet : notifyDepth m (hob + sizeOfEfiHobGuidType) = 0

structure StoreInv (h : HobMemory) (l : List Nat) : Prop where
  hobs : HobsAt h l
  guidHob : ∀ x ∈ l, hobType h.memory x = efiHobTypeGuidExtension →
    sizeOfEfiHobGuidType ≤ hobLength h.memory x
  policy : ∀ x ∈ l, isGuidHob h.memory policyHobGuid x = true → PolicyOk h.memory x
  unique : ∀ x ∈ l, ∀ y ∈ l, ∀ guid, live h.memory guid x = true →
    live h.memory guid y = true → x = y
  bottom : h.freeMemoryBottom = h.endOfHobList + sizeOfEfiHobGenericHeader
  bottom_le : h.freeMemoryBottom ≤ h.freeMemoryTop
  top_lt : h.freeMemoryTop < 2 ^ 64

def contents (m : Memory) (l : List Nat) (guid : GuidBytes) : Option (Nat × List Byte) :=
  (l.find? (live m guid)).map (entry m)

theorem isGuidHob_of_live {m : Memory} {guid : GuidBytes} {x : Nat} (h : live m guid x = true) :
    isGuidHob m policyHobGuid x = true := by
  rw [live, and_eq_true] at h
  exact h.1

theorem live_iff {m : Memory} {guid : GuidBytes} {x : Nat} :
    live m guid x = true ↔ isGuidHob m policyHobGuid x = true ∧
      removed m (x + sizeOfEfiHobGuidType) = false ∧
      guid = policyGuid m (x + sizeOfEfiHobGuidType) := by
  rw [live, and_eq_true, and_eq_true, not_eq_true', beq_iff_eq]

variable {h : HobMemory} {l : List Nat} {x : Nat}

section Lookup

variable {guid : GuidBytes}

theorem StoreInv.peiGetPolicyHob_eq (hinv : StoreInv h l) (guid : GuidBytes) :
    peiGetPolicyHob guid h =
      (l.find? (live h.memory guid)).map fun hob => hob + sizeOfEfiHobGuidType := by
  have hlen := hinv.hobs.log.add_length_le
  exact policyWalk_eq hinv.hobs.log hinv.hobs.closed (by omega) (by omega)

section

variable (hinv : StoreInv h l) (hx : x ∈ l) (hlive : live h.memory guid x = true)
include hinv hx hlive

theorem StoreInv.find_eq : l.find? (live h.memory guid) = some x := by
  cases hfind : l.find? (live h.memory guid) with
  | none => exact absurd hlive (find?_eq_none.1 hfind x hx)
  | some y =>
    rw [hinv.unique y (List.mem_of_find?_eq_some hfind) x hx guid (find?_some hfind) hlive]

theorem StoreInv.contents_eq : contents h.memory l guid = some (entry h.memory x) := by
  rw [contents, hinv.find_eq hx hlive, map_some]

end

theorem contents_eq_none {m : Memory} (h : ∀ x ∈ l, live m guid x = false) :
    contents m l guid = none := by
  rw [contents, find?_eq_none.2 fun x hx => by simp [h x hx], map_none]

theorem StoreInv.lookup (hinv : StoreInv h l) (guid : GuidBytes) :
    (peiGetPolicyHob guid h = none ∧ contents h.memory l guid = none ∧
      ∀ x ∈ l, live h.memory guid x = false) ∨
    ∃ x ∈ l, live h.memory guid x = true ∧
      peiGetPolicyHob guid h = some (x + sizeOfEfiHobGuidType) ∧
      contents h.memory l guid = some (entry h.memory x) := by
  cases hfind : l.find? (live h.memory guid) with
  | none =>
    have hnone : ∀ x ∈ l, live h.memory guid x = false := by
      intro x hx
      simpa using find?_eq_none.1 hfind x hx
    refine .inl ⟨?_, contents_eq_none hnone, hnone⟩
    rw [hinv.peiGetPolicyHob_eq, hfind, map_none]
  | some x =>
    have hx := List.mem_of_find?_eq_some hfind
    have hlive : live h.memory guid x = true := find?_some hfind
    refine .inr ⟨x, hx, hlive, ?_, hinv.contents_eq hx hlive⟩
    rw [hinv.peiGetPolicyHob_eq, hfind, map_some]

end Lookup

structure SameHob (m m' : Memory) (x : Nat) : Prop where
  type : hobType m' x = hobType m x
  length : hobLength m' x = hobLength m x
  policy : isGuidHob m' policyHobGuid x = isGuidHob m policyHobGuid x
  live : ∀ guid, live m' guid x = live m guid x
  entry : isGuidHob m policyHobGuid x = true → entry m' x = entry m x
  ok : isGuidHob m policyHobGuid x = true → PolicyOk m x → PolicyOk m' x

section Frame

variable {m m' : Memory}

theorem readGuid_congr {a : Nat} (h : ∀ i < 16, m' (a + i) = m (a + i)) :
    readGuid m' a = readGuid m a := by
  funext i
  exact h i i.isLt

theorem sameHob_of_agree {x : Nat} (hlen : 8 ≤ hobLength m x)
    (hguid : hobType m x = efiHobTypeGuidExtension → sizeOfEfiHobGuidType ≤ hobLength m x)
    (hpolicy : isGuidHob m policyHobGuid x = true → PolicyOk m x)
    (hagree : ∀ i < hobLength m x, m' (x + i) = m (x + i)) : SameHob m m' x := by
  have h24 : sizeOfEfiHobGuidType = 24 := rfl
  have h32 : sizeOfPolicyHobHeader = 32 := rfl
  have htype : hobType m' x = hobType m x := readU16_congr fun i hi => hagree i (by omega)
  have hlen' : hobLength m' x = hobLength m x := by
    apply readU16_congr
    intro i hi
    rw [add_assoc]
    exact hagree (2 + i) (by omega)
  have hisPolicy : isGuidHob m' policyHobGuid x = isGuidHob m policyHobGuid x := by
    rw [isGuidHob, isGuidHob, htype]
    by_cases hx : hobType m x = efiHobTypeGuidExtension
    · have hname : readGuid m' (x + 8) = readGuid m (x + 8) := by
        apply readGuid_congr
        intro i hi
        rw [add_assoc]
        exact hagree (8 + i) (by have := hguid hx; omega)
      rw [hname]
    · simp [hx]
  by_cases hx : isGuidHob m policyHobGuid x = true
  · obtain ⟨hroom, hsize, hqt⟩ := hpolicy hx
    rw [h24] at hroom hsize hqt
    -- every field of the header and the bytes of the policy lie in the HOB
    have hp : ∀ i < 32 + allocationSize m (x + 24), m' (x + 24 + i) = m (x + 24 + i) := by
      intro i hi
      rw [add_assoc]
      exact hagree (24 + i) (by omega)
    have hget : ∀ k i, k + i < 32 + allocationSize m (x + 24) →
        m' (x + 24 + k + i) = m (x + 24 + k + i) := by
      intro k i hi
      rw [add_assoc]
      exact hp (k + i) hi
    have hrem : removed m' (x + 24) = removed m (x + 24) := by
      rw [removed, removed, hp 28 (by omega)]
    have hpguid : policyGuid m' (x + 24) = policyGuid m (x + 24) :=
      readGuid_congr fun i hi => hp i (by omega)
    have hattr : attributes m' (x + 24) = attributes m (x + 24) :=
      readU64_congr fun i hi => hget 16 i (by omega)
    have hpsize : policySize m' (x + 24) = policySize m (x + 24) :=
      readU16_congr fun i hi => hget 24 i (by omega)
    have halloc : allocationSize m' (x + 24) = allocationSize m (x + 24) :=
      readU16_congr fun i hi => hget 26 i (by omega)
    have hdep : notifyDepth m' (x + 24) = notifyDepth m (x + 24) :=
      readU16_congr fun i hi => hget 30 i (by omega)
    have hdata : policyData m' (x + 24) (policySize m (x + 24)) =
        policyData m (x + 24) (policySize m (x + 24)) := by
      apply slotRange_congr
      intro j hj hlt
      obtain ⟨i, rfl⟩ := Nat.exists_eq_add_of_le hj
      exact hget 32 i (by omega)
    refine ⟨htype, hlen', hisPolicy, fun guid => ?_, fun _ => ?_, fun _ _ => ⟨?_, ?_, ?_⟩⟩
    · rw [PolicyHobs.live, PolicyHobs.live, hisPolicy, h24, hrem, hpguid]
    · simp only [PolicyHobs.entry, h24, hattr, hpsize, hdata]
    · rw [hlen', h24, halloc]
      omega
    · rw [h24, hpsize, halloc]
      exact hsize
    · rw [h24, hdep]
      exact hqt
  · refine ⟨htype, hlen', hisPolicy, fun guid => ?_, fun h => absurd h hx, fun h => absurd h hx⟩
    rw [PolicyHobs.live, PolicyHobs.live, hisPolicy]
    rw [not_eq_true] at hx
    rw [hx, Bool.false_and, Bool.false_and]

theorem StoreInv.sameHob {h : HobMemory} {l : List Nat} (hinv : StoreInv h l) {x : Nat}
    (hx : x ∈ l) (hagree : ∀ i < hobLength h.memory x, m' (x + i) = h.memory (x + i)) :
    SameHob h.memory m' x := by
  obtain ⟨_, _, n, hn, _⟩ := hinv.hobs.log.of_mem hx
  obtain ⟨_, hlen, h8, _⟩ := blockLength_some hn
  exact sameHob_of_agree (by omega) (hinv.guidHob x hx) (hinv.policy x hx) hagree

end Frame

theorem StoreInv.agree {h : HobMemory} {l : List Nat} (hinv : StoreInv h l) {m' : Memory}
    (hagree : ∀ i, h.hobList ≤ i → i < h.endOfHobList + sizeOfEfiHobGenericHeader →
      m' i = h.memory i) :
    StoreInv { h with memory := m' } l ∧ ∀ guid, contents m' l guid = contents h.memory l guid := by
  have h8 : sizeOfEfiHobGenericHeader = 8 := rfl
  have hlog := hinv.hobs.log
  have hsame : ∀ x ∈ l, SameHob h.memory m' x := by
    intro x hx
    apply hinv.sameHob hx
    intro i hi
    obtain ⟨hlow, _, n, hn, hle⟩ := hlog.of_mem hx
    have hlen := (blockLength_some hn).2.1
    exact hagree _ (by omega) (by omega)
  have hclose : hobType m' h.endOfHobList = efiHobTypeEndOfHobList := by
    rw [← hinv.hobs.closed]
    have := hlog.le
    exact readU16_congr fun i hi => hagree _ (by omega) (by omega)
  have hinv' : StoreInv { h with memory := m' } l := by
    refine ⟨⟨hinv.hobs.aligned, ?_, hclose⟩, ?_, ?_, ?_, hinv.bottom, hinv.bottom_le, hinv.top_lt⟩
    · refine append_nil l ▸ hlog.append ?_ (.nil fun _ => blockLength_closed hclose)
      intro x hx
      change blockLength _ x = blockLength _ x
      rw [blockLength, blockLength, (hsame x hx).type, (hsame x hx).length]
    · intro x hx htype
      rw [(hsame x hx).type] at htype
      rw [(hsame x hx).length]
      exact hinv.guidHob x hx htype
    · intro x hx hpolicy
      have hpolicy' : isGuidHob h.memory policyHobGuid x = true := (hsame x hx).policy ▸ hpolicy
      exact (hsame x hx).ok hpolicy' (hinv.policy x hx hpolicy')
    · intro x hx y hy guid hlx hly
      rw [(hsame x hx).live] at hlx
      rw [(hsame y hy).live] at hly
      exact hinv.unique x hx y hy guid hlx hly
  refine ⟨hinv', fun guid => ?_⟩
  rcases hinv.lookup guid with ⟨_, hnone, hdead⟩ | ⟨x, hx, hlive, _, hsome⟩
  · rw [hnone]
    apply contents_eq_none
    intro x hx
    rw [(hsame x hx).live, hdead x hx]
  · have hlive' : live m' guid x = true := by rw [(hsame x hx).live, hlive]
    rw [hsome, hinv'.contents_eq hx hlive', (hsame x hx).entry (isGuidHob_of_live hlive)]

variable {y : Nat}

section Edit

variable {m' : Memory}

/-- A write into the policy at `x`. -/
structure Edit (h : HobMemory) (l : List Nat) (x : Nat) (m' : Memory) : Prop where
  mem : x ∈ l
  isPolicy : isGuidHob h.memory policyHobGuid x = true
  frame : ∀ i, i < x + sizeOfEfiHobGuidType ∨ x + hobLength h.memory x ≤ i → m' i = h.memory i
  ok : PolicyOk m' x
  guid : policyGuid m' (x + sizeOfEfiHobGuidType) =
    policyGuid h.memory (x + sizeOfEfiHobGuidType)

variable (hedit : Edit h l x m')
include hedit

theorem Edit.sameHob (hinv : StoreInv h l) (hy : y ∈ l) (hne : y ≠ x) : SameHob h.memory m' y := by
  apply hinv.sameHob hy
  intro i hi
  apply hedit.frame
  obtain ⟨_, _, n, hn, _⟩ := hinv.hobs.log.of_mem hy
  obtain ⟨_, _, n', hn', _⟩ := hinv.hobs.log.of_mem hedit.mem
  have hlen := (blockLength_some hn).2.1
  have hlen' := (blockLength_some hn').2.1
  rcases hinv.hobs.log.apart hy hedit.mem hne with hap | hap
  · have := hap n hn
    omega
  · have := hap n' hn'
    omega

theorem Edit.header :
    hobType m' x = hobType h.memory x ∧ hobLength m' x = hobLength h.memory x ∧
      isGuidHob m' policyHobGuid x = isGuidHob h.memory policyHobGuid x := by
  have h24 : sizeOfEfiHobGuidType = 24 := rfl
  have htype : hobType m' x = hobType h.memory x :=
    readU16_congr fun i hi => hedit.frame _ (.inl (by omega))
  have hname : readGuid m' (x + 8) = readGuid h.memory (x + 8) :=
    readGuid_congr fun i hi => hedit.frame _ (.inl (by omega))
  refine ⟨htype, readU16_congr fun i hi => hedit.frame _ (.inl (by omega)), ?_⟩
  rw [isGuidHob, isGuidHob, htype, hname]

section

variable (hinv : StoreInv h l)
include hinv

section

variable
    (hremd : removed h.memory (x + sizeOfEfiHobGuidType) = true →
      removed m' (x + sizeOfEfiHobGuidType) = true)
include hremd

theorem Edit.live_before (hy : y ∈ l) {guid : GuidBytes}
    (hlive : live m' guid y = true) : live h.memory guid y = true := by
  by_cases hne : y = x
  · subst hne
    obtain ⟨hpolicy, hrem, hguid⟩ := live_iff.1 hlive
    refine live_iff.2 ⟨hedit.isPolicy, ?_, by rw [hguid, hedit.guid]⟩
    rw [eq_false_iff]
    intro hold
    rw [hremd hold] at hrem
    cases hrem
  · rwa [(hedit.sameHob hinv hy hne).live] at hlive

theorem Edit.inv : StoreInv { h with memory := m' } l := by
  obtain ⟨htype, hlen, hpolicy⟩ := hedit.header
  have hsame : ∀ y ∈ l, hobType m' y = hobType h.memory y ∧
      hobLength m' y = hobLength h.memory y := by
    intro y hy
    by_cases hne : y = x
    · subst hne
      exact ⟨htype, hlen⟩
    · have hs := hedit.sameHob hinv hy hne
      exact ⟨hs.type, hs.length⟩
  have hclose : hobType m' h.endOfHobList = efiHobTypeEndOfHobList := by
    rw [← hinv.hobs.closed]
    obtain ⟨_, _, n, hn, hle⟩ := hinv.hobs.log.of_mem hedit.mem
    have hlen := (blockLength_some hn).2.1
    exact readU16_congr fun i hi => hedit.frame _ (.inr (by omega))
  refine ⟨⟨hinv.hobs.aligned, ?_, hclose⟩, ?_, ?_, ?_, hinv.bottom, hinv.bottom_le, hinv.top_lt⟩
  · refine append_nil l ▸ hinv.hobs.log.append ?_ (.nil fun _ => blockLength_closed hclose)
    intro y hy
    change blockLength _ y = blockLength _ y
    rw [blockLength, blockLength, (hsame y hy).1, (hsame y hy).2]
  · intro y hy hguid
    rw [(hsame y hy).1] at hguid
    rw [(hsame y hy).2]
    exact hinv.guidHob y hy hguid
  · intro y hy hpol
    by_cases hne : y = x
    · subst hne
      exact hedit.ok
    · have hs := hedit.sameHob hinv hy hne
      have hpol' : isGuidHob h.memory policyHobGuid y = true := hs.policy ▸ hpol
      exact hs.ok hpol' (hinv.policy y hy hpol')
  · intro y hy z hz guid hly hlz
    exact hinv.unique y hy z hz guid (hedit.live_before hinv hremd hy hly)
      (hedit.live_before hinv hremd hz hlz)

theorem Edit.contents_other {guid : GuidBytes}
    (hguid : guid ≠ policyGuid h.memory (x + sizeOfEfiHobGuidType)) :
    contents m' l guid = contents h.memory l guid := by
  rcases hinv.lookup guid with ⟨_, hnone, hdead⟩ | ⟨y, hy, hlive, _, hsome⟩
  · rw [hnone]
    apply contents_eq_none
    intro y hy
    rw [eq_false_iff]
    intro hlive
    have hpre := hedit.live_before hinv hremd hy hlive
    rw [hdead y hy] at hpre
    cases hpre
  · have hne : y ≠ x := by
      rintro rfl
      exact hguid (live_iff.1 hlive).2.2
    have hs := hedit.sameHob hinv hy hne
    have hlive' : live m' guid y = true := by rw [hs.live, hlive]
    rw [hsome, (hedit.inv hinv hremd).contents_eq hy hlive', hs.entry (isGuidHob_of_live hlive)]

end

theorem Edit.contents_removed {guid : GuidBytes} (hlive : live h.memory guid x = true)
    (hremd : removed m' (x + sizeOfEfiHobGuidType) = true) : contents m' l guid = none := by
  apply contents_eq_none
  intro y hy
  rw [eq_false_iff]
  intro hlive'
  have hpre := hedit.live_before hinv (fun _ => hremd) hy hlive'
  obtain rfl := hinv.unique y hy x hedit.mem guid hpre hlive
  rw [(live_iff.1 hlive').2.1] at hremd
  cases hremd

end

end Edit

variable {h h' : HobMemory} {hob type length : Nat}

section

variable (hinv : StoreInv h l)
include hinv

theorem sameHob_of_appended (happ : Appended h h' l hob type length)
    {x : Nat} (hx : x ∈ l) : SameHob h.memory h'.memory x := by
  apply hinv.sameHob hx
  intro i hi
  apply happ.frame
  obtain ⟨_, _, n, hn, hle⟩ := hinv.hobs.log.of_mem hx
  have hlen := (blockLength_some hn).2.1
  omega

theorem StoreInv.freeMemory_eq : h.freeMemory = h.freeMemoryTop - h.freeMemoryBottom := by
  have := hinv.bottom_le
  have := hinv.top_lt
  rw [HobMemory.freeMemory]
  omega

section

variable (happ : Appended h h' l hob type length)
include happ

theorem StoreInv.append (hguid : type = efiHobTypeGuidExtension → sizeOfEfiHobGuidType ≤ length)
    (hpolicy : isGuidHob h'.memory policyHobGuid hob = true → PolicyOk h'.memory hob)
    (hnew : ∀ guid, live h'.memory guid hob = true → ∀ x ∈ l, live h.memory guid x = false) :
    StoreInv h' (l ++ [hob]) := by
  have hold := fun x hx => sameHob_of_appended hinv happ (x := x) hx
  have hfree := hinv.freeMemory_eq
  have hbottom : h'.freeMemoryBottom ≤ h.freeMemoryTop := by
    have hroom := happ.room
    have hnext := happ.next
    have hbot := happ.bottom
    have hbot' := hinv.bottom
    have hplc := happ.place
    have := hinv.bottom_le
    omega
  refine ⟨happ.hobs, ?_, ?_, ?_, happ.bottom, by rw [happ.top]; exact hbottom,
    by rw [happ.top]; exact hinv.top_lt⟩
  · intro x hx htype
    rcases mem_append.1 hx with hx | hx
    · rw [(hold x hx).type] at htype
      rw [(hold x hx).length]
      exact hinv.guidHob x hx htype
    · obtain rfl := mem_singleton.1 hx
      exact (hguid (happ.type ▸ htype)).trans happ.length_le
  · intro x hx hpol
    rcases mem_append.1 hx with hx | hx
    · have hpol' : isGuidHob h.memory policyHobGuid x = true := (hold x hx).policy ▸ hpol
      exact (hold x hx).ok hpol' (hinv.policy x hx hpol')
    · obtain rfl := mem_singleton.1 hx
      exact hpolicy hpol
  · intro x hx y hy guid hlx hly
    rcases mem_append.1 hx with hxl | hxnew
    · rw [(hold x hxl).live] at hlx
      rcases mem_append.1 hy with hyl | hynew
      · rw [(hold y hyl).live] at hly
        exact hinv.unique x hxl y hyl guid hlx hly
      · rw [mem_singleton.1 hynew] at hly
        rw [hnew guid hly x hxl] at hlx
        cases hlx
    · have hlx' : live h'.memory guid hob = true := mem_singleton.1 hxnew ▸ hlx
      rcases mem_append.1 hy with hyl | hynew
      · rw [(hold y hyl).live, hnew guid hlx' y hyl] at hly
        cases hly
      · rw [mem_singleton.1 hxnew, mem_singleton.1 hynew]

theorem freeMemory_appended (hinv' : StoreInv h' (l ++ [hob])) :
    h'.freeMemory = h.freeMemory - (length + 7) / 8 * 8 := by
  have hfree := hinv.freeMemory_eq
  have hfree' := hinv'.freeMemory_eq
  have hnext := happ.next
  have hlen := happ.length_eq
  have hplc := happ.place
  have hbottom := happ.bottom
  have hbottom' := hinv.bottom
  have htop := happ.top
  omega

theorem contents_append_other (hinv' : StoreInv h' (l ++ [hob])) {guid : GuidBytes}
    (hdead : live h'.memory guid hob = false) :
    contents h'.memory (l ++ [hob]) guid = contents h.memory l guid := by
  rcases hinv.lookup guid with ⟨_, hnone, hold⟩ | ⟨y, hy, hlive, _, hsome⟩
  · rw [hnone]
    apply contents_eq_none
    intro y hy
    rcases mem_append.1 hy with hy | hy
    · rw [(sameHob_of_appended hinv happ hy).live]
      exact hold y hy
    · obtain rfl := mem_singleton.1 hy
      exact hdead
  · have hs := sameHob_of_appended hinv happ hy
    have hlive' : live h'.memory guid y = true := by rw [hs.live, hlive]
    rw [hsome, hinv'.contents_eq (mem_append_left _ hy) hlive',
      hs.entry (isGuidHob_of_live hlive)]

end

end

end MuBasecore.PolicyHobs
