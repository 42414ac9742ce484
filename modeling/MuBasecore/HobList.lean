import MuBasecore.EfiTypes
import MuBasecore.ByteMemory
import MuBasecore.RecordLog

/-!
The list of hand-off blocks (HOBs) of the PEI phase as it lies in memory: each block
starts with its type and its length, new blocks are put at the end, and a block of the
end type closes the list.
-/

namespace MuBasecore.HobList

open ByteMemory EfiTypes RecordLog SlotBuffer List

def efiHobTypeGuidExtension : Nat := 0x0004
def efiHobTypeMemoryPool : Nat := 0x0007
def efiHobTypeEndOfHobList : Nat := 0xFFFF
def sizeOfEfiHobGenericHeader : Nat := 8
def sizeOfEfiHobGuidType : Nat := 24

abbrev GuidBytes := Fin 16 → Byte

def readGuid (m : Memory) (a : Nat) : GuidBytes := fun i => m (a + i)

def hobType (m : Memory) (a : Nat) : Nat := readU16 m a
def hobLength (m : Memory) (a : Nat) : Nat := readU16 m (a + 2)

structure HobMemory where
  memory : Memory
  hobList : Nat
  endOfHobList : Nat
  freeMemoryBottom : Nat
  freeMemoryTop : Nat

def headerBytes (type length : Nat) : List Byte :=
  bytesU16 type ++ bytesU16 length ++ bytesU32 0

/-- The free memory between the list and the top, as a `UINT64`. -/
def HobMemory.freeMemory (h : HobMemory) : Nat :=
  (h.freeMemoryTop + (2 ^ 64 - h.freeMemoryBottom)) % 2 ^ 64

variable {m : Memory} {a length type : Nat} {h : HobMemory} {l : List Nat}

/-- `PeiCreateHob`; the length is a `UINT16`. -/
def peiCreateHob (type length : Nat) (h : HobMemory) : Except EfiStatus (HobMemory × Nat) :=
  if 0x10000 - length ≤ 0x7 then .error .invalidParameter
  else
    let length := (length + 7) / 8 * 8
    if h.freeMemory < length then .error .outOfResources
    else
      let hob := h.endOfHobList
      let hobEnd := hob + length
      .ok ({ h with
          memory := writeBytes (writeBytes h.memory hob (headerBytes type length)) hobEnd
            (headerBytes efiHobTypeEndOfHobList sizeOfEfiHobGenericHeader)
          endOfHobList := hobEnd
          freeMemoryBottom := hobEnd + sizeOfEfiHobGenericHeader },
        hob)

/-- `BuildGuidHob` without its assertions: the address of the data of the new block, or
nothing. -/
def buildGuidHob (guid : GuidBytes) (dataLength : Nat) (h : HobMemory) :
    Option (HobMemory × Nat) :=
  match peiCreateHob efiHobTypeGuidExtension ((sizeOfEfiHobGuidType + dataLength) % 2 ^ 16) h with
  | .error _ => none
  | .ok (h', hob) =>
    some ({ h' with memory := writeBytes h'.memory (hob + 8) (List.ofFn guid) },
      hob + sizeOfEfiHobGuidType)

def getNextGuidHob (m : Memory) (guid : GuidBytes) : Nat → Nat → Option Nat
  | 0, _ => none
  | rounds + 1, a =>
    if hobType m a = efiHobTypeEndOfHobList then none
    else if hobType m a = efiHobTypeGuidExtension ∧ readGuid m (a + 8) = guid then some a
    else getNextGuidHob m guid rounds (a + hobLength m a)

def blockLength (m : Memory) (a : Nat) : Option Nat :=
  if hobType m a = efiHobTypeEndOfHobList ∨ hobLength m a < 8 ∨ hobLength m a % 8 ≠ 0 then none
  else some (hobLength m a)

theorem blockLength_some {n : Nat} (h : blockLength m a = some n) :
    hobType m a ≠ efiHobTypeEndOfHobList ∧ hobLength m a = n ∧ 8 ≤ n ∧ n % 8 = 0 := by
  rw [blockLength] at h
  split at h
  case isTrue => cases h
  case isFalse hcond =>
    obtain ⟨⟩ := h
    rw [not_or, not_or] at hcond
    exact ⟨hcond.1, rfl, by omega, by omega⟩

def hobFormat : Format Byte where
  unit := 8
  length := blockLength
  length_pos h := by
    have := (blockLength_some h).2.2.1
    omega
  dvd_length _ h := Nat.dvd_of_mod_eq_zero (blockLength_some h).2.2.2
  length_copy := by
    intro m m' a a' n _ _ h hcopy
    obtain ⟨_, _, hn, _⟩ := blockLength_some h
    have htype : hobType m' a' = hobType m a :=
      readU16_congr fun i hi => hcopy i (by omega)
    have hlen : hobLength m' a' = hobLength m a :=
      readU16_congr fun i hi => by
        rw [Nat.add_assoc, Nat.add_assoc]
        exact hcopy (2 + i) (by omega)
    rw [blockLength, htype, hlen, ← blockLength, h]

structure HobsAt (h : HobMemory) (l : List Nat) : Prop where
  aligned : 8 ∣ h.hobList
  log : Log hobFormat h.memory (h.endOfHobList + 1) h.hobList l h.endOfHobList
  closed : hobType h.memory h.endOfHobList = efiHobTypeEndOfHobList

theorem blockLength_closed (h : hobType m a = efiHobTypeEndOfHobList) : blockLength m a = none :=
  if_pos (.inl h)

theorem header_read (htype : type < 65536)
    (hlen : length < 65536) (h : slotRange m a 8 = headerBytes type length) :
    hobType m a = type ∧ hobLength m a = length := by
  have h2 : slotRange m a 2 = bytesU16 type ∧ slotRange m (a + 2) 2 = bytesU16 length := by
    have hlist : slotRange m a 8 = [m a, m (a + 1), m (a + 2), m (a + 3), m (a + 4), m (a + 5),
      m (a + 6), m (a + 7)] := rfl
    rw [hlist] at h
    simp only [headerBytes, bytesU16, bytesU32, cons_append, nil_append,
      cons.injEq] at h
    obtain ⟨h0, h1, h2, h3, _⟩ := h
    have hfst : slotRange m a 2 = [m a, m (a + 1)] := rfl
    have hsecond : slotRange m (a + 2) 2 = [m (a + 2), m (a + 3)] := rfl
    rw [hfst, hsecond, h0, h1, h2, h3]
    exact ⟨rfl, rfl⟩
  exact ⟨readU16_bytesU16 htype h2.1, readU16_bytesU16 hlen h2.2⟩

structure Appended (h h' : HobMemory) (l : List Nat) (hob type length : Nat) : Prop where
  place : hob = h.endOfHobList
  base : h'.hobList = h.hobList
  hobs : HobsAt h' (l ++ [hob])
  frame : ∀ i < h.endOfHobList, h'.memory i = h.memory i
  type : hobType h'.memory hob = type
  length_le : length ≤ hobLength h'.memory hob
  fits : length ≤ 0xFFF8
  next : h'.endOfHobList = hob + hobLength h'.memory hob
  length_eq : hobLength h'.memory hob = (length + 7) / 8 * 8
  room : hobLength h'.memory hob ≤ h.freeMemory
  bottom : h'.freeMemoryBottom = h'.endOfHobList + sizeOfEfiHobGenericHeader
  top : h'.freeMemoryTop = h.freeMemoryTop

variable {hob : Nat} {h' : HobMemory}

theorem peiCreateHob_appended (hl : HobsAt h l) (htype : type < efiHobTypeEndOfHobList)
    (hlen : 8 ≤ length)
    (hnew : peiCreateHob type length h = .ok (h', hob)) :
    Appended h h' l hob type length := by
  rw [peiCreateHob] at hnew
  split at hnew
  case isTrue => cases hnew
  case isFalse hfits =>
    dsimp only at hnew
    split at hnew
    case isTrue => cases hnew
    case isFalse hroom =>
      have hround : ∃ n, (length + 7) / 8 * 8 = n ∧ length ≤ n ∧ n ≤ 0xFFF8 ∧ n % 8 = 0 :=
        ⟨_, rfl, by omega, by omega, by omega⟩
      obtain ⟨n, hn, hle, hmax, hmod⟩ := hround
      rw [hn] at hnew hroom
      injection hnew with hnew
      injection hnew with hh hhob
      subst hhob
      have hend : efiHobTypeEndOfHobList = 65535 := rfl
      -- the header of the block and the end of the list behind it
      generalize hm : writeBytes (writeBytes h.memory h.endOfHobList (headerBytes type n))
        (h.endOfHobList + n) (headerBytes efiHobTypeEndOfHobList sizeOfEfiHobGenericHeader) = m
        at hh
      have hhead : slotRange m h.endOfHobList 8 = headerBytes type n := by
        rw [← hm, slotRange_write_apart (.inl (by omega))]
        exact slotRange_write
      have hclose : slotRange m (h.endOfHobList + n) 8 =
          headerBytes efiHobTypeEndOfHobList sizeOfEfiHobGenericHeader := by
        rw [← hm]
        exact slotRange_write
      have hfrm : ∀ i < h.endOfHobList, m i = h.memory i := by
        intro i hi
        rw [← hm, writeBytes_of_lt (by omega), writeBytes_of_lt hi]
      obtain ⟨htype', hlen'⟩ := header_read (by omega) (by omega) hhead
      obtain ⟨hclosed, _⟩ := header_read (by rw [hend]; omega)
        (by rw [sizeOfEfiHobGenericHeader]; omega) hclose
      have hblk : blockLength m h.endOfHobList = some n := by
        rw [blockLength, htype', hlen', if_neg]
        rintro (h | h | h) <;> omega
      subst hh
      refine ⟨rfl, rfl, ⟨hl.aligned, ?_, hclosed⟩, hfrm, htype', ?_, by omega, ?_,
        by rw [hlen', hn], by rw [hlen']; omega, rfl, rfl⟩
      · have hold : Log hobFormat h.memory (h.endOfHobList + n + 1) h.hobList l h.endOfHobList :=
          hl.log.extend (by omega) (blockLength_closed hl.closed)
        refine hold.append ?_ ?_
        · intro x hx
          exact hl.log.length_eq_of_agree hl.aligned (fun i _ hi => hfrm i hi) hx
        · refine .cons (by omega) hblk (.nil fun _ => blockLength_closed hclosed)
      · rw [hlen']
        exact hle
      · rw [hlen']

theorem Appended.fill (happ : Appended h h' l hob type length)
    (hfrm : ∀ i, i < hob + 8 ∨ hob + hobLength h'.memory hob ≤ i → m i = h'.memory i) :
    Appended h { h' with memory := m } l hob type length := by
  have hplc := happ.place
  have hnext := happ.next
  have hlen : hobLength m hob = hobLength h'.memory hob :=
    readU16_congr fun i hi => hfrm _ (.inl (by omega))
  have htype : hobType m hob = hobType h'.memory hob :=
    readU16_congr fun i hi => hfrm _ (.inl (by omega))
  have hclosed : hobType m h'.endOfHobList = efiHobTypeEndOfHobList := by
    rw [← happ.hobs.closed]
    exact readU16_congr fun i hi => hfrm _ (.inr (by omega))
  have hlog := happ.hobs.log
  have hsame : ∀ x ∈ l ++ [hob], hobType m x = hobType h'.memory x ∧
      hobLength m x = hobLength h'.memory x := by
    intro x hx
    rcases mem_append.1 hx with hx' | hx'
    · obtain ⟨_, _, n, hn, _⟩ := hlog.of_mem hx
      have hpre := (pairwise_append.1 hlog.pairwise).2.2 x hx' hob
        (mem_singleton_self _) n hn
      exact ⟨readU16_congr fun i hi => hfrm _ (.inl (by omega)),
        readU16_congr fun i hi => hfrm _ (.inl (by omega))⟩
    · obtain rfl := mem_singleton.1 hx'
      exact ⟨htype, hlen⟩
  refine ⟨happ.place, happ.base, ⟨happ.hobs.aligned, ?_, hclosed⟩, ?_, ?_, ?_, happ.fits, ?_,
    by rw [hlen, happ.length_eq], by rw [hlen]; exact happ.room, happ.bottom, happ.top⟩
  · refine append_nil (l ++ [hob]) ▸ hlog.append ?_ (.nil fun _ => blockLength_closed hclosed)
    intro x hx
    change blockLength _ x = blockLength _ x
    rw [blockLength, blockLength, (hsame x hx).1, (hsame x hx).2]
  · intro i hi
    rw [← happ.frame i hi]
    exact hfrm i (.inl (by omega))
  · rw [htype]
    exact happ.type
  · rw [hlen]
    exact happ.length_le
  · rw [hlen]
    exact happ.next

theorem peiCreateHob_ok (hfits : length ≤ 0xFFF8) (hroom : (length + 7) / 8 * 8 ≤ h.freeMemory) :
    ∃ h' hob, peiCreateHob type length h = .ok (h', hob) := by
  rw [peiCreateHob, if_neg (by omega)]
  rw [if_neg (by omega)]
  exact ⟨_, _, rfl⟩

def isGuidHob (m : Memory) (guid : GuidBytes) (a : Nat) : Bool :=
  hobType m a = efiHobTypeGuidExtension ∧ readGuid m (a + 8) = guid

theorem getNextGuidHob_eq {guid : GuidBytes} {stop e : Nat}
    (hlog : Log hobFormat m stop a l e) (hclosed : hobType m e = efiHobTypeEndOfHobList)
    {rounds : Nat} (hrnd : l.length < rounds) :
    getNextGuidHob m guid rounds a = l.find? (isGuidHob m guid) := by
  induction hlog generalizing rounds with
  | nil =>
    obtain ⟨rounds, rfl⟩ := Nat.exists_eq_succ_of_ne_zero (Nat.ne_zero_of_lt hrnd)
    rw [getNextGuidHob, if_pos hclosed, find?_nil]
  | cons ha hn hl ih =>
    rename_i a n e l
    obtain ⟨rounds, rfl⟩ := Nat.exists_eq_succ_of_ne_zero (Nat.ne_zero_of_lt hrnd)
    obtain ⟨hopen, hlen, _⟩ := blockLength_some hn
    rw [length_cons] at hrnd
    rw [getNextGuidHob, if_neg hopen, find?_cons]
    by_cases hguid : hobType m a = efiHobTypeGuidExtension ∧ readGuid m (a + 8) = guid
    · have hfnd : isGuidHob m guid a = true := decide_eq_true hguid
      rw [if_pos hguid, hfnd]
    · have hoth : isGuidHob m guid a = false := decide_eq_false hguid
      rw [if_neg hguid, hoth, hlen, ih hclosed (by omega)]

end MuBasecore.HobList
