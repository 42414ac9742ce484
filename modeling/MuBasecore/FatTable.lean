import MuBasecore.ByteMemory

/-!
The file allocation table of a FAT volume: reading and writing one entry of the
twelve, sixteen and thirty-two bit tables, and the free cluster information that
goes with it. Reads and writes of the disk succeed.
-/

namespace MuBasecore.FatTable

open ByteMemory BitVec

inductive FatStatus
  | success
  | unsupported
  | volumeCorrupted
  | volumeFull
  deriving DecidableEq, Repr

inductive FatType
  | fat12
  | fat16
  | fat32
  deriving DecidableEq, Repr

def uintnSize : Nat := 2 ^ 64

/-- `FAT_CLUSTER_SPECIAL_EXT`. -/
def clusterSpecialExt : Nat := uintnSize - 16

def clusterSpecial : Nat := clusterSpecialExt + 7

def clusterFree : Nat := 0

/-- `(UINTN)FAT_CLUSTER_LAST`. -/
def clusterLast : Nat := uintnSize - 1

def minCluster : Nat := 2

def endOfFatChain (cluster : Nat) : Bool :=
  clusterSpecial < cluster

def FatType.special : FatType → Nat
  | .fat12 => 0xFF7
  | .fat16 => 0xFFF7
  | .fat32 => 0x0FFFFFF7

def FatType.values : FatType → Nat
  | .fat12 => 0x1000
  | .fat16 => 0x10000
  | .fat32 => 0x10000000

def FatType.entrySize : FatType → Nat
  | .fat12 => 2
  | .fat16 => 2
  | .fat32 => 4

def FatType.pos : FatType → Nat → Nat
  | .fat12, index => index * 3 / 2
  | .fat16, index => index * 2
  | .fat32, index => index * 4

/-- The part of `FAT_VOLUME` that the cluster chains depend on. The bytes of the
table and the position of the entry buffer are counted from the start of the
table. Every cluster of the volume has a number that an entry can hold: `FatOpenDevice` checks
this for FAT12 and FAT16, and FAT32 does not allow more clusters than that. -/
structure FatVolume where
  fatType : FatType
  rootPos : Nat
  firstClusterPos : Nat
  maxCluster : Nat
  clusterAlignment : Nat
  fat : Memory
  fatEntryPos : Nat
  clusterCount : Nat
  nextCluster : Nat
  freeInfoValid : Bool
  fatDirty : Bool
  dirtyValue : Nat
  maxCluster_lt : maxCluster + 1 < fatType.special
  alignment_le : clusterAlignment ≤ 19

variable {cluster i index : Nat} {v v' : FatVolume}

namespace FatVolume

def clusterSize (v : FatVolume) : Nat :=
  2 ^ v.clusterAlignment

def InRange (v : FatVolume) (cluster : Nat) : Prop :=
  minCluster ≤ cluster ∧ cluster ≤ v.maxCluster + 1

instance (v : FatVolume) (cluster : Nat) : Decidable (v.InRange cluster) :=
  inferInstanceAs (Decidable (_ ∧ _))

theorem InRange.not_outside (h : v.InRange cluster) :
    ¬ (cluster < minCluster ∨ v.maxCluster + 1 < cluster) := by
  have := h.1
  have := h.2
  omega

end FatVolume

def readEntry (fatType : FatType) (fat : Memory) (pos : Nat) : Nat :=
  match fatType with
  | .fat12 => readU16 fat pos
  | .fat16 => readU16 fat pos
  | .fat32 => readU32 fat pos

def entryBytes (fatType : FatType) (value : Nat) : List Byte :=
  match fatType with
  | .fat12 => bytesU16 value
  | .fat16 => bytesU16 value
  | .fat32 => bytesU32 value

/-- The entry buffer that `FatLoadFatEntry` returns. -/
def fatEntryBuffer (v : FatVolume) (index : Nat) : Nat :=
  if v.maxCluster + 1 < index then 0xFFFFFFFF
  else readEntry v.fatType v.fat (v.fatType.pos index)

/-- `FatLoadFatEntry` leaves the position of the buffer alone when the index is
outside of the table. -/
def fatLoadFatEntry (v : FatVolume) (index : Nat) : FatVolume :=
  if v.maxCluster + 1 < index then v
  else { v with fatEntryPos := v.fatType.pos index }

def FatType.extract (fatType : FatType) (index buffer : Nat) : Nat :=
  match fatType with
  | .fat12 => if index % 2 = 1 then buffer / 16 else buffer % 0x1000
  | .fat16 => buffer
  | .fat32 => buffer % 0x10000000

def FatType.extend (fatType : FatType) (accum : Nat) : Nat :=
  if fatType.special ≤ accum then clusterSpecialExt + accum % 16 else accum

def fatGetFatEntry (v : FatVolume) (index : Nat) : Nat :=
  if v.maxCluster + 1 < index then clusterLast
  else v.fatType.extend (v.fatType.extract index (fatEntryBuffer v index))

def FatType.insert (fatType : FatType) (index value buffer : Nat) : Nat :=
  match fatType with
  | .fat12 =>
    if index % 2 = 1 then value % 0x1000 * 16 + buffer % 0x10000 % 16
    else value % 0x1000 + buffer % 0x10000 / 0x1000 * 0x1000
  | .fat16 => value % 0x10000
  | .fat32 => buffer / 0x10000000 * 0x10000000 + value % 0x10000000

def updateFreeInfo (v : FatVolume) (index value original : Nat) : FatVolume :=
  if value = clusterFree ∧ original ≠ clusterFree then
    { v with
      clusterCount := (v.clusterCount + 1) % 2 ^ 32
      nextCluster := if index < v.nextCluster then index % 2 ^ 32 else v.nextCluster }
  else if value ≠ clusterFree ∧ original = clusterFree then
    { v with clusterCount := v.clusterCount - 1 }
  else v

def markDirty (v : FatVolume) : FatVolume :=
  if v.fatDirty = false ∧ v.fatType ≠ .fat12 then
    { v with
      fatDirty := true
      fat := writeBytes v.fat v.fatType.entrySize (entryBytes v.fatType v.dirtyValue) }
  else v

def writeBuffer (v : FatVolume) (buffer : Nat) : FatVolume :=
  { v with fat := writeBytes v.fat v.fatEntryPos (entryBytes v.fatType buffer) }

def fatSetFatEntry (v : FatVolume) (index value : Nat) : FatStatus × FatVolume :=
  if index < minCluster then (.volumeCorrupted, v)
  else
    let buffer := v.fatType.insert index value (fatEntryBuffer v index)
    let updated := updateFreeInfo (fatLoadFatEntry v index) index value (fatGetFatEntry v index)
    (.success, writeBuffer (markDirty updated) buffer)

def entryValue (fatType : FatType) (fat : Memory) (index : Nat) : Nat :=
  fatType.extract index (readEntry fatType fat (fatType.pos index))

theorem writeBytes_bytesU16 (m : Memory) (a n i : Nat) :
    writeBytes m a (bytesU16 n) i =
      if i = a then .ofNat 8 n else if i = a + 1 then .ofNat 8 (n / 256) else m i := by
  split
  · next h =>
    rw [h]
    have hlen : 0 < (bytesU16 n).length := Nat.zero_lt_succ 1
    exact writeBytes_add m a hlen
  · split
    · next h =>
      rw [h]
      have hlen : 1 < (bytesU16 n).length := Nat.one_lt_succ_succ 0
      exact writeBytes_add m a hlen
    · exact writeBytes_apart m (by change i < a ∨ a + 2 ≤ i; omega)

variable {k j x : Nat} {fat : Memory} {fatType : FatType}

theorem pos_fat12_even : 2 * k * 3 / 2 = 3 * k := by
  omega

theorem pos_fat12_odd : (2 * k + 1) * 3 / 2 = 3 * k + 1 := by
  omega

theorem entryValue_insert_fat12 :
    entryValue .fat12 (writeBytes fat (i * 3 / 2)
        (bytesU16 (FatType.insert .fat12 i x (readU16 fat (i * 3 / 2))))) j
      = if j = i then x % 0x1000 else entryValue .fat12 fat j := by
  simp only [entryValue, FatType.extract, readEntry, FatType.pos, FatType.insert, readU16,
    writeBytes_bytesU16]
  obtain ⟨a, rfl | rfl⟩ : ∃ a, i = 2 * a ∨ i = 2 * a + 1 := ⟨i / 2, by omega⟩ <;>
    obtain ⟨b, rfl | rfl⟩ : ∃ b, j = 2 * b ∨ j = 2 * b + 1 := ⟨j / 2, by omega⟩
  · have h0 := (fat (3 * a)).isLt
    rcases eq_or_ne b a with rfl | hne
    · simp [toNat_ofNat]
      omega
    · simp (disch := omega) [if_neg]
  · have h0 := (fat (3 * a)).isLt
    rw [pos_fat12_even, pos_fat12_odd]
    rcases eq_or_ne b a with rfl | hne
    · simp (disch := omega) [toNat_ofNat, if_neg]
      omega
    · simp (disch := omega) [if_neg]
  · have h1 := (fat (3 * a + 1)).isLt
    rw [pos_fat12_even, pos_fat12_odd]
    rcases eq_or_ne b a with rfl | hne
    · simp (disch := omega) [toNat_ofNat, if_neg]
      omega
    · simp (disch := omega) [if_neg]
  · have h1 := (fat (3 * a + 1)).isLt
    rcases eq_or_ne b a with rfl | hne
    · simp [toNat_ofNat]
      omega
    · simp (disch := omega) [if_neg]

theorem entryValue_congr (fatType : FatType) {fat fat' : Memory}
    (h : ∀ i < 4, fat' (fatType.pos index + i) = fat (fatType.pos index + i)) :
    entryValue fatType fat' index = entryValue fatType fat index := by
  rw [entryValue, entryValue]
  congr 1
  cases fatType with
  | fat12 | fat16 => exact readU16_congr fun i hi => h i (by omega)
  | fat32 => exact readU32_congr h

theorem entryValue_insert :
    entryValue fatType (writeBytes fat (fatType.pos i)
        (entryBytes fatType (fatType.insert i x (readEntry fatType fat (fatType.pos i))))) j
      = if j = i then x % fatType.values else entryValue fatType fat j := by
  cases fatType with
  | fat12 => exact entryValue_insert_fat12
  | fat16 =>
    split
    · next h =>
      subst h
      exact readU16_writeBytes (Nat.mod_lt x (by decide))
    · exact readU16_writeBytes_apart (by change j * 2 + 2 ≤ i * 2 ∨ i * 2 + 2 ≤ j * 2; omega)
  | fat32 =>
    change readU32 (writeBytes fat (i * 4) (bytesU32 (readU32 fat (i * 4) / 0x10000000 *
      0x10000000 + x % 0x10000000))) (j * 4) % 0x10000000 = _
    split
    · next h =>
      subst h
      rw [readU32_bytes_mod (slotRange_write)]
      change _ = x % 0x10000000
      omega
    · rw [readU32_congr fun k hk => writeBytes_apart fat
        (by change j * 4 + k < i * 4 ∨ i * 4 + 4 ≤ j * 4 + k; omega)]
      rfl

structure SameShape (v v' : FatVolume) : Prop where
  fatType : v'.fatType = v.fatType
  maxCluster : v'.maxCluster = v.maxCluster
  clusterAlignment : v'.clusterAlignment = v.clusterAlignment

theorem SameShape.refl (v : FatVolume) : SameShape v v :=
  ⟨rfl, rfl, rfl⟩

theorem SameShape.trans {v₁ v₂ v₃ : FatVolume} (h₁ : SameShape v₁ v₂) (h₂ : SameShape v₂ v₃) :
    SameShape v₁ v₃ :=
  ⟨h₂.1.trans h₁.1, h₂.2.trans h₁.2, h₂.3.trans h₁.3⟩

theorem SameShape.inRange_iff (h : SameShape v v') : v'.InRange cluster ↔ v.InRange cluster := by
  rw [FatVolume.InRange, FatVolume.InRange, h.maxCluster]

theorem SameShape.clusterSize (h : SameShape v v') : v'.clusterSize = v.clusterSize := by
  rw [FatVolume.clusterSize, FatVolume.clusterSize, h.clusterAlignment]

structure SameTable (v v' : FatVolume) : Prop extends SameShape v v' where
  fat : v'.fat = v.fat
  clusterCount : v'.clusterCount = v.clusterCount
  nextCluster : v'.nextCluster = v.nextCluster
  fatDirty : v'.fatDirty = v.fatDirty
  dirtyValue : v'.dirtyValue = v.dirtyValue

theorem sameTable_load (v : FatVolume) (index : Nat) : SameTable v (fatLoadFatEntry v index) := by
  unfold fatLoadFatEntry
  split <;> exact ⟨⟨rfl, rfl, rfl⟩, rfl, rfl, rfl, rfl, rfl⟩

theorem fatGetFatEntry_eq (h : index ≤ v.maxCluster + 1) :
    fatGetFatEntry v index = v.fatType.extend (entryValue v.fatType v.fat index) := by
  rw [fatGetFatEntry, if_neg (by omega), fatEntryBuffer, if_neg (by omega), entryValue]

theorem getFatEntry_outside (h : v.maxCluster + 1 < index) : fatGetFatEntry v index = clusterLast :=
  if_pos h

theorem getFatEntry_congr (hshp : SameShape v v')
    (h : entryValue v.fatType v'.fat index = entryValue v.fatType v.fat index) :
    fatGetFatEntry v' index = fatGetFatEntry v index := by
  rcases lt_or_ge (v.maxCluster + 1) index with hout | hin
  · rw [getFatEntry_outside hout, getFatEntry_outside (hshp.maxCluster ▸ hout)]
  · rw [fatGetFatEntry_eq hin, fatGetFatEntry_eq (hshp.maxCluster ▸ hin), hshp.fatType, h]

theorem SameTable.get (h : SameTable v v') (index : Nat) :
    fatGetFatEntry v' index = fatGetFatEntry v index :=
  getFatEntry_congr h.toSameShape (by rw [h.fat])

theorem sameShape_freeInfo (v : FatVolume) (index value old : Nat) :
    SameShape v (updateFreeInfo v index value old) := by
  unfold updateFreeInfo
  split
  · exact ⟨rfl, rfl, rfl⟩
  · split <;> exact ⟨rfl, rfl, rfl⟩

theorem updateFreeInfo_fat (v : FatVolume) (index value old : Nat) :
    (updateFreeInfo v index value old).fat = v.fat ∧
      (updateFreeInfo v index value old).fatEntryPos = v.fatEntryPos := by
  unfold updateFreeInfo
  split
  · exact ⟨rfl, rfl⟩
  · split <;> exact ⟨rfl, rfl⟩

theorem sameShape_markDirty (v : FatVolume) : SameShape v (markDirty v) := by
  unfold markDirty
  split <;> exact ⟨rfl, rfl, rfl⟩

theorem markDirty_fatEntryPos (v : FatVolume) : (markDirty v).fatEntryPos = v.fatEntryPos := by
  unfold markDirty
  split <;> rfl

theorem entryBytes_length (value : Nat) :
    (entryBytes fatType value).length = fatType.entrySize := by
  cases fatType <;> rfl

theorem markDirty_byte (h : 2 * v.fatType.entrySize ≤ i) : (markDirty v).fat i = v.fat i := by
  unfold markDirty
  split
  · apply writeBytes_of_le
    rw [entryBytes_length]
    omega
  · rfl

theorem pos_ge_of_le (fatType : FatType) (h : minCluster ≤ index)
    (hwide : fatType ≠ .fat12) : 2 * fatType.entrySize ≤ fatType.pos index := by
  rw [minCluster] at h
  cases fatType with
  | fat12 => exact absurd rfl hwide
  | fat16 => change 2 * 2 ≤ index * 2; omega
  | fat32 => change 2 * 4 ≤ index * 4; omega

theorem entryValue_markDirty (v : FatVolume) (h : minCluster ≤ index) :
    entryValue v.fatType (markDirty v).fat index = entryValue v.fatType v.fat index := by
  by_cases hwide : v.fatType = .fat12
  · rw [markDirty, if_neg (fun hd => hd.2 hwide)]
  · apply entryValue_congr
    intro i _
    apply markDirty_byte
    have := pos_ge_of_le v.fatType h hwide
    omega

theorem sameShape_set (v : FatVolume) (index value : Nat) :
    SameShape v (fatSetFatEntry v index value).2 := by
  rw [fatSetFatEntry]
  split
  · exact SameShape.refl v
  · refine SameShape.trans (SameShape.trans (SameShape.trans (sameTable_load v index).toSameShape
      (sameShape_freeInfo _ index value (fatGetFatEntry v index)))
      (sameShape_markDirty _)) ?_
    exact ⟨rfl, rfl, rfl⟩

theorem markDirty_fat :
    (markDirty v).fat =
      if v.fatDirty = false ∧ v.fatType ≠ .fat12 then
        writeBytes v.fat v.fatType.entrySize (entryBytes v.fatType v.dirtyValue)
      else v.fat := by
  unfold markDirty
  split <;> rfl

theorem markDirty_fat_congr {u : FatVolume} (htype : u.fatType = v.fatType)
    (hfat : u.fat = v.fat) (hdirty : u.fatDirty = v.fatDirty)
    (hvl : u.dirtyValue = v.dirtyValue) : (markDirty u).fat = (markDirty v).fat := by
  rw [markDirty_fat, markDirty_fat, htype, hfat, hdirty, hvl]

theorem updateFreeInfo_dirty (v : FatVolume) (index value old : Nat) :
    (updateFreeInfo v index value old).fatDirty = v.fatDirty ∧
      (updateFreeInfo v index value old).dirtyValue = v.dirtyValue := by
  unfold updateFreeInfo
  split
  · exact ⟨rfl, rfl⟩
  · split <;> exact ⟨rfl, rfl⟩

theorem readEntry_markDirty (hi : minCluster ≤ i) :
    readEntry v.fatType (markDirty v).fat (v.fatType.pos i)
      = readEntry v.fatType v.fat (v.fatType.pos i) := by
  by_cases hwide : v.fatType = .fat12
  · rw [markDirty, if_neg (fun hd => hd.2 hwide)]
  · have hge := pos_ge_of_le v.fatType hi hwide
    have hbyte : ∀ k < 4, (markDirty v).fat (v.fatType.pos i + k) =
        v.fat (v.fatType.pos i + k) := fun k _ => markDirty_byte (by omega)
    cases hv : v.fatType with
    | fat12 => exact absurd hv hwide
    | fat16 =>
      rw [hv] at hbyte
      exact readU16_congr fun k hk => hbyte k (by omega)
    | fat32 =>
      rw [hv] at hbyte
      exact readU32_congr hbyte

theorem set_fat (hi : v.InRange i) (x : Nat) :
    (fatSetFatEntry v i x).2.fat = writeBytes (markDirty v).fat (v.fatType.pos i)
      (entryBytes v.fatType
        (v.fatType.insert i x (readEntry v.fatType (markDirty v).fat (v.fatType.pos i)))) := by
  obtain ⟨hlow, hhigh⟩ := hi
  have hbuf : fatEntryBuffer v i = readEntry v.fatType v.fat (v.fatType.pos i) :=
    if_neg (by omega)
  -- the volume before the buffer is written back
  obtain ⟨u, hu⟩ : ∃ u, u = updateFreeInfo (fatLoadFatEntry v i) i x (fatGetFatEntry v i) :=
    ⟨_, rfl⟩
  have hload := sameTable_load v i
  have hshp : SameShape v u := hu ▸ hload.toSameShape.trans
    (sameShape_freeInfo _ i x (fatGetFatEntry v i))
  have hfat : (markDirty u).fat = (markDirty v).fat := by
    apply markDirty_fat_congr hshp.fatType
    · rw [hu, (updateFreeInfo_fat _ _ _ _).1, hload.fat]
    · rw [hu, (updateFreeInfo_dirty _ _ _ _).1, hload.fatDirty]
    · rw [hu, (updateFreeInfo_dirty _ _ _ _).2, hload.dirtyValue]
  have hpos : u.fatEntryPos = v.fatType.pos i := by
    rw [hu, (updateFreeInfo_fat _ _ _ _).2, fatLoadFatEntry, if_neg (by omega)]
  have hset : (fatSetFatEntry v i x).2
      = writeBuffer (markDirty u) (v.fatType.insert i x (fatEntryBuffer v i)) := by
    rw [fatSetFatEntry, if_neg (by omega), hu]
  rw [readEntry_markDirty hlow, ← hbuf, ← hpos, ← hfat, ← markDirty_fatEntryPos u, hset]
  change writeBytes _ _ (entryBytes (markDirty u).fatType _) = _
  rw [(sameShape_markDirty u).fatType, hshp.fatType]

theorem entryValue_set (hi : v.InRange i) (x j : Nat) :
    entryValue v.fatType (fatSetFatEntry v i x).2.fat j
      = if j = i then x % v.fatType.values else entryValue v.fatType (markDirty v).fat j := by
  rw [set_fat hi, entryValue_insert]

theorem get_set (hi : v.InRange i) (x : Nat) (hj : minCluster ≤ j) :
    fatGetFatEntry (fatSetFatEntry v i x).2 j
      = if j = i then v.fatType.extend (x % v.fatType.values) else fatGetFatEntry v j := by
  have hvl := entryValue_set hi x j
  rw [entryValue_markDirty v hj] at hvl
  have hshp := sameShape_set v i x
  split
  · next h =>
    subst h
    rw [if_pos rfl] at hvl
    rw [fatGetFatEntry_eq (hshp.maxCluster ▸ hi.2), hshp.fatType, hvl]
  · next h =>
    rw [if_neg h] at hvl
    exact getFatEntry_congr hshp hvl

theorem extend_free : fatType.extend (clusterFree % fatType.values) = clusterFree := by
  cases fatType <;> rfl

theorem extend_last : fatType.extend (clusterLast % fatType.values) = clusterLast := by
  cases fatType <;> rfl

theorem extend_cluster (h : cluster < fatType.special) :
    fatType.extend (cluster % fatType.values) = cluster := by
  have hvalues : cluster % fatType.values = cluster := by
    apply Nat.mod_eq_of_lt
    cases fatType with
    | fat12 => exact h.trans (by decide)
    | fat16 => exact h.trans (by decide)
    | fat32 => exact h.trans (by decide)
  rw [hvalues, FatType.extend, if_neg (by omega)]

section

variable (hi : v.InRange i)
include hi

theorem get_set_ne (hj : minCluster ≤ j) (hne : j ≠ i) :
    fatGetFatEntry (fatSetFatEntry v i x).2 j = fatGetFatEntry v j := by
  rw [get_set hi x hj, if_neg hne]

theorem get_set_free : fatGetFatEntry (fatSetFatEntry v i clusterFree).2 i = clusterFree := by
  rw [get_set hi _ hi.1, if_pos rfl, extend_free]

theorem get_set_last : fatGetFatEntry (fatSetFatEntry v i clusterLast).2 i = clusterLast := by
  rw [get_set hi _ hi.1, if_pos rfl, extend_last]

theorem get_set_cluster (hclus : v.InRange cluster) :
    fatGetFatEntry (fatSetFatEntry v i cluster).2 i = cluster := by
  rw [get_set hi _ hi.1, if_pos rfl, extend_cluster (hclus.2.trans_lt v.maxCluster_lt)]

theorem get_set_reserved (x : Nat) (hkeep : v.fatType = .fat12 ∨ v.fatDirty = true) :
    fatGetFatEntry (fatSetFatEntry v i x).2 1 = fatGetFatEntry v 1 := by
  refine getFatEntry_congr (sameShape_set v i x) ?_
  have hne : (1 : Nat) ≠ i := by
    have : 2 ≤ i := hi.1
    omega
  rw [entryValue_set hi, if_neg hne, markDirty_fat, if_neg]
  rintro ⟨hdirty, htype⟩
  rcases hkeep with hkeep | hkeep
  · exact htype hkeep
  · rw [hdirty] at hkeep
    cases hkeep

theorem get_set_dirty (x : Nat) (htype : v.fatType ≠ .fat12) (hdirty : v.fatDirty = false)
    (hvl : v.dirtyValue = 0xFFFFFFFF) :
    fatGetFatEntry (fatSetFatEntry v i x).2 1 = clusterLast := by
  have hshp := sameShape_set v i x
  have hne : (1 : Nat) ≠ i := by
    have : 2 ≤ i := hi.1
    omega
  rw [fatGetFatEntry_eq (by omega), hshp.fatType, entryValue_set hi, if_neg hne, markDirty_fat,
    if_pos ⟨hdirty, htype⟩, hvl]
  cases hv : v.fatType with
  | fat12 => exact absurd hv htype
  | fat16 =>
    have hread : entryValue .fat16 (writeBytes v.fat 2 (bytesU16 0xFFFFFFFF)) 1 = 0xFFFF := by
      change readU16 (writeBytes v.fat 2 (bytesU16 0xFFFF)) 2 = 0xFFFF
      exact readU16_writeBytes (by decide)
    rw [show FatType.entrySize .fat16 = 2 from rfl,
      show entryBytes .fat16 0xFFFFFFFF = bytesU16 0xFFFFFFFF from rfl, hread]
    rfl
  | fat32 =>
    have hread : entryValue .fat32 (writeBytes v.fat 4 (bytesU32 0xFFFFFFFF)) 1 = 0xFFFFFFF := by
      change readU32 (writeBytes v.fat 4 (bytesU32 0xFFFFFFFF)) 4 % 0x10000000 = 0xFFFFFFF
      rw [readU32_bytes_mod (slotRange_write)]
    rw [show FatType.entrySize .fat32 = 4 from rfl,
      show entryBytes .fat32 0xFFFFFFFF = bytesU32 0xFFFFFFFF from rfl, hread]
    rfl

theorem set_fatDirty (x : Nat) :
    (fatSetFatEntry v i x).2.fatDirty = (v.fatDirty || v.fatType != .fat12) := by
  obtain ⟨u, hu⟩ : ∃ u, u = updateFreeInfo (fatLoadFatEntry v i) i x (fatGetFatEntry v i) :=
    ⟨_, rfl⟩
  have hload := sameTable_load v i
  have htype : u.fatType = v.fatType := by
    rw [hu, (sameShape_freeInfo _ _ _ _).fatType, hload.fatType]
  have hdirty : u.fatDirty = v.fatDirty := by
    rw [hu, (updateFreeInfo_dirty _ _ _ _).1, hload.fatDirty]
  have hset : (fatSetFatEntry v i x).2.fatDirty = (markDirty u).fatDirty := by
    rw [fatSetFatEntry, if_neg (not_lt.2 hi.1), hu]
    rfl
  rw [hset, markDirty]
  split
  · next h =>
    rw [hdirty, htype] at h
    simp [h.1, h.2]
  · next h =>
    rw [hdirty, htype] at h
    rw [hdirty]
    cases hv : v.fatDirty with
    | true => rfl
    | false => simpa [hv] using h

end

theorem not_endOfFatChain_of_inRange (h : v.InRange cluster) : cluster < clusterSpecial := by
  have hspecial : v.fatType.special < clusterSpecial := by
    cases v.fatType <;> decide
  have := v.maxCluster_lt
  have := h.2
  omega

end MuBasecore.FatTable
