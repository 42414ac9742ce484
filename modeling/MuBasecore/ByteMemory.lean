import MuBasecore.SlotBuffer

/-!
A byte-addressed memory as a function, with little-endian reads and with writes of
whole lists of bytes.
-/

namespace MuBasecore.ByteMemory

open SlotBuffer List

abbrev Byte := BitVec 8

abbrev Memory := Nat → Byte

variable {m m' : Memory} {a a' b i n : Nat} {l : List Byte}

def readU16 (m : Memory) (a : Nat) : Nat :=
  (m a).toNat + 256 * (m (a + 1)).toNat

def readU32 (m : Memory) (a : Nat) : Nat :=
  (m a).toNat + 256 * (m (a + 1)).toNat + 65536 * (m (a + 2)).toNat +
    16777216 * (m (a + 3)).toNat

def bytesU32 (n : Nat) : List Byte :=
  [.ofNat 8 n, .ofNat 8 (n / 256), .ofNat 8 (n / 65536), .ofNat 8 (n / 16777216)]

def readU64 (m : Memory) (a : Nat) : Nat :=
  readU32 m a + 4294967296 * readU32 m (a + 4)

def bytesU64 (n : Nat) : List Byte :=
  bytesU32 n ++ bytesU32 (n / 4294967296)

def bytesU16 (n : Nat) : List Byte :=
  [.ofNat 8 n, .ofNat 8 (n / 256)]

theorem readU16_congr (h : ∀ i < 2, m' (a' + i) = m (a + i)) : readU16 m' a' = readU16 m a := by
  have h0 := h 0 (by omega)
  have h1 := h 1 (by omega)
  simp only [add_zero] at h0
  rw [readU16, readU16, h0, h1]

theorem readU32_congr (h : ∀ i < 4, m' (a' + i) = m (a + i)) : readU32 m' a' = readU32 m a := by
  have h0 := h 0 (by omega)
  simp only [add_zero] at h0
  rw [readU32, readU32, h0, h 1 (by omega), h 2 (by omega), h 3 (by omega)]

theorem readU32_lt : readU32 m a < 4294967296 := by
  rw [readU32]
  omega

theorem readU32_bytes_mod (h : slotRange m a 4 = bytesU32 n) : readU32 m a = n % 4294967296 := by
  have hlist : slotRange m a 4 = [m a, m (a + 1), m (a + 2), m (a + 3)] := rfl
  rw [hlist, bytesU32] at h
  simp only [cons.injEq, and_true] at h
  obtain ⟨h0, h1, h2, h3⟩ := h
  rw [readU32, h0, h1, h2, h3]
  simp only [BitVec.toNat_ofNat]
  omega

theorem readU32_bytesU32 (hn : n < 4294967296)
    (h : slotRange m a 4 = bytesU32 n) : readU32 m a = n := by
  rw [readU32_bytes_mod h, Nat.mod_eq_of_lt hn]

def writeBytes (m : Memory) (a : Nat) (l : List Byte) : Memory := fun i =>
  if a ≤ i then l.getD (i - a) (m i) else m i

def copyBytes (m : Memory) (a : Nat) (src : Memory) (b n : Nat) : Memory := fun i =>
  if a ≤ i ∧ i < a + n then src (b + (i - a)) else m i

theorem writeBytes_of_lt (h : i < a) : writeBytes m a l i = m i :=
  if_neg (by omega)

theorem writeBytes_of_le (m : Memory) (l : List Byte) (h : a + l.length ≤ i) :
    writeBytes m a l i = m i := by
  rw [writeBytes, if_pos (by omega)]
  exact getD_eq_default _ _ (by omega)

theorem writeBytes_add (m : Memory) (a : Nat) (h : i < l.length) :
    writeBytes m a l (a + i) = l[i] := by
  rw [writeBytes, if_pos (by omega)]
  simp only [Nat.add_sub_cancel_left]
  exact getD_eq_getElem _ _ h

theorem slotRange_write : slotRange (writeBytes m a l) a l.length = l := by
  apply ext_getElem
  · exact length_slotRange _ _ _
  · intro i h h'
    simp only [slotRange, getElem_map, getElem_range]
    exact writeBytes_add m a h'

variable {src : Memory}

theorem copyBytes_add (h : i < n) : copyBytes m a src b n (a + i) = src (b + i) := by
  rw [copyBytes, if_pos (by omega), Nat.add_sub_cancel_left]

theorem copyBytes_of_not (h : i < a ∨ a + n ≤ i) : copyBytes m a src b n i = m i :=
  if_neg (by omega)

theorem readU16_bytesU16 (hn : n < 65536) (h : slotRange m a 2 = bytesU16 n) : readU16 m a = n := by
  have hlist : slotRange m a 2 = [m a, m (a + 1)] := rfl
  rw [hlist, bytesU16] at h
  simp only [cons.injEq, and_true] at h
  rw [readU16, h.1, h.2]
  simp only [BitVec.toNat_ofNat]
  omega

theorem readU64_bytesU64 (hn : n < 2 ^ 64)
    (h : slotRange m a 8 = bytesU64 n) : readU64 m a = n := by
  have hspl : slotRange m a 8 = slotRange m a 4 ++ slotRange m (a + 4) 4 := slotRange_add m a 4 4
  rw [hspl, bytesU64] at h
  obtain ⟨hlow, hhigh⟩ := append_inj h rfl
  rw [readU64, readU32_bytes_mod hlow, readU32_bytes_mod hhigh]
  omega

theorem readU64_congr (h : ∀ i < 8, m' (a' + i) = m (a + i)) : readU64 m' a' = readU64 m a := by
  have hlow : readU32 m' a' = readU32 m a := readU32_congr fun i hi => h i (by omega)
  have hhigh : readU32 m' (a' + 4) = readU32 m (a + 4) := by
    apply readU32_congr
    intro i hi
    rw [add_assoc, add_assoc]
    exact h (4 + i) (by omega)
  rw [readU64, readU64, hlow, hhigh]

theorem writeBytes_apart (m : Memory) (h : i < a ∨ a + l.length ≤ i) : writeBytes m a l i = m i :=
  h.elim writeBytes_of_lt (writeBytes_of_le m l)

theorem readU16_writeBytes_apart
    (h : a + 2 ≤ b ∨ b + l.length ≤ a) : readU16 (writeBytes m b l) a = readU16 m a :=
  readU16_congr fun _ hi => writeBytes_apart m (by omega)

theorem readU16_writeBytes (hn : n < 65536) : readU16 (writeBytes m a (bytesU16 n)) a = n :=
  readU16_bytesU16 hn (slotRange_write)

theorem slotRange_write_apart (h : a + n ≤ b ∨ b + l.length ≤ a) :
    slotRange (writeBytes m b l) a n = slotRange m a n := by
  apply slotRange_congr
  intro i hi hlt
  exact writeBytes_apart m (by omega)

theorem slotRange_append {l' : List Byte} (h : slotRange m a (l ++ l').length = l ++ l') :
    slotRange m a l.length = l ∧ slotRange m (a + l.length) l'.length = l' := by
  rw [length_append, slotRange_add] at h
  exact append_inj h (length_slotRange _ _ _)

end MuBasecore.ByteMemory
