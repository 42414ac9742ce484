import MuBasecore.AmlTree

/-!
`AmlSerializeTree`: the size of a definition block is computed by one enumeration of its tree,
and its bytes are written by another one.
-/

namespace MuBasecore.AmlSerialize

open EfiTypes ByteMemory AmlTree Function List

/-- `AmlSetPkgLength`, as the bytes that are written. -/
def amlSetPkgLength (length : Nat) : List Byte :=
  if length < 2 ^ 6 then [.ofNat 8 length]
  else if length ≥ 2 ^ 28 then []
  else
    let offset := if length ≥ 2 ^ 20 then 3 else if length ≥ 2 ^ 12 then 2 else 1
    .ofNat 8 (offset * 64 + length % 16) ::
      (List.range offset).map fun current => .ofNat 8 (length / 2 ^ (4 + current * 8))

def amlComputePkgLengthWidth (length : Nat) : Nat :=
  if length ≥ 2 ^ 28 then 0
  else if length ≥ 2 ^ 20 then 4
  else if length ≥ 2 ^ 12 then 3
  else if length ≥ 2 ^ 6 then 2
  else 1

theorem length_amlSetPkgLength (length : Nat) :
    (amlSetPkgLength length).length = amlComputePkgLengthWidth length := by
  rw [amlSetPkgLength, amlComputePkgLengthWidth]
  split
  · rw [if_neg (by omega), if_neg (by omega), if_neg (by omega), if_neg (by omega)]
    rfl
  · split
    · rfl
    · dsimp only
      rw [length_cons, length_map, length_range]
      split
      · rfl
      · split
        · rfl
        · rw [if_pos (by omega)]

def nodeSize : AmlNode → Nat
  | .data buffer _ => buffer.length
  | .object encoding pkgLen _ _ =>
    if encoding.isPseudoOpcode then 0
    else (if encoding.opCode = amlExtOp then 2 else 1) +
      if encoding.hasPkgLength then amlComputePkgLengthWidth pkgLen else 0

/-- `AmlComputeSizeCallback`. -/
def amlComputeSizeCallback (place : Place) (node : AmlNode) (context : Nat × EfiStatus) :
    (Nat × EfiStatus) × Bool :=
  if place.ignored then ((context.1, .success), true)
  else
    let size := (context.1 + nodeSize node) % 2 ^ 32
    if context.1 > size then ((context.1, .invalidParameter), false)
    else ((size, .success), true)

/-- `AmlComputeSize` of a root node, which itself has no size. -/
def amlComputeSize (root : AmlRoot) : Nat × EfiStatus :=
  (enumVariable amlComputeSizeCallback .top root.variableArgs (0, .success)).1

/-- A stream that goes forward, over the memory at `Buffer`; the offsets that have been written
are kept. -/
structure AmlStream where
  memory : Memory
  written : List Nat
  maxBufferSize : Nat
  index : Nat

/-- `CopyMem` to an offset. -/
def AmlStream.copy (s : AmlStream) (bytes : List Byte) : AmlStream :=
  { s with
    memory := writeBytes s.memory s.index bytes
    written := s.written ++ (List.range bytes.length).map (s.index + ·)
    index := s.index + bytes.length }

def amlStreamWrite (s : AmlStream) (bytes : List Byte) : AmlStream × EfiStatus :=
  if s.index ≥ s.maxBufferSize ∨ bytes.length = 0 then (s, .invalidParameter)
  else if s.maxBufferSize - s.index < bytes.length then (s, .bufferTooSmall)
  else (s.copy bytes, .success)

def objectInfo (encoding : AmlByteEncoding) (pkgLen : Nat) : List Byte :=
  (if encoding.opCode = amlExtOp then [encoding.opCode, encoding.subOpCode]
    else [encoding.opCode]) ++
    if encoding.hasPkgLength then amlSetPkgLength pkgLen else []

def writeAndContinue (s : AmlStream) (bytes : List Byte) : (AmlStream × EfiStatus) × Bool :=
  match amlStreamWrite s bytes with
  | (s, .success) => ((s, .success), true)
  | (s, status) => ((s, status), false)

def serializeNode (s : AmlStream) : AmlNode → (AmlStream × EfiStatus) × Bool
  | .data buffer _ => writeAndContinue s buffer
  | .object encoding pkgLen _ _ =>
    if encoding.isPseudoOpcode then ((s, .success), true)
    else writeAndContinue s (objectInfo encoding pkgLen)

/-- `AmlSerializeNodeCallback`. -/
def amlSerializeNodeCallback (place : Place) (node : AmlNode) (context : AmlStream × EfiStatus) :
    (AmlStream × EfiStatus) × Bool :=
  if place.ignored then ((context.1, .success), true) else serializeNode context.1 node

def byteSum (m : Memory) (size : Nat) : Byte :=
  (List.range size).foldl (fun sum i => sum + m i) 0

/-- `AcpiPlatformChecksum`. -/
def acpiPlatformChecksum (m : Memory) : Memory :=
  let size := readU32 m 4
  let cleared := Function.update m 9 0
  Function.update cleared 9 (0xFF - byteSum cleared size + 1)

/-- The status of a call, the memory at `Buffer` and the offsets that were written there, and
the new content of `BufferSize`. -/
structure SerializeResult where
  status : EfiStatus
  memory : Option Memory
  written : List Nat
  bufferSize : Nat

def sdtLength (root : AmlRoot) : Nat :=
  readU32 (fun i => root.sdtHeader.getD i 0) 4

def writeTree (root : AmlRoot) (memory : Memory) (tableSize bufferSize : Nat) : SerializeResult :=
  if tableSize = 0 then ⟨.invalidParameter, some memory, [], bufferSize⟩
  else match amlStreamWrite ⟨memory, [], tableSize, 0⟩ root.sdtHeader with
    | (s, .success) =>
      match (enumVariable amlSerializeNodeCallback .top root.variableArgs (s, .success)).1 with
      | (s, .success) =>
        ⟨.success, some (acpiPlatformChecksum s.memory), s.written ++ [9, 9], bufferSize⟩
      | (s, status) => ⟨status, some s.memory, s.written, bufferSize⟩
    | (s, status) => ⟨status, some s.memory, s.written, bufferSize⟩

def amlSerializeTree (root : AmlRoot) (buffer : Option Memory) (bufferSize : Nat) :
    SerializeResult :=
  match amlComputeSize root with
  | (size, .success) =>
    let tableSize := (size + 36) % 2 ^ 32
    if tableSize ≠ sdtLength root then ⟨.invalidParameter, buffer, [], bufferSize⟩
    else match buffer with
      | none => ⟨.success, none, [], tableSize⟩
      | some memory =>
        if tableSize < bufferSize then ⟨.success, buffer, [], tableSize⟩
        else writeTree root memory tableSize bufferSize
  | (_, status) => ⟨status, buffer, [], bufferSize⟩

def nodeBytes : AmlNode → List Byte
  | .data buffer _ => buffer
  | .object encoding pkgLen _ _ =>
    if encoding.isPseudoOpcode then [] else objectInfo encoding pkgLen

def visitBytes (l : List (Place × AmlNode)) : List Byte :=
  l.flatMap fun visit => if visit.1.ignored then [] else nodeBytes visit.2

def amlBytes (root : AmlRoot) : List Byte :=
  visitBytes (visitsVariable .top root.variableArgs)

def neededSize (root : AmlRoot) : Nat :=
  36 + (amlBytes root).length

def tableBytes (root : AmlRoot) : List Byte :=
  let cleared := (root.sdtHeader ++ amlBytes root).set 9 0
  cleared.set 9 (0xFF - cleared.foldl (· + ·) 0 + 1)

/-- The header gives the length that the tree has. -/
structure WellFormed (root : AmlRoot) : Prop where
  length : sdtLength root = neededSize root
  fits : neededSize root < 2 ^ 32

variable {node : AmlNode} {m : Memory} {l : List Byte}

theorem length_nodeBytes : (nodeBytes node).length = nodeSize node := by
  cases node with
  | data buffer nonempty => rfl
  | object enc pkgLen fixedArgs variableArgs =>
    rw [nodeBytes, nodeSize]
    split
    · rfl
    · rw [objectInfo, length_append]
      congr 1
      · split <;> rfl
      · split
        · exact length_amlSetPkgLength pkgLen
        · rfl

theorem visitBytes_cons (place : Place) (node : AmlNode) (rest : List (Place × AmlNode)) :
    visitBytes ((place, node) :: rest) =
      (if place.ignored then [] else nodeBytes node) ++ visitBytes rest :=
  flatMap_cons

theorem enumList_computeSize (l : List (Place × AmlNode)) (size : Nat)
    (h : size + (visitBytes l).length < 2 ^ 32) :
    enumList amlComputeSizeCallback l (size, .success) =
      ((size + (visitBytes l).length, .success), true) := by
  induction l generalizing size with
  | nil => rfl
  | cons visit rest ih =>
    obtain ⟨place, node⟩ := visit
    rw [visitBytes_cons, length_append] at h ⊢
    have hcb : amlComputeSizeCallback place node (size, .success) =
        ((size + (if place.ignored then [] else nodeBytes node).length, .success), true) := by
      rw [amlComputeSizeCallback]
      split
      · rfl
      next hignored =>
        rw [if_neg hignored, length_nodeBytes] at h
        rw [Nat.mod_eq_of_lt (by omega), if_neg (by omega), length_nodeBytes]
    rw [enumList, hcb, ← add_assoc]
    exact ih _ (by omega)

theorem amlComputeSize_eq {root : AmlRoot} (h : WellFormed root) :
    amlComputeSize root = ((amlBytes root).length, .success) := by
  have hfits := h.fits
  have hsize : 0 + (amlBytes root).length < 2 ^ 32 := by
    rw [neededSize] at hfits
    omega
  rw [amlComputeSize, enumVariable_eq, enumList_computeSize _ 0 hsize, Nat.zero_add]
  rfl

theorem writeBytes_append (a : Nat) (l l' : List Byte) :
    writeBytes (writeBytes m a l) (a + l.length) l' = writeBytes m a (l ++ l') := by
  funext i
  rcases lt_or_ge i a with hlt | hge
  · rw [writeBytes_of_lt (by omega), writeBytes_of_lt hlt, writeBytes_of_lt hlt]
  · obtain ⟨j, rfl⟩ := Nat.exists_eq_add_of_le hge
    rcases lt_or_ge j l.length with hj | hj
    · rw [writeBytes_of_lt (by omega), writeBytes_add _ _ hj,
        writeBytes_add _ _ (by rw [length_append]; omega), getElem_append_left hj]
    · rw [writeBytes, writeBytes, writeBytes, if_pos (by omega), if_pos (by omega),
        if_pos (by omega), Nat.add_sub_cancel_left, getD_append_right _ _ _ _ hj,
        getD_eq_default _ _ hj]
      congr 1
      omega

theorem AmlStream.copy_nil (s : AmlStream) : s.copy [] = s := by
  obtain ⟨memory, written, maxBufferSize, index⟩ := s
  have hmemo : writeBytes memory index [] = memory := by
    funext i
    rw [writeBytes]
    split <;> rfl
  rw [AmlStream.copy]
  simp [hmemo]

theorem AmlStream.copy_copy (s : AmlStream) (l l' : List Byte) :
    (s.copy l).copy l' = s.copy (l ++ l') := by
  simp only [AmlStream.copy, writeBytes_append, length_append, append_assoc,
    add_assoc, range_add, map_append, map_map]
  rfl

variable {bytes : List Byte} {s : AmlStream}

section

variable (hne : bytes ≠ []) (h : s.index + bytes.length ≤ s.maxBufferSize)
include hne h

theorem amlStreamWrite_eq : amlStreamWrite s bytes = (s.copy bytes, .success) := by
  have hpos : 0 < bytes.length := length_pos_of_ne_nil hne
  rw [amlStreamWrite, if_neg (by omega), if_neg (by omega)]

theorem writeAndContinue_eq : writeAndContinue s bytes = ((s.copy bytes, .success), true) := by
  rw [writeAndContinue, amlStreamWrite_eq hne h]

end

theorem objectInfo_ne_nil (enc : AmlByteEncoding) (pkgLen : Nat) : objectInfo enc pkgLen ≠ [] := by
  rw [objectInfo]
  split <;> exact cons_ne_nil _ _

theorem serializeNode_eq (h : s.index + (nodeBytes node).length ≤ s.maxBufferSize) :
    serializeNode s node = ((s.copy (nodeBytes node), .success), true) := by
  cases node with
  | data buffer nonempty => exact writeAndContinue_eq nonempty h
  | object enc pkgLen fixedArgs variableArgs =>
    rw [serializeNode]
    rw [nodeBytes] at h ⊢
    split
    · rw [s.copy_nil]
    next hpseudo =>
      rw [if_neg hpseudo] at h
      exact writeAndContinue_eq (objectInfo_ne_nil _ _) h

theorem enumList_serialize (l : List (Place × AmlNode)) (s : AmlStream)
    (h : s.index + (visitBytes l).length ≤ s.maxBufferSize) :
    enumList amlSerializeNodeCallback l (s, .success) =
      ((s.copy (visitBytes l), .success), true) := by
  induction l generalizing s with
  | nil => exact congrArg (fun s => ((s, EfiStatus.success), true)) s.copy_nil.symm
  | cons visit rest ih =>
    obtain ⟨place, node⟩ := visit
    rw [visitBytes_cons] at h ⊢
    rw [length_append] at h
    have hcb : amlSerializeNodeCallback place node (s, .success) =
        ((s.copy (if place.ignored then [] else nodeBytes node), .success), true) := by
      rw [amlSerializeNodeCallback]
      split
      · rw [s.copy_nil]
      next hignored =>
        rw [if_neg hignored] at h
        have hroom : s.index + (nodeBytes node).length ≤ s.maxBufferSize := by omega
        exact serializeNode_eq hroom
    rw [enumList, hcb, ← AmlStream.copy_copy]
    refine ih _ ?_
    change s.index + _ + _ ≤ s.maxBufferSize
    omega

variable {root : AmlRoot}

theorem byteSum_writeBytes : byteSum (writeBytes m 0 l) l.length = l.foldl (· + ·) 0 := by
  have hrng : (range l.length).map (writeBytes m 0 l) = l := by
    apply ext_getElem
    · rw [length_map, length_range]
    · intro i h h'
      rw [getElem_map, getElem_range]
      have := writeBytes_add m 0 h'
      rw [Nat.zero_add] at this
      exact this
  conv_rhs => rw [← hrng]
  rw [byteSum, foldl_map]

theorem update_writeBytes {i : Nat} (hi : i < l.length) (b : Byte) :
    update (writeBytes m 0 l) i b = writeBytes m 0 (l.set i b) := by
  funext j
  rcases eq_or_ne j i with rfl | hne
  · have hset : j < (l.set j b).length := by
      rw [length_set]
      exact hi
    have hwr := writeBytes_add m 0 hset
    rw [Nat.zero_add] at hwr
    rw [update_self, hwr, getElem_set_self]
  · rw [update_of_ne hne, writeBytes, writeBytes, if_pos (Nat.zero_le _),
      if_pos (Nat.zero_le _), getD_eq_getElem?_getD, getD_eq_getElem?_getD,
      List.getElem?_set_ne (by omega)]

theorem acpiPlatformChecksum_eq (hroot : WellFormed root) (m : Memory) :
    acpiPlatformChecksum (writeBytes m 0 (root.sdtHeader ++ amlBytes root)) =
      writeBytes m 0 (tableBytes root) := by
  have hlen : (root.sdtHeader ++ amlBytes root).length = neededSize root := by
    rw [length_append, root.header_length, neededSize]
  have hsize : readU32 (writeBytes m 0 (root.sdtHeader ++ amlBytes root)) 4 = neededSize root := by
    rw [← hroot.length, sdtLength]
    apply readU32_congr
    intro i hi
    have hhead : 4 + i < root.sdtHeader.length := by
      rw [root.header_length]
      omega
    have hwr := writeBytes_add m 0 (l := root.sdtHeader ++ amlBytes root) (i := 4 + i)
      (by rw [length_append]; omega)
    rw [Nat.zero_add] at hwr
    rw [hwr, getElem_append_left hhead, getD_eq_getElem _ _ hhead]
  have hnine : 9 < (root.sdtHeader ++ amlBytes root).length := by
    rw [hlen, neededSize]
    omega
  have hcleared : 9 < ((root.sdtHeader ++ amlBytes root).set 9 0).length := by
    rw [length_set]
    exact hnine
  have hsum : byteSum (writeBytes m 0 ((root.sdtHeader ++ amlBytes root).set 9 0))
      (neededSize root) = ((root.sdtHeader ++ amlBytes root).set 9 0).foldl (· + ·) 0 := by
    rw [← byteSum_writeBytes, length_set, hlen]
  rw [acpiPlatformChecksum, hsize, update_writeBytes hnine, hsum, update_writeBytes hcleared]
  rfl

theorem writeTree_eq (hroot : WellFormed root) (m : Memory) (size : Nat) :
    writeTree root m (neededSize root) size =
      ⟨.success, some (writeBytes m 0 (tableBytes root)),
        range (neededSize root) ++ [9, 9], size⟩ := by
  have hhead : root.sdtHeader ≠ [] := by
    intro hnil
    have hlen := root.header_length
    rw [hnil] at hlen
    cases hlen
  have hroom : 0 + root.sdtHeader.length ≤ neededSize root := by
    rw [root.header_length, neededSize]
    omega
  have hwr := amlStreamWrite_eq (s := ⟨m, [], neededSize root, 0⟩) hhead hroom
  have hbody := enumList_serialize (visitsVariable .top root.variableArgs)
    (AmlStream.copy ⟨m, [], neededSize root, 0⟩ root.sdtHeader)
    (by
      change 0 + root.sdtHeader.length + (amlBytes root).length ≤ neededSize root
      rw [root.header_length, neededSize, Nat.zero_add])
  rw [AmlStream.copy_copy] at hbody
  rw [writeTree, if_neg (by rw [neededSize]; omega), hwr]
  dsimp only
  rw [enumVariable_eq, hbody]
  have hwrit : (AmlStream.copy ⟨m, [], neededSize root, 0⟩
      (root.sdtHeader ++ amlBytes root)).written = range (neededSize root) := by
    simp only [AmlStream.copy, nil_append, length_append, root.header_length, Nat.zero_add, map_id']
    rfl
  have hmemo := acpiPlatformChecksum_eq hroot m
  rw [← hwrit, ← hmemo]
  rfl

theorem length_tableBytes : (tableBytes root).length = neededSize root := by
  simp only [tableBytes, length_set, length_append, root.header_length, neededSize]

theorem amlSerializeTree_eq (hroot : WellFormed root) (buffer : Option Memory) (size : Nat) :
    amlSerializeTree root buffer size =
      match buffer with
      | none => ⟨.success, none, [], neededSize root⟩
      | some m =>
        if neededSize root < size then ⟨.success, some m, [], neededSize root⟩
        else ⟨.success, some (writeBytes m 0 (tableBytes root)),
          range (neededSize root) ++ [9, 9], size⟩ := by
  have hsize : ((amlBytes root).length + 36) % 2 ^ 32 = neededSize root := by
    have hfits := hroot.fits
    rw [neededSize] at hfits ⊢
    omega
  rw [amlSerializeTree, amlComputeSize_eq hroot]
  dsimp only
  rw [hsize, if_neg (not_not.2 hroot.length.symm)]
  cases buffer with
  | none => rfl
  | some m =>
    dsimp only
    split
    · rfl
    · exact writeTree_eq hroot m size

/-- The size comes back, and the buffer is written only if it is large enough. -/
structure Protocol (root : AmlRoot) (buffer : Option Memory) (bufferSize : Nat)
    (r : SerializeResult) : Prop where
  size : r.bufferSize = neededSize root
  complete : buffer ≠ none → neededSize root ≤ bufferSize →
    r.status = .success ∧ (∀ i < neededSize root, i ∈ r.written) ∧ ∃ m, r.memory = some m ∧
      SlotBuffer.slotRange m 0 (neededSize root) = tableBytes root
  short : bufferSize < neededSize root →
    r.written = [] ∧ (r.status = .bufferTooSmall ∨ buffer = none)
  inside : ∀ i ∈ r.written, i < bufferSize

/-- For every well formed tree the protocol holds exactly without a buffer, or with a buffer of
the size that is needed. -/
theorem amlSerializeTree_protocol_iff (hroot : WellFormed root) (buffer : Option Memory)
    (bufferSize : Nat) :
    Protocol root buffer bufferSize (amlSerializeTree root buffer bufferSize) ↔
      buffer = none ∨ bufferSize = neededSize root := by
  rw [amlSerializeTree_eq hroot]
  cases buffer with
  | none =>
    refine ⟨fun _ => .inl rfl, fun _ => ⟨rfl, fun h => absurd rfl h, fun _ => ⟨rfl, .inr rfl⟩,
      fun i hi => ?_⟩⟩
    cases hi
  | some m =>
    dsimp only
    constructor
    · intro h
      right
      split at h
      · -- nothing is written to a bigger buffer
        rename_i hbig
        obtain ⟨-, hall, -⟩ := h.complete (fun h => nomatch h) (le_of_lt hbig)
        exact (not_mem_nil (hall 0 (by rw [neededSize]; omega))).elim
      · -- the size is left as it was
        exact h.size
    · rintro (h | rfl)
      · cases h
      · rw [if_neg (lt_irrefl _)]
        refine ⟨rfl, fun _ _ => ⟨rfl, fun i hi => ?_, _, rfl, ?_⟩, fun h => absurd h (lt_irrefl _),
          fun i hi => ?_⟩
        · exact mem_append_left _ (mem_range.2 hi)
        · rw [← length_tableBytes]
          exact slotRange_write
        · rw [mem_append, mem_range] at hi
          rcases hi with hi | hi
          · exact hi
          · have hnine : i = 9 := by simpa using hi
            rw [hnine, neededSize]
            omega

/-- A table of one `ZeroOp`: 37 bytes. -/
def zeroTable : AmlRoot where
  sdtHeader := [0x53, 0x53, 0x44, 0x54, 37, 0, 0, 0] ++ List.replicate 28 0
  header_length := rfl
  variableArgs := [.object ⟨0, 0, false, false⟩ 0 [] []]

theorem zeroTable_wellFormed : WellFormed zeroTable :=
  ⟨by decide, by decide⟩

theorem zeroTable_protocol :
    Protocol zeroTable (some fun _ => 0) 37 (amlSerializeTree zeroTable (some fun _ => 0) 37) :=
  (amlSerializeTree_protocol_iff zeroTable_wellFormed _ _).2 (.inr (by decide))

/-- Nothing is written to a buffer of 64 bytes, but the whole table to a buffer of one byte. -/
theorem zeroTable_written :
    WellFormed zeroTable ∧ (amlSerializeTree zeroTable (some fun _ => 0) 64).status = .success ∧
      (amlSerializeTree zeroTable (some fun _ => 0) 64).written = [] ∧
      (amlSerializeTree zeroTable (some fun _ => 0) 1).status = .success ∧
      36 ∈ (amlSerializeTree zeroTable (some fun _ => 0) 1).written :=
  ⟨zeroTable_wellFormed, by decide +kernel, by decide +kernel, by decide +kernel,
    by decide +kernel⟩

end MuBasecore.AmlSerialize
