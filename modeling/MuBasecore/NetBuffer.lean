import MuBasecore.ByteMemory

/-!
Net buffers of `NetBuffer.c`: the bytes of a packet in a row of blocks, trimmed
from both ends and joined.
-/

namespace MuBasecore.NetBuffer

open ByteMemory List

def blocksSize (blocks : List (List Byte)) : Nat :=
  (blocks.map List.length).sum

/-- A `NET_BUF`; its `TotalSize` is a `UINT32`. -/
structure NetBuf where
  blocks : List (List Byte)
  totalSize : Nat
  totalSize_eq : totalSize = blocksSize blocks % 2 ^ 32
deriving DecidableEq

def NetBuf.bytes (nbuf : NetBuf) : List Byte :=
  nbuf.blocks.flatten

variable {len : Nat} {blocks : List (List Byte)} {nbuf : NetBuf}

/-- What is left between `Head` and `Tail` of a block. -/
def netblockTrim (block : List Byte) (len : Nat) (fromHead : Bool) : List Byte :=
  if fromHead then block.drop len else block.take (block.length - len)

/-- The loop of `NetbufTrim` over the blocks in the order in which it comes to
them, with the number of bytes it has trimmed. -/
def trimBlocks (fromHead : Bool) : Nat → List (List Byte) → Nat × List (List Byte)
  | _, [] => (0, [])
  | len, block :: blocks =>
    if block.length = 0 then
      ((trimBlocks fromHead len blocks).1, block :: (trimBlocks fromHead len blocks).2)
    else if block.length < len then
      (block.length + (trimBlocks fromHead (len - block.length) blocks).1,
        netblockTrim block block.length fromHead ::
          (trimBlocks fromHead (len - block.length) blocks).2)
    else (len, netblockTrim block len fromHead :: blocks)

theorem length_netblockTrim (block : List Byte) (len : Nat) (fromHead : Bool) :
    (netblockTrim block len fromHead).length = block.length - len := by
  rw [netblockTrim]
  split
  · rw [length_drop]
  · rw [length_take]
    omega

variable {fromHead : Bool}

theorem trimBlocks_size (h : len ≤ blocksSize blocks) :
    blocksSize (trimBlocks fromHead len blocks).2 = blocksSize blocks - len ∧
      (trimBlocks fromHead len blocks).1 = len := by
  induction blocks generalizing len with
  | nil =>
    have hzero : len = 0 := Nat.le_zero.1 h
    exact ⟨by rw [hzero]; rfl, hzero.symm⟩
  | cons block blocks ih =>
    have hsize : blocksSize (block :: blocks) = block.length + blocksSize blocks := by
      simp [blocksSize]
    rw [trimBlocks]
    split_ifs with hnil hlong
    · obtain ⟨hrest, htrimmed⟩ := ih (show len ≤ _ by omega)
      refine ⟨?_, htrimmed⟩
      change (block.length + blocksSize _) = _
      omega
    · obtain ⟨hrest, htrimmed⟩ := ih (show len - block.length ≤ _ by omega)
      refine ⟨?_, by dsimp only; omega⟩
      change (length (netblockTrim _ _ _) + blocksSize _) = _
      rw [hrest, length_netblockTrim]
      omega
    · refine ⟨?_, rfl⟩
      change (length (netblockTrim _ _ _) + blocksSize _) = _
      rw [length_netblockTrim]
      omega

theorem blocksSize_reverse : blocksSize blocks.reverse = blocksSize blocks := by
  rw [blocksSize, map_reverse, sum_reverse]
  rfl

/-- The blocks behind `NetbufTrim`, which goes backwards from the tail. -/
def trimmedBlocks (nbuf : NetBuf) (len : Nat) (fromHead : Bool) : List (List Byte) :=
  if fromHead then (trimBlocks true len nbuf.blocks).2
  else (trimBlocks false len nbuf.blocks.reverse).2.reverse

theorem trimmedBlocks_size (h : len ≤ blocksSize nbuf.blocks) :
    blocksSize (trimmedBlocks nbuf len fromHead) = blocksSize nbuf.blocks - len := by
  rw [trimmedBlocks]
  split
  · exact (trimBlocks_size h).1
  · rw [blocksSize_reverse, (trimBlocks_size (by rwa [blocksSize_reverse])).1,
      blocksSize_reverse]

theorem NetBuf.totalSize_le (nbuf : NetBuf) : nbuf.totalSize ≤ blocksSize nbuf.blocks := by
  rw [nbuf.totalSize_eq]
  exact Nat.mod_le _ _

theorem NetBuf.trimmedSize (nbuf : NetBuf) (len : Nat) (fromHead : Bool) :
    nbuf.totalSize - min len nbuf.totalSize =
      blocksSize (trimmedBlocks nbuf (min len nbuf.totalSize) fromHead) % 2 ^ 32 := by
  have hle := nbuf.totalSize_le
  rw [trimmedBlocks_size (by omega)]
  have heq := nbuf.totalSize_eq
  omega

/-- `NetbufTrim` and the number of bytes that were trimmed. -/
def netbufTrim (nbuf : NetBuf) (len : Nat) (fromHead : Bool) : Nat × NetBuf :=
  if len = 0 ∨ nbuf.totalSize = 0 then (0, nbuf)
  else
    ((trimBlocks fromHead (min len nbuf.totalSize)
      (if fromHead then nbuf.blocks else nbuf.blocks.reverse)).1,
      { blocks := trimmedBlocks nbuf (min len nbuf.totalSize) fromHead
        totalSize := nbuf.totalSize - min len nbuf.totalSize
        totalSize_eq := nbuf.trimmedSize len fromHead })

/-- `NetbufFromBufList` without head space and header: the blocks of all buffers
that are not empty. -/
def netbufFromBufList (bufList : List NetBuf) : NetBuf where
  blocks := (bufList.map fun nbuf => nbuf.blocks.filter fun block => block.length ≠ 0).flatten
  totalSize := blocksSize
    (bufList.map fun nbuf => nbuf.blocks.filter fun block => block.length ≠ 0).flatten % 2 ^ 32
  totalSize_eq := rfl

theorem trimBlocks_head : (trimBlocks true len blocks).2.flatten = blocks.flatten.drop len := by
  induction blocks generalizing len with
  | nil => simp [trimBlocks]
  | cons block blocks ih =>
    rw [trimBlocks, flatten_cons]
    split_ifs with hnil hlong
    · rw [length_eq_zero_iff.1 hnil]
      simpa using ih
    · rw [flatten_cons, ih, netblockTrim, if_pos rfl, drop_length, nil_append,
        drop_append, drop_of_length_le (le_of_lt hlong), nil_append]
    · rw [flatten_cons, netblockTrim, if_pos rfl, drop_append_of_le_length (Nat.le_of_not_lt hlong)]

theorem trimBlocks_tail :
    (trimBlocks false len blocks).2.reverse.flatten =
      blocks.reverse.flatten.take (blocksSize blocks - len) := by
  induction blocks generalizing len with
  | nil => simp [trimBlocks]
  | cons block blocks ih =>
    have hsize : blocksSize (block :: blocks) = block.length + blocksSize blocks := by
      simp [blocksSize]
    have hlen : blocks.reverse.flatten.length = blocksSize blocks := by
      rw [length_flatten, ← blocksSize_reverse]
      rfl
    rw [trimBlocks, reverse_cons, flatten_append, flatten_singleton, hsize]
    split_ifs with hnil hlong
    · rw [reverse_cons, flatten_append, ih, flatten_singleton]
      rw [length_eq_zero_iff.1 hnil]
      simp
    · rw [reverse_cons, flatten_append, ih, flatten_singleton, netblockTrim,
        if_neg (by decide), Nat.sub_self, take_zero, append_nil,
        take_append_of_le_length (by omega)]
      congr 1
      omega
    · rw [reverse_cons, flatten_append, flatten_singleton, netblockTrim,
        if_neg (by decide), take_append, hlen,
        take_of_length_le (l := blocks.reverse.flatten) (by omega)]
      congr 2
      omega

theorem NetBuf.length_bytes (nbuf : NetBuf) : nbuf.bytes.length = blocksSize nbuf.blocks := by
  rw [NetBuf.bytes, length_flatten]
  rfl

section

variable (h : nbuf.bytes.length < 2 ^ 32)
include h

theorem NetBuf.totalSize_eq_length : nbuf.totalSize = nbuf.bytes.length := by
  rw [nbuf.totalSize_eq, ← nbuf.length_bytes, Nat.mod_eq_of_lt h]

theorem bytes_netbufTrim_head (len : Nat) :
    (netbufTrim nbuf len true).2.bytes = nbuf.bytes.drop len := by
  have hsize := NetBuf.totalSize_eq_length h
  by_cases hcond : len = 0 ∨ nbuf.totalSize = 0
  · rw [netbufTrim, if_pos hcond]
    rcases hcond with rfl | hzero
    · rfl
    · rw [hsize] at hzero
      rw [length_eq_zero_iff.1 hzero, drop_nil]
  · rw [netbufTrim, if_neg hcond]
    change (trimBlocks true _ _).2.flatten = _
    rw [trimBlocks_head, hsize]
    change nbuf.bytes.drop _ = _
    rcases le_total len nbuf.bytes.length with hle | hle
    · rw [min_eq_left hle]
    · rw [min_eq_right hle, drop_length, drop_of_length_le hle]

theorem bytes_netbufTrim_tail (len : Nat) :
    (netbufTrim nbuf len false).2.bytes = nbuf.bytes.take (nbuf.bytes.length - len) := by
  have hsize := NetBuf.totalSize_eq_length h
  by_cases hcond : len = 0 ∨ nbuf.totalSize = 0
  · rw [netbufTrim, if_pos hcond]
    rcases hcond with rfl | hzero
    · rw [Nat.sub_zero, take_length]
    · rw [hsize] at hzero
      rw [length_eq_zero_iff.1 hzero, take_nil]
  · rw [netbufTrim, if_neg hcond]
    change (trimBlocks false _ _).2.reverse.flatten = _
    rw [trimBlocks_tail, hsize, reverse_reverse, blocksSize_reverse, ← nbuf.length_bytes]
    congr 1
    omega

end

theorem flatten_filter_ne_nil :
    (blocks.filter fun block => block.length ≠ 0).flatten = blocks.flatten := by
  induction blocks with
  | nil => rfl
  | cons block blocks ih =>
    by_cases hnil : block.length = 0
    · rw [filter_cons_of_neg (by simpa using hnil), ih, flatten_cons,
        length_eq_zero_iff.1 hnil, nil_append]
    · rw [filter_cons_of_pos (by simpa using hnil), flatten_cons, ih,
        flatten_cons]

theorem bytes_netbufFromBufList (bufList : List NetBuf) :
    (netbufFromBufList bufList).bytes = (bufList.map NetBuf.bytes).flatten := by
  induction bufList with
  | nil => rfl
  | cons nbuf bufList ih =>
    change (flatten (_ :: _)).flatten = _
    rw [flatten_cons, flatten_append, flatten_filter_ne_nil, map_cons, flatten_cons, ← ih]
    rfl

end MuBasecore.NetBuffer
