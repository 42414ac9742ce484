import MuBasecore.NetBuffer

/-!
The reassembly of IPv4 fragments, `Ip4Reassemble` in `Ip4Input.c`: a table of
assemble entries, each with the fragments of one datagram in order. Memory is
always available.
-/

namespace MuBasecore.Ip4Fragments

open NetBuffer Function List

structure DatagramId where
  dst : UInt32
  src : UInt32
  id : UInt16
  protocol : UInt8
deriving DecidableEq

structure Ip4Head where
  datagram : DatagramId
  fragment : UInt16
deriving DecidableEq

def ip4HeadMfMask : UInt16 := 0x2000

/-- `IP4_MAX_PACKET_SIZE`: fragments that end behind it are not accepted. -/
def ip4MaxPacketSize : Nat := 65535

/-- `IP4_LAST_FRAGMENT`: no more fragments follow. -/
def ip4LastFragment (fragmentField : UInt16) : Bool :=
  fragmentField &&& ip4HeadMfMask == 0

/-- `IP4_CLIP_INFO`. Offsets are never negative; the length is what the code
makes of it. -/
structure ClipInfo where
  start : Nat
  stop : Nat
  length : Int
deriving DecidableEq

structure Packet where
  nbuf : NetBuf
  head : Ip4Head
  info : ClipInfo
deriving DecidableEq

/-- A conversion of an `INTN` to `UINT32`. -/
def toUint32 (x : Int) : Nat :=
  (x % 2 ^ 32).toNat

def trimStart (packet : Packet) (start : Nat) : Packet :=
  if packet.info.start < start then
    let len : Int := start - packet.info.start
    { packet with
      nbuf := (netbufTrim packet.nbuf (toUint32 len) true).2
      info := { packet.info with start := start, length := packet.info.length - len } }
  else packet

def trimStop (packet : Packet) (stop : Nat) : Packet :=
  if stop < packet.info.stop then
    let len : Int := stop - packet.info.stop
    { packet with
      nbuf := (netbufTrim packet.nbuf (toUint32 len) false).2
      info := { packet.info with stop := stop, length := packet.info.length - len } }
  else packet

def ip4TrimPacket (packet : Packet) (start stop : Nat) : Packet :=
  trimStop (trimStart packet start) stop

structure AssembleEntry where
  datagram : DatagramId
  totalLen : Int
  curLen : Int
  fragments : List Packet
  head : Option Ip4Head
  info : Option ClipInfo
deriving DecidableEq

def ip4CreateAssembleEntry (datagram : DatagramId) : AssembleEntry where
  datagram := datagram
  totalLen := 0
  curLen := 0
  fragments := []
  head := none
  info := none

def trimToPrev (prev : Option Packet) (packet : Packet) : Option Packet :=
  match prev with
  | none => some packet
  | some node =>
    if packet.info.start < node.info.stop then
      if packet.info.stop ≤ node.info.stop then none
      else some (ip4TrimPacket packet node.info.stop packet.info.stop)
    else some packet

def removeCovered (stop : Nat) : List Packet → Int → List Packet × Int
  | [], curLen => ([], curLen)
  | node :: rest, curLen =>
    if node.info.stop ≤ stop then removeCovered stop rest (curLen - node.info.length)
    else (node :: rest, curLen)

def trimToNext (rest : List Packet) (packet : Packet) : Option Packet :=
  match rest with
  | [] => some packet
  | node :: _ =>
    if node.info.start < packet.info.stop then
      if packet.info.start = node.info.start then none
      else some (ip4TrimPacket packet packet.info.start node.info.start)
    else some packet

def insertFragment (assemble : AssembleEntry) (packet : Packet) :
    AssembleEntry × Option Packet :=
  let front := assemble.fragments.takeWhile fun f => f.info.start ≤ packet.info.start
  let back := assemble.fragments.dropWhile fun f => f.info.start ≤ packet.info.start
  match trimToPrev front.getLast? packet with
  | none => (assemble, none)
  | some trimmed =>
    let rest := removeCovered trimmed.info.stop back assemble.curLen
    match trimToNext rest.1 trimmed with
    | none => ({ assemble with fragments := front ++ rest.1, curLen := rest.2 }, none)
    | some placed =>
      ({ assemble with fragments := front ++ placed :: rest.1, curLen := rest.2 }, some placed)

def updateEntry (assemble : AssembleEntry) (packet : Packet) : AssembleEntry :=
  { assemble with
    curLen := assemble.curLen + packet.info.length
    head := if packet.info.start = 0 then some packet.head else assemble.head
    info := if packet.info.start = 0 then some packet.info else assemble.info
    totalLen :=
      if ip4LastFragment packet.head.fragment = true ∧ assemble.totalLen = 0 then packet.info.stop
      else assemble.totalLen }

structure AssembledPacket where
  nbuf : NetBuf
  head : Option Ip4Head
  info : Option ClipInfo

def deliver (assemble : AssembleEntry) : Option AssembleEntry × Option AssembledPacket :=
  if assemble.totalLen ≠ 0 ∧ assemble.totalLen ≤ assemble.curLen then
    match assemble.fragments.getLast? with
    | none => (none, none)
    | some last =>
      if (last.info.stop : Int) ≠ assemble.totalLen then (none, none)
      else (none, some {
        nbuf := netbufFromBufList (assemble.fragments.map Packet.nbuf)
        head := assemble.head
        info := assemble.info })
  else (some assemble, none)

def assembleStep (assemble : AssembleEntry) (packet : Packet) :
    Option AssembleEntry × Option AssembledPacket :=
  match insertFragment assemble packet with
  | (assemble, none) => (some assemble, none)
  | (assemble, some placed) => deliver (updateEntry assemble placed)

def ip4AssembleHash (datagram : DatagramId) : Nat :=
  ((datagram.dst + datagram.src + (datagram.id.toUInt32 <<< 16) +
    datagram.protocol.toUInt32) % 31).toNat

abbrev AssembleTable := Nat → List AssembleEntry

def putEntry (datagram : DatagramId) (assemble : Option AssembleEntry) :
    List AssembleEntry → List AssembleEntry
  | [] => []
  | entry :: bucket =>
    if entry.datagram = datagram then assemble.toList ++ bucket
    else entry :: putEntry datagram assemble bucket

def findEntry (table : AssembleTable) (datagram : DatagramId) : Option AssembleEntry :=
  (table (ip4AssembleHash datagram)).find? fun entry => entry.datagram = datagram

def bucketEntry (table : AssembleTable) (datagram : DatagramId) :
    List AssembleEntry × AssembleEntry :=
  match findEntry table datagram with
  | some entry => (table (ip4AssembleHash datagram), entry)
  | none =>
    (ip4CreateAssembleEntry datagram :: table (ip4AssembleHash datagram),
      ip4CreateAssembleEntry datagram)

def ip4Reassemble (table : AssembleTable) (packet : Packet) :
    AssembleTable × Option AssembledPacket :=
  let datagram := packet.head.datagram
  let found := bucketEntry table datagram
  let step := assembleStep found.2 packet
  (Function.update table (ip4AssembleHash datagram) (putEntry datagram step.1 found.1), step.2)

def entriesOf (table : AssembleTable) (datagram : DatagramId) : List AssembleEntry :=
  (table (ip4AssembleHash datagram)).filter fun entry => entry.datagram = datagram

variable {table : AssembleTable}

theorem findEntry_eq (datagram : DatagramId) :
    findEntry table datagram = (entriesOf table datagram).head? :=
  head?_filter.symm

theorem insertFragment_datagram (assemble : AssembleEntry) (packet : Packet) :
    (insertFragment assemble packet).1.datagram = assemble.datagram := by
  rw [insertFragment]
  cases trimToPrev _ packet with
  | none => rfl
  | some trimmed =>
    dsimp only
    cases trimToNext _ trimmed <;> rfl

variable {assemble assemble' : AssembleEntry}

theorem deliver_entry (h : (deliver assemble).1 = some assemble') : assemble' = assemble := by
  rw [deliver] at h
  split at h
  · cases hlast : assemble.fragments.getLast? with
    | none =>
      rw [hlast] at h
      cases h
    | some last =>
      rw [hlast] at h
      dsimp only at h
      split at h <;> cases h
  · exact (Option.some.inj h).symm

variable {packet : Packet} {other : DatagramId}

theorem assembleStep_datagram (h : (assembleStep assemble packet).1 = some assemble') :
    assemble'.datagram = assemble.datagram := by
  have hins := insertFragment_datagram assemble packet
  rw [assembleStep] at h
  cases hres : insertFragment assemble packet with
  | mk inserted placed =>
    rw [hres] at h hins
    cases placed with
    | none =>
      rw [← Option.some.inj h]
      exact hins
    | some placed =>
      rw [deliver_entry h]
      exact hins

section Entries

variable {datagram : DatagramId} {assemble : Option AssembleEntry}

section

variable (h : ∀ a, assemble = some a → a.datagram = datagram)
include h

theorem putEntry_self {bucket : List AssembleEntry} {entry : AssembleEntry}
    (hbucket : (bucket.filter fun e => e.datagram = datagram) = [entry]) :
    ((putEntry datagram assemble bucket).filter fun e => e.datagram = datagram) =
      assemble.toList := by
  induction bucket with
  | nil => cases hbucket
  | cons e bucket ih =>
    rw [putEntry]
    by_cases he : e.datagram = datagram
    · rw [if_pos he, filter_append]
      rw [filter_cons_of_pos (by simpa using he), cons.injEq] at hbucket
      rw [hbucket.2, append_nil]
      cases assemble with
      | none => rfl
      | some a => simp [h a rfl]
    · rw [if_neg he, filter_cons_of_neg (by simpa using he)]
      rw [filter_cons_of_neg (by simpa using he)] at hbucket
      exact ih hbucket

theorem putEntry_other (hoth : other ≠ datagram) (bucket : List AssembleEntry) :
    ((putEntry datagram assemble bucket).filter fun e => e.datagram = other) =
      bucket.filter fun e => e.datagram = other := by
  induction bucket with
  | nil => rfl
  | cons e bucket ih =>
    rw [putEntry]
    by_cases he : e.datagram = datagram
    · have hne : ¬ e.datagram = other := fun heq => hoth (heq.symm.trans he)
      rw [if_pos he, filter_append, filter_cons_of_neg (by simpa using hne)]
      cases assemble with
      | none => rfl
      | some a =>
        have hane : ¬ datagram = other := fun heq => hoth heq.symm
        simp [h a rfl, hane]
    · rw [if_neg he, filter_cons, filter_cons, ih]

end

end Entries

theorem entriesOf_other (hoth : other ≠ packet.head.datagram) :
    entriesOf (ip4Reassemble table packet).1 other = entriesOf table other := by
  rw [entriesOf, ip4Reassemble]
  dsimp only
  by_cases hhash : ip4AssembleHash other = ip4AssembleHash packet.head.datagram
  · have hne : ¬ packet.head.datagram = other := fun heq => hoth heq.symm
    rw [hhash, update_self, entriesOf, hhash]
    have hfnd : (bucketEntry table packet.head.datagram).2.datagram = packet.head.datagram := by
      rw [bucketEntry]
      cases hfind : findEntry table packet.head.datagram with
      | none => rfl
      | some e => simpa using find?_some hfind
    rw [putEntry_other (fun a ha => (assembleStep_datagram ha).trans hfnd) hoth, bucketEntry]
    cases findEntry table packet.head.datagram with
    | none => exact filter_cons_of_neg (by rw [decide_eq_true_eq]; exact hne)
    | some e => rfl
  · rw [update_of_ne hhash]
    rfl

theorem ip4Reassemble_self {assemble : Option AssembleEntry}
    (h : entriesOf table packet.head.datagram = assemble.toList) :
    (ip4Reassemble table packet).2 = (assembleStep
        (assemble.getD (ip4CreateAssembleEntry packet.head.datagram)) packet).2 ∧
      entriesOf (ip4Reassemble table packet).1 packet.head.datagram = (assembleStep
        (assemble.getD (ip4CreateAssembleEntry packet.head.datagram)) packet).1.toList := by
  have hfind : findEntry table packet.head.datagram = assemble := by
    rw [findEntry_eq, h]
    cases assemble <;> rfl
  have hfnd : (bucketEntry table packet.head.datagram).2 =
      assemble.getD (ip4CreateAssembleEntry packet.head.datagram) := by
    rw [bucketEntry, hfind]
    cases assemble <;> rfl
  have hbucket : ((bucketEntry table packet.head.datagram).1.filter
      fun e => e.datagram = packet.head.datagram) =
        [assemble.getD (ip4CreateAssembleEntry packet.head.datagram)] := by
    rw [bucketEntry, hfind]
    cases assemble with
    | none =>
      rw [filter_cons_of_pos (by simp [ip4CreateAssembleEntry])]
      exact congrArg _ h
    | some e => exact h
  have hdata : (assemble.getD (ip4CreateAssembleEntry packet.head.datagram)).datagram =
      packet.head.datagram := by
    have hmem : assemble.getD (ip4CreateAssembleEntry packet.head.datagram) ∈
        ((bucketEntry table packet.head.datagram).1.filter
          fun e => e.datagram = packet.head.datagram) := by simp [hbucket]
    simpa using (mem_filter.1 hmem).2
  refine ⟨by rw [ip4Reassemble, hfnd], ?_⟩
  rw [entriesOf, ip4Reassemble]
  dsimp only
  rw [update_self, hfnd]
  exact putEntry_self (fun a ha => (assembleStep_datagram ha).trans hdata) hbucket

end MuBasecore.Ip4Fragments
