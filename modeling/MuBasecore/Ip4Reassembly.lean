import MuBasecore.Ip4Fragments
import MuBasecore.SpanList

/-!
What the reassembly makes of the fragments of one datagram, whatever else arrives
between them.
-/

namespace MuBasecore.Ip4Reassembly

open ByteMemory NetBuffer Ip4Fragments SpanList Option
open List hiding after

def span (packet : Packet) : Span :=
  ⟨packet.info.start, packet.info.stop⟩

def spans (fragments : List Packet) : List Span :=
  fragments.map span

structure CutFrom (payload : List Byte) (packet : Packet) : Prop where
  start_lt : packet.info.start < packet.info.stop
  stop_le : packet.info.stop ≤ payload.length
  length : packet.info.length = (span packet).length
  bytes : packet.nbuf.bytes = slice payload (span packet)

/-- A fragment of this payload that comes with the datagram. -/
structure FragmentOf (payload : List Byte) (datagram : DatagramId) (packet : Packet) : Prop
    extends CutFrom payload packet where
  datagram : packet.head.datagram = datagram
  last : ip4LastFragment packet.head.fragment = true ↔ packet.info.stop = payload.length

def Complete (payload : List Byte) (packets : List Packet) : Prop :=
  (∃ p ∈ packets, ip4LastFragment p.head.fragment = true) ∧
    ∀ i < payload.length, Covers (spans packets) i

def received (datagram : DatagramId) (packets : List Packet) : List Packet :=
  packets.filter fun p => p.head.datagram = datagram

def runTable (table : AssembleTable) (packets : List Packet) : AssembleTable :=
  packets.foldl (fun table packet => (ip4Reassemble table packet).1) table

def heldBytes (fragments : List Packet) : Nat :=
  (fragments.map fun f => f.nbuf.bytes.length).sum

/-- The fragments are sorted and disjoint, and their bytes counted. -/
structure Waiting (assemble : AssembleEntry) : Prop where
  sorted : assemble.fragments.Pairwise fun a b => a.info.start < b.info.start
  disjoint : assemble.fragments.Pairwise fun a b => ∀ i, ¬ ((span a).Mem i ∧ (span b).Mem i)
  curLen : assemble.curLen = heldBytes assemble.fragments

structure StepOk (payload : List Byte) (datagram : DatagramId) (packets : List Packet)
    (result : AssembleTable × Option AssembledPacket) : Prop where
  delivered : Complete payload packets → ∃ packet, result.2 = some packet ∧
    packet.nbuf.bytes = payload
  waiting : ¬ Complete payload packets → result.2 = none ∧
    ∃ assemble, findEntry result.1 datagram = some assemble ∧ Waiting assemble

def RunOk (payload : List Byte) (datagram : DatagramId) (table : AssembleTable)
    (packets : List Packet) : Prop :=
  ∀ before packet after, packets = before ++ packet :: after → packet.head.datagram = datagram →
    ¬ Complete payload (received datagram before) →
    StepOk payload datagram (received datagram (before ++ [packet]))
      (ip4Reassemble (runTable table before) packet)

def heldFragments (table : AssembleTable) (datagram : DatagramId) : List Packet :=
  ((findEntry table datagram).map AssembleEntry.fragments).getD []

def RunFits (payload : List Byte) (datagram : DatagramId) (table : AssembleTable)
    (packets : List Packet) : Prop :=
  ∀ before packet after, packets = before ++ packet :: after → packet.head.datagram = datagram →
    ¬ Complete payload (received datagram before) →
    Fits (spans (heldFragments (runTable table before) datagram)) (span packet)

structure Assembling (payload : List Byte) (packets : List Packet) (assemble : AssembleEntry) :
    Prop where
  cut : ∀ f ∈ assemble.fragments, CutFrom payload f
  within : Within 0 payload.length (spans assemble.fragments)
  curLen : assemble.curLen = total (spans assemble.fragments)
  covers : ∀ i, Covers (spans assemble.fragments) i ↔ Covers (spans packets) i
  totalLen : assemble.totalLen =
    if ∃ p ∈ packets, ip4LastFragment p.head.fragment = true then (payload.length : Int) else 0

theorem toUint32_natCast {n : Nat} (h : n < 2 ^ 32) : toUint32 n = n := by
  rw [toUint32]
  omega

variable {payload : List Byte} {packet : Packet}

theorem CutFrom.size (h : CutFrom payload packet) :
    packet.nbuf.bytes.length = (span packet).length := by
  rw [h.bytes, length_slice h.stop_le]

theorem CutFrom.size_lt (h : CutFrom payload packet) (hpay : payload.length ≤ ip4MaxPacketSize) :
    packet.nbuf.bytes.length < 2 ^ 32 := by
  have := h.stop_le
  rw [ip4MaxPacketSize] at hpay
  rw [h.size, Span.length]
  change packet.info.stop - packet.info.start < _
  omega

section

variable (hpay : payload.length ≤ ip4MaxPacketSize) (h : CutFrom payload packet)
include hpay h

theorem cutFrom_trimStart
    {start : Nat} (hlow : packet.info.start < start) (hhigh : start < packet.info.stop) :
    CutFrom payload (trimStart packet start) ∧
      span (trimStart packet start) = ⟨start, packet.info.stop⟩ ∧
      (trimStart packet start).head = packet.head := by
  have hstop := h.stop_le
  have hsml : payload.length < 2 ^ 32 := hpay.trans_lt (by decide)
  have hlen : ((start : Int) - packet.info.start) = ((start - packet.info.start : Nat) : Int) := by
    omega
  rw [trimStart, if_pos hlow]
  refine ⟨⟨hhigh, h.stop_le, ?_, ?_⟩, rfl, rfl⟩
  · change packet.info.length - _ = ((packet.info.stop - start : Nat) : Int)
    rw [h.length, Span.length]
    change ((packet.info.stop - packet.info.start : Nat) : Int) - _ = _
    omega
  · dsimp only
    rw [bytes_netbufTrim_head (h.size_lt hpay), hlen, toUint32_natCast (by omega), h.bytes,
      slice_drop]
    congr 2
    change packet.info.start + (start - packet.info.start) = start
    omega

theorem trimStop_breaks
    {stop : Nat} (hlow : packet.info.start < stop) (hhigh : stop < packet.info.stop) :
    (trimStop packet stop).nbuf.bytes = [] ∧ 0 < (trimStop packet stop).info.length := by
  have hstop := h.stop_le
  have hsml : payload.length < 2 ^ 16 := hpay.trans_lt (by decide)
  rw [trimStop, if_pos hhigh]
  refine ⟨?_, ?_⟩
  · dsimp only
    have hlen : toUint32 ((stop : Int) - packet.info.stop) =
        2 ^ 32 - (packet.info.stop - stop) := by
      rw [toUint32]
      omega
    rw [bytes_netbufTrim_tail (h.size_lt hpay), hlen]
    have hsize := h.size
    change _ = packet.info.stop - packet.info.start at hsize
    exact take_eq_nil_iff.2 (.inl (by omega))
  · change 0 < packet.info.length - _
    rw [h.length, Span.length]
    omega

end

theorem trimToPrev_spec (hpay : payload.length ≤ ip4MaxPacketSize)
    (h : CutFrom payload packet) (front : List Packet) :
    (trimToPrev front.getLast? packet).map span = cutFront (spans front) (span packet) ∧
      ∀ trimmed, trimToPrev front.getLast? packet = some trimmed →
        CutFrom payload trimmed ∧ trimmed.head = packet.head := by
  rw [cutFront, spans, getLast?_map]
  cases front.getLast? with
  | none =>
    refine ⟨rfl, fun trimmed heq => ?_⟩
    rw [← some.inj heq]
    exact ⟨h, rfl⟩
  | some node =>
    rw [trimToPrev]
    change _ = (if packet.info.start < node.info.stop then
      if packet.info.stop ≤ node.info.stop then none else some ⟨node.info.stop, packet.info.stop⟩
      else some (span packet)) ∧ _
    split_ifs with hover hall
    · exact ⟨rfl, fun trimmed heq => by cases heq⟩
    · have htrim := cutFrom_trimStart hpay h hover (Nat.lt_of_not_le hall)
      have hsame : ip4TrimPacket packet node.info.stop packet.info.stop =
          trimStart packet node.info.stop := by
        have hstop : (trimStart packet node.info.stop).info.stop = packet.info.stop :=
          congrArg Span.stop htrim.2.1
        rw [ip4TrimPacket, trimStop, hstop, if_neg (lt_irrefl _)]
      rw [hsame]
      refine ⟨congrArg some htrim.2.1, fun trimmed heq => ?_⟩
      rw [← some.inj heq]
      exact ⟨htrim.1, htrim.2.2⟩
    · refine ⟨rfl, fun trimmed heq => ?_⟩
      rw [← some.inj heq]
      exact ⟨h, rfl⟩

theorem removeCovered_spec (stop : Nat) {back : List Packet}
    (h : ∀ f ∈ back, CutFrom payload f) (curLen : Int) :
    (removeCovered stop back curLen).1 = back.dropWhile (fun f => f.info.stop ≤ stop) ∧
      (removeCovered stop back curLen).2 + total (spans back) =
        curLen + total (spans (removeCovered stop back curLen).1) := by
  induction back generalizing curLen with
  | nil => exact ⟨rfl, rfl⟩
  | cons node rest ih =>
    rw [removeCovered]
    by_cases hnode : node.info.stop ≤ stop
    · rw [if_pos hnode, dropWhile_cons_of_pos (by simpa using hnode)]
      obtain ⟨hrest, hlen⟩ := ih (fun f hf => h f (mem_cons_of_mem _ hf))
        (curLen - node.info.length)
      refine ⟨hrest, ?_⟩
      have hnodelen := (h node mem_cons_self).length
      change _ + (((span node).length + total (spans rest) : Nat) : Int) = _
      omega
    · rw [if_neg hnode, dropWhile_cons_of_neg (by simpa using hnode)]
      exact ⟨rfl, rfl⟩

variable {frags : List Packet} {a : Nat}

theorem spans_before :
    spans (frags.takeWhile fun f => f.info.start ≤ a) = before a (spans frags) := by
  rw [spans, before, spans, takeWhile_map]
  rfl

theorem spans_after :
    spans (frags.dropWhile fun f => f.info.start ≤ a) = after a (spans frags) := by
  rw [spans, after, spans, dropWhile_map]
  rfl

theorem spans_append (fragments' : List Packet) :
    spans (frags ++ fragments') = spans frags ++ spans fragments' :=
  map_append

theorem heldBytes_eq (h : ∀ f ∈ frags, CutFrom payload f) :
    heldBytes frags = total (spans frags) := by
  rw [heldBytes, total, spans, List.map_map]
  congr 1
  exact List.map_congr_left fun f hf => (h f hf).size

theorem trimToNext_fits {rest : List Packet} {trimmed : Packet} {hi : Nat}
    (hrest : Within trimmed.info.start hi (spans rest))
    (hkeep : ∀ n back, spans rest = n :: back → n.start < trimmed.info.stop →
      n.start ≤ trimmed.info.start) :
    (trimToNext rest trimmed = none ∧ cutBack (spans rest) (span trimmed) = none) ∨
      (trimToNext rest trimmed = some trimmed ∧
        cutBack (spans rest) (span trimmed) = some (span trimmed)) := by
  cases rest with
  | nil => exact .inr ⟨rfl, rfl⟩
  | cons node rest =>
    by_cases hover : node.info.start < trimmed.info.stop
    · have hle := hkeep (span node) (spans rest) rfl hover
      have heq : trimmed.info.start = node.info.start := le_antisymm hrest.1 hle
      refine .inl ⟨?_, (if_pos hover).trans (if_pos hle)⟩
      rw [trimToNext, if_pos hover, if_pos heq]
    · refine .inr ⟨?_, if_neg hover⟩
      rw [trimToNext, if_neg hover]

variable {packets : List Packet} {assemble : AssembleEntry}

structure Place (payload : List Byte) (assemble : AssembleEntry) (packet trimmed : Packet)
    (front : List Packet) (rest : List Packet × Int) : Prop where
  front_cut : ∀ f ∈ front, CutFrom payload f
  front_spans : spans front = before (span packet).start (spans assemble.fragments)
  rest_cut : ∀ f ∈ rest.1, CutFrom payload f
  rest_spans : spans rest.1 =
    behind (span packet).start (span trimmed).stop (spans assemble.fragments)
  rest_len : rest.2 = total (spans front) + total (spans rest.1)
  cut : CutFrom payload trimmed
  head : trimmed.head = packet.head
  cutFront : cutFront (before (span packet).start (spans assemble.fragments)) (span packet) =
    some (span trimmed)

theorem insertFragment_cases (hpay : payload.length ≤ ip4MaxPacketSize)
    (h : Assembling payload packets assemble) (hpkt : CutFrom payload packet) :
    (insertFragment assemble packet = (assemble, none) ∧
      cutFront (before (span packet).start (spans assemble.fragments)) (span packet) = none) ∨
    ∃ trimmed front rest, Place payload assemble packet trimmed front rest ∧
      insertFragment assemble packet =
        match trimToNext rest.1 trimmed with
        | none => ({ assemble with fragments := front ++ rest.1, curLen := rest.2 }, none)
        | some placed =>
          ({ assemble with fragments := front ++ placed :: rest.1, curLen := rest.2 },
            some placed) := by
  obtain ⟨front, hfr⟩ : ∃ front, front = assemble.fragments.takeWhile
    fun f => f.info.start ≤ packet.info.start := ⟨_, rfl⟩
  obtain ⟨back, hback⟩ : ∃ back, back = assemble.fragments.dropWhile
    fun f => f.info.start ≤ packet.info.start := ⟨_, rfl⟩
  have hfrontSpans : spans front = before (span packet).start (spans assemble.fragments) := by
    rw [hfr, spans_before]
    rfl
  have hbackSpans : spans back = after (span packet).start (spans assemble.fragments) := by
    rw [hback, spans_after]
    rfl
  have hbackCut : ∀ f ∈ back, CutFrom payload f := fun f hf =>
    h.cut f ((dropWhile_sublist _).subset (hback ▸ hf))
  obtain ⟨hprev, htrimmed⟩ := trimToPrev_spec hpay hpkt front
  rw [hfrontSpans] at hprev
  rw [insertFragment, ← hfr, ← hback]
  cases htrim : trimToPrev front.getLast? packet with
  | none =>
    rw [htrim] at hprev
    exact .inl ⟨rfl, hprev.symm⟩
  | some trimmed =>
    rw [htrim, map_some] at hprev
    obtain ⟨hcut, hhead⟩ := htrimmed trimmed htrim
    obtain ⟨hrest, hlen⟩ := removeCovered_spec trimmed.info.stop hbackCut assemble.curLen
    refine .inr ⟨trimmed, front, removeCovered trimmed.info.stop back assemble.curLen, ?_, rfl⟩
    refine ⟨?_, hfrontSpans, ?_, ?_, ?_, hcut, hhead, hprev.symm⟩
    · intro f hf
      exact h.cut f ((takeWhile_sublist _).subset (hfr ▸ hf))
    · intro f hf
      rw [hrest] at hf
      exact hbackCut f ((dropWhile_sublist _).subset hf)
    · rw [hrest, behind, ← hbackSpans, spans, spans, dropWhile_map]
      rfl
    · have htotal := total_append (spans front) (spans back)
      rw [hfrontSpans, hbackSpans, before_append_after, ← hfrontSpans, ← hbackSpans] at htotal
      have hcur := h.curLen
      omega

structure Inserted (payload : List Byte) (assemble : AssembleEntry) (packet : Packet)
    (result : AssembleEntry × Option Packet) : Prop where
  spans : spans result.1.fragments = insertSpan (span packet) (spans assemble.fragments)
  cut : ∀ f ∈ result.1.fragments, CutFrom payload f
  curLen : result.1.curLen + (result.2.map fun p => p.info.length).getD 0 =
    total (Ip4Reassembly.spans result.1.fragments)
  totalLen : result.1.totalLen = assemble.totalLen
  placed : ∀ p, result.2 = some p → p.head = packet.head ∧ p.info.stop = packet.info.stop
  dropped : result.2 = none → ∀ i, (span packet).Mem i →
    Covers (Ip4Reassembly.spans assemble.fragments) i

section

variable (hpay : payload.length ≤ ip4MaxPacketSize) (h : Assembling payload packets assemble)
    (hpkt : CutFrom payload packet)
include hpay h hpkt

theorem insertFragment_fits (hfits : Fits (spans assemble.fragments) (span packet)) :
    Inserted payload assemble packet (insertFragment assemble packet) := by
  have hlow : 0 ≤ (span packet).start := Nat.zero_le _
  rcases insertFragment_cases hpay h hpkt with ⟨heq, hcut⟩ | ⟨trimmed, front, rest, hplc, heq⟩
  · rw [heq]
    refine ⟨(insertSpan_of_none hcut).symm, h.cut, (Int.add_zero _).trans h.curLen, rfl, ?_, ?_⟩
    · intro p hp
      cases hp
    · intro _ i hi
      exact covers_of_cutFront_none h.within hlow hpkt.start_lt hcut hi
  · obtain ⟨hstop, _, _, hrest, _, _⟩ :=
      cut_place h.within hlow hpkt.start_lt hpkt.stop_le hplc.cutFront
    have hkeep := (fits_iff h.within hlow hpkt.start_lt hpkt.stop_le hplc.cutFront).1 hfits
    have hlist := insertSpan_of_some hplc.cutFront
    rw [← hplc.rest_spans] at hrest hkeep hlist
    rw [← hplc.front_spans] at hlist
    have hlen := hplc.rest_len
    rcases trimToNext_fits hrest hkeep with ⟨hnext, hback⟩ | ⟨hnext, hback⟩
    · rw [hback] at hlist
      rw [heq, hnext]
      have hspans : spans (front ++ rest.1) =
          insertSpan (span packet) (spans assemble.fragments) := by
        rw [hlist, spans_append]
        rfl
      refine ⟨hspans, ?_, ?_, rfl, ?_, ?_⟩
      · intro f hf
        rcases mem_append.1 hf with hf | hf
        · exact hplc.front_cut f hf
        · exact hplc.rest_cut f hf
      · rw [spans_append, total_append]
        exact (Int.add_zero _).trans (by rw [hlen]; push_cast; rfl)
      · intro p hp
        cases hp
      · intro _ i hi
        obtain ⟨s, hs, hmem⟩ := ((insertSpan_spec h.within hlow hpkt.start_lt
          hpkt.stop_le).2 i).2 (.inl hi)
        rw [← hspans, spans_append, hplc.front_spans, hplc.rest_spans, mem_append] at hs
        rcases hs with hs | hs
        · exact ⟨s, mem_of_before hs, hmem⟩
        · exact ⟨s, (mem_of_behind hs).2, hmem⟩
    · rw [hback] at hlist
      rw [heq, hnext]
      refine ⟨?_, ?_, ?_, rfl, ?_, ?_⟩
      · rw [hlist]
        exact spans_append (trimmed :: rest.1)
      · intro f hf
        rcases mem_append.1 hf with hf | hf
        · exact hplc.front_cut f hf
        · rcases mem_cons.1 hf with rfl | hf
          · exact hplc.cut
          · exact hplc.rest_cut f hf
      · rw [spans_append, total_append]
        change rest.2 + trimmed.info.length =
          ((total (spans front) + ((span trimmed).length + total (spans rest.1)) : Nat) : Int)
        rw [hplc.cut.length, hlen]
        omega
      · intro p hp
        rw [← some.inj hp]
        exact ⟨hplc.head, hstop⟩
      · intro hp
        cases hp

theorem insertFragment_overlap (hfits : ¬ Fits (spans assemble.fragments) (span packet)) :
    ∃ result placed, insertFragment assemble packet = (result, some placed) ∧
      heldBytes result.fragments < payload.length ∧
      heldBytes result.fragments < result.curLen + placed.info.length := by
  have hlow : 0 ≤ (span packet).start := Nat.zero_le _
  rcases insertFragment_cases hpay h hpkt with ⟨_, hcut⟩ | ⟨trimmed, front, rest, hplc, heq⟩
  · exact absurd (fits_of_cutFront_none h.within hlow hpkt.start_lt hcut) hfits
  · obtain ⟨hstop, _, hfr, hrest, _, _⟩ :=
      cut_place h.within hlow hpkt.start_lt hpkt.stop_le hplc.cutFront
    rw [fits_iff h.within hlow hpkt.start_lt hpkt.stop_le hplc.cutFront] at hfits
    push Not at hfits
    obtain ⟨n, back, hnode, hin, hbhd⟩ := hfits
    rw [← hplc.rest_spans] at hrest hnode
    rw [← hplc.front_spans] at hfr
    obtain ⟨node, nodes, hrestEq, rfl, rfl⟩ := map_eq_cons_iff.1 hnode
    change node.info.start < trimmed.info.stop at hin
    change trimmed.info.start < node.info.start at hbhd
    have hnext : trimToNext rest.1 trimmed = some (trimStop trimmed node.info.start) := by
      rw [hrestEq, trimToNext, if_pos hin, if_neg (ne_of_lt hbhd), ip4TrimPacket,
        trimStart, if_neg (lt_irrefl _)]
    obtain ⟨hbyt, hlng⟩ := trimStop_breaks hpay hplc.cut hbhd hin
    have hsum : heldBytes (front ++ trimStop trimmed node.info.start :: rest.1) =
        total (spans front) + total (spans rest.1) := by
      rw [← heldBytes_eq hplc.front_cut, ← heldBytes_eq hplc.rest_cut]
      simp [heldBytes, hbyt]
    refine ⟨_, _, by rw [heq, hnext], ?_, ?_⟩
    · dsimp only
      rw [hsum]
      have hfrontLe := hfr.total_le
      rw [hnode] at hrest ⊢
      have hrestLe := hrest.2.2.total_le
      have hlt := hrest.2.1
      rw [total_cons, Span.length]
      change _ + (node.info.stop - node.info.start + _) < _
      change 0 + _ ≤ trimmed.info.start at hfrontLe
      change node.info.stop + _ ≤ _ at hrestLe
      change node.info.start < node.info.stop at hlt
      omega
    · dsimp only
      rw [hsum, hplc.rest_len]
      omega

end

end MuBasecore.Ip4Reassembly
