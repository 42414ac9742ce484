import MuBasecore.TcpSegments
import MuBasecore.SerialNumber
import MuBasecore.SpanList

/-!
What trimming and queueing do to segments that are parts of one stream. Positions
in the stream are counted without wrapping around; the position behind the last
byte is that of the `FIN`.
-/

namespace MuBasecore.TcpQueue

open ByteMemory NetBuffer TcpSegments SerialNumber SpanList
open List hiding after

/-- The segment carries this part of the stream that begins at `isn`. -/
structure SegOf (stream : List Byte) (isn : SeqNo) (seg : Segment) (s : Span) : Prop where
  le : s.start ≤ s.stop
  stop_le : s.stop ≤ stream.length + 1
  short : s.length < 2 ^ 32
  seq : seg.seq = numberAt isn s.start
  stop : seg.stop = numberAt isn s.stop
  syn : seg.syn = false
  fin : seg.fin = true ↔ s.start < s.stop ∧ s.stop = stream.length + 1
  bytes : seg.nbuf.bytes = slice stream s

section Compare

variable {a b : Nat} (isn : SeqNo)

theorem seqLt_numberAt (h : Close 32 a b) :
    seqLt (numberAt isn a) (numberAt isn b) = decide (a < b) := by
  rw [seqLt, toInt_numberAt_sub isn h, decide_eq_decide]
  omega

theorem seqLeq_numberAt (h : Close 32 a b) :
    seqLeq (numberAt isn a) (numberAt isn b) = decide (a ≤ b) := by
  rw [seqLeq, toInt_numberAt_sub isn h, decide_eq_decide]
  omega

theorem seqGt_numberAt (h : Close 32 a b) :
    seqGt (numberAt isn a) (numberAt isn b) = decide (b < a) := by
  rw [seqGt, toInt_numberAt_sub isn h.symm, decide_eq_decide]
  omega

/-- Numbers that are half of the range or more apart are compared the wrong way. -/
theorem seqLeq_numberAt_far (hfar : b + 2 ^ 31 ≤ a) (hlt : a < b + 2 ^ 32) :
    seqLeq (numberAt isn a) (numberAt isn b) = true := by
  have hdist := toNat_numberAt_sub isn (show b ≤ a by omega) hlt
  rw [seqLeq, decide_eq_true_eq, BitVec.toInt_eq_toNat_cond, hdist]
  split <;> omega

end Compare

variable {stream : List Byte} {isn : SeqNo} {seg : Segment} {s : Span}

section

variable (h : SegOf stream isn seg s)
include h

theorem SegOf.size : seg.nbuf.bytes.length + seg.fin.toNat = s.length := by
  have hle := h.le
  have hstop := h.stop_le
  have hlen : seg.nbuf.bytes.length = min s.length (stream.length - s.start) := by
    rw [h.bytes, slice, length_take, length_drop]
  rw [hlen, Span.length]
  by_cases hfin : s.start < s.stop ∧ s.stop = stream.length + 1
  · rw [h.fin.2 hfin]
    change _ + 1 = _
    omega
  · have hfalse : seg.fin = false := by
      rw [← Bool.not_eq_true]
      exact fun htrue => hfin (h.fin.1 htrue)
    rw [hfalse]
    change _ + 0 = _
    omega

theorem SegOf.totalSize : seg.nbuf.totalSize = seg.nbuf.bytes.length := by
  have := h.size
  have := h.short
  exact NetBuf.totalSize_eq_length (by omega)

theorem SegOf.verify : tcpVerifySegment seg = true := by
  have hsize := h.size
  have hle := h.le
  have hstop : s.stop = s.start + s.length := by
    rw [Span.length]
    omega
  rw [tcpVerifySegment, h.totalSize, h.syn, h.seq, h.stop, hstop, numberAt_add, beq_iff_eq]
  congr 2

end

theorem adjustUrgent_same (left : SeqNo) :
    (adjustUrgent seg left).stop = seg.stop ∧ (adjustUrgent seg left).fin = seg.fin := by
  rw [adjustUrgent]
  split
  · split <;> exact ⟨rfl, rfl⟩
  · exact ⟨rfl, rfl⟩

section

variable (h : SegOf stream isn seg s)
include h

theorem trimLeft_segOf {x : Nat} (hlow : s.start < x)
    (hhigh : x < s.stop) (hclose : Close 32 s.start x) :
    SegOf stream isn (trimLeft seg (numberAt isn x)) ⟨x, s.stop⟩ := by
  obtain ⟨hstop, hfin⟩ := adjustUrgent_same (numberAt isn x)
  have hshrt := h.short
  have hsize := h.size
  rw [Span.length] at hshrt hsize
  have hdrop : numberAt isn x - seg.seq - BitVec.ofNat 32 seg.syn.toNat =
      BitVec.ofNat 32 (x - s.start) := by
    have hx : x = s.start + (x - s.start) := by omega
    rw [h.syn, h.seq]
    change _ - 0 = _
    rw [sub_zero]
    conv_lhs => rw [hx, numberAt_add, add_sub_cancel_left]
  have hnat : (BitVec.ofNat 32 (x - s.start)).toNat = x - s.start := by
    rw [BitVec.toNat_ofNat, Nat.mod_eq_of_lt (by omega)]
  have hne : BitVec.ofNat 32 (x - s.start) ≠ 0 := by
    intro hzero
    rw [hzero] at hnat
    change 0 = _ at hnat
    omega
  rw [trimLeft, h.seq, seqLt_numberAt isn hclose, if_pos (by simpa using hlow)]
  refine ⟨le_of_lt hhigh, h.stop_le, ?_, rfl, hstop.trans h.stop, rfl, ?_, ?_⟩
  · rw [Span.length]
    dsimp only
    omega
  · change (adjustUrgent seg _).fin = true ↔ _
    rw [hfin, h.fin]
    dsimp only
    omega
  · dsimp only
    rw [← h.seq, hdrop, if_pos hne, bytes_netbufTrim_head (by omega), hnat, h.bytes, slice_drop]
    congr 2
    omega

theorem trimRight_segOf {y : Nat} (hlow : s.start ≤ y)
    (hhigh : y < s.stop) (hclose : Close 32 s.stop y) :
    SegOf stream isn (trimRight seg (numberAt isn y)) ⟨s.start, y⟩ := by
  have hshrt := h.short
  have hsize := h.size
  have hstop := h.stop_le
  rw [Span.length] at hshrt hsize
  have hfinle : seg.fin.toNat ≤ s.stop - y := by
    have := Bool.toNat_le seg.fin
    omega
  have hdrop : seg.stop - numberAt isn y - BitVec.ofNat 32 seg.fin.toNat =
      BitVec.ofNat 32 (s.stop - y - seg.fin.toNat) := by
    have hs : s.stop = y + ((s.stop - y - seg.fin.toNat) + seg.fin.toNat) := by omega
    rw [h.stop]
    conv_lhs => rw [hs, numberAt_add, BitVec.ofNat_add, add_sub_cancel_left, add_sub_cancel_right]
  have hnat : (BitVec.ofNat 32 (s.stop - y - seg.fin.toNat)).toNat =
      s.stop - y - seg.fin.toNat := by
    rw [BitVec.toNat_ofNat, Nat.mod_eq_of_lt (by omega)]
  have hbyt : (slice stream s).take (seg.nbuf.bytes.length - (s.stop - y - seg.fin.toNat)) =
      slice stream ⟨s.start, y⟩ := by
    rw [← slice_take stream (le_of_lt hhigh)]
    congr 1
    omega
  rw [trimRight, h.stop, seqGt_numberAt isn hclose, if_pos (by simpa using hhigh)]
  refine ⟨hlow, by dsimp only; omega, ?_, h.seq, rfl, h.syn, ?_, ?_⟩
  · rw [Span.length]
    dsimp only
    omega
  · dsimp only
    refine ⟨(fun hfalse => by cases hfalse), fun hend => ?_⟩
    omega
  · dsimp only
    rw [← h.stop, hdrop]
    split_ifs with hne
    · rw [bytes_netbufTrim_tail (by omega), hnat, h.bytes, ← hbyt, h.bytes]
    · rw [not_not] at hne
      rw [hne] at hnat
      change 0 = _ at hnat
      rw [← hbyt, ← hnat, Nat.sub_zero, h.bytes, take_length]

theorem tcpTrimSegment_spec {x y : Nat} (hxy : x ≤ y)
    (hstartx : Close 32 s.start x) (hstopx : Close 32 s.stop x) (hstarty : Close 32 s.start y)
    (hstopy : Close 32 s.stop y) :
    (tcpTrimSegment seg (numberAt isn x) (numberAt isn y)).1 = true ∧
      if s.stop ≤ x ∨ y ≤ s.start then
        (tcpTrimSegment seg (numberAt isn x) (numberAt isn y)).2.stop =
          (tcpTrimSegment seg (numberAt isn x) (numberAt isn y)).2.seq
      else SegOf stream isn (tcpTrimSegment seg (numberAt isn x) (numberAt isn y)).2
        ⟨max s.start x, min s.stop y⟩ := by
  have hcond : (seqLeq seg.stop (numberAt isn x) || seqLeq (numberAt isn y) seg.seq) =
      decide (s.stop ≤ x ∨ y ≤ s.start) := by
    rw [h.stop, h.seq, seqLeq_numberAt isn hstopx, seqLeq_numberAt isn hstarty.symm, Bool.decide_or]
  rw [tcpTrimSegment, hcond]
  by_cases hout : s.stop ≤ x ∨ y ≤ s.start
  · rw [if_pos (decide_eq_true hout), if_pos hout]
    exact ⟨rfl, rfl⟩
  · rw [if_neg (by simpa using hout), if_neg hout]
    rw [not_or] at hout
    have hleft : SegOf stream isn (trimLeft seg (numberAt isn x)) ⟨max s.start x, s.stop⟩ := by
      by_cases hx : s.start < x
      · rw [max_eq_right (le_of_lt hx)]
        exact trimLeft_segOf h hx (by omega) hstartx
      · rw [max_eq_left (by omega), trimLeft, h.seq, seqLt_numberAt isn hstartx,
          if_neg (by simpa using hx)]
        exact h
    have hright : SegOf stream isn (trimRight (trimLeft seg (numberAt isn x)) (numberAt isn y))
        ⟨max s.start x, min s.stop y⟩ := by
      by_cases hy : y < s.stop
      · rw [min_eq_right (le_of_lt hy)]
        exact trimRight_segOf hleft (Nat.max_le.2 ⟨by omega, hxy⟩) hy hstopy
      · rw [min_eq_left (by omega), trimRight, hleft.stop, seqGt_numberAt isn hstopy,
          if_neg (by simpa using hy)]
        exact hleft
    exact ⟨hright.verify, hright⟩

end

abbrev Held := Segment × Span

def segments (l : List Held) : List Segment :=
  l.map Prod.fst

def parts (l : List Held) : List Span :=
  l.map Prod.snd

structure Queue (stream : List Byte) (isn : SeqNo) (lo hi : Nat) (l : List Held) : Prop where
  segOf : ∀ p ∈ l, SegOf stream isn p.1 p.2
  within : Within lo hi (parts l)
  near : 2 * hi < 2 * lo + 2 ^ 32

variable {lo hi : Nat} {l : List Held}

theorem close_of_near (h : 2 * hi < 2 * lo + 2 ^ 32) {a b : Nat} (ha : lo ≤ a ∧ a ≤ hi)
    (hb : lo ≤ b ∧ b ≤ hi) : Close 32 a b :=
  ⟨by omega, by omega⟩

theorem Queue.mem (h : Queue stream isn lo hi l) {p : Held} (hp : p ∈ l) :
    lo ≤ p.2.start ∧ p.2.start < p.2.stop ∧ p.2.stop ≤ hi :=
  h.within.mem (mem_map_of_mem hp)

structure Fresh (stream : List Byte) (isn : SeqNo) (lo hi : Nat) (seg : Segment) (s : Span) :
    Prop extends SegOf stream isn seg s where
  lo_le : lo ≤ s.start
  lt : s.start < s.stop
  le_hi : s.stop ≤ hi

theorem Fresh.trim (h : Fresh stream isn lo hi seg s) (hnear : 2 * hi < 2 * lo + 2 ^ 32)
    {x y : Nat} (hx : s.start ≤ x) (hxy : x < y) (hy : y ≤ s.stop) :
    (tcpTrimSegment seg (numberAt isn x) (numberAt isn y)).1 = true ∧
      Fresh stream isn lo hi (tcpTrimSegment seg (numberAt isn x) (numberAt isn y)).2 ⟨x, y⟩ := by
  have hlo := h.lo_le
  have hle := h.le_hi
  have hlt := h.lt
  have hst : lo ≤ s.start ∧ s.start ≤ hi := ⟨hlo, by omega⟩
  have hstop : lo ≤ s.stop ∧ s.stop ≤ hi := ⟨by omega, hle⟩
  have hxin : lo ≤ x ∧ x ≤ hi := ⟨by omega, by omega⟩
  have hyin : lo ≤ y ∧ y ≤ hi := ⟨by omega, by omega⟩
  obtain ⟨hok, hspec⟩ := tcpTrimSegment_spec h.toSegOf (le_of_lt hxy)
    (close_of_near hnear hst hxin) (close_of_near hnear hstop hxin)
    (close_of_near hnear hst hyin) (close_of_near hnear hstop hyin)
  rw [if_neg (by omega), max_eq_right hx, min_eq_right hy] at hspec
  exact ⟨hok, hspec, hxin.1, hxy, hyin.2⟩

theorem trimToPrev_spec {front : List Held} (hfr : Queue stream isn lo hi front)
    (h : Fresh stream isn lo hi seg s) :
    (cutFront (parts front) s = none ∧ trimToPrev (segments front).getLast? seg = .covered) ∨
      ∃ y trimmed, cutFront (parts front) s = some y ∧
        trimToPrev (segments front).getLast? seg = .trimmed trimmed ∧
        Fresh stream isn lo hi trimmed y := by
  rw [cutFront, parts, segments, getLast?_map, getLast?_map]
  cases hlast : front.getLast? with
  | none => exact .inr ⟨s, seg, rfl, rfl, h⟩
  | some node =>
    have hmem : node ∈ front := mem_of_getLast? hlast
    have hnode := hfr.segOf node hmem
    obtain ⟨hnlo, hnlt, hnhi⟩ := hfr.mem hmem
    have hlo := h.lo_le
    have hlt := h.lt
    have hhi := h.le_hi
    have hst : seqLt seg.seq node.1.stop = decide (s.start < node.2.stop) := by
      rw [h.seq, hnode.stop]
      exact seqLt_numberAt isn (close_of_near hfr.near ⟨hlo, by omega⟩ ⟨by omega, hnhi⟩)
    have hstop : seqLeq seg.stop node.1.stop = decide (s.stop ≤ node.2.stop) := by
      rw [h.stop, hnode.stop]
      exact seqLeq_numberAt isn (close_of_near hfr.near ⟨by omega, hhi⟩ ⟨by omega, hnhi⟩)
    simp only [Option.map_some, trimToPrev, hst, hstop, decide_eq_true_eq]
    by_cases hover : s.start < node.2.stop
    · by_cases hall : s.stop ≤ node.2.stop
      · rw [if_pos hover, if_pos hall, if_pos hover, if_pos hall]
        exact .inl ⟨rfl, rfl⟩
      · rw [if_pos hover, if_neg hall, if_pos hover, if_neg hall]
        obtain ⟨hok, htrim⟩ := h.trim hfr.near (x := node.2.stop) (y := s.stop) (by omega)
          (by omega) le_rfl
        rw [← hnode.stop, ← h.stop] at hok htrim
        rw [if_pos hok]
        exact .inr ⟨_, _, rfl, rfl, htrim⟩
    · rw [if_neg hover, if_neg hover]
      exact .inr ⟨s, seg, rfl, rfl, h⟩

variable {back : List Held}

theorem Queue.node_order {node : Held}
    (hback : Queue stream isn lo hi (node :: back)) (h : Fresh stream isn lo hi seg s) :
    seqLeq node.1.stop seg.stop = decide (node.2.stop ≤ s.stop) ∧
      seqLt node.1.seq seg.stop = decide (node.2.start < s.stop) ∧
      seqLeq node.1.seq seg.seq = decide (node.2.start ≤ s.start) ∧
      Queue stream isn lo hi back := by
  have hnode := hback.segOf node mem_cons_self
  obtain ⟨hnlo, hnlt, hnhi⟩ := hback.mem (mem_cons_self (a := node) (l := back))
  have hlo := h.lo_le
  have hlt := h.lt
  have hhi := h.le_hi
  refine ⟨?_, ?_, ?_, fun p hp => hback.segOf p (mem_cons_of_mem _ hp),
    hback.within.2.2.mono (by omega) le_rfl, hback.near⟩
  · rw [h.stop, hnode.stop]
    exact seqLeq_numberAt isn (close_of_near hback.near ⟨by omega, hnhi⟩ ⟨by omega, hhi⟩)
  · rw [h.stop, hnode.seq]
    exact seqLt_numberAt isn (close_of_near hback.near ⟨hnlo, by omega⟩ ⟨by omega, hhi⟩)
  · rw [h.seq, hnode.seq]
    exact seqLeq_numberAt isn (close_of_near hback.near ⟨hnlo, by omega⟩ ⟨hlo, by omega⟩)

section

variable (hback : Queue stream isn lo hi back) (h : Fresh stream isn lo hi seg s)
include hback h

theorem queueLoop_behind (hbhd : ∀ p ∈ back, s.stop ≤ p.2.start) :
    queueLoop seg (segments back) = (true, some seg, segments back) := by
  induction back with
  | nil => rfl
  | cons node back ih =>
    obtain ⟨hstops, hstarts, -, hrest⟩ := hback.node_order h
    have hbeyond := hbhd node mem_cons_self
    have hnlt := (hback.mem (mem_cons_self (a := node) (l := back))).2.1
    change queueLoop seg (node.1 :: segments back) = _
    rw [queueLoop, hstops, hstarts, decide_eq_false (by omega), decide_eq_false (by omega),
      if_neg (by decide), if_neg (by decide),
      ih hrest fun p hp => hbhd p (mem_cons_of_mem _ hp)]
    rfl

theorem queueLoop_spec :
    ∃ (placed : Option Held) (rest : List Held),
      queueLoop seg (segments back) = (true, placed.map Prod.fst, segments rest) ∧
      parts rest = (parts back).dropWhile (fun t => t.stop ≤ s.stop) ∧
      placed.map Prod.snd = cutBack (parts rest) s ∧
      ∀ p ∈ placed.toList ++ rest, SegOf stream isn p.1 p.2 := by
  induction back with
  | nil =>
    refine ⟨some (seg, s), [], rfl, rfl, rfl, ?_⟩
    intro p hp
    rw [mem_singleton.1 hp]
    exact h.toSegOf
  | cons node back ih =>
    have hnode := hback.segOf node mem_cons_self
    obtain ⟨hstops, hstarts, hseqs, hrest⟩ := hback.node_order h
    change ∃ placed rest, queueLoop seg (node.1 :: segments back) = _ ∧
      _ = (node.2 :: parts back).dropWhile _ ∧ _
    by_cases hcov : node.2.stop ≤ s.stop
    · rw [queueLoop, hstops, if_pos (decide_eq_true hcov),
        dropWhile_cons_of_pos (by simpa using hcov)]
      exact ih hrest
    · rw [queueLoop, hstops, if_neg (by simpa using hcov), hstarts, hseqs,
        dropWhile_cons_of_neg (by simpa using hcov)]
      by_cases hover : node.2.start < s.stop
      · rw [if_pos (decide_eq_true hover)]
        by_cases hin : node.2.start ≤ s.start
        · rw [if_pos (decide_eq_true hin)]
          refine ⟨none, node :: back, rfl, rfl, ?_, hback.segOf⟩
          change none = cutBack (node.2 :: parts back) s
          rw [cutBack, if_pos hover, if_pos hin]
        · rw [if_neg (by simpa using hin)]
          obtain ⟨hok, htrim⟩ := h.trim hback.near (x := s.start) (y := node.2.start)
            le_rfl (by omega) (by omega)
          rw [← h.seq, ← hnode.seq] at hok htrim
          rw [if_pos hok]
          refine ⟨some (_, ⟨s.start, node.2.start⟩), node :: back, rfl, rfl, ?_, ?_⟩
          · change some _ = cutBack (node.2 :: parts back) s
            rw [cutBack, if_pos hover, if_neg hin]
          · intro p hp
            rcases mem_cons.1 hp with rfl | hp
            · exact htrim.toSegOf
            · exact hback.segOf p hp
      · rw [if_neg (by simpa using hover)]
        have hbhd : ∀ p ∈ back, s.stop ≤ p.2.start := by
          intro p hp
          have := (hback.within.2.2.mem (mem_map_of_mem hp)).1
          change node.2.stop ≤ p.2.start at this
          omega
        rw [queueLoop_behind hrest h hbhd]
        refine ⟨some (seg, s), node :: back, rfl, rfl, ?_, ?_⟩
        · change some s = cutBack (node.2 :: parts back) s
          rw [cutBack, if_neg hover]
        · intro p hp
          rcases mem_cons.1 hp with rfl | hp
          · exact h.toSegOf
          · exact hback.segOf p hp

end

structure Requeued (tcb tcb' : TcpCb) (que : List Segment) : Prop where
  rcvQue : tcb'.rcvQue = que
  rcvNxt : tcb'.rcvNxt = tcb.rcvNxt
  state : tcb'.state = tcb.state
  sk : tcb'.sk = tcb.sk

theorem Queue.split (h : Queue stream isn lo hi l) {p : Held → Bool} :
    Queue stream isn lo hi (l.takeWhile p) ∧ Queue stream isn lo hi (l.dropWhile p) := by
  have hwithin := h.within
  rw [← takeWhile_append_dropWhile (p := p) (l := l), parts, map_append] at hwithin
  obtain ⟨middle, hfr, hback⟩ := within_append.1 hwithin
  refine ⟨⟨fun q hq => h.segOf q ((takeWhile_sublist _).subset hq),
      hfr.mono le_rfl hback.le, h.near⟩,
    ⟨fun q hq => h.segOf q ((dropWhile_sublist _).subset hq),
      hback.mono hfr.le le_rfl, h.near⟩⟩

theorem Queue.place (h : Queue stream isn lo hi l) (hseg : Fresh stream isn lo hi seg s) :
    ∀ p ∈ l, (!seqLt seg.seq p.1.seq) = decide (p.2.start ≤ s.start) := by
  intro p hp
  obtain ⟨hplo, hplt, hphi⟩ := h.mem hp
  have hlo := hseg.lo_le
  have hlt := hseg.lt
  have hhi := hseg.le_hi
  rw [hseg.seq, (h.segOf p hp).seq, seqLt_numberAt isn
    (close_of_near h.near ⟨hlo, by omega⟩ ⟨hplo, by omega⟩), ← decide_not, decide_eq_decide]
  omega

theorem takeWhile_congr_mem {α : Type} {p q : α → Bool} {l : List α} (h : ∀ x ∈ l, p x = q x) :
    l.takeWhile p = l.takeWhile q ∧ l.dropWhile p = l.dropWhile q := by
  induction l with
  | nil => exact ⟨rfl, rfl⟩
  | cons x l ih =>
    obtain ⟨htake, hdrop⟩ := ih fun y hy => h y (mem_cons_of_mem x hy)
    rw [takeWhile_cons, takeWhile_cons, dropWhile_cons, dropWhile_cons,
      h x mem_cons_self, htake, hdrop]
    exact ⟨rfl, rfl⟩

theorem tcpQueueData_spec {tcb : TcpCb} (hque : tcb.rcvQue = segments l)
    (h : Queue stream isn lo hi l) (hseg : Fresh stream isn lo hi seg s) :
    (tcpQueueData tcb seg).1 = true ∧
      ∃ l', Requeued tcb (tcpQueueData tcb seg).2 (segments l') ∧
        Queue stream isn lo hi l' ∧ parts l' = insertSpan s (parts l) := by
  have hins := insertSpan_spec h.within hseg.lo_le hseg.lt hseg.le_hi
  rw [tcpQueueData, hque]
  by_cases hnil : (segments l).isEmpty = true
  · rw [if_pos hnil]
    obtain rfl : l = [] := map_eq_nil_iff.1 (isEmpty_iff.1 hnil)
    refine ⟨rfl, [(seg, s)], ⟨rfl, rfl, rfl, rfl⟩, ⟨?_, hins.1, h.near⟩, rfl⟩
    intro p hp
    rw [mem_singleton.1 hp]
    exact hseg.toSegOf
  · rw [if_neg hnil]
    obtain ⟨front, hfrontEq⟩ : ∃ front, front = l.takeWhile fun p => p.2.start ≤ s.start :=
      ⟨_, rfl⟩
    obtain ⟨back, hbackEq⟩ : ∃ back, back = l.dropWhile fun p => p.2.start ≤ s.start :=
      ⟨_, rfl⟩
    obtain ⟨hfr, hback⟩ := h.split (p := fun p => decide (p.2.start ≤ s.start))
    rw [← hfrontEq] at hfr
    rw [← hbackEq] at hback
    obtain ⟨htake, hdrop⟩ := takeWhile_congr_mem (h.place hseg)
    have htake' : (segments l).takeWhile (fun node => !seqLt seg.seq node.seq) =
        segments front := by
      rw [hfrontEq, ← htake, segments, takeWhile_map]
      rfl
    have hdrop' : (segments l).dropWhile (fun node => !seqLt seg.seq node.seq) = segments back := by
      rw [hbackEq, ← hdrop, segments, dropWhile_map]
      rfl
    have hfrontParts : parts front = before s.start (parts l) := by
      rw [hfrontEq, before, parts, parts, takeWhile_map]
      rfl
    have hbackParts : parts back = after s.start (parts l) := by
      rw [hbackEq, after, parts, parts, dropWhile_map]
      rfl
    dsimp only
    rw [htake', hdrop']
    rcases trimToPrev_spec hfr hseg with ⟨hcut, hprev⟩ | ⟨y, trimmed, hcut, hprev, hfresh⟩
    · rw [hprev]
      rw [hfrontParts] at hcut
      exact ⟨rfl, l, ⟨hque, rfl, rfl, rfl⟩, h, (insertSpan_of_none hcut).symm⟩
    · rw [hprev]
      rw [hfrontParts] at hcut
      obtain ⟨placed, rest, hloop, hrest, hplaced, hsegOf⟩ := queueLoop_spec hback hfresh
      dsimp only
      rw [hloop]
      have hpts : parts (front ++ (placed.toList ++ rest)) = insertSpan s (parts l) := by
        rw [insertSpan_of_some hcut, behind, ← hbackParts, ← hrest, ← hplaced, ← hfrontParts,
          parts, map_append, map_append]
        cases placed <;> rfl
      have hsegs : segments (front ++ (placed.toList ++ rest)) =
          segments front ++ ((placed.map Prod.fst).toList ++ segments rest) := by
        rw [segments, map_append, map_append]
        cases placed <;> rfl
      refine ⟨rfl, front ++ (placed.toList ++ rest), ⟨hsegs.symm, rfl, rfl, rfl⟩,
        ⟨?_, ?_, h.near⟩, hpts⟩
      · intro p hp
        rcases mem_append.1 hp with hp | hp
        · exact hfr.segOf p hp
        · exact hsegOf p hp
      · rw [hpts]
        exact hins.1

end MuBasecore.TcpQueue
