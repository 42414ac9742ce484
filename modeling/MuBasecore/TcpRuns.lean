import MuBasecore.TcpQueue

/-!
Runs of the receive side: what the socket gets of a stream whose segments arrive
in any order, as long as they are not too far from the window.
-/

namespace MuBasecore.TcpRuns

open ByteMemory TcpSegments SerialNumber SpanList TcpQueue List

/-- The bytes that the socket has got. -/
def delivered (tcb : TcpCb) : List Byte :=
  (tcb.sk.received.map fun buffer => buffer.1.bytes).flatten

/-- Up to the position `r` the stream was delivered, and the queue holds the
parts of `l`. -/
structure Receiving (stream : List Byte) (isn : SeqNo) (tcb : TcpCb) (r : Nat) (l : List Held) :
    Prop where
  rcvQue : tcb.rcvQue = segments l
  queue : ∃ hi ≤ stream.length + 1, Queue stream isn r hi l
  rcvNxt : tcb.rcvNxt = numberAt isn r
  delivered : delivered tcb = stream.take r
  state : r ≤ stream.length → tcb.state.finRcvd = false

variable {stream : List Byte} {isn : SeqNo} {tcb : TcpCb} {r : Nat} {l : List Held}

variable {tcb' : TcpCb} {seg : Segment} {s : Span}

theorem delivered_congr (h : tcb'.sk = tcb.sk) : delivered tcb' = delivered tcb := by
  rw [delivered, delivered, h]

structure Delivered (stream : List Byte) (isn : SeqNo) (tcb : TcpCb) (r : Nat) (l : List Held)
    (r' : Nat) (l' : List Held) : Prop where
  receiving : Receiving stream isn tcb r' l'
  le : r ≤ r'
  covers : ∀ i, i < r' ∨ Covers (parts l') i ↔ i < r ∨ Covers (parts l) i
  gap : ¬ Covers (parts l') r'

theorem delivered_deliverSegment (h : SegOf stream isn seg s) (seqStop : SeqNo) :
    delivered (deliverSegment tcb { seg with stop := seqStop }) =
      delivered tcb ++ slice stream s := by
  rw [← h.bytes]
  by_cases hsize : seg.nbuf.totalSize ≠ 0
  · simp [delivered, deliverSegment, hsize]
  · rw [not_not] at hsize
    have hnil : seg.nbuf.bytes = [] := by
      rw [← length_eq_zero_iff, ← h.totalSize]
      exact hsize
    simp [delivered, deliverSegment, hsize, hnil]

theorem finState_some (h : tcb.state.finRcvd = false) : ∃ state, finState tcb = some state := by
  rw [finState]
  cases hstt : tcb.state with
  | closed => exact ⟨_, rfl⟩
  | finWait1 =>
    dsimp only
    split <;> exact ⟨_, rfl⟩
  | closing | timeWait | closeWait | lastAck => simp [hstt, TcpState.finRcvd] at h
  | _ => exact ⟨_, rfl⟩

theorem covers_pop {parts : List Span} {i : Nat} (h : s.start ≤ s.stop) :
    i < s.stop ∨ Covers parts i ↔ i < s.start ∨ Covers (s :: parts) i := by
  rw [covers_cons, ← or_assoc]
  refine or_congr ?_ Iff.rfl
  rw [Span.Mem]
  omega

theorem deliverLoop_spec {hi : Nat} (hhi : hi ≤ stream.length + 1)
    (hqueue : Queue stream isn r hi l) (hnext : tcb.rcvNxt = numberAt isn r)
    (hdel : delivered tcb = stream.take r)
    (hstt : r ≤ stream.length → tcb.state.finRcvd = false) :
    (deliverLoop (segments l) tcb).1 = true ∧
      ∃ r' l', Delivered stream isn (deliverLoop (segments l) tcb).2 r l r' l' := by
  induction l generalizing tcb r with
  | nil =>
    refine ⟨rfl, r, [], ⟨rfl, ⟨hi, hhi, hqueue⟩, hnext, hdel, hstt⟩, Nat.le_refl r,
      fun i => Iff.rfl, not_covers_nil⟩
  | cons p l ih =>
    obtain ⟨seg, s⟩ := p
    have hseg := hqueue.segOf (seg, s) mem_cons_self
    obtain ⟨hlo, hlt, hstophi⟩ := hqueue.mem (mem_cons_self (a := (seg, s)) (l := l))
    dsimp only at hlo hlt hstophi hseg
    have hnear := hqueue.near
    have hgt : seqGt seg.seq tcb.rcvNxt = decide (r < s.start) := by
      rw [hseg.seq, hnext]
      exact seqGt_numberAt isn (close_of_near hnear ⟨hlo, by omega⟩ ⟨Nat.le_refl r, by omega⟩)
    change (deliverLoop (seg :: segments l) tcb).1 = true ∧
      ∃ r' l', Delivered stream isn (deliverLoop (seg :: segments l) tcb).2 r _ r' l'
    rw [deliverLoop, hseg.verify, if_neg (by decide), hgt]
    by_cases hgap : r < s.start
    · rw [if_pos (decide_eq_true hgap)]
      refine ⟨rfl, r, (seg, s) :: l, ⟨rfl, ⟨hi, hhi, hqueue⟩, hnext, hdel, hstt⟩,
        Nat.le_refl r, fun i => Iff.rfl, fun hcov => ?_⟩
      have hrest : Within s.start hi (parts ((seg, s) :: l)) :=
        ⟨le_rfl, hlt, hqueue.within.2.2⟩
      have := (hrest.covers hcov).1
      omega
    · rw [if_neg (by simpa using hgap)]
      have hst : s.start = r := by omega
      have hrest : Queue stream isn s.stop hi l :=
        ⟨fun q hq => hqueue.segOf q (mem_cons_of_mem _ hq), hqueue.within.2.2, by omega⟩
      have hbyt : stream.take s.stop = stream.take r ++ slice stream s := by
        have hspl := slice_append stream (Nat.zero_le r) (show r ≤ s.stop by omega)
        have hspan : s = ⟨r, s.stop⟩ := by rw [← hst]
        rw [hspan]
        simpa [slice, Span.length] using hspl.symm
      have hpop : ∀ (tcb' : TcpCb) (r' : Nat) (l' : List Held),
          Delivered stream isn tcb' s.stop l r' l' →
            Delivered stream isn tcb' r ((seg, s) :: l) r' l' := by
        rintro tcb' r' l' ⟨hrecv, hle, hcov, hfree⟩
        refine ⟨hrecv, by omega, fun i => (hcov i).trans ?_, hfree⟩
        rw [covers_pop (le_of_lt hlt), hst]
        rfl
      by_cases hfin : seg.fin = true
      · have hend := (hseg.fin.1 hfin).2
        -- nothing can be queued behind the `FIN`
        obtain rfl : l = [] := by
          cases l with
          | nil => rfl
          | cons q l =>
            obtain ⟨hqlo, hqlt, hqhi⟩ := hrest.mem (mem_cons_self (a := q) (l := l))
            omega
        obtain ⟨state, hfinState⟩ := finState_some (hstt (by omega))
        rw [if_pos hfin, if_neg (by simp [segments]), hfinState]
        refine ⟨rfl, s.stop, [], hpop _ _ _ ⟨⟨rfl, ⟨hi, hhi, hrest⟩, hseg.stop, ?_, ?_⟩,
          le_rfl, fun i => Iff.rfl, not_covers_nil⟩⟩
        · change delivered (deliverSegment _ _) = _
          rw [delivered_deliverSegment hseg, hbyt, ← hdel]
          rfl
        · intro hle
          omega
      · rw [if_neg hfin]
        have hstop : s.stop ≤ stream.length := by
          have hne : s.stop ≠ stream.length + 1 := fun heq => hfin (hseg.fin.2 ⟨hlt, heq⟩)
          omega
        have hnext' : (deliverSegment { tcb with rcvNxt := seg.stop } seg).rcvNxt =
            numberAt isn s.stop := hseg.stop
        have hdel' : delivered (deliverSegment { tcb with rcvNxt := seg.stop } seg) =
            stream.take s.stop := by
          rw [hbyt, ← hdel]
          exact delivered_deliverSegment hseg seg.stop
        obtain ⟨hok, r', l', hres⟩ := ih hrest hnext' hdel' fun _ => hstt (by omega)
        exact ⟨hok, r', l', hpop _ _ _ hres⟩

theorem tcpDeliverData_spec (h : Receiving stream isn tcb r l) :
    (tcpDeliverData tcb).1 = true ∧
      ∃ r' l', Receiving stream isn (tcpDeliverData tcb).2 r' l' ∧ r ≤ r' ∧
        (∀ i, i < r' ∨ Covers (parts l') i ↔ i < r ∨ Covers (parts l) i) ∧
        (tcb.state.connected = true → ¬ Covers (parts l') r') := by
  obtain ⟨hi, hhi, hqueue⟩ := h.queue
  rw [tcpDeliverData]
  split_ifs with hcond
  · refine ⟨rfl, r, l, h, Nat.le_refl r, fun i => Iff.rfl, fun hconn hcov => ?_⟩
    rw [Bool.or_eq_true] at hcond
    rcases hcond with hempty | hnot
    · rw [h.rcvQue] at hempty
      obtain rfl : l = [] := map_eq_nil_iff.1 (isEmpty_iff.1 hempty)
      exact not_covers_nil hcov
    · rw [hconn] at hnot
      cases hnot
  · rw [h.rcvQue]
    obtain ⟨hok, r', l', hres⟩ := deliverLoop_spec hhi hqueue h.rcvNxt h.delivered h.state
    exact ⟨hok, r', l', hres.receiving, hres.le, hres.covers, fun _ => hres.gap⟩

/-- The sequence numbers from `RcvNxt` to the right edge of the window. -/
def window (tcb : TcpCb) : Nat :=
  (tcb.rcvWl2 + tcb.rcvWnd - tcb.rcvNxt).toNat

/-- The segment is a part of the stream less than `2 ^ 31` away from `RcvNxt`, which is at the
end of the delivered bytes or behind the `FIN`. -/
structure Arrives (stream : List Byte) (isn : SeqNo) (tcb : TcpCb) (seg : Segment) (s : Span) :
    Prop extends SegOf stream isn seg s where
  window_lt : window tcb < 2 ^ 31
  not_ahead : s.stop < (delivered tcb).length + 2 ^ 31
  not_behind : (delivered tcb).length + 1 < s.start + 2 ^ 31

/-- The call took what the window had room for. A segment that begins `2 ^ 31` or more below the
right edge of the window counts as one behind it. -/
structure Accepted (stream : List Byte) (isn : SeqNo) (tcb : TcpCb) (s : Span)
    (r : Nat) (l : List Held) (result : Bool × TcpCb) (r' : Nat) (l' : List Held) : Prop where
  ok : result.1 = true
  receiving : Receiving stream isn result.2 r' l'
  le : r ≤ r'
  covers : ∀ i, i < r' ∨ Covers (parts l') i ↔
    i < r ∨ Covers (parts l) i ∨
      (s.Mem i ∧ i < r + window tcb ∧ r + window tcb < s.start + 2 ^ 31)
  gap : tcb.state.connected = true → ¬ Covers (parts l) r → ¬ Covers (parts l') r'

section

variable (h : Receiving stream isn tcb r l)
include h

theorem delivered_length : (delivered tcb).length ≤ r ∧ r ≤ (delivered tcb).length + 1 := by
  obtain ⟨hi, hhi, hqueue⟩ := h.queue
  have hle := hqueue.within.le
  rw [h.delivered, length_take]
  omega

theorem right_edge : tcb.rcvWl2 + tcb.rcvWnd = numberAt isn (r + window tcb) := by
  rw [numberAt_add, ← h.rcvNxt, window, BitVec.ofNat_toNat, BitVec.setWidth_eq, add_sub_cancel]

/-- A segment of which nothing is left changes nothing. -/
theorem accepted_of_trimmed (hok : (tcpTrimInWnd tcb seg).1 = true)
    (hsame : (tcpTrimInWnd tcb seg).2.stop = (tcpTrimInWnd tcb seg).2.seq)
    (hold : ∀ i, s.Mem i → i < r + window tcb → r + window tcb < s.start + 2 ^ 31 → i < r) :
    Accepted stream isn tcb s r l (tcpReceive tcb seg) r l := by
  have hres : tcpReceive tcb seg = (true, tcb) := by
    rw [tcpReceive]
    dsimp only
    rw [hok, if_neg (by decide), if_pos hsame]
  rw [hres]
  refine ⟨rfl, h, Nat.le_refl r, fun i => ⟨?_, ?_⟩, fun _ hgap => hgap⟩
  · rintro (hi | hi)
    · exact .inl hi
    · exact .inr (.inl hi)
  · rintro (hi | hi | ⟨hmem, hi, hnear⟩)
    · exact .inl hi
    · exact .inr hi
    · exact .inl (hold i hmem hi hnear)

theorem tcpReceive_spec (hseg : Arrives stream isn tcb seg s) :
    ∃ r' l', Accepted stream isn tcb s r l (tcpReceive tcb seg) r' l' := by
  obtain ⟨hlow, hhigh⟩ := delivered_length h
  have hwindow := hseg.window_lt
  have hahead := hseg.not_ahead
  have hbhd := hseg.not_behind
  have hle := hseg.le
  by_cases hnear : s.start + 2 ^ 31 ≤ r + window tcb
  · have hout : seqLeq (tcb.rcvWl2 + tcb.rcvWnd) seg.seq = true := by
      rw [right_edge h, hseg.seq]
      exact seqLeq_numberAt_far isn hnear (by omega)
    refine ⟨r, l, accepted_of_trimmed h ?_ ?_ fun i _ _ hlt => by omega⟩ <;>
      rw [tcpTrimInWnd, tcpTrimSegment, hout, Bool.or_true, if_pos rfl]
  obtain ⟨hok, htrim⟩ := tcpTrimSegment_spec (x := r) (y := r + window tcb) hseg.toSegOf
    (Nat.le_add_right _ _) ⟨by omega, by omega⟩ ⟨by omega, by omega⟩ ⟨by omega, by omega⟩
    ⟨by omega, by omega⟩
  rw [← h.rcvNxt, ← right_edge h] at hok htrim
  change (tcpTrimInWnd tcb seg).1 = true at hok
  change if _ then (tcpTrimInWnd tcb seg).2.stop = (tcpTrimInWnd tcb seg).2.seq
    else SegOf stream isn (tcpTrimInWnd tcb seg).2 _ at htrim
  by_cases hout : s.stop ≤ r ∨ r + window tcb ≤ s.start
  · rw [if_pos hout] at htrim
    refine ⟨r, l, accepted_of_trimmed h hok htrim fun i hmem hi _ => ?_⟩
    have := hmem.1
    have := hmem.2
    omega
  · rw [if_neg hout] at htrim
    by_cases hempty : min s.stop (r + window tcb) ≤ max s.start r
    · refine ⟨r, l, accepted_of_trimmed h hok ?_ fun i hmem hi _ => ?_⟩
      · rw [htrim.stop, htrim.seq]
        have := htrim.le
        dsimp only at this ⊢
        congr 1
        omega
      · have := hmem.1
        have := hmem.2
        omega
    · obtain ⟨hi, hhi, hqueue⟩ := h.queue
      have hstop := hseg.stop_le
      have hnear := hqueue.near
      have hrle := hqueue.within.le
      have hq' : Queue stream isn r (max hi (min s.stop (r + window tcb))) l :=
        ⟨hqueue.segOf, hqueue.within.mono (Nat.le_refl r) (le_max_left _ _), by omega⟩
      have hfresh : Fresh stream isn r (max hi (min s.stop (r + window tcb)))
          (tcpTrimInWnd tcb seg).2 ⟨max s.start r, min s.stop (r + window tcb)⟩ :=
        ⟨htrim, le_max_right _ _, Nat.lt_of_not_le hempty, le_max_right _ _⟩
      obtain ⟨hqok, l₁, hreq, hq₁, hpts⟩ := tcpQueueData_spec h.rcvQue hq' hfresh
      have hrecv : Receiving stream isn (tcpQueueData tcb (tcpTrimInWnd tcb seg).2).2 r l₁ :=
        ⟨hreq.rcvQue, ⟨_, by omega, hq₁⟩, hreq.rcvNxt.trans h.rcvNxt,
          (delivered_congr hreq.sk).trans h.delivered,
          fun hr => (congrArg TcpState.finRcvd hreq.state).trans (h.state hr)⟩
      obtain ⟨hdok, r', l', hrecv', hr, hcov, hgap⟩ := tcpDeliverData_spec hrecv
      have hne : ¬ (tcpTrimInWnd tcb seg).2.stop = (tcpTrimInWnd tcb seg).2.seq := by
        rw [htrim.stop, htrim.seq, numberAt_inj isn htrim.le (by dsimp only; omega)]
        dsimp only
        omega
      have hres : tcpReceive tcb seg =
          tcpDeliverData (tcpQueueData tcb (tcpTrimInWnd tcb seg).2).2 := by
        rw [tcpReceive]
        dsimp only
        rw [hok, if_neg (by decide), if_neg hne, hqok, if_neg (by decide)]
      refine ⟨r', l', ?_⟩
      rw [hres]
      refine ⟨hdok, hrecv', hr, fun i => (hcov i).trans ?_, fun hconn _ => ?_⟩
      · rw [hpts, (insertSpan_spec hq'.within hfresh.lo_le hfresh.lt hfresh.le_hi).2]
        simp only [Span.Mem]
        constructor
        · rintro (hi | hi | hi)
          · exact .inl hi
          · exact .inr (.inr (by omega))
          · exact .inr (.inl hi)
        · rintro (hi | hi | hi)
          · exact .inl hi
          · exact .inr (.inr hi)
          · by_cases hir : i < r
            · exact .inl hir
            · exact .inr (.inl (by omega))
      · exact hgap ((congrArg TcpState.connected hreq.state).trans hconn)

end

/-- What the rest of the stack does between segments: window, flags and state
change, but a `FIN` is only taken from the queue. -/
structure Unrelated (tcb tcb' : TcpCb) : Prop where
  rcvQue : tcb'.rcvQue = tcb.rcvQue
  rcvNxt : tcb'.rcvNxt = tcb.rcvNxt
  sk : tcb'.sk = tcb.sk
  state : tcb'.state.finRcvd = true → tcb.state.finRcvd = true

/-- Receiving the segments of a stream, delivering, and what else happens in between. -/
inductive Run (stream : List Byte) (isn : SeqNo) (tcb : TcpCb) : TcpCb → Prop
  | refl : Run stream isn tcb tcb
  | other {tcb₁ tcb₂ : TcpCb} : Run stream isn tcb tcb₁ → Unrelated tcb₁ tcb₂ →
      Run stream isn tcb tcb₂
  | deliver {tcb₁ : TcpCb} : Run stream isn tcb tcb₁ →
      Run stream isn tcb (tcpDeliverData tcb₁).2
  | receive {tcb₁ : TcpCb} {seg : Segment} {s : Span} : Run stream isn tcb tcb₁ →
      Arrives stream isn tcb₁ seg s → Run stream isn tcb (tcpReceive tcb₁ seg).2

/-- A connection that has received nothing. -/
structure Start (isn : SeqNo) (tcb : TcpCb) : Prop where
  rcvQue : tcb.rcvQue = []
  rcvNxt : tcb.rcvNxt = isn
  received : tcb.sk.received = []
  state : tcb.state.finRcvd = false

theorem receiving_start (h : Start isn tcb) : Receiving stream isn tcb 0 [] where
  rcvQue := h.rcvQue
  queue := ⟨0, Nat.zero_le _, fun p hp => absurd hp not_mem_nil, Nat.le_refl 0, by decide⟩
  rcvNxt := by
    rw [h.rcvNxt, numberAt]
    exact (add_zero isn).symm
  delivered := by
    rw [delivered, h.received]
    rfl
  state := fun _ => h.state

theorem receiving_unrelated (h : Receiving stream isn tcb r l)
    (hsame : Unrelated tcb tcb') : Receiving stream isn tcb' r l where
  rcvQue := hsame.rcvQue.trans h.rcvQue
  queue := h.queue
  rcvNxt := hsame.rcvNxt.trans h.rcvNxt
  delivered := (delivered_congr hsame.sk).trans h.delivered
  state := by
    intro hr
    rw [← Bool.not_eq_true]
    intro hfin
    have := hsame.state hfin
    rw [h.state hr] at this
    cases this

theorem receiving_run (hst : Start isn tcb) (hrun : Run stream isn tcb tcb') :
    ∃ r l, Receiving stream isn tcb' r l := by
  induction hrun with
  | refl => exact ⟨0, [], receiving_start hst⟩
  | other _ hsame ih =>
    obtain ⟨r, l, h⟩ := ih
    exact ⟨r, l, receiving_unrelated h hsame⟩
  | deliver _ ih =>
    obtain ⟨r, l, h⟩ := ih
    obtain ⟨_, r', l', h', _⟩ := tcpDeliverData_spec h
    exact ⟨r', l', h'⟩
  | receive _ hseg ih =>
    obtain ⟨r, l, h⟩ := ih
    obtain ⟨r', l', h'⟩ := tcpReceive_spec h hseg
    exact ⟨r', l', h'.receiving⟩

/-- The queue is sorted by sequence number, counted from `RcvNxt`, and its
segments do not overlap. -/
def InOrder (tcb : TcpCb) : Prop :=
  tcb.rcvQue.Pairwise fun a b =>
    (a.seq - tcb.rcvNxt).toNat < (b.seq - tcb.rcvNxt).toNat ∧
      (a.stop - tcb.rcvNxt).toNat ≤ (b.seq - tcb.rcvNxt).toNat

theorem inOrder_of_receiving (h : Receiving stream isn tcb r l) : InOrder tcb := by
  obtain ⟨hi, hhi, hqueue⟩ := h.queue
  rw [InOrder, h.rcvQue, segments, pairwise_map]
  have hdist : ∀ n, r ≤ n → n ≤ hi → (numberAt isn n - tcb.rcvNxt).toNat = n - r := by
    intro n hlow hhigh
    have hnear := hqueue.near
    rw [h.rcvNxt]
    exact toNat_numberAt_sub isn hlow (by omega)
  refine (pairwise_map.1 hqueue.within.pairwise).imp_of_mem fun {a b} ha hb hab => ?_
  obtain ⟨halo, halt, hahi⟩ := hqueue.mem ha
  obtain ⟨hblo, hblt, hbhi⟩ := hqueue.mem hb
  have hsegA := hqueue.segOf a ha
  have hsegB := hqueue.segOf b hb
  rw [hsegA.seq, hsegA.stop, hsegB.seq, hdist _ halo (by omega),
    hdist _ (by omega) hahi, hdist _ hblo (by omega)]
  omega

/-- In every run the socket has been given a front part of the stream, `RcvNxt`
is its end, and the queue is in order; every segment that arrives then is taken
without error and without loss. -/
theorem stream_delivered_in_order {tcb' : TcpCb} (hstart : Start isn tcb)
    (hrun : Run stream isn tcb tcb') :
    ∃ r l, Receiving stream isn tcb' r l ∧ delivered tcb' = stream.take r ∧
      tcb'.rcvNxt = isn + BitVec.ofNat 32 r ∧ InOrder tcb' ∧
      ∀ seg s, Arrives stream isn tcb' seg s →
        ∃ r' l', Accepted stream isn tcb' s r l (tcpReceive tcb' seg) r' l' := by
  obtain ⟨r, l, h⟩ := receiving_run hstart hrun
  exact ⟨r, l, h, h.delivered, h.rcvNxt, inOrder_of_receiving h,
    fun seg s hseg => tcpReceive_spec h hseg⟩

def newConnection (isn : SeqNo) : TcpCb where
  state := .established
  rcvQue := []
  rcvNxt := isn
  rcvWnd := 4096
  rcvWl2 := isn
  rcvUp := 0
  ackNow := false
  finAcked := false
  rcvdUrg := false
  timeWaitTimeout := 60
  sk := ⟨[], false⟩

def piece (seq : SeqNo) (bytes : List Byte) : Segment where
  nbuf := ⟨[bytes], NetBuffer.blocksSize [bytes] % 2 ^ 32, rfl⟩
  seq := seq
  stop := seq + BitVec.ofNat 32 bytes.length
  syn := false
  fin := false
  psh := false
  urg := false
  urgent := 0

theorem newConnection_start (isn : SeqNo) : Start isn (newConnection isn) :=
  ⟨rfl, rfl, rfl, rfl⟩

/-- Four bytes whose numbers wrap: the end comes first, then a part that overlaps it, then the
beginning, and then a duplicate. -/
def fourBytes : List Segment :=
  [piece 0 [12, 13], piece (-1) [11, 12], piece (-2) [10, 11], piece (-2) [10, 11, 12]]

theorem fourBytes_delivered :
    let tcb := fourBytes.foldl (fun tcb seg => (tcpReceive tcb seg).2) (newConnection (-2))
    delivered tcb = [10, 11, 12, 13] ∧ tcb.rcvNxt = 2 ∧
      ∃ r l, Receiving [10, 11, 12, 13] (-2) tcb r l ∧
        delivered tcb = [10, 11, 12, 13].take r ∧ tcb.rcvNxt = -2 + BitVec.ofNat 32 r ∧
        InOrder tcb ∧ ∀ seg s, Arrives [10, 11, 12, 13] (-2) tcb seg s →
          ∃ r' l', Accepted [10, 11, 12, 13] (-2) tcb s r l (tcpReceive tcb seg) r' l' := by
  have hrun : Run [10, 11, 12, 13] (-2) (newConnection (-2)) _ := .refl
  have hrun := hrun.receive (s := ⟨2, 4⟩) (show Arrives _ _ _ (piece 0 [12, 13]) _ from
    ⟨⟨by decide, by decide, by decide, rfl, rfl, rfl, by decide, rfl⟩, by decide, by decide,
      by decide⟩)
  have hrun := hrun.receive (s := ⟨1, 3⟩) (show Arrives _ _ _ (piece (-1) [11, 12]) _ from
    ⟨⟨by decide, by decide, by decide, rfl, rfl, rfl, by decide, rfl⟩, by decide, by decide,
      by decide⟩)
  have hrun := hrun.receive (s := ⟨0, 2⟩) (show Arrives _ _ _ (piece (-2) [10, 11]) _ from
    ⟨⟨by decide, by decide, by decide, rfl, rfl, rfl, by decide, rfl⟩, by decide, by decide,
      by decide⟩)
  have hrun := hrun.receive (s := ⟨0, 3⟩) (show Arrives _ _ _ (piece (-2) [10, 11, 12]) _ from
    ⟨⟨by decide, by decide, by decide, rfl, rfl, rfl, by decide, rfl⟩, by decide, by decide,
      by decide⟩)
  exact ⟨by decide, by decide, stream_delivered_in_order (newConnection_start _) hrun⟩

def longStream : List Byte :=
  List.replicate (2 ^ 32) 0 ++ [1]

theorem length_longStream : longStream.length = 2 ^ 32 + 1 := by
  rw [longStream, length_append, length_replicate]
  rfl

/-- The byte that is one round of the sequence numbers ahead is taken for the
first one. -/
theorem longStream_wrong_byte :
    Start 0 (newConnection 0) ∧ SegOf longStream 0 (piece 0 [1]) ⟨2 ^ 32, 2 ^ 32 + 1⟩ ∧
      window (newConnection 0) < 2 ^ 31 ∧
      delivered (tcpReceive (newConnection 0) (piece 0 [1])).2 = [1] ∧
      ∀ r, longStream.take r ≠ [1] := by
  refine ⟨newConnection_start 0, ?_, by decide, by decide, fun r hr => ?_⟩
  · refine ⟨by decide, ?_, by decide, by decide, by decide, rfl, ?_, ?_⟩
    · rw [length_longStream]
      exact Nat.le_succ _
    · rw [length_longStream]
      simp [piece]
    · change [1] = _
      rw [slice, longStream, drop_left' length_replicate]
      rfl
  · have hfirst : longStream = 0 :: (replicate (2 ^ 32 - 1) 0 ++ [1]) := rfl
    rw [hfirst] at hr
    cases r with
    | zero => cases hr
    | succ r =>
      rw [take_succ_cons, cons.injEq] at hr
      exact absurd hr.1 (by decide)

end MuBasecore.TcpRuns
