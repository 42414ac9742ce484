import MuBasecore.NetBuffer

/-!
The receive side of TCP in `TcpInput.c`: segments are trimmed to the receive
window, queued in the order of their sequence numbers, and delivered to the
socket when they continue what it has.
-/

namespace MuBasecore.TcpSegments

open NetBuffer

abbrev SeqNo := BitVec 32

/-- `TCP_SEQ_LT` and the other comparisons read the difference as an `INT32`. -/
def seqLt (a b : SeqNo) : Bool := decide ((a - b).toInt < 0)

def seqLeq (a b : SeqNo) : Bool := decide ((a - b).toInt ≤ 0)

def seqGt (a b : SeqNo) : Bool := decide ((b - a).toInt < 0)

structure Segment where
  nbuf : NetBuf
  seq : SeqNo
  stop : SeqNo
  syn : Bool
  fin : Bool
  psh : Bool
  urg : Bool
  urgent : BitVec 16

/-- The data and one number for each of `SYN` and `FIN` have to make up the length. -/
def tcpVerifySegment (seg : Segment) : Bool :=
  seg.seq + BitVec.ofNat 32 (seg.nbuf.totalSize + seg.syn.toNat + seg.fin.toNat) == seg.stop

/-- The urgent pointer of a segment that begins at `left` from now on. -/
def adjustUrgent (seg : Segment) (left : SeqNo) : Segment :=
  if seg.urg then
    if seqLt (seg.seq + seg.urgent.setWidth 32) left then { seg with urg := false }
    else { seg with urgent := (seg.seq + seg.urgent.setWidth 32 - left).setWidth 16 }
  else seg

def trimLeft (seg : Segment) (left : SeqNo) : Segment :=
  if seqLt seg.seq left then
    let drop := left - seg.seq - BitVec.ofNat 32 seg.syn.toNat
    { adjustUrgent seg left with
      seq := left
      syn := false
      nbuf := if drop ≠ 0 then (netbufTrim seg.nbuf drop.toNat true).2 else seg.nbuf }
  else seg

def trimRight (seg : Segment) (right : SeqNo) : Segment :=
  if seqGt seg.stop right then
    let drop := seg.stop - right - BitVec.ofNat 32 seg.fin.toNat
    { seg with
      stop := right
      fin := false
      nbuf := if drop ≠ 0 then (netbufTrim seg.nbuf drop.toNat false).2 else seg.nbuf }
  else seg

/-- `TcpTrimSegment`: whether the segment is in good shape, and what is left of it. -/
def tcpTrimSegment (seg : Segment) (left right : SeqNo) : Bool × Segment :=
  if seqLeq seg.stop left || seqLeq right seg.seq then
    (true, { seg with
      syn := false
      fin := false
      seq := seg.stop
      nbuf := (netbufTrim seg.nbuf seg.nbuf.totalSize true).2 })
  else
    (tcpVerifySegment (trimRight (trimLeft seg left) right), trimRight (trimLeft seg left) right)

/-- The loop of `TcpQueueData` over the segments behind the place of a new one:
whether there was no error, the new segment unless it was removed, and the
segments that stay. -/
def queueLoop (seg : Segment) : List Segment → Bool × Option Segment × List Segment
  | [] => (true, some seg, [])
  | node :: rest =>
    if seqLeq node.stop seg.stop then queueLoop seg rest
    else if seqLt node.seq seg.stop then
      if seqLeq node.seq seg.seq then (true, none, node :: rest)
      else if (tcpTrimSegment seg seg.seq node.seq).1 then
        (true, some (tcpTrimSegment seg seg.seq node.seq).2, node :: rest)
      else (false, none, node :: rest)
    else ((queueLoop seg rest).1, (queueLoop seg rest).2.1, node :: (queueLoop seg rest).2.2)

inductive PrevResult
  | covered
  | broken
  | trimmed (seg : Segment)

def trimToPrev (prev : Option Segment) (seg : Segment) : PrevResult :=
  match prev with
  | none => .trimmed seg
  | some node =>
    if seqLt seg.seq node.stop then
      if seqLeq seg.stop node.stop then .covered
      else if (tcpTrimSegment seg node.stop seg.stop).1 then
        .trimmed (tcpTrimSegment seg node.stop seg.stop).2
      else .broken
    else .trimmed seg

inductive TcpState
  | closed
  | listen
  | synSent
  | synRcvd
  | established
  | finWait1
  | finWait2
  | closing
  | timeWait
  | closeWait
  | lastAck
deriving DecidableEq

/-- `TCP_CONNECTED`: the states behind `TCP_SYN_RCVD`. -/
def TcpState.connected : TcpState → Bool
  | .closed | .listen | .synSent | .synRcvd => false
  | _ => true

/-- `TCP_FIN_RCVD`. -/
def TcpState.finRcvd : TcpState → Bool
  | .closeWait | .lastAck | .closing | .timeWait => true
  | _ => false

/-- What the socket was given so far: the buffers of `SockDataRcvd` in their
order, each with the length of its urgent data, and the call of `SockNoMoreData`. -/
structure Socket where
  received : List (NetBuf × Nat)
  noMoreData : Bool

structure TcpCb where
  state : TcpState
  rcvQue : List Segment
  rcvNxt : SeqNo
  rcvWnd : BitVec 32
  rcvWl2 : SeqNo
  rcvUp : SeqNo
  ackNow : Bool
  finAcked : Bool
  rcvdUrg : Bool
  timeWaitTimeout : Nat
  sk : Socket

def tcpTrimInWnd (tcb : TcpCb) (seg : Segment) : Bool × Segment :=
  tcpTrimSegment seg tcb.rcvNxt (tcb.rcvWl2 + tcb.rcvWnd)

/-- `TcpQueueData`: false for an error. -/
def tcpQueueData (tcb : TcpCb) (seg : Segment) : Bool × TcpCb :=
  if tcb.rcvQue.isEmpty then (true, { tcb with rcvQue := [seg] })
  else
    let front := tcb.rcvQue.takeWhile fun node => !seqLt seg.seq node.seq
    let back := tcb.rcvQue.dropWhile fun node => !seqLt seg.seq node.seq
    match trimToPrev front.getLast? seg with
    | .covered => (true, tcb)
    | .broken => (false, tcb)
    | .trimmed seg =>
      ((queueLoop seg back).1, { tcb with
        ackNow := true
        rcvQue := front ++ ((queueLoop seg back).2.1.toList ++ (queueLoop seg back).2.2) })

/-- The state after a `FIN` in sequence, if it is not junk; a connection whose
`TIME_WAIT` timer is disabled is closed at once. -/
def finState (tcb : TcpCb) : Option TcpState :=
  match tcb.state with
  | .synRcvd | .established => some .closeWait
  | .finWait1 =>
    if tcb.finAcked then some (if tcb.timeWaitTimeout ≠ 0 then .timeWait else .closed)
    else some .closing
  | .finWait2 => some (if tcb.timeWaitTimeout ≠ 0 then .timeWait else .closed)
  | .closeWait | .closing | .lastAck | .timeWait => none
  | .closed | .listen | .synSent => some tcb.state

def urgentLen (tcb : TcpCb) (seg : Segment) : Nat :=
  if tcb.rcvdUrg && seqLeq seg.seq tcb.rcvUp then
    if seqLeq seg.stop tcb.rcvUp then seg.nbuf.totalSize
    else (tcb.rcvUp - seg.seq + 1).toNat
  else 0

def deliverSegment (tcb : TcpCb) (seg : Segment) : TcpCb :=
  let sk := if seg.nbuf.totalSize ≠ 0 then
      { tcb.sk with received := tcb.sk.received ++ [(seg.nbuf, urgentLen tcb seg)] }
    else tcb.sk
  { tcb with
    ackNow := tcb.ackNow || seg.psh
    sk := { sk with noMoreData := sk.noMoreData || tcb.state.finRcvd } }

/-- The loop of `TcpDeliverData` over the queue; false for a connection that has
to be reset. -/
def deliverLoop : List Segment → TcpCb → Bool × TcpCb
  | [], tcb => (true, { tcb with rcvQue := [] })
  | seg :: rest, tcb =>
    if tcpVerifySegment seg = false then (false, { tcb with rcvQue := seg :: rest })
    else if seqGt seg.seq tcb.rcvNxt then (true, { tcb with rcvQue := seg :: rest })
    else if seg.fin then
      if rest.isEmpty = false then (false, { tcb with rcvQue := rest, rcvNxt := seg.stop })
      else
        match finState tcb with
        | none => (false, { tcb with rcvQue := rest, rcvNxt := seg.stop })
        | some state =>
          deliverLoop rest (deliverSegment
            { tcb with rcvNxt := seg.stop, state := state, ackNow := true }
            { seg with stop := seg.stop - 1 })
    else deliverLoop rest (deliverSegment { tcb with rcvNxt := seg.stop } seg)

def tcpDeliverData (tcb : TcpCb) : Bool × TcpCb :=
  if tcb.rcvQue.isEmpty || !tcb.state.connected then (true, tcb)
  else deliverLoop tcb.rcvQue tcb

/-- The steps of `TcpInput` that a segment without errors goes through: only a
segment of which something is left in the window is queued. -/
def tcpReceive (tcb : TcpCb) (seg : Segment) : Bool × TcpCb :=
  let trimmed := tcpTrimInWnd tcb seg
  if trimmed.1 = false then (false, tcb)
  else if trimmed.2.stop = trimmed.2.seq then (true, tcb)
  else
    let queued := tcpQueueData tcb trimmed.2
    if queued.1 = false then queued else tcpDeliverData queued.2

end MuBasecore.TcpSegments
