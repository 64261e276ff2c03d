import MichCore.TcpCc
import MichCore.TcpReceive

/-!
# A whole TCP connection

The rest of a `tcp_connection` of `net/tcp.c` around the receiving side. Each function is the
part of a source function that runs on one connection, once it was found; what it reads of the
context is its `Env`. It says which deadlines it pushes and what it sends.

The text of a segment is kept as the parser of the peer reads it: the option bytes are the
segment size, the SACK permission and the SACK blocks.
-/
namespace MichCore.Tcp

abbrev Address6 := Vector UInt8 16

/-- What `tcp_parse` finds in a segment, SACK blocks included. -/
structure Segment extends SegmentView where
  sackBlocks : List (UInt32 × UInt32)
  deriving DecidableEq, Repr

/-- A segment that was sent and is kept until it is acknowledged. -/
structure Retransmission where
  sequence : UInt32
  endSequence : UInt32
  deadline : UInt32
  sentAt : UInt32
  flags : Flags
  retries : ℕ
  retransmitted : Bool
  fastRetransmit : Bool
  data : List UInt8
  deriving DecidableEq, Repr

/-- Pages lent for sending. They are pinned and not written to, so a loan is the bytes in them;
`offset` is where the bytes start. -/
structure Loan where
  bytes : List UInt8
  offset : ℕ
  position : ℕ
  deriving DecidableEq, Repr

def Loan.spanned (l : Loan) : ℕ := (l.offset + l.bytes.length + 4095) / 4096 - l.offset / 4096

/-- The bytes of a loan that were not sent yet. -/
def Loan.rest (l : Loan) : List UInt8 := l.bytes.drop l.position

inductive TimerKind where
  | retransmit
  | persist
  | timeWait
  | ackFilter
  deriving DecidableEq, Repr

/-- A deadline to push; `entry` is 0 but for retransmissions. -/
structure Timer where
  kind : TimerKind
  entry : Fin 8
  deadline : UInt32
  deriving DecidableEq, Repr

structure Endpoint extends Connection where
  localAddress6 : Address6
  remoteAddress6 : Address6
  receiveWindow : UInt16
  congestion : Congestion
  retransmissionTimeout : UInt32
  smoothedRtt : UInt32
  rttVariance : UInt32
  duplicateAcks : UInt32
  persistDeadline : UInt32
  persistInterval : UInt32
  timeWaitDeadline : UInt32
  sendFin : Bool
  sendBuffer : List UInt8
  sendBufferOffset : ℕ
  loans : List Loan
  timerVersion : UInt32
  ackFilterUntil : UInt32
  ackPending : Bool
  pmtuBlackholeRtos : UInt32
  retransmissions : Fin 8 → Option Retransmission

/-- What a connection reads of its context. -/
structure Env where
  ops : CcOps
  now : UInt32
  mss : UInt32
  ackFilter : Bool
  timerEpoch : UInt32

/-- A `tcp_transmit`: where it goes and the segment to build. -/
structure Transmit where
  connectionId : UInt64
  family : Family
  sourceAddress : UInt32
  destinationAddress : UInt32
  sourceAddress6 : Address6
  destinationAddress6 : Address6
  retransmission : Bool
  segment : Segment
  deriving DecidableEq

/-- What an incoming segment does to a connection, with the answer and the deadlines. -/
structure Reaction where
  endpoint : Endpoint
  response : Option Segment
  timers : List Timer

/-- What a call that may send does; the answer of the source is 1 when there is a segment. -/
structure Sending where
  endpoint : Endpoint
  transmit : Option Transmit
  timers : List Timer

/-- `refresh_receive_window` -/
def Receiver.windowSpace (r : Receiver) : UInt16 :=
  let space := 16384 - r.buffer.length + r.grantSpace
  if 65535 < space then 65535 else UInt16.ofNat space

def ackFlags : Flags := ⟨false, false, false, true⟩
def synFlags : Flags := ⟨false, true, false, false⟩
def synAckFlags : Flags := ⟨false, true, false, true⟩
def finAckFlags : Flags := ⟨true, false, false, true⟩
def rstAckFlags : Flags := ⟨false, false, true, true⟩

/-- The sequence numbers a segment takes. -/
def Flags.span (f : Flags) : UInt32 := (if f.syn then 1 else 0) + (if f.fin then 1 else 0)

/-- Insertion into a list that is sorted by the first number, unsigned. -/
def insertBlock (b : UInt32 × UInt32) : List (UInt32 × UInt32) → List (UInt32 × UInt32)
  | [] => [b]
  | x :: xs => if b.1 < x.1 then b :: x :: xs else x :: insertBlock b xs

/-- The second loop of `write_sack`: touching ranges are joined and the last two blocks are
kept. The bounds are compared signed, the ends unsigned. -/
def joinBlocks : List (UInt32 × UInt32) → List (UInt32 × UInt32) → List (UInt32 × UInt32)
  | blocks, [] => blocks
  | blocks, (left, right) :: xs =>
    match blocks.getLast? with
    | some b =>
      if ¬ sequenceAfter left b.2 then
        joinBlocks (blocks.dropLast ++ [(b.1, if b.2 < right then right else b.2)]) xs
      else if blocks.length < 2 then joinBlocks (blocks ++ [(left, right)]) xs
      else joinBlocks [b, (left, right)] xs
    | none => joinBlocks [(left, right)] xs

/-- `write_sack`; two blocks fit in every option field it is called with. -/
def Receiver.writeSack (r : Receiver) : List (UInt32 × UInt32) :=
  let ranges := (List.finRange 8).filterMap (fun i =>
    match r.outOfOrder i with
    | some e =>
      let last := e.sequence + UInt32.ofNat e.data.length + (if e.flags.fin then 1 else 0)
      if sequenceBefore last r.receiveNext then none else some (e.sequence, last)
    | none => none)
  joinBlocks [] (ranges.foldl (fun sorted b => insertBlock b sorted) [])

/-- The segment size a SYN offers: what the tables can hold, and at least 46. -/
def Env.localMss (env : Env) : UInt16 :=
  if env.mss = 0 ∨ 1460 < env.mss then 1460 else if env.mss < 46 then 46 else env.mss.toUInt16

namespace Endpoint

def response (c : Endpoint) (flags : Flags) : Segment where
  sourcePort := c.localPort
  destinationPort := c.remotePort
  sequence := c.sendNext
  acknowledgement := c.receiver.receiveNext
  flags := flags
  window := c.receiveWindow
  mss := 0
  sackPermitted := false
  payload := []
  sackBlocks := []

/-- An ACK with the SACK blocks of the reassembly table. -/
def sackResponse (c : Endpoint) : Segment :=
  { c.response ackFlags with sackBlocks := if c.peerSack then c.receiver.writeSack else [] }

def fillTransmit (env : Env) (c : Endpoint) (id : UInt64) (sequence : UInt32) (flags : Flags)
    (data : List UInt8) (retransmission : Bool) : Transmit where
  connectionId := id
  family := c.family
  sourceAddress := c.localAddress
  destinationAddress := c.remoteAddress
  sourceAddress6 := c.localAddress6
  destinationAddress6 := c.remoteAddress6
  retransmission := retransmission
  segment := {
    sourcePort := c.localPort
    destinationPort := c.remotePort
    sequence := sequence
    acknowledgement := c.receiver.receiveNext
    flags := flags
    window := c.receiveWindow
    mss := if flags.syn then env.localMss else 0
    sackPermitted := flags.syn
    payload := data
    sackBlocks := if flags.syn = false ∧ c.peerSack then c.receiver.writeSack else [] }

def setEntry (c : Endpoint) (i : Fin 8) (e : Option Retransmission) : Endpoint :=
  { c with retransmissions := Function.update c.retransmissions i e }

def firstFree (c : Endpoint) : Option (Fin 8) :=
  (List.finRange 8).find? (fun i => (c.retransmissions i).isNone)

def firstActive (c : Endpoint) : Option (Fin 8) :=
  (List.finRange 8).find? (fun i => (c.retransmissions i).isSome)

/-- `track_retransmission`; the callers never pass more than an entry holds. -/
def trackRetransmission (c : Endpoint) (now sequence : UInt32) (flags : Flags)
    (data : List UInt8) : Option (Endpoint × Timer) :=
  match c.firstFree with
  | none => none
  | some i =>
    let deadline := now + c.retransmissionTimeout
    some (c.setEntry i (some {
        sequence := sequence
        endSequence := sequence + UInt32.ofNat data.length + flags.span
        deadline := deadline
        sentAt := now
        flags := flags
        retries := 0
        retransmitted := false
        fastRetransmit := false
        data := data }), ⟨.retransmit, i, deadline⟩)

def updateRtt (c : Endpoint) (sample : UInt32) : Endpoint :=
  let sample := if sample = 0 then 1 else sample
  let smoothed := if c.smoothedRtt = 0 then sample else (c.smoothedRtt * 7 + sample) / 8
  let variance :=
    if c.smoothedRtt = 0 then sample / 2
    else
      let difference :=
        if sample < c.smoothedRtt then c.smoothedRtt - sample else sample - c.smoothedRtt
      (c.rttVariance * 3 + difference) / 4
  let rto := smoothed.toNat + variance.toNat * 4
  { c with
    smoothedRtt := smoothed
    rttVariance := variance
    retransmissionTimeout := UInt32.ofNat (max 20 (min 6400 rto)) }

/-- `rt_sample` -/
def rttSample (env : Env) (c : Endpoint) (sample : UInt32) : Endpoint :=
  let c := c.updateRtt sample
  { c with
    congestion := env.ops.onRtt c.remoteMss c.congestion sample
      (c.sendNext - c.sendUnacknowledged) env.now }

/-- The SACK block reaches over the whole entry. -/
def Sacks (block : UInt32 × UInt32) (e : Retransmission) : Prop :=
  ¬ sequenceBefore e.sequence block.1 ∧ ¬ sequenceAfter e.endSequence block.2
  deriving Decidable

/-- Some block retires the entry. -/
def Sacked (blocks : List (UInt32 × UInt32)) (e : Retransmission) : Prop :=
  ∃ block ∈ blocks, Sacks block e
  deriving Decidable

/-- The bytes of the entries that `retired` marks. -/
def retiredBytes (c : Endpoint) (retired : Retransmission → Bool) : UInt32 :=
  ((List.finRange 8).map (fun i =>
    match c.retransmissions i with
    | some e => if retired e then UInt32.ofNat e.data.length else 0
    | none => 0)).foldr (· + ·) 0

/-- The loop over the SACK blocks. No entry is retired twice, so the order of the blocks
and the entries does not matter. -/
def retireSacked (c : Endpoint) (blocks : List (UInt32 × UInt32)) : Endpoint :=
  { c with
    retransmissions := fun i => (c.retransmissions i).filter (fun e => ¬ Sacked blocks e)
    congestion := { c.congestion with
      bbrDelivered := c.congestion.bbrDelivered + c.retiredBytes (fun e => Sacked blocks e) } }

/-- One turn of the loop over the entries a cumulative acknowledgement reaches, as far as
the round-trip estimate goes. -/
def sampleEntry (env : Env) (acknowledgement : UInt32) (c : Endpoint) (i : Fin 8) : Endpoint :=
  match c.retransmissions i with
  | some e =>
    if sequenceAfter e.endSequence acknowledgement ∨ e.retransmitted ∨ env.now < e.sentAt then c
    else c.rttSample env (env.now - e.sentAt)
  | none => c

/-- The cumulative branch of `acknowledge`. -/
def acknowledgeNew (env : Env) (c : Endpoint) (acknowledgement : UInt32) : Endpoint :=
  let advance := acknowledgement - c.sendUnacknowledged
  let c := { c with
    sendUnacknowledged := acknowledgement, duplicateAcks := 0, pmtuBlackholeRtos := 0 }
  let c := (List.finRange 8).foldl (sampleEntry env acknowledgement) c
  { c with
    retransmissions := fun i =>
      (c.retransmissions i).filter (fun e => sequenceAfter e.endSequence acknowledgement)
    congestion := env.ops.onAck c.remoteMss c.congestion advance
      (c.sendNext - c.sendUnacknowledged) env.now }

/-- The third duplicate marks the first entry for a resend at once. -/
def fastRetransmit (env : Env) (c : Endpoint) : Endpoint × List Timer :=
  let c := { c with
    congestion := env.ops.onFastRetransmit c.remoteMss c.congestion c.duplicateAcks }
  match c.firstActive with
  | none => (c, [])
  | some i =>
    (c.setEntry i ((c.retransmissions i).map
      (fun e => { e with fastRetransmit := true, deadline := env.now })),
      [⟨.retransmit, i, env.now⟩])

/-- The acknowledgement covers something new, and nothing that was not sent. -/
def AckValid (c : Endpoint) (acknowledgement : UInt32) : Prop :=
  sequenceAfter acknowledgement c.sendUnacknowledged ∧
    ¬ sequenceAfter acknowledgement c.sendNext
  deriving Decidable

/-- One more acknowledgement of what is acknowledged already. -/
def acknowledgeAgain (env : Env) (c : Endpoint) : Endpoint × List Timer :=
  let c := { c with duplicateAcks := c.duplicateAcks + 1 }
  if c.duplicateAcks = 3 then c.fastRetransmit env else (c, [])

def acknowledge (env : Env) (c : Endpoint) (s : Segment) : Endpoint × List Timer :=
  let c := c.retireSacked s.sackBlocks
  if c.AckValid s.acknowledgement then (c.acknowledgeNew env s.acknowledgement, [])
  else if s.acknowledgement = c.sendUnacknowledged then c.acknowledgeAgain env
  else (c, [])

def enter (c : Endpoint) (state : TcpState) : Endpoint := { c with state := state }

/-- The slot is given up: ids and queued deadlines of it go stale. -/
def retire (env : Env) (c : Endpoint) : Endpoint :=
  { c with toConnection := c.toConnection.retire, timerVersion := env.timerEpoch }

/-- `data_ack`; the filter holds plain ACKs back for one round trip. -/
def dataAck (env : Env) (c : Endpoint) (fin : Bool) : Reaction :=
  if env.ackFilter ∧ fin = false ∧ c.ackFilterUntil ≠ 0 ∧ env.now < c.ackFilterUntil then
    ⟨{ c with ackPending := true }, none, []⟩
  else if env.ackFilter ∧ fin = false then
    let until_ := env.now + if c.smoothedRtt ≠ 0 then c.smoothedRtt else 100
    ⟨{ c with ackFilterUntil := until_ }, some c.sackResponse, [⟨.ackFilter, 0, until_⟩]⟩
  else ⟨c, some c.sackResponse, []⟩

/-- `input_payload`; each append that succeeds refreshes the window that is offered. -/
def inputPayload (env : Env) (c : Endpoint) (s : Segment) : PayloadResult × Reaction :=
  let out := c.receiver.inputPayload s.toSegmentView
  let inOrder := s.sequence = c.receiver.receiveNext
  let taken := { c with
    receiver := out.2
    receiveWindow :=
      if inOrder ∧ out.1 ≠ .rejected then out.2.windowSpace else c.receiveWindow }
  if out.1 = .rejected then (out.1, ⟨taken, some (taken.response ackFlags), []⟩)
  else if ¬ inOrder then (out.1, ⟨taken, some taken.sackResponse, []⟩)
  else if s.payload ≠ [] ∨ s.flags.fin then (out.1, taken.dataAck env s.flags.fin)
  else (out.1, ⟨taken, none, []⟩)

/-- `enter_time_wait`; `TCP_TIME_WAIT_TICKS` is 6000. -/
def enterTimeWait (env : Env) (c : Endpoint) : Endpoint × Timer :=
  let deadline := env.now + 6000
  ({ c with state := .timeWait, timeWaitDeadline := deadline }, ⟨.timeWait, 0, deadline⟩)

/-- The states that wait for the peer after our FIN. -/
def inputFinWait (env : Env) (c : Endpoint) (s : Segment) : Reaction :=
  let c :=
    if c.state = .finWait1 ∧ c.ourFinAcked s.toSegmentView then c.enter .finWait2 else c
  let out := c.inputPayload env s
  if out.1 = .fin then
    if out.2.endpoint.state = .finWait2 then
      let waiting := out.2.endpoint.enterTimeWait env
      { out.2 with endpoint := waiting.1, timers := out.2.timers ++ [waiting.2] }
    else { out.2 with endpoint := out.2.endpoint.enter .closing }
  else out.2

/-- `none` when the segment is not consumed as a closing-state event. -/
def inputClosing (env : Env) (c : Endpoint) (s : Segment) : Option Reaction :=
  match c.state with
  | .closeWait => some ⟨c, none, []⟩
  | .timeWait => some ⟨c, if s.flags.fin then some (c.response ackFlags) else none, []⟩
  | .lastAck =>
    some ⟨if c.ourFinAcked s.toSegmentView then (c.retire env).enter .closed else c, none, []⟩
  | .closing =>
    if c.ourFinAcked s.toSegmentView then
      let waiting := c.enterTimeWait env
      some ⟨waiting.1, none, [waiting.2]⟩
    else some ⟨c, none, []⟩
  | .finWait1 => some (c.inputFinWait env s)
  | .finWait2 => some (c.inputFinWait env s)
  | _ => none

/-- What the head of `tcp_input` records from every segment but a reset. -/
def note (c : Endpoint) (s : Segment) : Endpoint :=
  { c with toConnection := c.toConnection.note s.toSegmentView }

/-- A reset is taken at `receive_next` only, or in answer to our SYN. -/
def AcceptsReset (c : Endpoint) (s : Segment) : Prop :=
  if c.state = .synSent then s.flags.ack ∧ s.acknowledgement = c.sendNext
  else s.sequence = c.receiver.receiveNext
  deriving Decidable

def inputReset (env : Env) (c : Endpoint) (s : Segment) : Bool × Reaction :=
  if c.AcceptsReset s then
    let closed := { c with
      state := .closed, error := -104, receiver := { c.receiver with eof := true } }
    (true, ⟨if c.detached then closed.retire env else closed, none, []⟩)
  else (false, ⟨c, if c.state = .established then some (c.response ackFlags) else none, []⟩)

/-- The state dispatch of `tcp_input`, after the acknowledgement. -/
def inputState (env : Env) (c : Endpoint) (s : Segment) : Bool × Reaction :=
  if c.state = .synSent ∧ s.flags.syn ∧ s.flags.ack ∧ s.acknowledgement = c.sendNext then
    let c := { c with
      receiver := { c.receiver with receiveNext := s.sequence + 1 }
      sendUnacknowledged := s.acknowledgement
      state := .established }
    (true, ⟨c, some (c.response ackFlags), []⟩)
  else if c.state = .synReceived ∧ s.flags.ack ∧ s.acknowledgement = c.sendNext then
    (true, ⟨{ c with sendUnacknowledged := s.acknowledgement, state := .established }, none, []⟩)
  else
    match c.inputClosing env s with
    | some reaction => (true, reaction)
    | none =>
      if c.state = .established then
        let out := c.inputPayload env s
        (out.1 ≠ .rejected,
          if out.1 = .fin then { out.2 with endpoint := out.2.endpoint.enter .closeWait }
          else out.2)
      else (false, ⟨c, none, []⟩)

/-- `tcp_input`: the return code, the connection, the answer and the deadlines. -/
def tcpInput (env : Env) (c : Endpoint) (s : Segment) : Bool × Reaction :=
  if s.flags.rst then c.inputReset env s
  else
    let acked := if s.flags.ack then (c.note s).acknowledge env s else (c.note s, [])
    let out := acked.1.inputState env s
    (out.1, { out.2 with timers := acked.2 ++ out.2.timers })

/-- The send buffer takes bytes in these states. -/
def Sends (c : Endpoint) : Prop := c.state = .established ∨ c.state = .closeWait
  deriving Decidable

/-- `tcp_queue_send`; `TCP_SEND_BUFFER_MAX` is 16384. -/
def queueSend (c : Endpoint) (data : List UInt8) : Bool × Endpoint :=
  if c.sendFin ∨ c.loans ≠ [] ∨ ¬ c.Sends ∨ data = [] ∨
      16384 - c.sendBuffer.length < data.length then
    (false, c)
  else (true, { c with sendBuffer := c.sendBuffer ++ data })

/-- `tcp_queue_send_pages` of `bytes` at `offset` in a resource of `pages` pages; `live` and
`pinned` are its answers. At most `TCP_SEND_LOAN_MAX` loans over at most
`TCP_SEND_LOAN_PAGES_MAX` pages. -/
def queueSendPages (c : Endpoint) (pages offset : ℕ) (bytes : List UInt8)
    (live pinned : Bool) : Bool × Endpoint :=
  let loan : Loan := ⟨bytes, offset, 0⟩
  if live = false ∨ c.sendFin ∨ ¬ c.Sends ∨ bytes = [] ∨ pages * 4096 ≤ offset ∨
      pages * 4096 - offset < bytes.length ∨ c.sendBufferOffset < c.sendBuffer.length ∨
      8 ≤ c.loans.length ∨ 256 - (c.loans.map Loan.spanned).sum < loan.spanned ∨
      pinned = false then
    (false, c)
  else (true, { c with loans := c.loans ++ [loan] })

/-- `tcp_queue_receive_pages` -/
def queueReceivePages (c : Endpoint) (pages offset length : ℕ) (live pinned : Bool) :
    Bool × Endpoint :=
  let out := c.toConnection.queueReceivePages pages offset length live pinned
  (out.1, { c with
    toConnection := out.2
    receiveWindow := if out.1 then out.2.receiver.windowSpace else c.receiveWindow })

/-- `tcp_receive_data` -/
def receiveData (c : Endpoint) (capacity : ℕ) : Option (ℕ × List UInt8) × Endpoint :=
  let out := c.toConnection.receiveData capacity
  (out.1, { c with
    toConnection := out.2
    receiveWindow :=
      if capacity = 0 ∨ c.receiver.buffer = [] then c.receiveWindow
      else out.2.receiver.windowSpace })

/-- Where the next bytes come from: what is left there, where it starts, where the source ends,
whether another follows, and how far one segment may reach. -/
structure Source where
  data : List UInt8
  position : ℕ
  total : ℕ
  moreAfter : Bool
  within : Option ℕ

/-- The buffer comes first, then the first loan. -/
def source (c : Endpoint) : Option Source :=
  if c.sendBufferOffset < c.sendBuffer.length then
    some ⟨c.sendBuffer.drop c.sendBufferOffset, c.sendBufferOffset, c.sendBuffer.length,
      c.loans ≠ [], none⟩
  else
    match c.loans with
    | [] => none
    | l :: ls =>
      some ⟨l.rest, l.position, l.bytes.length, ls ≠ [],
        some (4096 - (l.offset + l.position) % 4096)⟩

/-- Bytes wait to be sent. -/
def Pending (c : Endpoint) : Prop := c.sendBufferOffset < c.sendBuffer.length ∨ c.loans ≠ []
  deriving Decidable

/-- Step over bytes that were put into a segment. -/
def consume (c : Endpoint) (length : ℕ) : Endpoint :=
  if c.sendBufferOffset < c.sendBuffer.length then
    if c.sendBufferOffset + length = c.sendBuffer.length then
      { c with sendBuffer := [], sendBufferOffset := 0 }
    else { c with sendBufferOffset := c.sendBufferOffset + length }
  else
    match c.loans with
    | [] => c
    | l :: ls =>
      if l.position + length = l.bytes.length then { c with loans := ls }
      else { c with loans := { l with position := l.position + length } :: ls }

/-- The state after our FIN went out. -/
def finState (c : Endpoint) : TcpState :=
  if c.state = .established then .finWait1 else .lastAck

/-- A SYN goes out unless one is already in the table. -/
def prepareSyn (env : Env) (c : Endpoint) (id : UInt64) : Sending :=
  if c.firstActive.isSome then ⟨c, none, []⟩
  else
    match c.trackRetransmission env.now c.sendUnacknowledged synFlags [] with
    | none => ⟨c, none, []⟩
    | some (c, timer) =>
      ⟨c, some (c.fillTransmit env id c.sendUnacknowledged synFlags [] false), [timer]⟩

/-- A FIN of its own, when nothing is left to send. -/
def prepareFin (env : Env) (c : Endpoint) (id : UInt64) : Sending :=
  if c.sendFin = false then ⟨c, none, []⟩
  else
    match c.trackRetransmission env.now c.sendNext finAckFlags [] with
    | none => ⟨c, none, []⟩
    | some (c, timer) =>
      ⟨{ c with sendNext := c.sendNext + 1, state := c.finState },
        some (c.fillTransmit env id c.sendNext finAckFlags [] false), [timer]⟩

/-- The peer or the congestion window leaves this much. -/
def limit (c : Endpoint) : UInt32 :=
  if c.sendWindow < c.congestion.congestionWindow then c.sendWindow
  else c.congestion.congestionWindow

def flight (c : Endpoint) : UInt32 := c.sendNext - c.sendUnacknowledged

/-- The number of bytes of the next segment. -/
def segmentLength (c : Endpoint) (src : Source) : ℕ :=
  let length := min (min src.data.length c.remoteMss.toNat) (min 1460 (c.limit - c.flight).toNat)
  match src.within with
  | some within => min length within
  | none => length

/-- A segment of `length` bytes from the source, with the FIN when they are the last. -/
def prepareData (env : Env) (c : Endpoint) (id : UInt64) (src : Source) (length : ℕ) : Sending :=
  let last := c.sendFin && !src.moreAfter && src.position + length == src.total
  let flags : Flags := ⟨last, false, false, true⟩
  let data := src.data.take length
  if length = 0 then ⟨c, none, []⟩
  else
    match c.trackRetransmission env.now c.sendNext flags data with
    | none => ⟨c, none, []⟩
    | some (tracked, timer) =>
      let moved := { tracked with
        sendNext := c.sendNext + UInt32.ofNat length + (if last then 1 else 0) }
      let moved := moved.consume length
      ⟨if last then moved.enter c.finState else moved,
        some (tracked.fillTransmit env id c.sendNext flags data false), [timer]⟩

/-- `tcp_prepare_transmit` -/
def prepareTransmit (env : Env) (c : Endpoint) (id : UInt64) : Sending :=
  if c.state = .synSent then c.prepareSyn env id
  else if ¬ c.Sends then ⟨c, none, []⟩
  else
    match c.source with
    | none => c.prepareFin env id
    | some src =>
      if c.sendWindow = 0 then
        if c.persistDeadline = 0 then
          let deadline := env.now + c.persistInterval
          ⟨{ c with persistDeadline := deadline }, none, [⟨.persist, 0, deadline⟩]⟩
        else ⟨c, none, []⟩
      else
        let c := { c with persistDeadline := 0, persistInterval := 100 }
        if c.limit ≤ c.flight then ⟨c, none, []⟩
        else c.prepareData env id src (c.segmentLength src)

/-- `tcp_shutdown`: 1 while bytes are pending, 0 when the FIN went out, and -1. -/
def shutdown (env : Env) (c : Endpoint) (id : UInt64) : ℤ × Sending :=
  if c.sendFin ∨ ¬ c.Sends then (-1, ⟨c, none, []⟩)
  else
    let c := { c with sendFin := true }
    if c.Pending then (1, ⟨c, none, []⟩)
    else
      let out := c.prepareTransmit env id
      (if out.transmit.isSome then 0 else -1, out)

def releaseLoans (c : Endpoint) : Endpoint := { c with loans := [] }

def releaseGrants (c : Endpoint) : Endpoint :=
  { c with receiver := { c.receiver with grants := [] } }

/-- The end of `tcp_close`. -/
def close (env : Env) (c : Endpoint) : Endpoint :=
  let c := c.releaseLoans.releaseGrants
  (c.retire env).enter .closed

/-- `tcp_abort` -/
def abort (c : Endpoint) (error : ℤ) : Endpoint :=
  let c := c.releaseLoans.releaseGrants
  { c with
    state := .closed
    error := error
    receiver := { c.receiver with eof := true }
    retransmissions := fun _ => none
    ackPending := false }

def markDetached (c : Endpoint) : Endpoint := { c with detached := true }

def markAccepted (c : Endpoint) : Endpoint := { c with accepted := true, parentListener := 0 }

def setBacklog (c : Endpoint) (backlog : ℕ) : Endpoint := { c with listenBacklog := backlog }

def clearError (c : Endpoint) : Endpoint := { c with error := 0 }

def pmtuOverhead (family : Family) : ℕ := if family = .ipv6 then 60 else 40

/-- The peer of the connection has this address. -/
def HasPeer (c : Endpoint) (family : Family) (address4 : UInt32) (address6 : Address6) : Prop :=
  c.active ∧ c.family = family ∧
    if family = .ipv4 then c.remoteAddress = address4 else c.remoteAddress6 = address6
  deriving Decidable

/-- The part of `tcp_clamp_pmtu` on one connection. -/
def clampPmtu (c : Endpoint) (family : Family) (address4 : UInt32) (address6 : Address6)
    (ipMtu : ℕ) : Endpoint :=
  let mss := min 1460 (max 46 (ipMtu - pmtuOverhead family))
  if family ≠ .none ∧ 68 ≤ ipMtu ∧ c.HasPeer family address4 address6 ∧
      mss < c.remoteMss.toNat then
    { c with remoteMss := UInt16.ofNat mss }
  else c

def blackholeNextMtu (c : Endpoint) : ℕ :=
  if c.family = .ipv6 then 1280
  else if 1280 < c.remoteMss.toNat + pmtuOverhead c.family then 1280 else 576

/-- `resegment_to_mss`: the tail of the newest segment goes back into the send buffer. -/
def resegmentToMss (c : Endpoint) (i : Fin 8) : Endpoint :=
  match c.retransmissions i with
  | none => c
  | some e =>
    let keep := c.remoteMss.toNat
    let leftover := e.data.length - keep
    if e.data.length ≤ keep ∨ c.loans ≠ [] ∨ c.sendNext ≠ e.endSequence ∨
        16384 - c.sendBuffer.length < leftover then c
    else
      { c.setEntry i (some { e with
          data := e.data.take keep
          flags := { e.flags with fin := false }
          endSequence := e.sequence + UInt32.ofNat keep }) with
        sendBuffer := c.sendBuffer.take c.sendBufferOffset ++ e.data.drop keep ++
          c.sendBuffer.drop c.sendBufferOffset
        sendFin := c.sendFin || e.flags.fin
        sendNext := c.sendNext - (if e.flags.fin then 1 else 0) - UInt32.ofNat leftover }

/-- `maybe_blackhole`, with the path MTU it settles on when it lowers it. -/
def maybeBlackhole (c : Endpoint) (i : Fin 8) : Endpoint × Option ℕ :=
  match c.retransmissions i with
  | none => (c, none)
  | some e =>
    if e.data = [] ∨ e.data.length < c.remoteMss.toNat then
      ({ c with pmtuBlackholeRtos := 0 }, none)
    else
      let next := c.blackholeNextMtu
      if c.remoteMss.toNat ≤ next - pmtuOverhead c.family then (c, none)
      else
        let c := { c with pmtuBlackholeRtos := c.pmtuBlackholeRtos + 1 }
        if c.pmtuBlackholeRtos < 2 then (c, none)
        else
          let c := c.clampPmtu c.family c.remoteAddress c.remoteAddress6 next
          ({ c.resegmentToMss i with pmtuBlackholeRtos := 0 }, some next)

/-- How a tick ends on a connection: with a segment to send (1), or with the connection
closed (2). `pmtu` is a path MTU that was lowered. -/
structure Ended where
  endpoint : Endpoint
  transmit : Option Transmit
  timers : List Timer
  pmtu : Option ℕ

/-- What a deadline does when it is popped: the tick goes on to the next one, or it ends. -/
inductive Fired where
  | skip (c : Endpoint)
  | ended (e : Ended)

/-- The resend of an entry; `TCP_RTO_MAX` is 6400. -/
def resend (env : Env) (c : Endpoint) (id : UInt64) (i : Fin 8) (e : Retransmission) : Ended :=
  let tried := { e with
    retries := e.retries + 1, retransmitted := true, fastRetransmit := false }
  let c := { c.setEntry i (some tried) with
    congestion := env.ops.onRto c.remoteMss c.congestion env.now }
  let out := if e.fastRetransmit then (c, none) else c.maybeBlackhole i
  let c := out.1
  let timeout : UInt32 := min (c.retransmissionTimeout <<< UInt32.ofNat tried.retries) 6400
  let deadline := env.now + timeout
  let sent := { (c.retransmissions i).getD tried with deadline := deadline }
  let c := c.setEntry i (some sent)
  ⟨c, some (c.fillTransmit env id sent.sequence sent.flags sent.data true),
    [⟨.retransmit, i, deadline⟩], out.2⟩

/-- `TCP_RETRY_MAX` is 5. -/
def fireRetransmit (env : Env) (c : Endpoint) (id : UInt64) (i : Fin 8) (deadline : UInt32) :
    Fired :=
  match c.retransmissions i with
  | none => .skip c
  | some e =>
    if e.deadline ≠ deadline then .skip c
    else if 5 ≤ e.retries then
      let closed := { c.setEntry i none with
        state := .closed, error := -110, receiver := { c.receiver with eof := true } }
      .ended ⟨if c.detached then closed.retire env else closed, none, [], none⟩
    else .ended (c.resend env id i e)

/-- A zero-window probe: one byte at `send_next`, which stays where it is. -/
def firePersist (env : Env) (c : Endpoint) (id : UInt64) (deadline : UInt32) : Fired :=
  if ¬ c.Sends ∨ c.sendWindow ≠ 0 ∨ c.persistDeadline ≠ deadline then .skip c
  else
    match c.source with
    | none => .skip c
    | some src =>
      let interval := if c.persistInterval < 3200 then c.persistInterval * 2 else 6400
      let next := env.now + interval
      .ended ⟨{ c with persistInterval := interval, persistDeadline := next },
        some (c.fillTransmit env id c.sendNext ackFlags (src.data.take 1) false),
        [⟨.persist, 0, next⟩], none⟩

def fireTimeWait (env : Env) (c : Endpoint) (deadline : UInt32) : Fired :=
  if c.state ≠ .timeWait ∨ c.timeWaitDeadline ≠ deadline then .skip c
  else .ended ⟨(c.retire env).enter .closed, none, [], none⟩

def clearAckFilter (c : Endpoint) : Endpoint := { c with ackFilterUntil := 0 }

def fireAckFilter (env : Env) (c : Endpoint) (id : UInt64) (deadline : UInt32) : Fired :=
  if c.ackFilterUntil ≠ deadline ∨ c.ackPending = false then
    .skip c.clearAckFilter
  else
    .ended ⟨{ c.clearAckFilter with ackPending := false },
      some (c.fillTransmit env id c.sendNext ackFlags [] false), [], none⟩

def fire (env : Env) (c : Endpoint) (id : UInt64) (t : Timer) : Fired :=
  match t.kind with
  | .retransmit => c.fireRetransmit env id t.entry t.deadline
  | .persist => c.firePersist env id t.deadline
  | .timeWait => c.fireTimeWait env t.deadline
  | .ackFilter => c.fireAckFilter env id t.deadline

/-- The slot as `allocate` leaves it. -/
def allocate (env : Env) (c : Endpoint) : Endpoint where
  active := true
  generation := c.generation
  family := .none
  localAddress := 0
  remoteAddress := 0
  localPort := 0
  remotePort := 0
  state := .closed
  sendUnacknowledged := 0
  sendNext := 0
  sendWindow := 65535
  remoteMss := 1460
  peerSack := false
  error := 0
  detached := false
  passive := false
  accepted := false
  parentListener := 0
  listenBacklog := 0
  receiver := Receiver.fresh 0
  localAddress6 := Vector.replicate 16 0
  remoteAddress6 := Vector.replicate 16 0
  receiveWindow := 16384
  congestion :=
    env.ops.init { c.congestion with congestionWindow := 2920, slowStartThreshold := 65535 }
  retransmissionTimeout := 100
  smoothedRtt := 0
  rttVariance := 0
  duplicateAcks := 0
  persistDeadline := 0
  persistInterval := 100
  timeWaitDeadline := 0
  sendFin := false
  sendBuffer := []
  sendBufferOffset := 0
  loans := []
  timerVersion := env.timerEpoch
  ackFilterUntil := 0
  ackPending := false
  pmtuBlackholeRtos := 0
  retransmissions := fun _ => none

/-- Memory that was never written. -/
def zeroed : Endpoint where
  active := false
  generation := 0
  family := .none
  localAddress := 0
  remoteAddress := 0
  localPort := 0
  remotePort := 0
  state := .closed
  sendUnacknowledged := 0
  sendNext := 0
  sendWindow := 0
  remoteMss := 0
  peerSack := false
  error := 0
  detached := false
  passive := false
  accepted := false
  parentListener := 0
  listenBacklog := 0
  receiver := Receiver.fresh 0
  localAddress6 := Vector.replicate 16 0
  remoteAddress6 := Vector.replicate 16 0
  receiveWindow := 0
  congestion := ⟨0, 0, .startup, 0, 0, 0, 0, 0, 0, 0, 0, 0, false⟩
  retransmissionTimeout := 0
  smoothedRtt := 0
  rttVariance := 0
  duplicateAcks := 0
  persistDeadline := 0
  persistInterval := 0
  timeWaitDeadline := 0
  sendFin := false
  sendBuffer := []
  sendBufferOffset := 0
  loans := []
  timerVersion := 0
  ackFilterUntil := 0
  ackPending := false
  pmtuBlackholeRtos := 0
  retransmissions := fun _ => none

end Endpoint

end MichCore.Tcp
