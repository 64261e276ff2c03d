import MichCore.BinaryHeap
import MichCore.TcpEndpoint

/-!
# The TCP context

`tcp_context` of `net/tcp.c`: the table of connections, the heap of deadlines, and every entry
point of the module as one call. Initial sequence numbers come from outside, as does the result of
the parser and of the checksum.
-/
namespace MichCore.Tcp

open Endpoint

/-- One pending timer; `version` tells a slot's owner from the next one. -/
structure Deadline where
  deadline : UInt32
  slot : Fin 32
  kind : TimerKind
  entry : Fin 8
  version : UInt32
  deriving DecidableEq, Repr

def Deadline.timer (d : Deadline) : Timer := ⟨d.kind, d.entry, d.deadline⟩

def Deadline.key (d : Deadline) : ℕ := d.deadline.toNat

structure Stack where
  connections : Fin 32 → Endpoint
  now : UInt32
  ops : CcOps
  mss : UInt32
  ackFilter : Bool
  timerEpoch : UInt32
  deadlines : List Deadline

/-- The child of `i` that the loop of `deadline_pop` moves up, or `i` itself. -/
def smallest (xs : List Deadline) (i : ℕ) : ℕ :=
  let less (j k : ℕ) : Bool :=
    match xs[j]?, xs[k]? with
    | some a, some b => a.deadline < b.deadline
    | _, _ => false
  let first := if less (2 * i + 1) i then 2 * i + 1 else i
  if less (2 * i + 2) first then 2 * i + 2 else first

/-- The loop of `deadline_pop`. The place `i` it goes on from still holds the node that
was moved up from there, and it is that node the next children are compared with, not
`item`. -/
def popLoop (item : Deadline) : ℕ → List Deadline → ℕ → List Deadline
  | 0, xs, i => xs.set i item
  | fuel + 1, xs, i =>
    let j := smallest xs i
    if j = i then xs.set i item
    else
      match xs[j]? with
      | some child => popLoop item fuel (xs.set i child) j
      | none => xs.set i item

/-- `deadline_pop` on the live part of the array. -/
def deadlinePop (xs : List Deadline) : List Deadline :=
  match xs.getLast? with
  | none => []
  | some item =>
    let kept := xs.dropLast
    if kept = [] then [] else popLoop item kept.length (kept.set 0 item) 0

namespace Stack

/-- `deadline_push`; `TCP_DEADLINE_MAX` is 1024, and a full heap drops the node. -/
def deadlinePush (stack : Stack) (slot : Fin 32) (version : UInt32) (t : Timer) : Stack :=
  if 1024 ≤ stack.deadlines.length then stack
  else
    { stack with
      deadlines := BinaryHeap.push Deadline.key stack.deadlines
        ⟨t.deadline, slot, t.kind, t.entry, version⟩ }

def pushAll (stack : Stack) (slot : Fin 32) (version : UInt32) (timers : List Timer) : Stack :=
  timers.foldl (fun stack t => stack.deadlinePush slot version t) stack

def env (stack : Stack) : Env :=
  ⟨stack.ops, stack.now, stack.mss, stack.ackFilter, stack.timerEpoch⟩

/-- Write a connection back. A slot that is given up has taken a timer version. -/
def put (stack : Stack) (i : Fin 32) (c : Endpoint) : Stack :=
  { stack with
    connections := Function.update stack.connections i c
    timerEpoch :=
      if (stack.connections i).active ∧ c.active = false then stack.timerEpoch + 1
      else stack.timerEpoch }

def idFor (stack : Stack) (i : Fin 32) : UInt64 :=
  UInt64.ofNat ((stack.connections i).generation.toNat * 2 ^ 32 + (i.val + 1))

def byId (stack : Stack) (id : UInt64) : Option (Fin 32) :=
  (List.finRange 32).find? (fun i =>
    i.val + 1 = id.toNat % 2 ^ 32 ∧ (stack.connections i).active ∧
      (stack.connections i).generation.toNat = id.toNat / 2 ^ 32)

def freeSlot (stack : Stack) : Option (Fin 32) :=
  (List.finRange 32).find? (fun i => (stack.connections i).active = false)

/-- Take slot `i`, which takes a timer version, and write `f` of the fresh connection. -/
def openSlot (stack : Stack) (i : Fin 32) (f : Endpoint → Endpoint) : Stack :=
  { stack with
    connections := Function.update stack.connections i
      (f ((stack.connections i).allocate stack.env))
    timerEpoch := stack.timerEpoch + 1 }

/-- Some active connection of the table is `p`. -/
def Exists (stack : Stack) (p : Endpoint → Prop) : Prop :=
  ∃ i, (stack.connections i).active ∧ p (stack.connections i)

instance (stack : Stack) (p : Endpoint → Prop) [DecidablePred p] : Decidable (stack.Exists p) :=
  inferInstanceAs (Decidable (∃ i : Fin 32, (stack.connections i).active ∧ _))

/-- Open a connection in a free slot: the id, or 0. -/
def openNew (stack : Stack) (f : Endpoint → Endpoint) : UInt64 × Stack :=
  match stack.freeSlot with
  | none => (0, stack)
  | some i =>
    let opened := stack.openSlot i f
    (opened.idFor i, opened)

def listening (c : Endpoint) (port : UInt16) : Endpoint :=
  { c with localPort := port, state := .listen, listenBacklog := 16 }

/-- `tcp_listen`: any IPv4 connection on the port is in the way. -/
def tcpListen (stack : Stack) (address : UInt32) (port : UInt16) : UInt64 × Stack :=
  if address = 0 ∨ port = 0 ∨
      stack.Exists (fun c => c.family = .ipv4 ∧ c.localPort = port) then (0, stack)
  else
    stack.openNew (fun c => { listening c port with family := .ipv4, localAddress := address })

/-- An IPv6 address that is neither zero nor multicast. -/
def Unicast6 (a : Address6) : Prop := a[0]? ≠ some 0xFF ∧ a ≠ Vector.replicate 16 0
  deriving Decidable

/-- `tcp_listen_ipv6`: only connections on the same local address are in the way. -/
def tcpListenIpv6 (stack : Stack) (address : Address6) (port : UInt16) : UInt64 × Stack :=
  if port = 0 ∨ ¬ Unicast6 address ∨
      stack.Exists (fun c =>
        c.family = .ipv6 ∧ c.localPort = port ∧ c.localAddress6 = address) then (0, stack)
  else
    stack.openNew (fun c => { listening c port with family := .ipv6, localAddress6 := address })

def tcpSetListenerBacklog (stack : Stack) (id : UInt64) (backlog : ℕ) : Bool × Stack :=
  match stack.byId id with
  | none => (false, stack)
  | some i =>
    let c := stack.connections i
    if c.state ≠ .listen ∨ backlog = 0 ∨ 32 ≤ backlog then (false, stack)
    else (true, stack.put i (c.setBacklog backlog))

/-- Our half of a handshake that we start. -/
def connecting (c : Endpoint) (localPort remotePort : UInt16) (isn : UInt32) : Endpoint :=
  { c with
    localPort := localPort
    remotePort := remotePort
    sendUnacknowledged := isn
    sendNext := isn + 1
    state := .synSent }

def tcpActiveOpen (stack : Stack) (local_ : UInt32) (localPort : UInt16) (remote : UInt32)
    (remotePort : UInt16) (isn : UInt32) : UInt64 × Stack :=
  if local_ = 0 ∨ localPort = 0 ∨ remote = 0 ∨ remotePort = 0 ∨
      stack.Exists (fun c => c.family = .ipv4 ∧ c.localAddress = local_ ∧
        c.remoteAddress = remote ∧ c.localPort = localPort ∧ c.remotePort = remotePort) then
    (0, stack)
  else
    stack.openNew (fun c =>
      { connecting c localPort remotePort isn with
        family := .ipv4, localAddress := local_, remoteAddress := remote })

def tcpActiveOpenIpv6 (stack : Stack) (local_ : Address6) (localPort : UInt16)
    (remote : Address6) (remotePort : UInt16) (isn : UInt32) : UInt64 × Stack :=
  if localPort = 0 ∨ remotePort = 0 ∨ ¬ Unicast6 local_ ∨ ¬ Unicast6 remote ∨
      stack.Exists (fun c => c.family = .ipv6 ∧ c.localPort = localPort ∧
        c.remotePort = remotePort ∧ c.localAddress6 = local_ ∧ c.remoteAddress6 = remote) then
    (0, stack)
  else
    stack.openNew (fun c =>
      { connecting c localPort remotePort isn with
        family := .ipv6, localAddress6 := local_, remoteAddress6 := remote })

/-- What `tcp_accept` hands out for the listener `id`. -/
def Acceptable (id : UInt64) (c : Endpoint) : Prop :=
  c.active ∧ c.passive ∧ c.accepted = false ∧ c.parentListener = id ∧ c.state = .established
  deriving Decidable

/-- `tcp_accept`: -1, 0 with the id of a connection, or 1 when there is none. -/
def tcpAccept (stack : Stack) (id : UInt64) : ℤ × UInt64 × Stack :=
  match stack.byId id with
  | none => (-1, 0, stack)
  | some l =>
    if (stack.connections l).state ≠ .listen then (-1, 0, stack)
    else
      match (List.finRange 32).find? (fun i => Acceptable id (stack.connections i)) with
      | none => (1, 0, stack)
      | some i =>
        (0, stack.idFor i, stack.put i (stack.connections i).markAccepted)

/-- A parsed segment reaches connection `i`. -/
def input (stack : Stack) (i : Fin 32) (s : Segment) : Bool × Option Segment × Stack :=
  let c := stack.connections i
  let out := c.tcpInput stack.env s
  (out.1, out.2.response, (stack.put i out.2.endpoint).pushAll i c.timerVersion out.2.timers)

/-- The connections that count against the backlog of the listener `id`. -/
def pendingOf (stack : Stack) (id : UInt64) : ℕ :=
  (List.finRange 32).countP
    (fun i => (stack.connections i).active ∧ (stack.connections i).parentListener = id)

/-- A half-open connection that a SYN makes. -/
def answering (c : Endpoint) (s : Segment) (isn : UInt32) (listener : UInt64) : Endpoint :=
  { c with
    localPort := s.destinationPort
    remotePort := s.sourcePort
    remoteMss := if s.mss ≠ 0 then min s.mss 1460 else c.remoteMss
    peerSack := s.sackPermitted
    sendUnacknowledged := isn
    sendNext := isn + 1
    receiver := { c.receiver with receiveNext := s.sequence + 1 }
    sendWindow := s.window.toUInt32
    state := .synReceived
    parentListener := listener
    passive := true }

/-- The passive open of both receivers; `place` writes the addresses. -/
def openPassive (stack : Stack) (listener : Fin 32) (s : Segment) (isn : UInt32)
    (place : Endpoint → Endpoint) : Bool × Option Segment × Stack :=
  let id := stack.idFor listener
  if (stack.connections listener).listenBacklog ≤ stack.pendingOf id then (false, none, stack)
  else
    match stack.freeSlot with
    | none => (false, none, stack)
    | some i =>
      let opened := stack.openSlot i (fun c => place (answering c s isn id))
      let c := opened.connections i
      match c.trackRetransmission stack.now isn synAckFlags [] with
      | none => (false, none, stack)
      | some (tracked, timer) =>
        (true, some { tracked.response synAckFlags with
            sequence := isn, mss := stack.env.localMss, sackPermitted := true },
          (opened.put i tracked).pushAll i tracked.timerVersion [timer])

/-- The connection of the segment, or the last listener that would take it. -/
def demultiplex (stack : Stack) (s : Segment) (isn : UInt32) (listens connected : Endpoint → Bool)
    (place : Endpoint → Endpoint) : Bool × Option Segment × Stack :=
  match (List.finRange 32).find? (fun i => connected (stack.connections i)) with
  | some i => stack.input i s
  | none =>
    match (List.finRange 32).reverse.find? (fun i => listens (stack.connections i)) with
    | some listener =>
      if s.flags.syn ∧ s.flags.ack = false then stack.openPassive listener s isn place
      else (false, none, stack)
    | none => (false, none, stack)

def tcpReceiveIpv4 (stack : Stack) (source destination : UInt32) (parsed : Option Segment)
    (checksumOk : Bool) (isn : UInt32) : Bool × Option Segment × Stack :=
  match parsed, checksumOk with
  | some s, true =>
    stack.demultiplex s isn
      (fun c => Context.OnPort s.toSegmentView c.toConnection ∧ c.state = .listen)
      (fun c => Context.Matches source destination s.toSegmentView c.toConnection)
      (fun c => { c with
        family := .ipv4, localAddress := destination, remoteAddress := source })
  | _, _ => (false, none, stack)

/-- An active IPv6 connection on the port and the address of the segment. -/
def OnPort6 (destination : Address6) (s : Segment) (c : Endpoint) : Prop :=
  c.active ∧ c.family = .ipv6 ∧ c.localPort = s.destinationPort ∧ c.localAddress6 = destination
  deriving Decidable

def tcpReceiveIpv6 (stack : Stack) (source destination : Address6) (parsed : Option Segment)
    (checksumOk : Bool) (isn : UInt32) : Bool × Option Segment × Stack :=
  match parsed, checksumOk with
  | some s, true =>
    stack.demultiplex s isn
      (fun c => OnPort6 destination s c ∧ c.state = .listen)
      (fun c => OnPort6 destination s c ∧ c.state ≠ .listen ∧ c.remotePort = s.sourcePort ∧
        c.remoteAddress6 = source)
      (fun c => { c with
        family := .ipv6, localAddress6 := destination, remoteAddress6 := source })
  | _, _ => (false, none, stack)

/-- Run a function on the connection of an id; `none` is -1. -/
def onId {α : Type} (stack : Stack) (id : UInt64) (f : Endpoint → α × Endpoint) :
    Option α × Stack :=
  match stack.byId id with
  | none => (none, stack)
  | some i =>
    let out := f (stack.connections i)
    (some out.1, stack.put i out.2)

def tcpQueueSend (stack : Stack) (id : UInt64) (data : List UInt8) : Bool × Stack :=
  let out := stack.onId id (fun c => c.queueSend data)
  (out.1.getD false, out.2)

def tcpQueueSendPages (stack : Stack) (id : UInt64) (pages offset : ℕ) (bytes : List UInt8)
    (live pinned : Bool) : Bool × Stack :=
  let out := stack.onId id (fun c => c.queueSendPages pages offset bytes live pinned)
  (out.1.getD false, out.2)

def tcpQueueReceivePages (stack : Stack) (id : UInt64) (pages offset length : ℕ)
    (live pinned : Bool) : Bool × Stack :=
  let out := stack.onId id (fun c => c.queueReceivePages pages offset length live pinned)
  (out.1.getD false, out.2)

def tcpReceiveData (stack : Stack) (id : UInt64) (capacity : ℕ) :
    Option (ℕ × List UInt8) × Stack :=
  let out := stack.onId id (fun c => c.receiveData capacity)
  (out.1.getD none, out.2)

def tcpTakeError (stack : Stack) (id : UInt64) : Option ℤ × Stack :=
  stack.onId id (fun c => (c.error, c.clearError))

/-- Write back what a call that may send left. -/
def settle (stack : Stack) (i : Fin 32) (out : Sending) : Stack :=
  (stack.put i out.endpoint).pushAll i (stack.connections i).timerVersion out.timers

/-- `tcp_prepare_transmit`: 1 with a segment, 0, or -1. -/
def tcpPrepareTransmit (stack : Stack) (id : UInt64) (now : UInt32) :
    ℤ × Option Transmit × Stack :=
  match stack.byId id with
  | none => (-1, none, stack)
  | some i =>
    let stack := { stack with now := now }
    let out := (stack.connections i).prepareTransmit stack.env id
    (if out.transmit.isSome then 1 else 0, out.transmit, stack.settle i out)

/-- `tcp_shutdown`; the clock is set when the FIN can go out at once. -/
def tcpShutdown (stack : Stack) (id : UInt64) (now : UInt32) :
    ℤ × Option Transmit × Stack :=
  match stack.byId id with
  | none => (-1, none, stack)
  | some i =>
    let c := stack.connections i
    let stack :=
      if c.sendFin ∨ ¬ c.Sends ∨ c.Pending then stack else { stack with now := now }
    let out := c.shutdown stack.env id
    (out.1, out.2.transmit, stack.settle i out.2)

/-- Close one slot. -/
def closeSlot (stack : Stack) (i : Fin 32) : Stack :=
  stack.put i ((stack.connections i).close stack.env)

/-- A child of the listener `id` that was not accepted. -/
def Waiting (id : UInt64) (c : Endpoint) : Prop :=
  c.active ∧ c.parentListener = id ∧ c.accepted = false
  deriving Decidable

def closeChildren (stack : Stack) (id : UInt64) : Stack :=
  (List.finRange 32).foldl (fun stack i =>
    if Waiting id (stack.connections i) then stack.closeSlot i else stack) stack

/-- `tcp_close`; a listener takes the connections it still holds with it. -/
def tcpClose (stack : Stack) (id : UInt64) : Bool × Stack :=
  match stack.byId id with
  | none => (false, stack)
  | some i =>
    let stack := if (stack.connections i).state = .listen then stack.closeChildren id else stack
    (true, stack.closeSlot i)

/-- `tcp_detach`: 1 with a segment to send, 0, or -1. -/
def tcpDetach (stack : Stack) (id : UInt64) (now : UInt32) : ℤ × Option Transmit × Stack :=
  match stack.byId id with
  | none => (-1, none, stack)
  | some i =>
    let c := stack.connections i
    let reset := c.fillTransmit stack.env id c.sendNext rstAckFlags [] false
    match c.state with
    | .listen | .closed => (0, none, (stack.tcpClose id).2)
    | .established | .closeWait =>
      if c.sendWindow = 0 ∧ c.Pending then (1, some reset, (stack.tcpClose id).2)
      else
        let out := stack.tcpShutdown id now
        let left := out.2.2.put i (out.2.2.connections i).markDetached
        (if out.1 < 0 then -1 else if out.1 = 0 then 1 else 0, out.2.1, left)
    | .finWait1 | .finWait2 | .closing | .lastAck | .timeWait =>
      (0, none, stack.put i c.markDetached)
    | .synSent | .synReceived => (1, some reset, (stack.tcpClose id).2)

def tcpAbort (stack : Stack) (id : UInt64) (error : ℤ) : Bool × Stack :=
  if error = 0 then (false, stack)
  else
    let out := stack.onId id (fun c => ((), c.abort error))
    (out.1.isSome, out.2)

def tcpAbortAll (stack : Stack) (error : ℤ) : Stack :=
  if error = 0 then stack
  else
    { stack with
      connections := fun i =>
        let c := stack.connections i
        if c.active then c.abort error else c }

def tcpClampPmtu (stack : Stack) (family : Family) (address4 : UInt32) (address6 : Address6)
    (ipMtu : ℕ) : Stack :=
  { stack with
    connections := fun i => (stack.connections i).clampPmtu family address4 address6 ipMtu }

/-- What a tick answers: 0, 1 with a segment, or 2 with the id of a closed connection. -/
structure Ticked where
  code : ℕ
  transmit : Option Transmit
  closed : UInt64
  stack : Stack

/-- The loop of `tcp_tick` takes nodes off the heap until one is live; that one ends the
tick. -/
def nextDue : ℕ → Stack → Stack × Option (Deadline × Ended)
  | 0, stack => (stack, none)
  | fuel + 1, stack =>
    match stack.deadlines with
    | [] => (stack, none)
    | d :: _ =>
      if sequenceAfter d.deadline stack.now then (stack, none)
      else
        let stack := { stack with deadlines := deadlinePop stack.deadlines }
        let c := stack.connections d.slot
        if c.active = false ∨ c.timerVersion ≠ d.version then nextDue fuel stack
        else
          match c.fire stack.env (stack.idFor d.slot) d.timer with
          | .skip c => nextDue fuel (stack.put d.slot c)
          | .ended e => (stack, some (d, e))

/-- The end of a tick on the slot of `d`. A lowered path MTU reaches every connection to
that peer. -/
def finishTick (stack : Stack) (d : Deadline) (e : Ended) : Ticked :=
  let c := stack.connections d.slot
  let lowered :=
    match e.pmtu with
    | some mtu => stack.tcpClampPmtu c.family c.remoteAddress c.remoteAddress6 mtu
    | none => stack
  ⟨if e.transmit.isSome then 1 else 2, e.transmit, stack.idFor d.slot,
    (lowered.put d.slot e.endpoint).pushAll d.slot c.timerVersion e.timers⟩

def tcpTick (stack : Stack) (now : UInt32) : Ticked :=
  match nextDue (stack.deadlines.length + 1) { stack with now := now } with
  | (stack, none) => ⟨0, none, 0, stack⟩
  | (stack, some (d, e)) => stack.finishTick d e

def tcpSetMss (stack : Stack) (mss : UInt16) : Stack :=
  if mss < 46 then stack else { stack with mss := (min mss 1460).toUInt32 }

/-- `tcp_init`; of the slots it writes the generation, the state and the mark that they are
free. -/
def tcpInit (memory : Fin 32 → Endpoint) : Stack where
  connections i := { memory i with
    generation := UInt32.ofNat (i.val + 1), active := false, state := .closed }
  now := 0
  ops := tcpCcBbr
  mss := 1460
  ackFilter := false
  timerEpoch := 1
  deadlines := []

end Stack

/-- The entry points of the module that change a context. -/
inductive Call where
  | listen (address : UInt32) (port : UInt16)
  | listenIpv6 (address : Address6) (port : UInt16)
  | setListenerBacklog (id : UInt64) (backlog : ℕ)
  | activeOpen (local_ : UInt32) (localPort : UInt16) (remote : UInt32) (remotePort : UInt16)
      (isn : UInt32)
  | activeOpenIpv6 (local_ : Address6) (localPort : UInt16) (remote : Address6)
      (remotePort : UInt16) (isn : UInt32)
  | accept (id : UInt64)
  | receiveIpv4 (source destination : UInt32) (parsed : Option Segment) (checksumOk : Bool)
      (isn : UInt32)
  | receiveIpv6 (source destination : Address6) (parsed : Option Segment) (checksumOk : Bool)
      (isn : UInt32)
  | queueSend (id : UInt64) (data : List UInt8)
  | queueSendPages (id : UInt64) (pages offset : ℕ) (bytes : List UInt8) (live pinned : Bool)
  | queueReceivePages (id : UInt64) (pages offset length : ℕ) (live pinned : Bool)
  | receiveData (id : UInt64) (capacity : ℕ)
  | takeError (id : UInt64)
  | prepareTransmit (id : UInt64) (now : UInt32)
  | shutdown (id : UInt64) (now : UInt32)
  | detach (id : UInt64) (now : UInt32)
  | close (id : UInt64)
  | abort (id : UInt64) (error : ℤ)
  | abortAll (error : ℤ)
  | tick (now : UInt32)
  | clampPmtu (family : Family) (address4 : UInt32) (address6 : Address6) (ipMtu : ℕ)
  | setCc (ops : CcOps)
  | setAckFilter (enabled : Bool)
  | setMss (mss : UInt16)

/-- What a call answers: its code, an id, a segment to send, an answer to a segment, and
bytes that were read. -/
structure Outcome where
  code : ℤ := 0
  id : UInt64 := 0
  transmit : Option Transmit := none
  response : Option Segment := none
  data : List UInt8 := []

/-- 0 for success and -1 otherwise. -/
def Outcome.ofBool (ok : Bool) : Outcome := { code := if ok then 0 else -1 }

namespace Stack

def perform (stack : Stack) : Call → Outcome × Stack
  | .listen address port =>
    let out := stack.tcpListen address port
    ({ id := out.1 }, out.2)
  | .listenIpv6 address port =>
    let out := stack.tcpListenIpv6 address port
    ({ id := out.1 }, out.2)
  | .setListenerBacklog id backlog =>
    let out := stack.tcpSetListenerBacklog id backlog
    (.ofBool out.1, out.2)
  | .activeOpen local_ localPort remote remotePort isn =>
    let out := stack.tcpActiveOpen local_ localPort remote remotePort isn
    ({ id := out.1 }, out.2)
  | .activeOpenIpv6 local_ localPort remote remotePort isn =>
    let out := stack.tcpActiveOpenIpv6 local_ localPort remote remotePort isn
    ({ id := out.1 }, out.2)
  | .accept id =>
    let out := stack.tcpAccept id
    ({ code := out.1, id := out.2.1 }, out.2.2)
  | .receiveIpv4 source destination parsed checksumOk isn =>
    let out := stack.tcpReceiveIpv4 source destination parsed checksumOk isn
    ({ Outcome.ofBool out.1 with response := out.2.1 }, out.2.2)
  | .receiveIpv6 source destination parsed checksumOk isn =>
    let out := stack.tcpReceiveIpv6 source destination parsed checksumOk isn
    ({ Outcome.ofBool out.1 with response := out.2.1 }, out.2.2)
  | .queueSend id data =>
    let out := stack.tcpQueueSend id data
    (.ofBool out.1, out.2)
  | .queueSendPages id pages offset bytes live pinned =>
    let out := stack.tcpQueueSendPages id pages offset bytes live pinned
    (.ofBool out.1, out.2)
  | .queueReceivePages id pages offset length live pinned =>
    let out := stack.tcpQueueReceivePages id pages offset length live pinned
    (.ofBool out.1, out.2)
  | .receiveData id capacity =>
    let out := stack.tcpReceiveData id capacity
    match out.1 with
    | some (code, data) => ({ code := code, data := data }, out.2)
    | none => ({ code := -1 }, out.2)
  | .takeError id =>
    let out := stack.tcpTakeError id
    (.ofBool out.1.isSome, out.2)
  | .prepareTransmit id now =>
    let out := stack.tcpPrepareTransmit id now
    ({ code := out.1, transmit := out.2.1 }, out.2.2)
  | .shutdown id now =>
    let out := stack.tcpShutdown id now
    ({ code := out.1, transmit := out.2.1 }, out.2.2)
  | .detach id now =>
    let out := stack.tcpDetach id now
    ({ code := out.1, transmit := out.2.1 }, out.2.2)
  | .close id =>
    let out := stack.tcpClose id
    (.ofBool out.1, out.2)
  | .abort id error =>
    let out := stack.tcpAbort id error
    (.ofBool out.1, out.2)
  | .abortAll error => ({}, stack.tcpAbortAll error)
  | .tick now =>
    let out := stack.tcpTick now
    ({ code := out.code, id := out.closed, transmit := out.transmit }, out.stack)
  | .clampPmtu family address4 address6 ipMtu =>
    ({}, stack.tcpClampPmtu family address4 address6 ipMtu)
  | .setCc ops => ({}, { stack with ops := ops })
  | .setAckFilter enabled => ({}, { stack with ackFilter := enabled })
  | .setMss mss => ({}, stack.tcpSetMss mss)

/-- The calls one after another. -/
def run (stack : Stack) (calls : List Call) : Stack :=
  calls.foldl (fun stack call => (stack.perform call).2) stack

/-- Each call of the list meets the condition in the state it is made in. -/
def EachCall (condition : Stack → Call → Prop) : Stack → List Call → Prop
  | _, [] => True
  | stack, call :: calls =>
    condition stack call ∧ EachCall condition (stack.perform call).2 calls

instance EachCall.decidable (condition : Stack → Call → Prop)
    [∀ stack call, Decidable (condition stack call)] :
    ∀ stack calls, Decidable (EachCall condition stack calls)
  | _, [] => isTrue trivial
  | stack, call :: calls =>
    have := EachCall.decidable condition (stack.perform call).2 calls
    inferInstanceAs (Decidable (condition stack call ∧ EachCall condition _ calls))

/-- A context in zeroed memory. -/
def boot : Stack := tcpInit fun _ => zeroed

/-- The id of the first connection in slot 0 of a new context. -/
def firstId : UInt64 := 0x100000001

/-- A segment from port 80 of the peer to our port 1000, without options. -/
def fromPeer (sequence acknowledgement : UInt32) (flags : Flags) (payload : List UInt8) :
    Segment where
  sourcePort := 80
  destinationPort := 1000
  sequence := sequence
  acknowledgement := acknowledgement
  flags := flags
  window := 60000
  mss := 0
  sackPermitted := false
  payload := payload
  sackBlocks := []

/-- The peer is address 2, we are address 1. -/
def arrive (s : Segment) : Call := .receiveIpv4 2 1 (some s) true 0

/-- Slot 0 of a new context is open, with sequence number 100 on our side and 500 on the side
of the peer, which takes segments of `mss` bytes with SACK allowed. -/
def handshake (mss : UInt16) : List Call :=
  [.activeOpen 1 1000 2 80 100, .prepareTransmit firstId 0,
    arrive { fromPeer 500 101 synAckFlags [] with mss := mss, sackPermitted := true }]

end Stack

end MichCore.Tcp
