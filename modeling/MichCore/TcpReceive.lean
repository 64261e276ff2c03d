import MichCore.SlotTable

/-!
# The receiving side of a TCP connection

`net/tcp.c` from a parsed segment to the bytes an application gets: the grant queue and the
receive buffer, the table of segments ahead of a gap, the state machine of `tcp_input`, and the
demultiplexing of `tcp_receive_ipv4`. The sending side is reduced to the sequence numbers that the
state machine reads; timers, statistics, congestion control and the responses do not feed back.

Sequence numbers are 32-bit words; buffers and the grant queue are lists, oldest first.
-/
namespace MichCore.Tcp

inductive TcpState where
  | closed
  | listen
  | synSent
  | synReceived
  | established
  | finWait1
  | finWait2
  | closeWait
  | lastAck
  | timeWait
  | closing
  deriving DecidableEq, Repr

structure Flags where
  fin : Bool
  syn : Bool
  rst : Bool
  ack : Bool
  deriving DecidableEq, Repr

structure SegmentView where
  sourcePort : UInt16
  destinationPort : UInt16
  sequence : UInt32
  acknowledgement : UInt32
  flags : Flags
  window : UInt16
  mss : UInt16
  sackPermitted : Bool
  payload : List UInt8
  deriving DecidableEq, Repr

/-- `(i32)(left - right) > 0` -/
def sequenceAfter (left right : UInt32) : Prop :=
  0 < (left - right).toNat ∧ (left - right).toNat < 2 ^ 31
  deriving Decidable

/-- `(i32)(left - right) < 0` -/
def sequenceBefore (left right : UInt32) : Prop := 2 ^ 31 ≤ (left - right).toNat
  deriving Decidable

/-- Pages lent for incoming bytes; `pages` is the size of the resource when the grant was
queued. It stays pinned, so it can grow but not shrink. -/
structure Grant where
  pages : ℕ
  offset : ℕ
  length : ℕ
  position : ℕ
  deriving DecidableEq, Repr

def Grant.spanned (g : Grant) : ℕ := (g.offset + g.length + 4095) / 4096 - g.offset / 4096

/-- How many of `n` bytes `grant_write` lands; it stops where the pages end. -/
def Grant.write (g : Grant) (n : ℕ) : ℕ := min n (g.pages * 4096 - (g.offset + g.position))

/-- Where the grant loop of `append_receive` ends: the queue left, the bytes written, the bytes
left over, and whether every write landed in full. -/
structure Fill where
  grants : List Grant
  written : List UInt8
  rest : List UInt8
  ok : Bool
  deriving DecidableEq, Repr

def fillGrants : List Grant → List UInt8 → Fill
  | [], data => ⟨[], [], data, true⟩
  | g :: gs, [] => ⟨g :: gs, [], [], true⟩
  | g :: gs, byte :: bytes =>
    let data := byte :: bytes
    let chunk := min data.length (g.length - g.position)
    let done := g.write chunk
    if done ≠ chunk then ⟨g :: gs, data.take done, data.drop done, false⟩
    else if g.position + chunk = g.length then
      let out := fillGrants gs (data.drop chunk)
      { out with written := data.take chunk ++ out.written }
    else ⟨{ g with position := g.position + chunk } :: gs, data.take chunk, data.drop chunk, true⟩

/-- A segment that waits behind a gap. -/
structure OutOfOrder where
  sequence : UInt32
  flags : Flags
  data : List UInt8
  deriving DecidableEq, Repr

structure Receiver where
  receiveNext : UInt32
  eof : Bool
  buffer : List UInt8
  grants : List Grant
  /-- All bytes that landed in grants so far; the source keeps their number. -/
  granted : List UInt8
  outOfOrder : Fin 8 → Option OutOfOrder

namespace Receiver

/-- The receiving side as `allocate` leaves it, at a first sequence number. -/
def fresh (receiveNext : UInt32) : Receiver := ⟨receiveNext, false, [], [], [], fun _ => none⟩

def grantSpace (r : Receiver) : ℕ := (r.grants.map (fun g => g.length - g.position)).sum

/-- `TCP_RECEIVE_BUFFER_MAX` is 16384. -/
def appendReceive (r : Receiver) (data : List UInt8) : Bool × Receiver :=
  if r.grantSpace + 16384 - r.buffer.length < data.length then (false, r)
  else
    let out := fillGrants r.grants data
    if out.ok then
      (true, { r with
        grants := out.grants
        granted := r.granted ++ out.written
        buffer := r.buffer ++ out.rest })
    else (false, { r with grants := out.grants, granted := r.granted ++ out.written })

/-- Step over a segment whose bytes were taken. -/
def advance (r : Receiver) (length : ℕ) (fin : Bool) : Receiver :=
  { r with receiveNext := r.receiveNext + UInt32.ofNat length + if fin then 1 else 0 }

def setSlot (r : Receiver) (i : Fin 8) (e : Option OutOfOrder) : Receiver :=
  { r with outOfOrder := Function.update r.outOfOrder i e }

/-- The `for` loop of `merge_out_of_order`, with its progress flag; `none` is the early
return when the bytes do not fit. -/
def mergePass : List (Fin 8) → Bool → Receiver → Option Bool × Receiver
  | [], progress, r => (some progress, r)
  | i :: is, progress, r =>
    match r.outOfOrder i with
    | none => mergePass is progress r
    | some e =>
      if e.sequence ≠ r.receiveNext then mergePass is progress r
      else
        let out := r.appendReceive e.data
        if out.1 then
          mergePass is true ((out.2.advance e.data.length e.flags.fin).setSlot i none)
        else (none, out.2)

/-- The `do … while (progress)` loop. A pass that makes progress empties a slot. -/
def mergeLoop : ℕ → Receiver → Receiver
  | 0, r => r
  | fuel + 1, r =>
    match mergePass (List.finRange 8) false r with
    | (some true, r) => mergeLoop fuel r
    | (_, r) => r

def mergeOutOfOrder (r : Receiver) : Receiver := mergeLoop 9 r

/-- The scan for a slot: it stops at an entry with the same sequence number or at the
first free slot, whichever comes first. -/
def queueScan (s : SegmentView) : List (Fin 8) → Receiver → Receiver
  | [], r => r
  | i :: is, r =>
    match r.outOfOrder i with
    | some e => if e.sequence = s.sequence then r else queueScan s is r
    | none => r.setSlot i (some ⟨s.sequence, s.flags, s.payload⟩)

/-- `TCP_RETRANSMIT_DATA_MAX` is 1460. -/
def queueOutOfOrder (r : Receiver) (s : SegmentView) : Receiver :=
  if 1460 < s.payload.length then r else queueScan s (List.finRange 8) r

end Receiver

/-- -1, 0 and 2 of `input_payload`. -/
inductive PayloadResult where
  | rejected
  | processed
  | fin
  deriving DecidableEq, Repr

namespace Receiver

def inputPayload (r : Receiver) (s : SegmentView) : PayloadResult × Receiver :=
  if s.flags.ack = false ∨ s.flags.syn = true then (.rejected, r)
  else if sequenceAfter s.sequence r.receiveNext then (.processed, r.queueOutOfOrder s)
  else if sequenceBefore s.sequence r.receiveNext then (.processed, r)
  else
    let out := r.appendReceive s.payload
    if out.1 then
      let taken := out.2.advance s.payload.length s.flags.fin
      let ended := { taken with eof := taken.eof || s.flags.fin }
      (if s.flags.fin then .fin else .processed, ended.mergeOutOfOrder)
    else (.rejected, out.2)

/-- The code (0, or 1 when nothing is there yet) and the bytes; `none` is -1. -/
def receiveData (r : Receiver) (capacity : ℕ) : Option (ℕ × List UInt8) × Receiver :=
  if capacity = 0 then (none, r)
  else if r.buffer = [] then (some (if r.eof then 0 else 1, []), r)
  else (some (0, r.buffer.take capacity), { r with buffer := r.buffer.drop capacity })

end Receiver

inductive Family where
  | none
  | ipv4
  | ipv6
  deriving DecidableEq, Repr

structure Connection where
  active : Bool
  generation : UInt32
  family : Family
  localAddress : UInt32
  remoteAddress : UInt32
  localPort : UInt16
  remotePort : UInt16
  state : TcpState
  sendUnacknowledged : UInt32
  sendNext : UInt32
  sendWindow : UInt32
  remoteMss : UInt16
  peerSack : Bool
  error : ℤ
  detached : Bool
  passive : Bool
  accepted : Bool
  parentListener : UInt64
  listenBacklog : ℕ
  receiver : Receiver

namespace Connection

def nextGeneration (generation : UInt32) : UInt32 :=
  if generation + 1 = 0 then 1 else generation + 1

/-- The slot is given up and ids of it go stale. -/
def retire (c : Connection) : Connection :=
  { c with active := false, generation := nextGeneration c.generation }

/-- What an acknowledgement does to the sequence numbers. -/
def acknowledge (c : Connection) (s : SegmentView) : Connection :=
  if sequenceAfter s.acknowledgement c.sendUnacknowledged ∧
      ¬ sequenceAfter s.acknowledgement c.sendNext then
    { c with sendUnacknowledged := s.acknowledgement }
  else c

def ourFinAcked (c : Connection) (s : SegmentView) : Bool :=
  s.flags.ack && s.acknowledgement == c.sendNext

/-- `input_payload` on the receiving side of a connection. -/
def inputPayload (c : Connection) (s : SegmentView) : PayloadResult × Connection :=
  let out := c.receiver.inputPayload s
  (out.1, { c with receiver := out.2 })

/-- The states that wait for the peer after our FIN. -/
def inputFinWait (c : Connection) (s : SegmentView) : Connection :=
  let c := if c.state = .finWait1 ∧ c.ourFinAcked s then { c with state := .finWait2 } else c
  let out := c.inputPayload s
  if out.1 = .fin then
    { out.2 with state := if out.2.state = .finWait2 then .timeWait else .closing }
  else out.2

/-- `none` when the segment is not consumed as a closing-state event. -/
def inputClosing (c : Connection) (s : SegmentView) : Option Connection :=
  match c.state with
  | .closeWait => some c
  | .timeWait => some c
  | .lastAck => some (if c.ourFinAcked s then { c.retire with state := .closed } else c)
  | .closing => some (if c.ourFinAcked s then { c with state := .timeWait } else c)
  | .finWait1 => some (c.inputFinWait s)
  | .finWait2 => some (c.inputFinWait s)
  | _ => none

/-- What the head of `tcp_input` records from every segment but a reset. -/
def note (c : Connection) (s : SegmentView) : Connection :=
  { c with
    sendWindow := s.window.toUInt32
    remoteMss := if s.flags.syn ∧ s.mss ≠ 0 then min s.mss 1460 else c.remoteMss
    peerSack := if s.flags.syn then s.sackPermitted else c.peerSack }

def inputReset (c : Connection) (s : SegmentView) : Bool × Connection :=
  if if c.state = .synSent then s.flags.ack && s.acknowledgement == c.sendNext
      else s.sequence == c.receiver.receiveNext then
    let c := { c with
      state := .closed, error := -104, receiver := { c.receiver with eof := true } }
    (true, if c.detached then c.retire else c)
  else (false, c)

/-- `tcp_input`: the return code and the connection. -/
def tcpInput (c : Connection) (s : SegmentView) : Bool × Connection :=
  if s.flags.rst then c.inputReset s
  else
    let c := c.note s
    let c := if s.flags.ack then c.acknowledge s else c
    if c.state = .synSent ∧ s.flags.syn ∧ s.flags.ack ∧ s.acknowledgement = c.sendNext then
      (true, { c with
        receiver := { c.receiver with receiveNext := s.sequence + 1 }
        sendUnacknowledged := s.acknowledgement
        state := .established })
    else if c.state = .synReceived ∧ s.flags.ack ∧ s.acknowledgement = c.sendNext then
      (true, { c with sendUnacknowledged := s.acknowledgement, state := .established })
    else
      match c.inputClosing s with
      | some c => (true, c)
      | none =>
        if c.state = .established then
          let out := c.inputPayload s
          (out.1 ≠ .rejected,
            if out.1 = .fin then { out.2 with state := .closeWait } else out.2)
        else (false, c)

/-- `tcp_receive_data` once the id was found. -/
def receiveData (c : Connection) (capacity : ℕ) : Option (ℕ × List UInt8) × Connection :=
  let out := c.receiver.receiveData capacity
  (out.1, { c with receiver := out.2 })

/-- `tcp_queue_receive_pages` once the id was found; `live` and `pinned` are the answers of
the page resource. At most `TCP_RECEIVE_GRANT_MAX` grants over at most
`TCP_RECEIVE_GRANT_PAGES_MAX` pages. -/
def queueReceivePages (c : Connection) (pages offset length : ℕ) (live pinned : Bool) :
    Bool × Connection :=
  let r := c.receiver
  let grant : Grant := ⟨pages, offset, length, 0⟩
  if live = false ∨ r.eof ∨ (c.state ≠ .established ∧ c.state ≠ .closeWait) ∨ length = 0 ∨
      pages * 4096 ≤ offset ∨ pages * 4096 - offset < length ∨ r.buffer ≠ [] ∨
      8 ≤ r.grants.length ∨ 256 - (r.grants.map Grant.spanned).sum < grant.spanned ∨
      pinned = false then
    (false, c)
  else (true, { c with receiver := { r with grants := r.grants ++ [grant] } })

end Connection

structure Context where
  connections : Fin 32 → Connection

namespace Context

def set (ctx : Context) (i : Fin 32) (c : Connection) : Context :=
  ⟨Function.update ctx.connections i c⟩

/-- An active IPv4 connection or listener on the port of the segment. -/
def OnPort (s : SegmentView) (c : Connection) : Prop :=
  c.active ∧ c.family = .ipv4 ∧ c.localPort = s.destinationPort
  deriving Decidable

/-- The connection of the segment's four addresses. -/
def Matches (source destination : UInt32) (s : SegmentView) (c : Connection) : Prop :=
  OnPort s c ∧ c.remotePort = s.sourcePort ∧ c.localAddress = destination ∧
    c.remoteAddress = source
  deriving Decidable

def connectionFor (ctx : Context) (source destination : UInt32) (s : SegmentView) :
    Option (Fin 32) :=
  (List.finRange 32).find? (fun i => Matches source destination s (ctx.connections i))

/-- The last listener on the port. -/
def listenerFor (ctx : Context) (s : SegmentView) : Option (Fin 32) :=
  (List.finRange 32).reverse.find?
    (fun i => OnPort s (ctx.connections i) ∧ (ctx.connections i).state = .listen)

def idFor (ctx : Context) (i : Fin 32) : UInt64 :=
  UInt64.ofNat ((ctx.connections i).generation.toNat * 2 ^ 32 + (i.val + 1))

/-- A fresh connection for a SYN that reached a listener, unless its backlog or the table is
full. -/
def openPassive (ctx : Context) (listener : Fin 32) (source destination : UInt32)
    (s : SegmentView) (isn : UInt32) : Bool × Context :=
  let id := ctx.idFor listener
  let pending := (List.finRange 32).countP
    (fun i => (ctx.connections i).active ∧ (ctx.connections i).parentListener = id)
  if (ctx.connections listener).listenBacklog ≤ pending then (false, ctx)
  else
    match (List.finRange 32).find? (fun i => (ctx.connections i).active = false) with
    | none => (false, ctx)
    | some slot =>
      (true, ctx.set slot {
        active := true
        generation := (ctx.connections slot).generation
        family := .ipv4
        localAddress := destination
        remoteAddress := source
        localPort := s.destinationPort
        remotePort := s.sourcePort
        state := .synReceived
        sendUnacknowledged := isn
        sendNext := isn + 1
        sendWindow := s.window.toUInt32
        remoteMss := if s.mss ≠ 0 then min s.mss 1460 else 1460
        peerSack := s.sackPermitted
        error := 0
        detached := false
        passive := true
        accepted := false
        parentListener := id
        listenBacklog := 0
        receiver := Receiver.fresh (s.sequence + 1) })

/-- `tcp_receive_ipv4` on the result of the parser and of the checksum. -/
def tcpReceiveIpv4 (ctx : Context) (source destination : UInt32) (parsed : Option SegmentView)
    (checksumOk : Bool) (isn : UInt32) : Bool × Context :=
  match parsed, checksumOk with
  | some s, true =>
    match ctx.connectionFor source destination s with
    | some i =>
      let out := (ctx.connections i).tcpInput s
      (out.1, ctx.set i out.2)
    | none =>
      match ctx.listenerFor s with
      | some listener =>
        if s.flags.syn ∧ s.flags.ack = false then
          ctx.openPassive listener source destination s isn
        else (false, ctx)
      | none => (false, ctx)
  | _, _ => (false, ctx)

end Context

end MichCore.Tcp
