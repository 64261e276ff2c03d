import MichCore.TcpCalls

/-!
# The sending side of a connection

`Sender` is the view of a connection that decides what it sends: the sequence numbers, the bytes
that wait, the segments in flight without their timing, and the state. Each function changes it in
one of the ways of `Input`, `Sent` or `Resent`, whatever congestion control and timers do.
-/
namespace MichCore.Tcp

open Endpoint List Function Option

/-- A segment in flight, without its timing. -/
structure Piece where
  sequence : UInt32
  endSequence : UInt32
  flags : Flags
  data : List UInt8
  deriving DecidableEq

def Retransmission.piece (e : Retransmission) : Piece :=
  ⟨e.sequence, e.endSequence, e.flags, e.data⟩

structure Sender where
  state : TcpState
  sendUnacknowledged : UInt32
  sendNext : UInt32
  sendWindow : UInt32
  remoteMss : UInt16
  sendFin : Bool
  sendBuffer : List UInt8
  sendBufferOffset : ℕ
  loans : List Loan
  pieces : Fin 8 → Option Piece

def Endpoint.sender (c : Endpoint) : Sender where
  state := c.state
  sendUnacknowledged := c.sendUnacknowledged
  sendNext := c.sendNext
  sendWindow := c.sendWindow
  remoteMss := c.remoteMss
  sendFin := c.sendFin
  sendBuffer := c.sendBuffer
  sendBufferOffset := c.sendBufferOffset
  loans := c.loans
  pieces i := (c.retransmissions i).map Retransmission.piece

def Piece.Sacks (block : UInt32 × UInt32) (p : Piece) : Prop :=
  ¬ sequenceBefore p.sequence block.1 ∧ ¬ sequenceAfter p.endSequence block.2
  deriving Decidable

def Piece.Sacked (blocks : List (UInt32 × UInt32)) (p : Piece) : Prop :=
  ∃ block ∈ blocks, p.Sacks block
  deriving Decidable

namespace Sender

/-- The bytes that were queued and are in no segment yet. -/
def unsent (x : Sender) : List UInt8 :=
  x.sendBuffer.drop x.sendBufferOffset ++ (x.loans.map Loan.rest).flatten

def flight (x : Sender) : UInt32 := x.sendNext - x.sendUnacknowledged

def Sends (x : Sender) : Prop := x.state = .established ∨ x.state = .closeWait

def setPiece (x : Sender) (i : Fin 8) (p : Option Piece) : Sender :=
  { x with pieces := update x.pieces i p }

/-- The acknowledgement moves `send_unacknowledged`. -/
def AckValid (x : Sender) (acknowledgement : UInt32) : Prop :=
  sequenceAfter acknowledgement x.sendUnacknowledged ∧
    ¬ sequenceAfter acknowledgement x.sendNext
  deriving Decidable

def retireSacked (x : Sender) (blocks : List (UInt32 × UInt32)) : Sender :=
  { x with pieces := fun i => (x.pieces i).filter (fun p => ¬ p.Sacked blocks) }

def acknowledge (x : Sender) (blocks : List (UInt32 × UInt32)) (acknowledgement : UInt32) :
    Sender :=
  let x := x.retireSacked blocks
  if x.AckValid acknowledgement then
    { x with
      sendUnacknowledged := acknowledgement
      pieces := fun i =>
        (x.pieces i).filter (fun p => sequenceAfter p.endSequence acknowledgement) }
  else x

def note (x : Sender) (s : Segment) : Sender :=
  { x with
    sendWindow := s.window.toUInt32
    remoteMss := if s.flags.syn ∧ s.mss ≠ 0 then min s.mss 1460 else x.remoteMss }

/-- What every segment but a reset does before the state is looked at. -/
def hear (x : Sender) (s : Segment) : Sender :=
  if s.flags.ack then (x.note s).acknowledge s.sackBlocks s.acknowledgement else x.note s

/-- The state changes an incoming segment makes once the connection is open; `acked` says
that it acknowledges all we sent. -/
inductive Moves (acked : Prop) : TcpState → TcpState → Prop where
  | stay (state : TcpState) : Moves acked state state
  | finReceived : Moves acked .established .closeWait
  | finAcked (h : acked) : Moves acked .finWait1 .finWait2
  | finAckedReceived (h : acked) : Moves acked .finWait1 .timeWait
  | finCrossed : Moves acked .finWait1 .closing
  | finWaited : Moves acked .finWait2 .timeWait
  | closingAcked (h : acked) : Moves acked .closing .timeWait
  | lastAcked (h : acked) : Moves acked .lastAck .closed

def FinAcked (x : Sender) (s : Segment) : Prop :=
  s.flags.ack ∧ s.acknowledgement = x.sendNext

inductive Input (x : Sender) (s : Segment) : Sender → Prop where
  | ignored (hrst : s.flags.rst) : Input x s x
  | reset (hrst : s.flags.rst) : Input x s { x with state := .closed }
  | synchronized (hrst : s.flags.rst = false) (hacked : x.FinAcked s)
      (hstate : x.state = .synSent ∨ x.state = .synReceived) :
      Input x s { x.hear s with
        state := .established, sendUnacknowledged := s.acknowledgement }
  | heard (state : TcpState) (hrst : s.flags.rst = false)
      (hmoves : Moves (x.FinAcked s) x.state state) :
      Input x s { x.hear s with state := state }

/-- The state after our FIN. -/
def finState (x : Sender) : TcpState :=
  if x.state = .established then .finWait1 else .lastAck

/-- The segment that the first bytes that wait make. -/
def dataPiece (x : Sender) (length : ℕ) (last : Bool) : Piece where
  sequence := x.sendNext
  endSequence := x.sendNext + UInt32.ofNat length + (if last then 1 else 0)
  flags := ⟨last, false, false, true⟩
  data := x.unsent.take length

/-- What a call that may send new segments does. -/
inductive Sent (x : Sender) : Sender → Prop where
  | nothing : Sent x x
  | syn (i : Fin 8) (hstate : x.state = .synSent) (hnone : ∀ i, x.pieces i = none) :
      Sent x (x.setPiece i (some ⟨x.sendUnacknowledged, x.sendUnacknowledged + 1, synFlags, []⟩))
  | fin (i : Fin 8) (hsends : x.Sends) (hfin : x.sendFin) (hempty : x.unsent = [])
      (hfree : x.pieces i = none) :
      Sent x { x.setPiece i (some ⟨x.sendNext, x.sendNext + 1, finAckFlags, []⟩) with
        sendNext := x.sendNext + 1, state := x.finState }
  | data (i : Fin 8) (length : ℕ) (last : Bool) (y : Sender) (hsends : x.Sends)
      (hpos : 0 < length) (hlength : length ≤ x.unsent.length) (hmax : length ≤ 1460)
      (hwindow : x.flight.toNat + length ≤ x.sendWindow.toNat)
      (hlast : last → length = x.unsent.length) (hfree : x.pieces i = none)
      (hpieces : y.pieces = update x.pieces i (some (x.dataPiece length last)))
      (hnext : y.sendNext = (x.dataPiece length last).endSequence)
      (hunsent : y.unsent = x.unsent.drop length)
      (hoffset : x.sendBufferOffset ≤ x.sendBuffer.length →
        y.sendBufferOffset ≤ y.sendBuffer.length)
      (hstate : y.state = if last then x.finState else x.state)
      (hrest : y.sendUnacknowledged = x.sendUnacknowledged ∧ y.sendWindow = x.sendWindow ∧
        y.remoteMss = x.remoteMss ∧ y.sendFin = x.sendFin) : Sent x y

/-- The tail of a segment goes back to the bytes that wait. -/
def rewind (x : Sender) (i : Fin 8) (p : Piece) : Sender :=
  let keep := x.remoteMss.toNat
  let leftover := p.data.length - keep
  { x.setPiece i (some { p with
      data := p.data.take keep
      flags := { p.flags with fin := false }
      endSequence := p.sequence + UInt32.ofNat keep }) with
    sendBuffer := x.sendBuffer.take x.sendBufferOffset ++ p.data.drop keep ++
      x.sendBuffer.drop x.sendBufferOffset
    sendFin := x.sendFin || p.flags.fin
    sendNext := x.sendNext - (if p.flags.fin then 1 else 0) - UInt32.ofNat leftover }

/-- The newest segment is longer than the peer takes now, and its tail fits. -/
def Rewinds (x : Sender) (p : Piece) : Prop :=
  x.remoteMss.toNat < p.data.length ∧ x.loans = [] ∧ x.sendNext = p.endSequence ∧
    p.data.length - x.remoteMss.toNat ≤ 16384 - x.sendBuffer.length

/-- What the resend of entry `i` does. -/
inductive Resent (x : Sender) (i : Fin 8) (p : Piece) : Sender → Prop where
  | whole (mss : UInt16) (hmss : mss ≤ x.remoteMss) : Resent x i p { x with remoteMss := mss }
  | shortened (mss : UInt16) (hmss : mss ≤ x.remoteMss)
      (hrewinds : ({ x with remoteMss := mss } : Sender).Rewinds p) :
      Resent x i p (({ x with remoteMss := mss } : Sender).rewind i p)

/-- An entry of a table in which entry `i` was replaced. -/
theorem update_pieces {pieces : Fin 8 → Option Piece} {i k : Fin 8} {p : Option Piece} {q : Piece}
    (h : update pieces i p k = some q) : k = i ∧ p = some q ∨ k ≠ i ∧ pieces k = some q := by
  by_cases hk : k = i
  · exact .inl ⟨hk, by rwa [hk, update_self] at h⟩
  · exact .inr ⟨hk, by rwa [update_of_ne hk] at h⟩

theorem retireSacked_pieces {x : Sender} {blocks : List (UInt32 × UInt32)} {i : Fin 8}
    {p : Piece} (h : (x.retireSacked blocks).pieces i = some p) : x.pieces i = some p := by
  simp only [retireSacked, filter_eq_some_iff] at h
  exact h.1

theorem acknowledge_pieces {x : Sender} {blocks : List (UInt32 × UInt32)}
    {acknowledgement : UInt32} {i : Fin 8} {p : Piece}
    (h : (x.acknowledge blocks acknowledgement).pieces i = some p) : x.pieces i = some p := by
  unfold acknowledge at h
  simp only at h
  split at h
  · rw [filter_eq_some_iff] at h
    exact retireSacked_pieces h.1
  · exact retireSacked_pieces h

theorem acknowledge_spec (x : Sender) (s : Segment) :
    let x' := x.acknowledge s.sackBlocks s.acknowledgement
    x'.sendNext = x.sendNext ∧ x'.state = x.state ∧ x'.sendWindow = x.sendWindow ∧
    x'.sendUnacknowledged =
      (if x.AckValid s.acknowledgement then s.acknowledgement else x.sendUnacknowledged) ∧
    ∀ i p, x.pieces i = some p → ¬ p.Sacked s.sackBlocks →
      (x.AckValid s.acknowledgement → sequenceAfter p.endSequence s.acknowledgement) →
      x'.pieces i = some p := by
  have hk : ∀ i p, x.pieces i = some p → ¬ p.Sacked s.sackBlocks →
      (x.retireSacked s.sackBlocks).pieces i = some p := by
    intro i p hp hs
    simp only [retireSacked, filter_eq_some_iff]
    exact ⟨hp, by simpa using hs⟩
  unfold acknowledge
  simp only
  by_cases hv : x.AckValid s.acknowledgement
  · have hv' : (x.retireSacked s.sackBlocks).AckValid s.acknowledgement := hv
    rw [if_pos hv, if_pos hv']
    refine ⟨rfl, rfl, rfl, rfl, fun i p hp hs haf => ?_⟩
    rw [filter_eq_some_iff]
    exact ⟨hk i p hp hs, by simpa using haf hv⟩
  · have hv' : ¬ (x.retireSacked s.sackBlocks).AckValid s.acknowledgement := hv
    rw [if_neg hv, if_neg hv']
    exact ⟨rfl, rfl, rfl, rfl, fun i p hp hs _ => hk i p hp hs⟩

/-- A segment that is heard moves `send_unacknowledged` and the window, and takes pieces from
the table; what stays after a new acknowledgement ends after it. -/
theorem hear_eq (x : Sender) (s : Segment) : ∃ una mss pieces,
    x.hear s = { x with
      sendUnacknowledged := una
      sendWindow := s.window.toUInt32
      remoteMss := mss
      pieces := pieces } ∧
    ∀ i p, pieces i = some p → x.pieces i = some p ∧
      (una = x.sendUnacknowledged ∨ sequenceAfter p.endSequence una) := by
  unfold hear
  split
  · unfold acknowledge
    simp only
    split
    · refine ⟨s.acknowledgement, _, _, rfl, fun i p hp => ?_⟩
      rw [filter_eq_some_iff] at hp
      exact ⟨retireSacked_pieces hp.1, .inr (by simpa using hp.2)⟩
    · exact ⟨x.sendUnacknowledged, _, _, rfl, fun i p hp => ⟨retireSacked_pieces hp, .inl rfl⟩⟩
  · exact ⟨x.sendUnacknowledged, _, x.pieces, rfl, fun i p hp => ⟨hp, .inl rfl⟩⟩

theorem hear_state (x : Sender) (s : Segment) : (x.hear s).state = x.state := by
  obtain ⟨una, mss, pieces, heq, -⟩ := x.hear_eq s
  rw [heq]

end Sender

namespace Endpoint

theorem sender_filter (entries : Fin 8 → Option Retransmission) (p : Retransmission → Bool)
    (q : Piece → Bool) (h : ∀ e : Retransmission, p e = q e.piece) :
    (fun i => ((entries i).filter p).map Retransmission.piece) =
      fun i => ((entries i).map Retransmission.piece).filter q := by
  funext i
  cases entries i with
  | none => rfl
  | some e =>
    simp only [Option.filter, map_some, h e]
    split <;> rfl

theorem retireSacked_sender (c : Endpoint) (blocks : List (UInt32 × UInt32)) :
    (c.retireSacked blocks).sender = c.sender.retireSacked blocks := by
  simp only [sender, retireSacked, Sender.retireSacked, Sender.mk.injEq, true_and]
  exact sender_filter _ _ _ fun e => rfl

variable (env : Env)

theorem sampleAll_eq (acknowledgement : UInt32) (slots : List (Fin 8))
    (c : Endpoint) : ∃ smoothed variance rto congestion,
    slots.foldl (sampleEntry env acknowledgement) c = { c with
      smoothedRtt := smoothed, rttVariance := variance, retransmissionTimeout := rto
      congestion := congestion } := by
  induction slots generalizing c with
  | nil => exact ⟨_, _, _, _, rfl⟩
  | cons i is ih =>
    obtain ⟨a, b, d, e, hr⟩ := ih (c.sampleEntry env acknowledgement i)
    rw [foldl_cons, hr]
    unfold sampleEntry
    split
    · split <;> exact ⟨_, _, _, _, rfl⟩
    · exact ⟨_, _, _, _, rfl⟩

section

variable (c : Endpoint)

theorem acknowledgeNew_eq (acknowledgement : UInt32) :
    ∃ smoothed variance rto congestion, c.acknowledgeNew env acknowledgement = { c with
      sendUnacknowledged := acknowledgement, duplicateAcks := 0, pmtuBlackholeRtos := 0
      smoothedRtt := smoothed, rttVariance := variance, retransmissionTimeout := rto
      congestion := congestion
      retransmissions := fun i =>
        (c.retransmissions i).filter (fun e => sequenceAfter e.endSequence acknowledgement) } := by
  obtain ⟨a, b, d, e, h⟩ := sampleAll_eq env acknowledgement (List.finRange 8)
    { c with sendUnacknowledged := acknowledgement, duplicateAcks := 0, pmtuBlackholeRtos := 0 }
  simp only [acknowledgeNew, h]
  exact ⟨a, b, d, _, rfl⟩

theorem acknowledgeNew_sender (acknowledgement : UInt32) :
    (c.acknowledgeNew env acknowledgement).sender = { c.sender with
      sendUnacknowledged := acknowledgement
      pieces := fun i => (c.sender.pieces i).filter
        (fun p => sequenceAfter p.endSequence acknowledgement) } := by
  obtain ⟨a, b, d, e, h⟩ := acknowledgeNew_eq env c acknowledgement
  simp only [h, sender, Sender.mk.injEq, true_and]
  exact sender_filter c.retransmissions (fun e => sequenceAfter e.endSequence acknowledgement)
    (fun p => sequenceAfter p.endSequence acknowledgement) fun e => rfl

theorem fastRetransmit_sender : (c.fastRetransmit env).1.sender = c.sender := by
  unfold fastRetransmit
  simp only
  split
  · rfl
  · next i hi =>
    simp only [sender, setEntry, Sender.mk.injEq, true_and]
    funext k
    by_cases hk : k = i
    · subst hk
      cases c.retransmissions k <;> simp [Retransmission.piece]
    · simp [update_of_ne hk]

theorem acknowledgeAgain_sender : (c.acknowledgeAgain env).1.sender = c.sender := by
  unfold acknowledgeAgain
  simp only
  split
  · exact fastRetransmit_sender env _
  · rfl

variable (s : Segment)

theorem acknowledge_sender :
    (c.acknowledge env s).1.sender = c.sender.acknowledge s.sackBlocks s.acknowledgement := by
  have hs := c.retireSacked_sender s.sackBlocks
  unfold acknowledge Sender.acknowledge
  simp only
  rw [← hs]
  by_cases hv : (c.retireSacked s.sackBlocks).AckValid s.acknowledgement
  · have hv' : (c.retireSacked s.sackBlocks).sender.AckValid s.acknowledgement := hv
    rw [if_pos hv, if_pos hv']
    exact acknowledgeNew_sender env _ _
  have hv' : ¬ (c.retireSacked s.sackBlocks).sender.AckValid s.acknowledgement := hv
  rw [if_neg hv, if_neg hv']
  split
  · exact acknowledgeAgain_sender env _
  · rfl

theorem enter_sender (state : TcpState) :
    (c.enter state).sender = { c.sender with state := state } := rfl

theorem dataAck_sender (fin : Bool) : (c.dataAck env fin).endpoint.sender = c.sender := by
  unfold dataAck
  split
  · rfl
  · split <;> rfl

theorem inputPayload_sender : (c.inputPayload env s).2.endpoint.sender = c.sender := by
  simp only [inputPayload]
  split
  · rfl
  split
  · rfl
  · split
    · exact dataAck_sender env _ _
    · rfl

theorem ourFinAcked_iff : c.ourFinAcked s.toSegmentView = true ↔ c.sender.FinAcked s := by
  simp only [Connection.ourFinAcked, Bool.and_eq_true, beq_iff_eq, Sender.FinAcked, sender]

theorem enterTimeWait_sender :
    (c.enterTimeWait env).1.sender = { c.sender with state := .timeWait } := rfl

theorem inputFinWait_sender (hst : c.state = .finWait1 ∨ c.state = .finWait2) :
    ∃ state, Sender.Moves (c.sender.FinAcked s) c.state state ∧
      (c.inputFinWait env s).endpoint.sender = { c.sender with state := state } := by
  have hp : ∀ d : Endpoint, (d.inputPayload env s).2.endpoint.state = d.state := fun d =>
    congrArg Sender.state (inputPayload_sender env d s)
  unfold inputFinWait
  simp only
  split
  · next hac =>
    have hfin := (ourFinAcked_iff c s).mp hac.2
    have hse := inputPayload_sender env (c.enter .finWait2) s
    split
    · have hw : (inputPayload env (c.enter .finWait2) s).2.endpoint.state = .finWait2 :=
        hp _
      rw [if_pos hw, hac.1]
      refine ⟨.timeWait, .finAckedReceived hfin, ?_⟩
      rw [enterTimeWait_sender, hse]
      rfl
    · rw [hac.1]
      exact ⟨.finWait2, .finAcked hfin, hse⟩
  · have hse := inputPayload_sender env c s
    split
    · split
      · next hw =>
        rw [hp] at hw
        rw [hw]
        refine ⟨.timeWait, .finWaited, ?_⟩
        rw [enterTimeWait_sender, hse]
      · next hw =>
        rw [hp] at hw
        rw [hst.resolve_right hw]
        refine ⟨.closing, .finCrossed, ?_⟩
        rw [enter_sender, hse]
    · exact ⟨c.state, .stay _, hse⟩

theorem inputClosing_sender (r : Reaction) (h : c.inputClosing env s = some r) :
    ∃ state, Sender.Moves (c.sender.FinAcked s) c.state state ∧
      r.endpoint.sender = { c.sender with state := state } := by
  unfold inputClosing at h
  split at h
  · cases h
    exact ⟨_, .stay _, rfl⟩
  · cases h
    exact ⟨_, .stay _, rfl⟩
  · next hs =>
    cases h
    split
    · next ha =>
      rw [hs]
      exact ⟨.closed, .lastAcked ((ourFinAcked_iff c s).mp ha), rfl⟩
    · exact ⟨_, .stay _, rfl⟩
  · next hs =>
    split at h
    · next ha =>
      cases h
      rw [hs]
      exact ⟨.timeWait, .closingAcked ((ourFinAcked_iff c s).mp ha), rfl⟩
    · cases h
      exact ⟨_, .stay _, rfl⟩
  · next hs =>
    cases h
    exact inputFinWait_sender env c s (.inl hs)
  · next hs =>
    cases h
    exact inputFinWait_sender env c s (.inr hs)
  · cases h

theorem inputState_sender :
    (c.sender.FinAcked s ∧ (c.state = .synSent ∨ c.state = .synReceived) ∧
      (c.inputState env s).2.endpoint.sender = { c.sender with
        state := .established, sendUnacknowledged := s.acknowledgement }) ∨
    ∃ state, Sender.Moves (c.sender.FinAcked s) c.state state ∧
      (c.inputState env s).2.endpoint.sender = { c.sender with state := state } := by
  unfold inputState
  split
  · next h => exact .inl ⟨⟨h.2.2.1, h.2.2.2⟩, .inl h.1, rfl⟩
  split
  · next h => exact .inl ⟨⟨h.2.1, h.2.2⟩, .inr h.1, rfl⟩
  refine .inr ?_
  split
  · next r hr => exact inputClosing_sender env c s r hr
  split
  · next hst =>
    have hse := inputPayload_sender env c s
    simp only
    split
    · rw [hst, enter_sender, hse]
      exact ⟨.closeWait, .finReceived, rfl⟩
    · exact ⟨c.state, .stay _, hse⟩
  · exact ⟨_, .stay _, rfl⟩

theorem tcpInput_sender : c.sender.Input s (c.tcpInput env s).2.endpoint.sender := by
  unfold tcpInput
  split
  · next hrst =>
    unfold inputReset
    split
    · simp only
      split <;> exact .reset hrst
    · exact .ignored hrst
  · next hrst =>
    rw [Bool.not_eq_true] at hrst
    simp only
    generalize hd : (if s.flags.ack then (c.note s).acknowledge env s else (c.note s, [])) = d
    have hse : d.1.sender = c.sender.hear s := by
      rw [← hd]
      unfold Sender.hear
      split
      · exact acknowledge_sender env (c.note s) s
      · rfl
    have hk : (c.sender.hear s).sendNext = c.sendNext ∧ (c.sender.hear s).state = c.state := by
      obtain ⟨una, mss, pieces, heq, -⟩ := c.sender.hear_eq s
      rw [heq]
      exact ⟨rfl, rfl⟩
    have hst : d.1.state = c.state := (congrArg Sender.state hse).trans hk.2
    have hac : d.1.sender.FinAcked s ↔ c.sender.FinAcked s := by
      rw [hse]
      exact and_congr_right fun _ => by rw [hk.1]; rfl
    rcases inputState_sender env d.1 s with ⟨h, hop, hout⟩ | ⟨state, hm, hout⟩
    · rw [hout, hse]
      exact .synchronized hrst (hac.mp h) (by rwa [hst] at hop)
    rw [hout, hse]
    rw [hst, propext hac] at hm
    exact .heard state hrst hm

theorem setEntry_sender (i : Fin 8) (e : Option Retransmission) :
    (c.setEntry i e).sender = c.sender.setPiece i (e.map Retransmission.piece) := by
  simp only [sender, setEntry, Sender.setPiece, Sender.mk.injEq, true_and]
  funext k
  by_cases hk : k = i
  · subst hk
    simp
  · simp [update_of_ne hk]

end

variable {c : Endpoint} {i : Fin 8} {src : Source} {e : Retransmission}

theorem trackRetransmission_some {c' : Endpoint} {now sequence : UInt32} {flags : Flags}
    {data : List UInt8} {t : Timer}
    (h : c.trackRetransmission now sequence flags data = some (c', t)) :
    ∃ i, c.retransmissions i = none ∧ t = ⟨.retransmit, i, now + c.retransmissionTimeout⟩ ∧
      ∃ e, c' = c.setEntry i (some e) ∧ e.deadline = t.deadline ∧
        e.piece = ⟨sequence, sequence + UInt32.ofNat data.length + flags.span, flags, data⟩ := by
  unfold trackRetransmission at h
  split at h
  · cases h
  · next i hi =>
    obtain ⟨rfl, rfl⟩ := Prod.mk.inj (Option.some.inj h)
    have hf := find?_some hi
    exact ⟨i, by simpa using hf, rfl, _, rfl, rfl, rfl⟩

theorem pieces_none (h : c.retransmissions i = none) : c.sender.pieces i = none := by
  simp [sender, h]

theorem source_none (h : c.source = none) : c.sender.unsent = [] := by
  unfold source at h
  split at h
  · cases h
  · next hb =>
    split at h
    · next hl =>
      simp only [Sender.unsent, sender, hl, map_nil, flatten_nil, append_nil, drop_eq_nil_iff]
      omega
    · cases h

theorem source_some (h : c.source = some src) :
    src.data <+: c.sender.unsent ∧ src.data.length = src.total - src.position ∧
      (src.moreAfter = false → src.data = c.sender.unsent) := by
  unfold source at h
  split at h
  · cases h
    refine ⟨prefix_append _ _, length_drop, fun hm => ?_⟩
    have hlo : c.loans = [] := by simpa using hm
    simp [Sender.unsent, sender, hlo]
  · next hb =>
    have hd : c.sendBuffer.drop c.sendBufferOffset = [] := drop_eq_nil_iff.mpr (by omega)
    split at h
    · cases h
    · next l ls hlo =>
      cases h
      have hu : c.sender.unsent = l.rest ++ (ls.map Loan.rest).flatten := by
        simp [Sender.unsent, sender, hd, hlo]
      rw [hu]
      refine ⟨prefix_append _ _, length_drop, fun hm => ?_⟩
      have hls : ls = [] := by simpa using hm
      simp [hls]

theorem consume_unsent (h : c.source = some src) {length : ℕ} (hle : length ≤ src.data.length)
    (hpos : 0 < length) : (c.consume length).sender.unsent = c.sender.unsent.drop length := by
  unfold source at h
  unfold consume
  split at h
  · next hb =>
    cases h
    simp only [length_drop] at hle
    rw [if_pos hb]
    split
    · next hend =>
      have hd : length = (c.sendBuffer.drop c.sendBufferOffset).length := by
        rw [length_drop]
        omega
      simp only [Sender.unsent, sender, drop_nil, nil_append]
      rw [hd, drop_left]
    · simp only [Sender.unsent, sender]
      rw [drop_append_of_le_length (by rw [length_drop]; omega), drop_drop]
  · next hb =>
    have hd : c.sendBuffer.drop c.sendBufferOffset = [] := drop_eq_nil_iff.mpr (by omega)
    rw [if_neg hb]
    split at h
    · cases h
    · next l ls hlo =>
      cases h
      have hr : l.rest.length = l.bytes.length - l.position := length_drop
      split
      · next hend =>
        have hall : length = l.rest.length := by omega
        simp only [Sender.unsent, sender, hd, hlo, map_cons, flatten_cons, nil_append]
        rw [hall, drop_left]
      · simp only [Sender.unsent, sender, hd, hlo, map_cons, flatten_cons, nil_append]
        rw [drop_append_of_le_length hle]
        simp only [Loan.rest, drop_drop]

theorem consume_offset (h : c.source = some src) {length : ℕ} (hl : length ≤ src.data.length)
    (ho : c.sendBufferOffset ≤ c.sendBuffer.length) :
    (c.consume length).sendBufferOffset ≤ (c.consume length).sendBuffer.length := by
  unfold source at h
  unfold consume
  split at h
  · next hb =>
    cases h
    simp only [length_drop] at hl
    rw [if_pos hb]
    split
    · exact Nat.le_refl _
    · simp only
      omega
  · next hb =>
    rw [if_neg hb]
    split
    · exact ho
    · split <;> exact ho

section

variable (c)

theorem consume_sender (length : ℕ) :
    (c.consume length).sender = { c.sender with
      sendBuffer := (c.consume length).sendBuffer
      sendBufferOffset := (c.consume length).sendBufferOffset
      loans := (c.consume length).loans } := by
  unfold consume
  split
  · split <;> rfl
  · split
    · rfl
    · split <;> rfl

theorem segmentLength_le (src : Source) :
    c.segmentLength src ≤ src.data.length ∧ c.segmentLength src ≤ 1460 ∧
      c.segmentLength src ≤ (c.limit - c.flight).toNat := by
  unfold segmentLength
  simp only
  split <;> omega

theorem limit_le : c.limit ≤ c.sendWindow := by
  unfold limit
  split
  · exact UInt32.le_refl _
  · next h => exact UInt32.not_lt.mp h

theorem prepareSyn_sender (id : UInt64) (h : c.state = .synSent) :
    c.sender.Sent (c.prepareSyn env id).endpoint.sender := by
  unfold prepareSyn
  split
  · exact .nothing
  · next hac =>
    split
    · exact .nothing
    · next d t ht =>
      obtain ⟨i, hf, -, e, rfl, -, hp⟩ := trackRetransmission_some ht
      rw [setEntry_sender, map_some, hp]
      have hend : c.sendUnacknowledged + UInt32.ofNat ([] : List UInt8).length + synFlags.span =
          c.sendUnacknowledged + 1 := by simp [synFlags, Flags.span]
      rw [hend]
      refine .syn i h fun k => pieces_none ?_
      have hk := find?_eq_none.mp (not_isSome_iff_eq_none.mp hac) k (mem_finRange k)
      simpa using hk

theorem prepareFin_sender (id : UInt64) (hsends : c.Sends)
    (hso : c.source = none) : c.sender.Sent (c.prepareFin env id).endpoint.sender := by
  unfold prepareFin
  split
  · exact .nothing
  · next hfin =>
    split
    · exact .nothing
    · next d t ht =>
      obtain ⟨i, hfr, -, e, rfl, -, hp⟩ := trackRetransmission_some ht
      have hend : c.sendNext + UInt32.ofNat ([] : List UInt8).length + finAckFlags.span =
          c.sendNext + 1 := by simp [finAckFlags, Flags.span]
      have hsende : ({ c.setEntry i (some e) with
          sendNext := c.sendNext + 1, state := c.finState } : Endpoint).sender =
          { c.sender.setPiece i (some ⟨c.sendNext, c.sendNext + 1, finAckFlags, []⟩) with
            sendNext := c.sendNext + 1, state := c.sender.finState } := by
        have h := c.setEntry_sender i (some e)
        rw [map_some, hp, hend] at h
        rw [← h]
        rfl
      have hfin' : c.sendFin = true := by simpa using hfin
      rw [show (Sending.endpoint _).sender = _ from hsende]
      exact .fin i hsends hfin' (source_none hso) (pieces_none hfr)

theorem prepareData_sender (id : UInt64) (src : Source) (hse : c.Sends) (hso : c.source = some src)
    (length : ℕ) (hleng : length ≤ src.data.length) (hmax : length ≤ 1460)
    (hwind : c.flight.toNat + length ≤ c.sendWindow.toNat) :
    c.sender.Sent (c.prepareData env id src length).endpoint.sender := by
  obtain ⟨hstar, hto, hall⟩ := source_some hso
  unfold prepareData
  simp only
  generalize hla : (c.sendFin && !src.moreAfter && src.position + length == src.total) = last
  split
  · exact .nothing
  · next hz =>
    have hpos : 0 < length := Nat.pos_of_ne_zero hz
    split
    · exact .nothing
    · next d t htr =>
      obtain ⟨i, hfr, -, e, rfl, -, hpiece⟩ := trackRetransmission_some htr
      have hta : src.data.take length = c.sender.unsent.take length := by
        obtain ⟨rest, hr⟩ := hstar
        rw [← hr, take_append_of_le_length hleng]
      have hd : e.piece = c.sender.dataPiece length last := by
        rw [hpiece, hta]
        have hlen : (c.sender.unsent.take length).length = length := by
          rw [← hta, length_take]
          omega
        rw [hlen]
        simp [Sender.dataPiece, Flags.span, sender]
      -- The pending bytes are those of `c`: tracking and numbering do not touch them.
      set c₁ : Endpoint := { c.setEntry i (some e) with
        sendNext := c.sendNext + UInt32.ofNat length + (if last then 1 else 0) }
      have hc := consume_unsent (c := c₁) hso hleng hpos
      have ho := consume_offset (c := c₁) hso hleng
      have hk := consume_sender c₁ length
      generalize consume c₁ length = moved at *
      have hpieces : moved.sender.pieces =
          update c.sender.pieces i (some (c.sender.dataPiece length last)) := by
        rw [hk]
        change (c.setEntry i (some e)).sender.pieces = _
        rw [setEntry_sender, map_some, hd]
        rfl
      have hfie := congrArg (fun x : Sender => (x.state, x.sendUnacknowledged, x.sendNext,
        x.sendWindow, x.remoteMss, x.sendFin)) hk
      simp only [Prod.mk.injEq] at hfie
      obtain ⟨hstat, huna, hn, hwin, hmss, hfin⟩ := hfie
      have hla' : last = true → length = c.sender.unsent.length := by
        intro h
        subst h
        simp only [Bool.and_eq_true, Bool.not_eq_true', beq_iff_eq] at hla
        rw [← hall hla.1.2, hto]
        omega
      split
      · next h =>
        subst h
        exact .data i length true _ hse hpos (hleng.trans hstar.length_le) hmax hwind
          hla' (pieces_none hfr) hpieces hn hc ho rfl ⟨huna, hwin, hmss, hfin⟩
      · next h =>
        rw [Bool.not_eq_true] at h
        subst h
        exact .data i length false _ hse hpos (hleng.trans hstar.length_le) hmax hwind
          hla' (pieces_none hfr) hpieces hn hc ho hstat
          ⟨huna, hwin, hmss, hfin⟩

theorem prepareTransmit_sender (id : UInt64) :
    c.sender.Sent (c.prepareTransmit env id).endpoint.sender := by
  unfold prepareTransmit
  split
  · next h => exact prepareSyn_sender env c id h
  split
  · exact .nothing
  · next hse =>
    rw [not_not] at hse
    split
    · next hso => exact prepareFin_sender env c id hse hso
    · next src hso =>
      split
      · split <;> exact .nothing
      simp only
      split
      · exact .nothing
      · next hr =>
        have hle := segmentLength_le { c with persistDeadline := 0, persistInterval := 100 } src
        have hli := limit_le c
        have hr' : c.flight < c.limit := UInt32.not_le.mp hr
        have hsub : (c.limit - c.flight).toNat = c.limit.toNat - c.flight.toNat :=
          UInt32.toNat_sub_of_le _ _ (UInt32.le_of_lt hr')
        refine prepareData_sender env { c with persistDeadline := 0, persistInterval := 100 }
          id src hse hso _ hle.1 hle.2.1 ?_
        have hlen : segmentLength { c with persistDeadline := 0, persistInterval := 100 } src ≤
          (c.limit - c.flight).toNat := hle.2.2
        change c.flight.toNat + _ ≤ c.sendWindow.toNat
        rw [UInt32.le_iff_toNat_le] at hli
        rw [UInt32.lt_iff_toNat_lt] at hr'
        omega

theorem shutdown_sender (id : UInt64) :
    (c.shutdown env id).2.endpoint.sender = c.sender ∨ c.Sends ∧ c.sendFin = false ∧
        ({ c.sender with sendFin := true } : Sender).Sent
          (c.shutdown env id).2.endpoint.sender := by
  unfold shutdown
  split
  · exact .inl rfl
  · next h =>
    rw [not_or, not_not, Bool.not_eq_true] at h
    refine .inr ⟨h.2, h.1, ?_⟩
    simp only
    split
    · exact .nothing
    · exact prepareTransmit_sender env { c with sendFin := true } id

end

/-- The segment size that the next lower path MTU leaves. -/
def loweredMss (c : Endpoint) : ℕ :=
  if c.active ∧ c.family ≠ .none then c.blackholeNextMtu - pmtuOverhead c.family
  else c.remoteMss.toNat

theorem clampPmtu_loweredMss (c : Endpoint)
    (hlow : c.blackholeNextMtu - pmtuOverhead c.family < c.remoteMss.toNat) :
    (c.clampPmtu c.family c.remoteAddress c.remoteAddress6 c.blackholeNextMtu).remoteMss.toNat =
      c.loweredMss := by
  have hmtu : c.blackholeNextMtu = 1280 ∨ c.blackholeNextMtu = 576 := by
    unfold blackholeNextMtu
    split
    · exact .inl rfl
    · split
      · exact .inl rfl
      · exact .inr rfl
  have ho : pmtuOverhead c.family = 60 ∨ pmtuOverhead c.family = 40 := by
    unfold pmtuOverhead
    split
    · exact .inl rfl
    · exact .inr rfl
  unfold clampPmtu loweredMss
  by_cases hp : c.active ∧ c.family ≠ .none
  · have hs : c.HasPeer c.family c.remoteAddress c.remoteAddress6 :=
      ⟨hp.1, rfl, by split <;> rfl⟩
    rw [if_pos ⟨hp.2, by omega, hs, by omega⟩, if_pos hp]
    simp only [UInt16.toNat_ofNat']
    omega
  · rw [if_neg fun h => hp ⟨h.2.2.1.1, h.1⟩, if_neg hp]

/-- A timeout of this entry lowers the path MTU and takes its tail back: it is full-sized and the
second to time out, the newest one, and the send buffer has room for the tail and lends nothing. -/
def Shortens (c : Endpoint) (e : Retransmission) : Prop :=
  c.remoteMss.toNat ≤ e.data.length ∧
    c.blackholeNextMtu - pmtuOverhead c.family < c.remoteMss.toNat ∧
    ¬ c.pmtuBlackholeRtos + 1 < 2 ∧ c.loweredMss < e.data.length ∧ c.loans = [] ∧
    c.sendNext = e.endSequence ∧ e.data.length - c.loweredMss ≤ 16384 - c.sendBuffer.length
  deriving Decidable

/-- A resend of this entry takes its tail back. -/
def Cuts (c : Endpoint) (e : Retransmission) : Prop :=
  e.retries < 5 ∧ e.fastRetransmit = false ∧ c.Shortens e
  deriving Decidable

/-- Where `send_next` falls back to when the entry is cut. -/
def cutNext (c : Endpoint) (e : Retransmission) : UInt32 :=
  c.sendNext - (if e.flags.fin then 1 else 0) - UInt32.ofNat (e.data.length - c.loweredMss)

section

variable (h : c.retransmissions i = some e)
include h

theorem resegmentToMss_sender :
    (c.resegmentToMss i).sender = c.sender ∨
      c.sender.Rewinds e.piece ∧ (c.resegmentToMss i).sender = c.sender.rewind i e.piece := by
  unfold resegmentToMss
  simp only [h]
  split
  · exact .inl rfl
  · next hr =>
    simp only [not_or, not_not, not_le, not_lt] at hr
    refine .inr ⟨⟨hr.1, hr.2.1, hr.2.2.1, hr.2.2.2⟩, ?_⟩
    have hset := c.setEntry_sender i (some { e with
      data := e.data.take c.remoteMss.toNat
      flags := { e.flags with fin := false }
      endSequence := e.sequence + UInt32.ofNat c.remoteMss.toNat })
    have hp := congrArg Sender.pieces hset
    simp only [sender, Sender.rewind, Sender.mk.injEq]
    exact ⟨rfl, rfl, rfl, rfl, rfl, rfl, rfl, rfl, rfl, hp⟩

theorem maybeBlackhole_sender : c.sender.Resent i e.piece (c.maybeBlackhole i).1.sender := by
  have hw : c.sender.Resent i e.piece c.sender := .whole c.sender.remoteMss (UInt16.le_refl _)
  unfold maybeBlackhole
  simp only [h]
  split
  · exact hw
  split
  · exact hw
  split
  · exact hw
  -- The path MTU drops for the whole connection before the entry is cut.
  obtain ⟨mss, hmss, hcl⟩ := clampPmtu_eq
    { c with pmtuBlackholeRtos := c.pmtuBlackholeRtos + 1 } c.family c.remoteAddress
    c.remoteAddress6 c.blackholeNextMtu
  rw [hcl]
  generalize hd : ({ c with
    pmtuBlackholeRtos := c.pmtuBlackholeRtos + 1, remoteMss := mss } : Endpoint) = d
  have hse : d.sender = { c.sender with remoteMss := mss } := by
    rw [← hd]
    rfl
  have he : d.retransmissions i = some e := by
    rw [← hd]
    exact h
  change c.sender.Resent i e.piece (d.resegmentToMss i).sender
  rcases resegmentToMss_sender he with hsa | ⟨hr, hcut⟩
  · rw [hsa, hse]
    exact .whole mss hmss
  · rw [hcut, hse]
    rw [hse] at hr
    exact .shortened mss hmss hr

theorem resegmentToMss_sendNext : (c.resegmentToMss i).sendNext =
    if c.remoteMss.toNat < e.data.length ∧ c.loans = [] ∧ c.sendNext = e.endSequence ∧
        e.data.length - c.remoteMss.toNat ≤ 16384 - c.sendBuffer.length then
      c.sendNext - (if e.flags.fin then 1 else 0) -
        UInt32.ofNat (e.data.length - c.remoteMss.toNat)
    else c.sendNext := by
  unfold resegmentToMss
  simp only [h]
  split
  · next hk =>
    rw [if_neg]
    rintro ⟨hlon, hloa, hn, hr⟩
    rcases hk with hk | hk | hk | hk
    · omega
    · exact hk hloa
    · exact hk hn
    · omega
  · next hcut =>
    simp only [not_or, not_not, not_le, not_lt] at hcut
    rw [if_pos hcut]

theorem maybeBlackhole_sendNext :
    (c.maybeBlackhole i).1.sendNext = if c.Shortens e then c.cutNext e else c.sendNext := by
  unfold maybeBlackhole
  simp only [h]
  split
  · next hsm =>
    rw [if_neg]
    rintro ⟨hfu, -, -, hlon, -⟩
    rcases hsm with hnil | hsm
    · simp [hnil] at hlon
    · omega
  split
  · next hlow => rw [if_neg fun hcut => absurd hcut.2.1 (by omega)]
  split
  · next hfi => rw [if_neg fun hcut => hcut.2.2.1 hfi]
  next hsm hlow hse =>
  let c₁ : Endpoint := { c with pmtuBlackholeRtos := c.pmtuBlackholeRtos + 1 }
  obtain ⟨mss, -, hcl⟩ := clampPmtu_eq c₁ c.family c.remoteAddress c.remoteAddress6
    c.blackholeNextMtu
  have hmss : mss.toNat = c.loweredMss := by
    have hlowe := clampPmtu_loweredMss c₁ (Nat.lt_of_not_le hlow)
    rw [show c₁.clampPmtu c₁.family c₁.remoteAddress c₁.remoteAddress6 c₁.blackholeNextMtu = _ from
      hcl] at hlowe
    exact hlowe
  rw [hcl]
  let c₂ : Endpoint := { c₁ with remoteMss := mss }
  have hsa : c₂.remoteMss.toNat = c.loweredMss := hmss
  change (c₂.resegmentToMss i).sendNext = _
  rw [resegmentToMss_sendNext (c := c₂) (e := e) h, hsa]
  refine if_congr ⟨fun hcut => ⟨?_, by omega, hse, hcut⟩, fun hcut => hcut.2.2.2⟩ rfl rfl
  rw [not_or] at hsm
  omega

theorem setEntry_sender_self {e' : Retransmission}
    (hp : e'.piece = e.piece) : (c.setEntry i (some e')).sender = c.sender := by
  rw [setEntry_sender, map_some, hp]
  have hi : c.sender.pieces i = some e.piece := by simp [sender, h]
  rw [← hi, Sender.setPiece, update_eq_self]

end

theorem resent_isSome {x y : Sender} {p : Piece} (hp : x.pieces i = some p) (h : x.Resent i p y) :
    (y.pieces i).isSome := by
  cases h with
  | whole mss hmss => simp [hp]
  | shortened mss hmss hr => simp [Sender.rewind, Sender.setPiece]

theorem resend_sender (id : UInt64) (h : c.retransmissions i = some e) :
    c.sender.Resent i e.piece (c.resend env id i e).endpoint.sender ∧
      ∃ e' t, (c.resend env id i e).endpoint.retransmissions i = some e' ∧
        (c.resend env id i e).transmit = some t ∧ t.connectionId = id ∧
        t.segment.sequence = e'.sequence ∧ t.segment.flags = e'.flags ∧
        t.segment.payload = e'.data := by
  unfold resend
  simp only
  generalize ht : ({ e with
    retries := e.retries + 1, retransmitted := true, fastRetransmit := false } :
      Retransmission) = tried
  have hp : tried.piece = e.piece := by rw [← ht]; rfl
  have hset : (c.setEntry i (some tried)).sender = c.sender := setEntry_sender_self h hp
  generalize hd : ({ c.setEntry i (some tried) with
    congestion := env.ops.onRto c.remoteMss c.congestion env.now } : Endpoint) = d
  have hds : d.sender = c.sender := by rw [← hd]; exact hset
  have hde : d.retransmissions i = some tried := by
    rw [← hd]
    simp [setEntry]
  have hout : ∀ out : Endpoint × Option ℕ,
      out = (if e.fastRetransmit then (d, none) else d.maybeBlackhole i) →
      c.sender.Resent i e.piece out.1.sender := by
    rintro out rfl
    split
    · rw [hds]
      exact .whole c.sender.remoteMss (UInt16.le_refl _)
    · rw [← hds, ← hp]
      exact maybeBlackhole_sender hde
  specialize hout _ rfl
  generalize (if e.fastRetransmit then (d, none) else d.maybeBlackhole i) = out at *
  have hso : (out.1.sender.pieces i).isSome := resent_isSome (by simp [sender, h]) hout
  simp only [sender, isSome_map] at hso
  obtain ⟨e', he'⟩ := isSome_iff_exists.mp hso
  simp only [he', getD_some]
  refine ⟨?_, _, _, update_self .., rfl, rfl, rfl, rfl, rfl⟩
  have hsen : ∀ deadline, (out.1.setEntry i (some { e' with deadline := deadline })).sender =
      out.1.sender := fun deadline => setEntry_sender_self he' rfl
  rw [hsen]
  exact hout

theorem resend_sendNext (id : UInt64) (hr : e.retries < 5) :
    (c.resend env id i e).endpoint.sendNext = if c.Cuts e then c.cutNext e else c.sendNext := by
  unfold resend
  simp only [setEntry]
  by_cases hf : e.fastRetransmit
  · simp [hf, Cuts]
  · simp only [hf, Bool.false_eq_true, if_false]
    rw [maybeBlackhole_sendNext (e := { e with
      retries := e.retries + 1, retransmitted := true, fastRetransmit := false }) (update_self ..)]
    have hcut : c.Cuts e ↔ c.Shortens e :=
      ⟨fun hcut => hcut.2.2, fun hcut => ⟨hr, by simpa using hf, hcut⟩⟩
    exact if_congr hcut.symm rfl rfl

end Endpoint

namespace Stack

/-- The entry that a tick resends, or gives up, with its connection. -/
def dueEntry (stack : Stack) (call : Call) : Option (Fin 32 × Retransmission) :=
  (stack.fires call).bind fun x =>
    if x.1.kind = .retransmit then
      ((stack.connections x.1.slot).retransmissions x.1.entry).map (x.1.slot, ·)
    else none

/-- What a call does to the sending side of a connection that it does not close; the list
is what it queues there. -/
inductive Changes (stack : Stack) (call : Call) (j : Fin 32) (x : Sender) :
    List UInt8 → Sender → Prop where
  | same : Changes stack call j x [] x
  | slower (mss : UInt16) (hmss : mss ≤ x.remoteMss) :
      Changes stack call j x [] { x with remoteMss := mss }
  | input (s : Segment) (htarget : stack.target call = some (j, s)) (y : Sender)
      (h : x.Input s y) : Changes stack call j x [] y
  | queued (data : List UInt8) (hsends : x.Sends) (hfin : x.sendFin = false)
      (hloans : x.loans = []) :
      Changes stack call j x data { x with sendBuffer := x.sendBuffer ++ data }
  | lent (loan : Loan) (hsends : x.Sends) (hfin : x.sendFin = false)
      (hposition : loan.position = 0) :
      Changes stack call j x loan.bytes { x with loans := x.loans ++ [loan] }
  | sent (y : Sender) (h : x.Sent y) : Changes stack call j x [] y
  | closing (y : Sender) (hsends : x.Sends) (hfin : x.sendFin = false)
      (h : ({ x with sendFin := true } : Sender).Sent y) : Changes stack call j x [] y
  | resent (i : Fin 8) (p : Piece) (y : Sender) (hpiece : x.pieces i = some p)
      (hfires : ∃ d e, stack.fires call = some (d, e) ∧ d.slot = j ∧ d.kind = .retransmit ∧
        d.entry = i ∧ e.endpoint.sender = y) (h : x.Resent i p y) : Changes stack call j x [] y
  | exhausted (i : Fin 8) : Changes stack call j x [] { x.setPiece i none with state := .closed }
  | aborted : Changes stack call j x []
      { x with state := .closed, loans := [], pieces := fun _ => none }

/-- What a call adds to the bytes that slot `j` has to send. -/
def accepts (stack : Stack) (call : Call) (j : Fin 32) : List UInt8 :=
  match call with
  | .queueSend id data =>
    if stack.byId id = some j ∧ (stack.perform call).1.code = 0 then data else []
  | .queueSendPages id _ _ bytes _ _ =>
    if stack.byId id = some j ∧ (stack.perform call).1.code = 0 then bytes else []
  | _ => []

variable {id : UInt64} {j : Fin 32} {stack : Stack} {call : Call}

theorem onId_code (h : stack.byId id = some j) (f : Endpoint → Bool × Endpoint) :
    (Outcome.ofBool ((stack.onId id f).1.getD false)).code = 0 ↔ (f (stack.connections j)).1 := by
  simp [onId, h, Outcome.ofBool]

theorem onId_connections {α : Type} (h : stack.byId id = some j) (f : Endpoint → α × Endpoint) :
    (stack.onId id f).2.connections j = (f (stack.connections j)).2 := by
  simp [onId, h]

theorem onId_connections_of_ne {α : Type} (h : stack.byId id ≠ some j)
    (f : Endpoint → α × Endpoint) :
    (stack.onId id f).2.connections j = stack.connections j := by
  unfold onId
  split
  · rfl
  · next i hi =>
    refine put_connections_of_ne _ (fun hj => h ?_) _
    rw [hi, hj]

/-- What a call that queues bytes does to the slot of its connection, and to no other. -/
theorem onId_changes {f : Endpoint → Bool × Endpoint} {data : List UInt8}
    (h : ∀ c : Endpoint, Changes stack call j c.sender (if (f c).1 then data else [])
      (f c).2.sender) :
    Changes stack call j (stack.connections j).sender
      (if stack.byId id = some j ∧ (Outcome.ofBool ((stack.onId id f).1.getD false)).code = 0
        then data else [])
      ((stack.onId id f).2.connections j).sender := by
  by_cases hid : stack.byId id = some j
  · rw [onId_connections hid]
    simp only [onId_code hid, hid, true_and]
    exact h _
  · rw [onId_connections_of_ne hid, if_neg fun h => hid h.1]
    exact .same

theorem queueSend_changes (stack : Stack) (j : Fin 32) (id : UInt64) (data : List UInt8) :
    Changes stack (.queueSend id data) j (stack.connections j).sender
      (stack.accepts (.queueSend id data) j)
      ((stack.perform (.queueSend id data)).2.connections j).sender := by
  refine onId_changes (f := fun c => c.queueSend data) fun c => ?_
  unfold queueSend
  split
  · exact .same
  · next h =>
    simp only [not_or, not_not, Bool.not_eq_true] at h
    exact .queued data h.2.2.1 h.1 h.2.1

theorem queueSendPages_changes (stack : Stack) (j : Fin 32) (id : UInt64) (pages offset : ℕ)
    (bytes : List UInt8) (live pinned : Bool) :
    Changes stack (.queueSendPages id pages offset bytes live pinned) j (stack.connections j).sender
      (stack.accepts (.queueSendPages id pages offset bytes live pinned) j)
      ((stack.perform (.queueSendPages id pages offset bytes live pinned)).2.connections
        j).sender := by
  refine onId_changes (f := fun c => c.queueSendPages pages offset bytes live pinned) fun c => ?_
  unfold queueSendPages
  simp only
  split
  · exact .same
  · next h =>
    simp only [not_or, not_not, Bool.not_eq_true] at h
    exact .lent ⟨bytes, offset, 0⟩ h.2.2.1 h.2.1 rfl

theorem clampPmtu_changes (c : Endpoint) (family : Family) (address4 : UInt32) (address6 : Address6)
    (ipMtu : ℕ) :
    Changes stack call j c.sender [] (c.clampPmtu family address4 address6 ipMtu).sender := by
  obtain ⟨mss, hmss, h⟩ := clampPmtu_eq c family address4 address6 ipMtu
  rw [h]
  exact .slower mss hmss

theorem shutdown_changes (env : Env) (c : Endpoint) (id : UInt64) :
    Changes stack call j c.sender [] (c.shutdown env id).2.endpoint.sender := by
  rcases shutdown_sender env c id with h | ⟨hs, hfin, h⟩
  · rw [h]
    exact .same
  · exact .closing _ hs hfin h

theorem queueReceivePages_sender (c : Endpoint) (pages offset length : ℕ) (live pinned : Bool) :
    (c.queueReceivePages pages offset length live pinned).2.sender = c.sender := by
  simp only [queueReceivePages, Connection.queueReceivePages]
  split <;> rfl

theorem fire_changes {env : Env} {c : Endpoint} {d : Deadline} {e : Ended}
    (hf : stack.fires call = some (d, e)) (hsl : d.slot = j)
    (h : c.fire env id d.timer = .ended e) (hac : e.endpoint.active) :
    Changes stack call j c.sender [] e.endpoint.sender := by
  unfold fire at h
  split at h
  · next hk =>
    unfold fireRetransmit at h
    split at h
    · cases h
    · next entry he =>
      split at h
      · cases h
      split at h
      · cases h
        simp only
        split
        · next hd =>
          simp only [hd, if_true] at hac
          exact absurd hac Bool.false_ne_true
        have hset := c.setEntry_sender d.timer.entry none
        change Changes stack call j c.sender []
          { (c.setEntry d.timer.entry none).sender with state := .closed }
        rw [hset]
        exact .exhausted d.timer.entry
      · cases h
        have hp : c.sender.pieces d.timer.entry = some entry.piece := by
          simp [sender, he]
        exact .resent d.timer.entry entry.piece _ hp ⟨d, _, hf, hsl, hk, rfl, rfl⟩
          (resend_sender env id he).1
  · unfold firePersist at h
    split at h
    · cases h
    split at h
    · cases h
    · cases h
      exact .same
  · unfold fireTimeWait at h
    split at h
    · cases h
    · cases h
      exact absurd hac Bool.false_ne_true
  · unfold fireAckFilter at h
    split at h
    · cases h
    · cases h
      exact .same

/-- Where a tick leaves `send_next` of the connection that it ends on. -/
theorem fires_sendNext {d : Deadline} {ended : Ended} (hfires : stack.fires call = some (d, ended))
    (hk : d.kind = .retransmit) :
    ∃ e, stack.dueEntry call = some (d.slot, e) ∧ ended.endpoint.sendNext =
      if (stack.connections d.slot).Cuts e then (stack.connections d.slot).cutNext e
      else (stack.connections d.slot).sendNext := by
  have hfired : ∃ env id c₀, (c₀ = stack.connections d.slot ∨
      c₀ = (stack.connections d.slot).clearAckFilter) ∧
      c₀.fireRetransmit env id d.entry d.deadline = .ended ended := by
    cases call with
    | tick now =>
      obtain ⟨hs, hend⟩ := nextDue_spec (stack.deadlines.length + 1) { stack with now := now }
      obtain ⟨-, -, env, hfire⟩ := hend d ended hfires
      unfold fire at hfire
      rw [show d.timer.kind = .retransmit from hk] at hfire
      exact ⟨env, _, _, hs d.slot, hfire⟩
    | _ => cases hfires
  obtain ⟨env, id, c₀, hc₀, hfire⟩ := hfired
  have hent : c₀.retransmissions = (stack.connections d.slot).retransmissions := by
    rcases hc₀ with rfl | rfl <;> rfl
  have hcuts : ∀ e, (if c₀.Cuts e then c₀.cutNext e else c₀.sendNext) =
      if (stack.connections d.slot).Cuts e then (stack.connections d.slot).cutNext e
      else (stack.connections d.slot).sendNext := by
    rcases hc₀ with rfl | rfl <;> exact fun e => rfl
  unfold fireRetransmit at hfire
  split at hfire
  · cases hfire
  next e he =>
  rw [hent] at he
  refine ⟨e, by simp [dueEntry, hfires, hk, he], ?_⟩
  rw [← hcuts]
  split at hfire
  · cases hfire
  split at hfire
  · next hr =>
    cases hfire
    have hno : ¬ c₀.Cuts e := fun hcut => absurd hcut.1 (by omega)
    rw [if_neg hno]
    simp only
    split <;> rfl
  · next hr =>
    cases hfire
    exact resend_sendNext env id (by omega)

theorem does_changes {c c' : Endpoint} (hse : ∀ id data, call ≠ .queueSend id data)
    (hp : ∀ id pages offset bytes live pinned,
      call ≠ .queueSendPages id pages offset bytes live pinned)
    (h : Does stack call j c c') (ha : c.active) (ha' : c'.active) :
    Changes stack call j c.sender [] c'.sender := by
  cases h with
  | kept | backlog | accepted | read | errorTaken | detached | skipped => exact .same
  | opened c' hfr => exact absurd ha (by simp [hfr])
  | received s ht => exact .input s ht _ (tcpInput_sender _ c s)
  | queued id data hca => exact absurd hca (hse id data)
  | lent id pages offset bytes live pinned hca =>
    exact absurd hca (hp id pages offset bytes live pinned)
  | granted pages offset length live pinned =>
    rw [queueReceivePages_sender]
    exact .same
  | prepared env id => exact .sent _ (prepareTransmit_sender env c id)
  | shut env id | shutDetached env id => exact shutdown_changes env c id
  | closed env | closedTwice env env' => exact absurd ha' Bool.false_ne_true
  | aborted error => exact .aborted
  | clamped family address4 address6 ipMtu => exact clampPmtu_changes c ..
  | skippedClamped family address4 address6 ipMtu => exact clampPmtu_changes c.clearAckFilter ..
  | fired env id d e c₀ hfi hsl _ hc₀ he =>
    rcases hc₀ with rfl | rfl
    · exact fire_changes hfi hsl he ha'
    · exact fire_changes (c := c.clearAckFilter) hfi hsl he ha'

theorem perform_changes (hac : (stack.connections j).active)
    (hac' : ((stack.perform call).2.connections j).active) :
    Changes stack call j (stack.connections j).sender (stack.accepts call j)
      ((stack.perform call).2.connections j).sender := by
  have hd := perform_does stack call j
  cases call with
  | queueSend id data => exact queueSend_changes stack j id data
  | queueSendPages id pages offset bytes live pinned =>
    exact queueSendPages_changes stack j id pages offset bytes live pinned
  | _ => exact does_changes (by rintro _ _ ⟨⟩) (by rintro _ _ _ _ _ _ ⟨⟩) hd hac hac'

end Stack

namespace Sender

/-- Nothing was queued yet. -/
structure Blank (x : Sender) : Prop where
  sendBuffer : x.sendBuffer = []
  sendBufferOffset : x.sendBufferOffset = 0
  loans : x.loans = []
  sendFin : x.sendFin = false
  sendWindow : x.sendWindow.toNat ≤ 65535

/-- The sending side of a connection that was just opened. -/
inductive Started (x : Sender) : Prop where
  | listening (hblank : x.Blank) (hstate : x.state = .listen)
      (hnext : x.sendNext = x.sendUnacknowledged) (hpieces : ∀ i, x.pieces i = none)
  | connecting (hblank : x.Blank) (hstate : x.state = .synSent)
      (hnext : x.sendNext = x.sendUnacknowledged + 1) (hpieces : ∀ i, x.pieces i = none)
  | answering (hblank : x.Blank) (hstate : x.state = .synReceived)
      (hnext : x.sendNext = x.sendUnacknowledged + 1) (i : Fin 8)
      (hpieces : x.pieces = update (fun _ => none) i
        (some ⟨x.sendUnacknowledged, x.sendUnacknowledged + 1, synAckFlags, []⟩))

end Sender

namespace Stack

theorem tracked_started {c tracked : Endpoint} {now : UInt32} {timer : Timer}
    (hb : c.sender.Blank) (hs : c.state = .synReceived)
    (hne : c.sendNext = c.sendUnacknowledged + 1) (hpieces : ∀ i, c.sender.pieces i = none)
    (h : c.trackRetransmission now c.sendUnacknowledged synAckFlags [] = some (tracked, timer)) :
    tracked.sender.Started := by
  obtain ⟨i, -, -, e, rfl, -, hpiece⟩ := trackRetransmission_some h
  have hend : c.sendUnacknowledged + UInt32.ofNat ([] : List UInt8).length + synAckFlags.span =
      c.sendUnacknowledged + 1 := by simp [synAckFlags, Flags.span]
  rw [hend] at hpiece
  rw [setEntry_sender, map_some, hpiece]
  refine .answering ⟨hb.1, hb.2, hb.3, hb.4, hb.5⟩ hs hne i ?_
  have hno : c.sender.pieces = fun _ => none := funext hpieces
  simp only [Sender.setPiece, hno]
  rfl

theorem opens_started {stack : Stack} {c c' : Endpoint} (h : Opens stack c c') :
    c'.sender.Started := by
  have hw : (65535 : UInt32).toNat ≤ 65535 := by decide
  cases h with
  | listen address port | listenIpv6 address port =>
    exact .listening ⟨rfl, rfl, rfl, rfl, hw⟩ rfl rfl fun i => rfl
  | connect local_ localPort remote remotePort isn
  | connectIpv6 local_ localPort remote remotePort isn =>
    exact .connecting ⟨rfl, rfl, rfl, rfl, hw⟩ rfl rfl fun i => rfl
  | answer s isn source destination listener hnew hr tracked timer ht
  | answerIpv6 s isn source destination listener hnew hr tracked timer ht =>
    refine tracked_started ⟨rfl, rfl, rfl, rfl, ?_⟩ rfl rfl (fun i => rfl) ht
    have := s.window.toNat_lt
    simp [sender, answering]
    omega

end Stack

end MichCore.Tcp
