import MichCore.TcpProjection
import MichCore.TcpReassembly

/-!
# Segments that know nothing of the connection

A segment whose acknowledgement number is outside of what is in flight and whose sequence number
is outside of the window was guessed. `Ignores` lists what it must look like to leave a
synchronized connection as it is: the window and the options are read before any number is
checked, SACK blocks are always used, and a segment ahead of `receive_next` is kept however far
ahead it is.
-/
namespace MichCore.Tcp

open Endpoint List

/-- ESTABLISHED and the states after it. -/
def TcpState.synchronized : TcpState → Bool
  | .established | .finWait1 | .finWait2 | .closeWait | .lastAck | .timeWait | .closing => true
  | .closed | .listen | .synSent | .synReceived => false

/-- The states in which a segment reaches the receive buffer. -/
def TcpState.reading : TcpState → Bool
  | .established | .finWait1 | .finWait2 => true
  | _ => false

theorem sequenceBefore.not_after {a b : UInt32} (h : sequenceBefore a b) : ¬ sequenceAfter a b :=
  fun h' => absurd (h.trans_lt h'.2) (lt_irrefl _)

namespace Receiver

/-- `queue_out_of_order` keeps the segment: the first slot that is free or holds the same
sequence number is free. -/
def Stores (r : Receiver) (s : SegmentView) : Prop :=
  s.payload.length ≤ 1460 ∧
    ((finRange 8).find? (fun i =>
      (r.outOfOrder i).all (fun e => e.sequence = s.sequence))).any
        (fun i => (r.outOfOrder i).isNone)
  deriving Decidable

/-- The bytes are refused before the first one is written: there is no room for them, or the
pages of the first grant end where its next byte would go. -/
def Refuses (r : Receiver) (data : List UInt8) : Prop :=
  r.room < data.length ∨ data ≠ [] ∧
    ∃ g ∈ r.grants.head?, g.position < g.length ∧ g.pages * 4096 ≤ g.offset + g.position

/-- The entry of a slot, if it continues the stream. -/
def waits (r : Receiver) (i : Fin 8) : Option OutOfOrder :=
  (r.outOfOrder i).filter (fun e => e.sequence = r.receiveNext)

/-- A segment at `receive_next` finds nothing to do: it carries nothing, the window is closed and
the first entry that waits there, if any, is refused; or its own bytes are. -/
def Idle (r : Receiver) (s : SegmentView) : Prop :=
  (s.payload = [] ∧ s.flags.fin = false ∧ r.windowSpace = 0 ∧
    ∀ e ∈ (finRange 8).findSome? r.waits, r.Refuses e.data) ∨ r.Refuses s.payload

theorem queueScan_eq_self (s : SegmentView) (is : List (Fin 8)) (r : Receiver) :
    queueScan s is r = r ↔
      (is.find? (fun i => (r.outOfOrder i).all (fun e => e.sequence = s.sequence))).any
        (fun i => (r.outOfOrder i).isNone) = false := by
  induction is with
  | nil => simp [queueScan]
  | cons i is ih =>
    cases hsl : r.outOfOrder i with
    | none =>
      have hset : r.setSlot i (some ⟨s.sequence, s.flags, s.payload⟩) ≠ r := by
        intro h
        have hi := congrFun (congrArg Receiver.outOfOrder h) i
        simp [setSlot, hsl] at hi
      simp [queueScan, hsl, hset]
    | some e =>
      by_cases hseq : e.sequence = s.sequence
      · simp [queueScan, hsl, hseq]
      · simp [queueScan, hsl, hseq, ih]

theorem queueOutOfOrder_eq_self (r : Receiver) (s : SegmentView) :
    r.queueOutOfOrder s = r ↔ ¬ r.Stores s := by
  unfold queueOutOfOrder Stores
  split
  · exact ⟨fun _ h => absurd h.1 (by omega), fun _ => rfl⟩
  · next hl =>
    rw [queueScan_eq_self]
    simp [Nat.not_lt.mp hl]

/-- The number of bytes that were taken so far. -/
def received (r : Receiver) : ℕ := r.granted.length + r.buffer.length

theorem fillGrants_split (grants : List Grant) (data : List UInt8) :
    (fillGrants grants data).written ++ (fillGrants grants data).rest = data := by
  induction grants generalizing data with
  | nil => rfl
  | cons g gs ih =>
    cases data with
    | nil => rfl
    | cons byte bytes =>
      simp only [fillGrants]
      split
      · exact take_append_drop _ _
      · split
        · simp only [append_assoc, ih, take_append_drop]
        · exact take_append_drop _ _

theorem appendReceive_received (r : Receiver) (data : List UInt8) :
    r.received ≤ (r.appendReceive data).2.received ∧ ((r.appendReceive data).1 = true →
        (r.appendReceive data).2.received = r.received + data.length) := by
  have hs := congrArg length (fillGrants_split r.grants data)
  rw [length_append] at hs
  unfold appendReceive
  split
  · exact ⟨Nat.le_refl _, nofun⟩
  simp only
  split
  · simp only [received, length_append]
    exact ⟨by omega, fun _ => by omega⟩
  · simp only [received, length_append]
    exact ⟨by omega, nofun⟩

theorem appendReceive_receiveNext (r : Receiver) (data : List UInt8) :
    (r.appendReceive data).2.receiveNext = r.receiveNext := by
  unfold appendReceive
  split
  · rfl
  · simp only
    split <;> rfl

theorem appendReceive_nil (r : Receiver) : r.appendReceive [] = (true, r) := by
  have hf : fillGrants r.grants [] = ⟨r.grants, [], [], true⟩ := by
    cases r.grants <;> rfl
  simp [appendReceive, hf]

theorem fillGrants_length_le (grants : List Grant) (data : List UInt8) :
    (fillGrants grants data).grants.length ≤ grants.length := by
  induction grants generalizing data with
  | nil => simp [fillGrants]
  | cons g gs ih =>
    cases data with
    | nil => exact Nat.le_refl _
    | cons byte bytes =>
      simp only [fillGrants]
      split
      · exact Nat.le_refl _
      · split
        · exact (ih _).trans (Nat.le_succ _)
        · exact Nat.le_refl _

theorem fillGrants_fails_iff (grants : List Grant) (data : List UInt8) :
    (fillGrants grants data).ok = false ∧ (fillGrants grants data).grants = grants ∧
        (fillGrants grants data).written = [] ↔
      data ≠ [] ∧ ∃ g ∈ grants.head?, g.position < g.length ∧
        g.pages * 4096 ≤ g.offset + g.position := by
  cases grants with
  | nil => simp [fillGrants]
  | cons g gs =>
    cases data with
    | nil => simp [fillGrants]
    | cons byte bytes =>
      simp only [fillGrants, Grant.write, head?_cons, Option.mem_def, Option.some.injEq,
        exists_eq_left', ne_eq, reduceCtorEq, not_false_eq_true, true_and]
      generalize hn : (byte :: bytes).length = n
      have hpos : 0 < n := by
        rw [← hn]
        exact Nat.succ_pos _
      split_ifs with hw hend
      · -- the first grant is filled, so one grant fewer is left
        refine iff_of_false (fun h => ?_) (by omega)
        have hle := fillGrants_length_le gs ((byte :: bytes).drop (min n (g.length - g.position)))
        rw [h.2.1, length_cons] at hle
        omega
      · exact iff_of_false (fun h => h.1) (by omega)
      · simp only [true_and, take_eq_nil_iff, reduceCtorEq, or_false]
        omega

theorem appendReceive_eq_refused (r : Receiver) (data : List UInt8) :
    r.appendReceive data = (false, r) ↔ r.Refuses data := by
  rw [Refuses, ← fillGrants_fails_iff]
  unfold appendReceive room
  by_cases hf : r.grantSpace + 16384 - r.buffer.length < data.length
  · simp [hf]
  rcases r with ⟨next, eof, buffer, grants, granted, slots⟩
  cases hok : (fillGrants grants data).ok <;> simp [hf, hok]

variable {r : Receiver}

theorem mergePass_skip {i : Fin 8} (h : r.waits i = none) (is : List (Fin 8)) (progress : Bool) :
    mergePass (i :: is) progress r = mergePass is progress r := by
  simp only [waits, Option.filter_eq_none_iff, decide_eq_true_eq] at h
  cases hs : r.outOfOrder i with
  | none => simp only [mergePass, hs]
  | some e => simp only [mergePass, hs, ne_eq, h e hs, not_false_eq_true, if_true]

/-- A pass ends at the first entry that waits, or takes it and goes on. -/
theorem mergePass_waits (is : List (Fin 8)) (progress : Bool) :
    match is.findSome? r.waits with
    | none => mergePass is progress r = (some progress, r)
    | some e =>
      (∃ left, r.appendReceive e.data = (false, left) ∧ mergePass is progress r = (none, left)) ∨
      ∃ taken r₁ js, r.appendReceive e.data = (true, taken) ∧ Merges r r₁ ∧
        mergePass is progress r = mergePass js true r₁ := by
  induction is with
  | nil => rfl
  | cons i is ih =>
    rw [findSome?_cons]
    cases hw : r.waits i with
    | none =>
      rw [mergePass_skip hw]
      exact ih
    | some e =>
      obtain ⟨hsl, hse⟩ := Option.filter_eq_some_iff.mp hw
      rw [decide_eq_true_eq] at hse
      rcases ha : r.appendReceive e.data with ⟨_ | _, taken⟩
      · refine .inl ⟨taken, ha, ?_⟩
        simp [mergePass, hsl, hse, ha]
      · refine .inr ⟨taken, _, is, ha, ⟨i, e, taken, hsl, hse, ha, rfl⟩, ?_⟩
        simp [mergePass, hsl, hse, ha]

theorem occupied_mergePass_le (is : List (Fin 8)) (progress : Bool) (r : Receiver) :
    (mergePass is progress r).2.occupied.card ≤ r.occupied.card := by
  have hm : ∀ {r₁}, Relation.ReflTransGen Merges r r₁ → r₁.occupied.card ≤ r.occupied.card :=
    fun h => by
      rcases Relation.reflTransGen_iff_eq_or_transGen.mp h with rfl | h
      · exact Nat.le_refl _
      · exact (occupied_lt_of_merges h).le
  rcases mergePass_cases is progress r with ⟨r₁, r', hrun, ⟨i, e, -, -, hf⟩, heq⟩ |
    ⟨r', hrun, heq⟩ | ⟨heq, -⟩
  · have hs := appendReceive_outOfOrder r₁ e.data
    rw [hf] at hs
    rw [heq, occupied, hs]
    exact hm hrun
  · rw [heq]
    exact hm hrun.to_reflTransGen
  · rw [heq]

theorem occupied_mergeLoop_le (fuel : ℕ) (r : Receiver) :
    (mergeLoop fuel r).occupied.card ≤ r.occupied.card := by
  induction fuel generalizing r with
  | zero => exact Nat.le_refl _
  | succ fuel ih =>
    have hp := occupied_mergePass_le (finRange 8) false r
    rw [mergeLoop]
    split
    · next heq =>
      rw [heq] at hp
      exact (ih _).trans hp
    · next heq =>
      rw [heq] at hp
      exact hp

/-- The merge leaves the receiver as it is when nothing waits at `receive_next`, or when the
first entry that does is refused. -/
theorem mergeOutOfOrder_eq_self (r : Receiver) :
    r.mergeOutOfOrder = r ↔ ∀ e ∈ (finRange 8).findSome? r.waits, r.Refuses e.data := by
  have hf := mergePass_waits (r := r) (finRange 8) false
  rw [mergeOutOfOrder, mergeLoop]
  cases hw : (finRange 8).findSome? r.waits with
  | none =>
    rw [hw] at hf
    rw [hf]
    exact iff_of_true rfl (by simp)
  | some e =>
    rw [hw] at hf
    simp only [Option.mem_def, Option.some.injEq, forall_eq', ← appendReceive_eq_refused]
    rcases hf with ⟨left, hap, heq⟩ | ⟨taken, r₁, js, hap, hm, heq⟩
    · rw [hap, heq, Prod.mk.injEq, eq_self_iff_true, true_and]
    · refine iff_of_false (fun hse => ?_) (by rw [hap]; simp)
      have hle := hm.occupied_lt
      have hp := occupied_mergePass_le js true r₁
      have hsa := congrArg (fun r => r.occupied.card) hse
      rw [heq] at hsa
      split at hsa
      · next r' hgo =>
        simp only [hgo] at hp
        have hlo := occupied_mergeLoop_le 8 r'
        omega
      · next hgo =>
        simp only [hgo] at hp
        omega

theorem Merges.received_le {r' : Receiver} (h : Merges r r') : r.received ≤ r'.received := by
  obtain ⟨i, e, taken, -, -, hap, rfl⟩ := h
  have hle := (appendReceive_received r e.data).1
  rw [hap] at hle
  exact hle

theorem mergeOutOfOrder_received (r : Receiver) : r.received ≤ r.mergeOutOfOrder.received := by
  obtain ⟨r₁, hm, hend⟩ := r.mergeOutOfOrder_spec
  have hle : r.received ≤ r₁.received := by
    clear hend
    induction hm with
    | refl => exact Nat.le_refl _
    | tail _ hs ih => exact ih.trans hs.received_le
  rcases hend with ⟨i, e, -, -, hf⟩ | ⟨heq, -⟩
  · have hf' := (appendReceive_received r₁ e.data).1
    rw [hf] at hf'
    exact hle.trans hf'
  · rw [heq]
    exact hle

theorem mergeOutOfOrder_receiveNext (r : Receiver)
    (h : r.mergeOutOfOrder.outOfOrder = r.outOfOrder) :
    r.mergeOutOfOrder.receiveNext = r.receiveNext := by
  obtain ⟨r₁, hm, hend⟩ := r.mergeOutOfOrder_spec
  have hslots : r.mergeOutOfOrder.outOfOrder = r₁.outOfOrder ∧
      r.mergeOutOfOrder.receiveNext = r₁.receiveNext := by
    rcases hend with ⟨i, e, -, -, hf⟩ | ⟨heq, -⟩
    · have hslot := appendReceive_outOfOrder r₁ e.data
      have hn := appendReceive_receiveNext r₁ e.data
      rw [hf] at hslot hn
      exact ⟨hslot, hn⟩
    · exact ⟨congrArg outOfOrder heq, congrArg receiveNext heq⟩
  rw [hslots.2]
  rcases Relation.reflTransGen_iff_eq_or_transGen.mp hm with heq | ht
  · rw [heq]
  have hlt := occupied_lt_of_merges ht
  have hsa : r₁.occupied = r.occupied := by
    unfold occupied
    rw [← hslots.1, h]
  rw [hsa] at hlt
  exact absurd hlt (lt_irrefl _)

/-- The bytes from `receive_next` on are appended, the segment is passed and what is queued
behind it merged. -/
def Absorbs (r : Receiver) (s : SegmentView) (r' : Receiver) : Prop :=
  ∃ taken, Takes r (s.payload.drop (r.receiveNext - s.sequence).toNat) taken ∧
    r' = (({ taken with receiveNext := s.sequence } : Receiver).stepOver s).mergeOutOfOrder

/-- A segment that begins at or before `receive_next` and ends behind it is absorbed exactly if
it begins there: otherwise its new bytes are dropped. -/
theorem overlap_absorbed_iff (c : Connection) (s : SegmentView) (hstate : c.state = .established)
    (hr : c.receiver.Sound) (hack : s.flags.ack = true) (hsyn : s.flags.syn = false)
    (hrst : s.flags.rst = false) (hsmall : s.payload.length < 2 ^ 16)
    (hover : (c.receiver.receiveNext - s.sequence).toNat < s.payload.length)
    (hfits : s.payload.length - (c.receiver.receiveNext - s.sequence).toNat ≤ c.receiver.room) :
    Absorbs c.receiver s (c.tcpInput s).2.receiver ↔ s.sequence = c.receiver.receiveNext := by
  rw [(Connection.tcpInput_established hstate hrst).1]
  generalize c.receiver = r at *
  constructor
  · rintro ⟨taken, htakes, heq⟩
    by_contra hne
    have hbe : sequenceBefore s.sequence r.receiveNext := by
      have hne' : s.sequence.toNat ≠ r.receiveNext.toNat := fun h => hne (UInt32.toNat_inj.mp h)
      have hlef := s.sequence.toNat_lt
      have hri := r.receiveNext.toNat_lt
      unfold sequenceBefore
      rw [UInt32.toNat_sub] at hover ⊢
      omega
    have hk : (r.inputPayload s).2 = r := by
      unfold inputPayload
      rw [if_neg (by simp [hack, hsyn]), if_neg hbe.not_after, if_pos hbe]
    have hgro := mergeOutOfOrder_received
      (({ taken with receiveNext := s.sequence } : Receiver).stepOver s)
    rw [← heq, hk] at hgro
    obtain ⟨written, rest, hd, hgra, hbu, -⟩ := htakes.split
    have hlen := congrArg length hd
    have htaken : taken.received ≤ r.received := hgro
    simp only [received, hgra, hbu, length_append, length_drop] at htaken hlen
    omega
  · intro hseq
    obtain ⟨taken, hap, htakes⟩ := appendReceive_takes hr  (by simpa [hseq] using hfits)
    refine ⟨taken, by simpa [hseq] using htakes, ?_⟩
    rw [inputPayload_inOrder s hack hsyn hseq hap, hseq, ← htakes.receiveNext]

theorem overlap_absorbed_next :
    Absorbs (oneConnection.connections 0).receiver (peerSegment 1 [10] false)
      ((oneConnection.connections 0).tcpInput (peerSegment 1 [10] false)).2.receiver :=
  (overlap_absorbed_iff _ _ rfl (fresh_sound _) rfl rfl rfl (by decide) (by decide)
    (by decide)).mpr rfl

/-- The byte 10 is new and there is room for it; the segment is answered and nothing changes. -/
theorem overlap_dropped :
    let r := (oneConnection.connections 0).receiver
    let s := peerSegment 0 [9, 10] false
    s.payload.drop (r.receiveNext - s.sequence).toNat = [10] ∧ 1 ≤ r.room ∧
      ((oneConnection.connections 0).tcpInput s).2.receiver.receiveNext = r.receiveNext ∧
      ((oneConnection.connections 0).tcpInput s).2.receiver.buffer = r.buffer := by
  decide +kernel

theorem inputPayload_refused {left : Receiver} (s : SegmentView) (hack : s.flags.ack = true)
    (hsyn : s.flags.syn = false) (hse : s.sequence = r.receiveNext)
    (hap : r.appendReceive s.payload = (false, left)) :
    r.inputPayload s = (.rejected, left) := by
  unfold inputPayload
  rw [if_neg (by simp [hack, hsyn]), hse, if_neg (by simp [sequenceAfter]),
    if_neg (by simp [sequenceBefore]), hap]
  rfl

/-- In order, the receiving side stays as it is for a segment without content only, or for one
that does not fit. -/
theorem inputPayload_inOrder_eq_self {s : SegmentView} (hack : s.flags.ack = true)
    (hsyn : s.flags.syn = false) (hse : s.sequence = r.receiveNext) (h : (r.inputPayload s).2 = r) :
    r.appendReceive s.payload = (false, r) ∨
      (s.payload = [] ∧ s.flags.fin = false ∧ r.mergeOutOfOrder = r) := by
  have hg := appendReceive_received r s.payload
  have hne := appendReceive_receiveNext r s.payload
  have hsl := appendReceive_outOfOrder r s.payload
  rcases hap : r.appendReceive s.payload with ⟨ok, taken⟩
  rw [hap] at hg hne hsl
  simp only at hg hne hsl
  cases ok with
  | false =>
    rw [inputPayload_refused s hack hsyn hse hap] at h
    exact .inl (congrArg (Prod.mk false) h)
  | true =>
    rw [inputPayload_inOrder s hack hsyn hse hap] at h
    have hm : (taken.stepOver s).mergeOutOfOrder = r := h
    have hnil : s.payload = [] := by
      have hle := mergeOutOfOrder_received (taken.stepOver s)
      rw [hm] at hle
      have hsa : taken.received ≤ r.received := hle
      rw [hg.2 rfl] at hsa
      exact eq_nil_of_length_eq_zero (by omega)
    have hfin : s.flags.fin = false := by
      have hk := mergeOutOfOrder_receiveNext (taken.stepOver s)
        (by rw [hm]; exact hsl.symm)
      rw [hm] at hk
      by_contra hfin
      rw [Bool.not_eq_false] at hfin
      simp [stepOver, advance, hnil, hne, hfin] at hk
    rw [hnil, appendReceive_nil] at hap
    cases hap
    refine .inr ⟨hnil, hfin, ?_⟩
    simpa [stepOver, advance, hnil, hfin] using hm

end Receiver

namespace Endpoint

/-- The number is not in `[send_unacknowledged, send_next]`. -/
def AckOutside (c : Endpoint) (acknowledgement : UInt32) : Prop :=
  c.sendNext - c.sendUnacknowledged < acknowledgement - c.sendUnacknowledged
  deriving Decidable

/-- The number is not in `[receive_next, receive_next + receive_window)`. -/
def SequenceOutside (c : Endpoint) (sequence : UInt32) : Prop :=
  c.receiveWindow.toNat ≤ (sequence - c.receiver.receiveNext).toNat
  deriving Decidable

/-- What the reassembly must find: a segment ahead is not kept, one in order is idle. -/
def PassesOver (c : Endpoint) (s : Segment) : Prop :=
  if s.sequence = c.receiver.receiveNext then c.receiver.Idle s.toSegmentView
  else ¬ (sequenceAfter s.sequence c.receiver.receiveNext ∧ c.receiver.Stores s.toSegmentView)

/-- A guessed segment that leaves the connection as it is. A reset must miss `receive_next`.
Any other segment must repeat the window, a SYN the options as well, no SACK block may cover
an entry, and the reassembly must not take anything. -/
def Ignores (c : Endpoint) (s : Segment) : Prop :=
  if s.flags.rst then s.sequence ≠ c.receiver.receiveNext
  else
    s.window.toUInt32 = c.sendWindow ∧
    (s.flags.syn → (s.mss ≠ 0 → min s.mss 1460 = c.remoteMss) ∧ s.sackPermitted = c.peerSack) ∧
    (s.flags.ack → ∀ i e, c.retransmissions i = some e → ¬ Sacked s.sackBlocks e) ∧
    (c.state.reading → s.flags.ack → s.flags.syn = false → c.PassesOver s)

variable {acknowledgement : UInt32} {c : Endpoint} {s : Segment}

section

variable (h : c.AckOutside acknowledgement)
include h

theorem AckOutside.ne_sendNext : acknowledgement ≠ c.sendNext := by
  rintro rfl
  exact absurd h (UInt32.lt_irrefl _)

theorem AckOutside.ne_sendUnacknowledged : acknowledgement ≠ c.sendUnacknowledged := by
  rintro rfl
  rw [AckOutside, UInt32.sub_self] at h
  exact absurd h UInt32.not_lt_zero

theorem AckOutside.not_ackValid : ¬ c.AckValid acknowledgement := by
  rintro ⟨haf, hn⟩
  rw [AckOutside, UInt32.lt_iff_toNat_lt] at h
  have hvia := SerialNumber.sub_via c.sendUnacknowledged acknowledgement c.sendNext
  unfold sequenceAfter at haf hn
  omega

end

section

variable (env : Env)

theorem acknowledge_outside (h : c.AckOutside s.acknowledgement) :
    c.acknowledge env s = (c.retireSacked s.sackBlocks, []) := by
  have hv : ¬ (c.retireSacked s.sackBlocks).AckValid s.acknowledgement := h.not_ackValid
  have hag : s.acknowledgement ≠ (c.retireSacked s.sackBlocks).sendUnacknowledged :=
    h.ne_sendUnacknowledged
  simp only [acknowledge]
  rw [if_neg hv, if_neg hag]

theorem inputState_reading (hs : c.state.reading) (hack : s.acknowledgement ≠ c.sendNext) :
    (∃ state deadline, (c.inputState env s).2.endpoint =
      { (c.inputPayload env s).2.endpoint with
        state := state, timeWaitDeadline := deadline }) ∧
    ((c.inputPayload env s).1 ≠ .fin → (c.inputState env s).2 = (c.inputPayload env s).2) := by
  have hfin : c.ourFinAcked s.toSegmentView = false := by simp [Connection.ourFinAcked, hack]
  cases hc : c.state with
  | established =>
    simp only [inputState, inputClosing, hc, reduceCtorEq, false_and, if_false, if_true]
    constructor
    · split
      · exact ⟨_, _, rfl⟩
      · exact ⟨_, _, rfl⟩
    · exact fun hne => if_neg hne
  | finWait1 | finWait2 =>
    simp only [inputState, inputClosing, inputFinWait, hc, hfin, reduceCtorEq, false_and,
      and_false, Bool.false_eq_true, if_false]
    constructor
    · split
      · split
        · exact ⟨_, _, rfl⟩
        · exact ⟨_, _, rfl⟩
      · exact ⟨_, _, rfl⟩
    · exact fun hne => if_neg hne
  | _ => simp [TcpState.reading, hc] at hs

theorem inputState_other (hsy : c.state.synchronized)
    (hst : c.state.reading = false) (hack : s.acknowledgement ≠ c.sendNext) :
    (c.inputState env s).2.endpoint = c ∧ (c.inputState env s).2.timers = [] := by
  have hfin : c.ourFinAcked s.toSegmentView = false := by simp [Connection.ourFinAcked, hack]
  cases hc : c.state <;> simp only [hc, TcpState.synchronized, TcpState.reading,
    Bool.false_eq_true, Bool.true_eq_false] at hsy hst <;>
    simp [inputState, inputClosing, hc, hfin]

theorem dataAck_endpoint (c : Endpoint) (fin : Bool) : ∃ pending until_,
    (c.dataAck env fin).endpoint = { c with ackPending := pending, ackFilterUntil := until_ } := by
  unfold dataAck
  split
  · exact ⟨_, _, rfl⟩
  · split
    · exact ⟨_, _, rfl⟩
    · exact ⟨_, _, rfl⟩

theorem inputPayload_endpoint (c : Endpoint) (s : Segment) :
    ∃ pending until_, (c.inputPayload env s).2.endpoint =
      { c with
        receiver := (c.receiver.inputPayload s.toSegmentView).2
        receiveWindow :=
          if s.sequence = c.receiver.receiveNext ∧
              (c.receiver.inputPayload s.toSegmentView).1 ≠ .rejected then
            (c.receiver.inputPayload s.toSegmentView).2.windowSpace
          else c.receiveWindow
        ackPending := pending
        ackFilterUntil := until_ } := by
  simp only [inputPayload]
  split
  · exact ⟨_, _, rfl⟩
  split
  · exact ⟨_, _, rfl⟩
  · split
    · exact dataAck_endpoint ..
    · exact ⟨_, _, rfl⟩

theorem inputState_fields (hsy : c.state.synchronized) (hack : s.acknowledgement ≠ c.sendNext) :
    (c.inputState env s).2.endpoint.sendWindow = c.sendWindow ∧
    (c.inputState env s).2.endpoint.remoteMss = c.remoteMss ∧
    (c.inputState env s).2.endpoint.peerSack = c.peerSack ∧
    (c.inputState env s).2.endpoint.retransmissions = c.retransmissions := by
  cases hst : c.state.reading with
  | false =>
    rw [(inputState_other env hsy hst hack).1]
    exact ⟨rfl, rfl, rfl, rfl⟩
  | true =>
    obtain ⟨state, deadline, he⟩ := (inputState_reading env hst hack).1
    obtain ⟨pending, until_, hp⟩ := inputPayload_endpoint env c s
    rw [he, hp]
    exact ⟨rfl, rfl, rfl, rfl⟩

theorem inputState_receiver (hs : c.state.reading) (hack : s.acknowledgement ≠ c.sendNext) :
    (c.inputState env s).2.endpoint.receiver = (c.receiver.inputPayload s.toSegmentView).2 ∧
    (c.inputState env s).2.endpoint.receiveWindow =
      if s.sequence = c.receiver.receiveNext ∧
          (c.receiver.inputPayload s.toSegmentView).1 ≠ .rejected then
        (c.receiver.inputPayload s.toSegmentView).2.windowSpace
      else c.receiveWindow := by
  obtain ⟨state, deadline, he⟩ := (inputState_reading env hs hack).1
  obtain ⟨pending, until_, hp⟩ := inputPayload_endpoint env c s
  rw [he, hp]
  exact ⟨rfl, rfl⟩

theorem inputPayload_quiet (hrec : (c.receiver.inputPayload s.toSegmentView).2 = c.receiver)
    (hfin : (c.receiver.inputPayload s.toSegmentView).1 ≠ .fin)
    (hidle : s.sequence = c.receiver.receiveNext →
      (c.receiver.inputPayload s.toSegmentView).1 ≠ .rejected →
        s.payload = [] ∧ s.flags.fin = false ∧ c.receiver.windowSpace = c.receiveWindow) :
    (c.inputPayload env s).1 ≠ .fin ∧ (c.inputPayload env s).2.endpoint = c ∧
      (c.inputPayload env s).2.timers = [] := by
  have hw : (if s.sequence = c.receiver.receiveNext ∧
      (c.receiver.inputPayload s.toSegmentView).1 ≠ .rejected then c.receiver.windowSpace
      else c.receiveWindow) = c.receiveWindow := by
    split
    · next h => exact (hidle h.1 h.2).2.2
    · rfl
  simp only [inputPayload, hrec, hw]
  split
  · exact ⟨hfin, rfl, rfl⟩
  · next hrej =>
    split
    · exact ⟨hfin, rfl, rfl⟩
    · next hs =>
      obtain ⟨hnil, hfl, -⟩ := hidle (not_not.mp hs) hrej
      rw [if_neg (by simp [hnil, hfl])]
      exact ⟨hfin, rfl, rfl⟩

theorem acknowledge_keeps (c : Endpoint) (s : Segment) :
    (c.acknowledge env s).1.state = c.state ∧ (c.acknowledge env s).1.receiver = c.receiver := by
  rw [acknowledge_toConnection, Connection.acknowledge]
  split <;> exact ⟨rfl, rfl⟩

theorem inputPayload_below (h : sequenceBefore s.sequence c.receiver.receiveNext) :
    ∃ code a, c.inputPayload env s = (code, ⟨c, some a, []⟩) ∧ code ≠ .fin ∧ a.flags.ack ∧
      a.acknowledgement = c.receiver.receiveNext := by
  have ho : s.sequence ≠ c.receiver.receiveNext := fun heq => by
    simp [heq, sequenceBefore] at h
  simp only [inputPayload, Receiver.inputPayload, if_neg h.not_after, if_pos h, ho]
  split
  · exact ⟨.rejected, _, by simp; rfl, by decide, rfl, rfl⟩
  · exact ⟨.processed, _, by simp; rfl, by decide, rfl, rfl⟩

end

/-- A segment behind `receive_next` is acknowledged exactly in the states that read, and in
TIME_WAIT if it carries a FIN. -/
theorem duplicate_acknowledged_iff (env : Env) (c : Endpoint) (s : Segment)
    (hsync : c.state.synchronized) (hrst : s.flags.rst = false)
    (h : sequenceBefore s.sequence c.receiver.receiveNext) :
    (∃ a ∈ (c.tcpInput env s).2.response, a.flags.ack ∧
      a.acknowledgement = c.receiver.receiveNext) ↔
    c.state.reading ∨ c.state = .timeWait ∧ s.flags.fin := by
  obtain ⟨d, hd, hst, hre⟩ : ∃ d : Endpoint,
      (c.tcpInput env s).2.response = (d.inputState env s).2.response ∧
        d.state = c.state ∧ d.receiver = c.receiver := by
    simp only [tcpInput, hrst, Bool.false_eq_true, if_false]
    split
    · exact ⟨_, rfl, acknowledge_keeps env (c.note s) s⟩
    · exact ⟨_, rfl, rfl, rfl⟩
  rw [hd, ← hst, ← hre]
  rw [← hre] at h
  rw [← hst] at hsync
  obtain ⟨code, a, heq, hco, hack, hn⟩ := inputPayload_below env h
  cases hc : d.state with
  | established =>
    simp [inputState, inputClosing, hc, heq, hco, TcpState.reading, hack, hn]
  | finWait1 | finWait2 =>
    have h' : sequenceBefore s.sequence (d.enter .finWait2).receiver.receiveNext := h
    obtain ⟨code', a', heq', hco', hack', hn'⟩ := inputPayload_below env h'
    have hn'' : a'.acknowledgement = d.receiver.receiveNext := hn'
    by_cases hfin : d.ourFinAcked s.toSegmentView <;>
      simp [inputState, inputClosing, inputFinWait, hc, hfin, heq, heq', hco, hco', hack,
        hack', hn, hn'', TcpState.reading]
  | timeWait => simp [inputState, inputClosing, hc, TcpState.reading, response, ackFlags]
  | closeWait | lastAck | closing =>
    by_cases hfin : d.ourFinAcked s.toSegmentView <;>
      simp [inputState, inputClosing, hc, hfin, TcpState.reading]
  | _ => simp [TcpState.synchronized, hc] at hsync

theorem duplicate_acknowledged_established :
    let c := { (Stack.boot.connections 0) with state := .established }
    let s := Stack.fromPeer 0xFFFFFFFF 0 ackFlags [1]
    ∃ a ∈ (c.tcpInput Stack.boot.env s).2.response, a.flags.ack ∧
      a.acknowledgement = c.receiver.receiveNext :=
  (duplicate_acknowledged_iff Stack.boot.env _ _ rfl rfl (by decide)).mpr (.inl rfl)

/-- What the head of `tcp_input` and the acknowledgement leave. -/
def heard (c : Endpoint) (s : Segment) : Endpoint :=
  if s.flags.ack then (c.note s).retireSacked s.sackBlocks else c.note s

theorem tcpInput_outside (env : Env) (hrst : s.flags.rst = false)
    (hack : c.AckOutside s.acknowledgement) :
    (c.tcpInput env s).2 = ((c.heard s).inputState env s).2 := by
  have hack' : (c.note s).AckOutside s.acknowledgement := hack
  simp only [tcpInput, hrst, heard, Bool.false_eq_true, if_false]
  split
  · rw [acknowledge_outside env hack']
    rfl
  · rfl

theorem retiredBytes_eq_zero {retired : Retransmission → Bool}
    (h : ∀ i e, c.retransmissions i = some e → retired e = false) : c.retiredBytes retired = 0 := by
  unfold retiredBytes
  rw [map_congr_left (g := fun _ => (0 : UInt32)) fun i _ => by
    cases he : c.retransmissions i with
    | none => rfl
    | some e => simp [h i e he]]
  decide

theorem heard_eq_self (hw : s.window.toUInt32 = c.sendWindow)
    (hsyn : s.flags.syn → (s.mss ≠ 0 → min s.mss 1460 = c.remoteMss) ∧ s.sackPermitted = c.peerSack)
    (hsa : s.flags.ack → ∀ i e, c.retransmissions i = some e → ¬ Sacked s.sackBlocks e) :
    c.heard s = c := by
  have hn : c.note s = c := by
    have hmss : (if s.flags.syn ∧ s.mss ≠ 0 then min s.mss 1460 else c.remoteMss) =
        c.remoteMss := by
      split
      · next h => exact (hsyn h.1).1 h.2
      · rfl
    have hp : (if s.flags.syn then s.sackPermitted else c.peerSack) = c.peerSack := by
      split
      · next h => exact (hsyn h).2
      · rfl
    simp only [note, Connection.note, hw, hmss, hp]
  unfold heard
  rw [hn]
  split
  · next hf =>
    have hen : (fun i => (c.retransmissions i).filter
        (fun e => ¬ Sacked s.sackBlocks e)) = c.retransmissions := by
      funext i
      cases he : c.retransmissions i with
      | none => rfl
      | some e => simp [hsa hf i e he]
    have hb : c.retiredBytes (fun e => Sacked s.sackBlocks e) = 0 :=
      retiredBytes_eq_zero fun i e he => by simp [hsa hf i e he]
    simp only [retireSacked, hen, hb, UInt32.add_zero]
  · rfl

theorem heard_fields (c : Endpoint) (s : Segment) :
    (c.heard s).sendWindow = s.window.toUInt32 ∧
    (c.heard s).remoteMss = (if s.flags.syn ∧ s.mss ≠ 0 then min s.mss 1460 else c.remoteMss) ∧
    (c.heard s).peerSack = (if s.flags.syn then s.sackPermitted else c.peerSack) ∧
    (s.flags.ack → ∀ i, (c.heard s).retransmissions i =
      (c.retransmissions i).filter (fun e => ¬ Sacked s.sackBlocks e)) ∧
    (c.heard s).receiver = c.receiver ∧ (c.heard s).receiveWindow = c.receiveWindow ∧
    (c.heard s).state = c.state ∧ (c.heard s).sendNext = c.sendNext := by
  unfold heard
  split
  · exact ⟨rfl, rfl, rfl, fun _ _ => rfl, rfl, rfl, rfl, rfl⟩
  · next h => exact ⟨rfl, rfl, rfl, fun hack => absurd hack h, rfl, rfl, rfl, rfl⟩

end Endpoint

namespace Stack

theorem put_self (stack : Stack) (j : Fin 32) : stack.put j (stack.connections j) = stack := by
  have he : (if (stack.connections j).active ∧ (stack.connections j).active = false then
      stack.timerEpoch + 1 else stack.timerEpoch) = stack.timerEpoch :=
    if_neg fun h => absurd h.1 (by simp [h.2])
  simp only [put, he, Function.update_eq_self]

theorem input_eq_self {stack : Stack} {j : Fin 32} {s : Segment}
    (he : ((stack.connections j).tcpInput stack.env s).2.endpoint = stack.connections j)
    (ht : ((stack.connections j).tcpInput stack.env s).2.timers = []) :
    (stack.input j s).2.2 = stack := by
  simp only [input, he, ht, put_self]
  rfl

end Stack

namespace Endpoint

theorem PassesOver.quiet {c : Endpoint} {s : Segment} (h : c.PassesOver s)
    (hse : c.SequenceOutside s.sequence) (hack : s.flags.ack = true) (hsyn : s.flags.syn = false) :
    (c.receiver.inputPayload s.toSegmentView).2 = c.receiver ∧
      (c.receiver.inputPayload s.toSegmentView).1 ≠ .fin ∧
      (s.sequence = c.receiver.receiveNext →
        (c.receiver.inputPayload s.toSegmentView).1 ≠ .rejected →
          s.payload = [] ∧ s.flags.fin = false ∧ c.receiver.windowSpace = c.receiveWindow) := by
  unfold PassesOver at h
  split at h
  · next hnex =>
    -- The window is closed, or the segment would be in it.
    have hc : c.receiveWindow = 0 := by
      rw [SequenceOutside, hnex, UInt32.sub_self] at hse
      rw [← UInt16.toNat_inj]
      exact Nat.le_zero.mp hse
    rcases h with ⟨hnil, hfin, hsp, hw⟩ | hfu
    · have hi := Receiver.inputPayload_inOrder s.toSegmentView hack hsyn hnex
        (by rw [hnil, Receiver.appendReceive_nil])
      have hste : c.receiver.stepOver s.toSegmentView = c.receiver := by
        simp [Receiver.stepOver, Receiver.advance, hnil, hfin]
      rw [hste, c.receiver.mergeOutOfOrder_eq_self.mpr hw] at hi
      simp only [hi, hfin, hnil, hsp, hc]
      simp
    · rw [Receiver.inputPayload_refused s.toSegmentView hack hsyn hnex
        ((Receiver.appendReceive_eq_refused _ _).mpr hfu)]
      exact ⟨rfl, by simp, fun _ hne => absurd rfl hne⟩
  · next hnex =>
    by_cases haf : sequenceAfter s.sequence c.receiver.receiveNext
    · rw [Receiver.inputPayload_ahead hack hsyn haf]
      have hk := (c.receiver.queueOutOfOrder_eq_self s.toSegmentView).mpr
        fun hsto => h ⟨haf, hsto⟩
      exact ⟨hk, by simp, fun heq => absurd heq hnex⟩
    · have hb : sequenceBefore s.sequence c.receiver.receiveNext := by
        have hne : s.sequence - c.receiver.receiveNext ≠ 0 := fun h => hnex (by grind)
        rw [← UInt32.toNat_inj.ne, UInt32.toNat_zero] at hne
        unfold sequenceAfter at haf
        unfold sequenceBefore
        omega
      have hi : c.receiver.inputPayload s.toSegmentView = (.processed, c.receiver) := by
        unfold Receiver.inputPayload
        rw [if_neg (by simp [hack, hsyn]), if_neg haf, if_pos hb]
      rw [hi]
      exact ⟨rfl, by simp, fun heq => absurd heq hnex⟩

theorem passesOver_of_eq_self {c : Endpoint} {s : Segment}
    (hse : c.SequenceOutside s.sequence) (hack : s.flags.ack = true)
    (hsyn : s.flags.syn = false)
    (hr : (c.receiver.inputPayload s.toSegmentView).2 = c.receiver)
    (hw : s.sequence = c.receiver.receiveNext →
      (c.receiver.inputPayload s.toSegmentView).1 ≠ .rejected →
      c.receiver.windowSpace = c.receiveWindow) : c.PassesOver s := by
  unfold PassesOver
  split
  · next hne =>
    have hc : c.receiveWindow = 0 := by
      rw [SequenceOutside, hne, UInt32.sub_self] at hse
      rw [← UInt16.toNat_inj]
      exact Nat.le_zero.mp hse
    rcases Receiver.inputPayload_inOrder_eq_self hack hsyn hne hr with
      hfu | ⟨hnil, hfin, hm⟩
    · exact .inr ((Receiver.appendReceive_eq_refused _ _).mp hfu)
    have hi := Receiver.inputPayload_inOrder s.toSegmentView hack hsyn hne
      (by rw [hnil, Receiver.appendReceive_nil])
    refine .inl ⟨hnil, hfin, ?_, c.receiver.mergeOutOfOrder_eq_self.mp hm⟩
    rw [hw hne (by rw [hi]; simp [hfin]), hc]
  · next hne =>
    rintro ⟨haf, hst⟩
    rw [Receiver.inputPayload_ahead hack hsyn haf] at hr
    exact (c.receiver.queueOutOfOrder_eq_self s.toSegmentView).mp hr hst

end Endpoint

namespace Endpoint

variable {c : Endpoint} {s : Segment} (env : Env)

theorem Ignores.tcpInput (h : c.Ignores s) (hsync : c.state.synchronized)
    (hack : c.AckOutside s.acknowledgement) (hse : c.SequenceOutside s.sequence) :
    (c.tcpInput env s).2.endpoint = c ∧ (c.tcpInput env s).2.timers = [] := by
  unfold Ignores at h
  split at h
  · next hrst =>
    have href : ¬ c.AcceptsReset s := by
      unfold AcceptsReset
      rw [if_neg (by rintro hst; simp [hst, TcpState.synchronized] at hsync)]
      exact h
    simp only [Endpoint.tcpInput, hrst, if_true, inputReset, if_neg href, and_self]
  · next hrst =>
    obtain ⟨hw, hsyn, hsac, hp⟩ := h
    rw [tcpInput_outside env (by simpa using hrst) hack, heard_eq_self hw hsyn hsac]
    cases hst : c.state.reading with
    | false => exact inputState_other env hsync hst hack.ne_sendNext
    | true =>
      obtain ⟨hfin, hsam⟩ : (c.inputPayload env s).1 ≠ .fin ∧
          (c.inputPayload env s).2.endpoint = c ∧ (c.inputPayload env s).2.timers = [] := by
        by_cases hfl : s.flags.ack = true ∧ s.flags.syn = false
        · obtain ⟨hrec, hfin, hidle⟩ :=
            (hp hst hfl.1 hfl.2).quiet hse hfl.1 hfl.2
          exact inputPayload_quiet env hrec hfin hidle
        have hin : c.receiver.inputPayload s.toSegmentView = (.rejected, c.receiver) :=
          if_pos (by
            rw [not_and_or, Bool.not_eq_true, Bool.not_eq_false] at hfl
            exact hfl)
        exact inputPayload_quiet env (by rw [hin]) (by rw [hin]; simp)
          fun _ hne => absurd (by rw [hin]) hne
      rw [(inputState_reading env hst hack.ne_sendNext).2 hfin]
      exact hsam

theorem ignores_of_tcpInput (hsync : c.state.synchronized)
    (hack : c.AckOutside s.acknowledgement) (hse : c.SequenceOutside s.sequence)
    (h : (c.tcpInput env s).2.endpoint = c) : c.Ignores s := by
  unfold Ignores
  split
  · next hrst =>
    intro hnex
    have hacc : c.AcceptsReset s := by
      unfold AcceptsReset
      rw [if_neg (by rintro hst; simp [hst, TcpState.synchronized] at hsync)]
      exact hnex
    simp only [Endpoint.tcpInput, hrst, if_true, inputReset, if_pos hacc] at h
    have hc : c.state = .closed := by
      rw [← h]
      split <;> rfl
    simp [hc, TcpState.synchronized] at hsync
  · next hrst =>
    rw [tcpInput_outside env (by simpa using hrst) hack] at h
    obtain ⟨hw, hmss, hp, hen, hrec, hsp, hst, hnex⟩ := c.heard_fields s
    have hack' : s.acknowledgement ≠ (c.heard s).sendNext := by
      rw [hnex]
      exact hack.ne_sendNext
    obtain ⟨hw', hmss', hp', hen'⟩ := inputState_fields env (hst.symm ▸ hsync) hack'
    rw [h] at hw' hmss' hp' hen'
    rw [hmss] at hmss'
    rw [hp] at hp'
    refine ⟨(hw'.trans hw).symm, ?_, ?_, ?_⟩
    · intro hsyn
      rw [if_pos hsyn] at hp'
      refine ⟨fun hne => ?_, hp'.symm⟩
      rw [if_pos ⟨hsyn, hne⟩] at hmss'
      exact hmss'.symm
    · intro hf i e he hsa
      have hi := congrFun hen' i
      rw [hen hf i, he] at hi
      have hk := (Option.filter_eq_some_iff.mp hi.symm).2
      simp [hsa] at hk
    · intro hrea hf hsyn
      obtain ⟨hrec', hsp'⟩ := inputState_receiver env (hst.symm ▸ hrea) hack'
      rw [h, hrec] at hrec' hsp'
      rw [hsp, ← hrec'] at hsp'
      refine passesOver_of_eq_self hse hf hsyn hrec'.symm fun hnex hrej => ?_
      rw [if_pos ⟨hnex, hrej⟩] at hsp'
      exact hsp'.symm

end Endpoint

namespace Stack

/-- A guessed segment for a synchronized connection leaves the context as it is exactly when
the connection ignores it. -/
theorem blind_unchanged_iff (stack : Stack) (call : Call) (j : Fin 32) (s : Segment)
    (htarget : stack.target call = some (j, s)) (hsync : (stack.connections j).state.synchronized)
    (hack : (stack.connections j).AckOutside s.acknowledgement)
    (hsequence : (stack.connections j).SequenceOutside s.sequence) :
    (stack.perform call).2 = stack ↔ (stack.connections j).Ignores s := by
  rw [(perform_target htarget).1]
  constructor
  · intro h
    refine ignores_of_tcpInput stack.env hsync hack hsequence ?_
    rw [← input_connections, h]
  · intro h
    obtain ⟨he, hti⟩ := h.tcpInput stack.env hsync hack hsequence
    exact input_eq_self he hti

/-- A late byte with an acknowledgement of nothing, after a handshake. -/
theorem blind_unchanged_late :
    ((boot.run (handshake 1460)).perform (arrive (fromPeer 500 7 ackFlags [1]))).2 =
      boot.run (handshake 1460) := by
  refine (blind_unchanged_iff (boot.run (handshake 1460)) _ 0 _ rfl (by decide +kernel)
    (by decide +kernel) (by decide +kernel)).mpr ?_
  rw [Ignores, if_neg (by decide)]
  refine ⟨by decide +kernel, nofun, fun _ i e _ => by simp [Sacked, fromPeer], fun _ _ _ => ?_⟩
  rw [PassesOver, if_neg (by decide +kernel)]
  decide +kernel

/-- One byte is in flight. A segment that is wrong in both numbers closes the window and drops
the byte from the table by a SACK block. -/
theorem blind_segment_harms :
    let stack := boot.run (handshake 1460 ++ [.queueSend firstId [1], .prepareTransmit firstId 0])
    let s := { fromPeer 400 7 ackFlags [] with window := 0, sackBlocks := [(101, 102)] }
    let stack' := (stack.perform (arrive s)).2
    (stack.connections 0).state = .established ∧
      (stack.connections 0).AckOutside s.acknowledgement ∧
      (stack.connections 0).SequenceOutside s.sequence ∧
      (stack.connections 0).sendWindow = 60000 ∧ (stack'.connections 0).sendWindow = 0 ∧
      ((stack.connections 0).retransmissions 0).isSome = true ∧
      ((stack'.connections 0).retransmissions 0).isSome = false := by
  decide +kernel

/-- The peer has closed and repeats its FIN. -/
theorem closeWait_silent :
    let c := (boot.run (handshake 1460 ++ [arrive (fromPeer 501 101 finAckFlags [])])).connections 0
    let s := fromPeer 501 101 finAckFlags []
    c.active = true ∧ c.state = .closeWait ∧ sequenceBefore s.sequence c.receiver.receiveNext ∧
      (c.tcpInput boot.env s).2.endpoint.active = true ∧
      (c.tcpInput boot.env s).2.response.isNone = true := by
  decide +kernel

end Stack

end MichCore.Tcp
