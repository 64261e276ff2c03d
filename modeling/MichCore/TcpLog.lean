import MichCore.TcpIdentity

/-!
# What a connection queued and sent

A record beside each slot: the number of its SYN, the bytes queued since the slot was taken,
every byte sent with its sequence number, and the acknowledgements that arrived after our FIN
went out. It only watches the calls and their answers.
-/
namespace MichCore.Tcp

open Endpoint

structure Log where
  isn : UInt32
  queued : List UInt8
  sent : List (UInt32 × UInt8)
  finAcks : List UInt32

/-- The bytes of a segment with their sequence numbers. -/
def Segment.numbered (s : Segment) : List (UInt32 × UInt8) :=
  s.payload.zipIdx.map (fun x => (s.sequence + UInt32.ofNat x.2, x.1))

theorem Segment.mem_numbered {s : Segment} {q : UInt32} {b : UInt8} :
    (q, b) ∈ s.numbered ↔ ∃ k, s.payload[k]? = some b ∧ q = s.sequence + UInt32.ofNat k := by
  simp only [numbered, List.mem_map, Prod.mk.injEq, Prod.exists]
  constructor
  · rintro ⟨b', k, hmem, hq, rfl⟩
    exact ⟨k, List.mem_zipIdx_iff_getElem?.mp hmem, hq.symm⟩
  · rintro ⟨k, hk, hq⟩
    exact ⟨b, k, List.mem_zipIdx_iff_getElem?.mpr hk, hq.symm, rfl⟩

/-- Our FIN went out. -/
def TcpState.finOut : TcpState → Bool
  | .finWait1 | .finWait2 | .closing | .lastAck | .timeWait => true
  | _ => false

namespace Stack

/-- The bytes that a call sends on slot `j`. -/
def carries (stack : Stack) (call : Call) (j : Fin 32) : List (UInt32 × UInt8) :=
  match (stack.perform call).1.transmit with
  | some t => if stack.byId t.connectionId = some j then t.segment.numbered else []
  | none => []

/-- The acknowledgement that a call brings to slot `j` when our FIN is out. -/
def finAcks (stack : Stack) (call : Call) (j : Fin 32) : List UInt32 :=
  match stack.target call with
  | some (i, s) =>
    if i = j ∧ (stack.connections j).state.finOut ∧ s.flags.rst = false ∧ s.flags.ack then
      [s.acknowledgement]
    else []
  | none => []

/-- The call opens slot `j`. -/
def Taken (stack : Stack) (call : Call) (j : Fin 32) : Prop :=
  (stack.connections j).active = false ∧ ((stack.perform call).2.connections j).active
  deriving Decidable

end Stack

namespace Log

def empty : Log := ⟨0, [], [], []⟩

/-- The record of a slot that was just taken; the SYN has the number before `send_next`. -/
def opened (c : Endpoint) : Log := { empty with isn := c.sendNext - 1 }

/-- The record of slot `j` after a call. -/
def after (log : Log) (stack : Stack) (call : Call) (j : Fin 32) : Log :=
  if stack.Taken call j then opened ((stack.perform call).2.connections j)
  else
    { log with
      queued := log.queued ++ stack.accepts call j
      sent := log.sent ++ stack.carries call j
      finAcks := log.finAcks ++ stack.finAcks call j }

end Log

namespace Stack

/-- The records after a list of calls. -/
def watch (stack : Stack) (logs : Fin 32 → Log) : List Call → Fin 32 → Log
  | [] => logs
  | call :: calls => watch (stack.perform call).2 (fun j => (logs j).after stack call j) calls

/-- The records of a run from the start. -/
def history (memory : Fin 32 → Endpoint) (calls : List Call) : Fin 32 → Log :=
  (tcpInit memory).watch (fun _ => Log.empty) calls

/-- What every call that meets a condition keeps of a context and its records holds after a
run of such calls. -/
theorem watch_induction {R : Stack → (Fin 32 → Log) → Prop} {condition : Stack → Call → Prop}
    (hs : ∀ stack logs call, condition stack call → R stack logs →
      R (stack.perform call).2 (fun j => (logs j).after stack call j))
    (calls : List Call) (stack : Stack) (logs : Fin 32 → Log)
    (hrun : EachCall condition stack calls) (h : R stack logs) :
    R (stack.run calls) (stack.watch logs calls) := by
  induction calls generalizing stack logs with
  | nil => exact h
  | cons call calls ih => exact ih _ _ hrun.2 (hs stack logs call hrun.1 h)

theorem eachCall_true (stack : Stack) (calls : List Call) :
    EachCall (fun _ _ => True) stack calls := by
  induction calls generalizing stack with
  | nil => trivial
  | cons call calls ih => exact ⟨trivial, ih _⟩

end Stack

namespace Endpoint

/-- The segment takes the first bytes that wait, at `send_next`. -/
def Fresh (c : Endpoint) (t : Transmit) : Prop :=
  c.Sends ∧ t.segment.sequence = c.sendNext ∧ t.segment.payload <+: c.sender.unsent

/-- The segment is an entry of the table. -/
def Repeats (c : Endpoint) (t : Transmit) : Prop :=
  ∃ i e, c.retransmissions i = some e ∧ t.segment.sequence = e.sequence ∧
    t.segment.payload = e.data

variable {c : Endpoint} {env : Env} {id : UInt64} {t : Transmit}

theorem prepareTransmit_transmit (h : (c.prepareTransmit env id).transmit = some t) :
    t.connectionId = id ∧ (t.segment.payload = [] ∨ c.Fresh t) := by
  unfold prepareTransmit at h
  split at h
  · unfold prepareSyn at h
    split at h
    · cases h
    split at h
    · cases h
    · cases h
      exact ⟨rfl, .inl rfl⟩
  · split at h
    · cases h
    · next hse =>
      rw [not_not] at hse
      split at h
      · unfold prepareFin at h
        split at h
        · cases h
        split at h
        · cases h
        · cases h
          exact ⟨rfl, .inl rfl⟩
      · next src hso =>
        split at h
        · split at h <;> cases h
        simp only at h
        split at h
        · cases h
        simp only [prepareData] at h
        split at h
        · cases h
        split at h
        · cases h
        · cases h
          refine ⟨rfl, .inr ⟨hse, rfl, ?_⟩⟩
          exact (List.take_prefix _ _).trans (source_some hso).1

theorem shutdown_transmit (h : (c.shutdown env id).2.transmit = some t) :
    t.connectionId = id ∧ (t.segment.payload = [] ∨ c.Fresh t) := by
  unfold shutdown at h
  split at h
  · cases h
  simp only at h
  split at h
  · cases h
  · exact prepareTransmit_transmit (c := { c with sendFin := true }) h

theorem fire_transmit {timer : Timer} {e : Ended} (h : c.fire env id timer = .ended e)
    (ht : e.transmit = some t) :
    t.connectionId = id ∧ (t.segment.payload = [] ∨ c.Fresh t ∨ e.endpoint.Repeats t) := by
  unfold fire at h
  split at h
  · unfold fireRetransmit at h
    split at h
    · cases h
    · next entry hen =>
      split at h
      · cases h
      split at h
      · cases h
        cases ht
      cases h
      obtain ⟨-, e', t', he', ht', hid, hse, -, hd⟩ := resend_sender env id hen
      cases ht'.symm.trans ht
      exact ⟨hid, .inr (.inr ⟨_, e', he', hse, hd⟩)⟩
  · unfold firePersist at h
    split at h
    · cases h
    · next hlive =>
      split at h
      · cases h
      · next src hso =>
        cases h
        cases ht
        rw [not_or, not_not] at hlive
        refine ⟨rfl, .inr (.inl ⟨hlive.1, rfl, ?_⟩)⟩
        exact (List.take_prefix _ _).trans (source_some hso).1
  · unfold fireTimeWait at h
    split at h
    · cases h
    · cases h
      cases ht
  · unfold fireAckFilter at h
    split at h
    · cases h
    · cases h
      cases ht
      exact ⟨rfl, .inl rfl⟩

end Endpoint

namespace Stack

theorem tick_transmit {stack : Stack} {now : UInt32} {t : Transmit}
    (h : (stack.perform (.tick now)).1.transmit = some t) :
    ∃ (d : Deadline) (e : Ended) (c : Endpoint) (env : Env),
      (c = stack.connections d.slot ∨ c = (stack.connections d.slot).clearAckFilter) ∧ c.active ∧
      c.fire env (stack.idFor d.slot) d.timer = .ended e ∧ e.transmit = some t ∧
      (stack.perform (.tick now)).2.connections d.slot = e.endpoint := by
  obtain ⟨hs, hend⟩ := nextDue_spec (stack.deadlines.length + 1) { stack with now := now }
  have hp : (stack.perform (.tick now)).2 = (stack.tcpTick now).stack := rfl
  rw [hp]
  change (stack.tcpTick now).transmit = some t at h
  unfold tcpTick at h ⊢
  generalize nextDue (stack.deadlines.length + 1) { stack with now := now } = out at *
  obtain ⟨mid, _ | ⟨d, e⟩⟩ := out
  · cases h
  obtain ⟨hac, -, env, hf⟩ := hend d e rfl
  refine ⟨d, e, mid.connections d.slot, env, hs d.slot, hac, hf, h, ?_⟩
  simp only [finishTick, pushAll_connections, put_connections_self]

/-- A segment that a call hands out names a connection. Its bytes are the first that wait
there, or those of an entry that the connection keeps. -/
theorem perform_transmit {stack : Stack} {call : Call} {t : Transmit}
    (h : (stack.perform call).1.transmit = some t) :
    ∃ j, stack.byId t.connectionId = some j ∧ (t.segment.payload = [] ∨
      (stack.connections j).Fresh t ∨ ((stack.perform call).2.connections j).active ∧
        ((stack.perform call).2.connections j).Repeats t) := by
  have hkee : ∀ j, (t.segment.payload = [] ∨ (stack.connections j).Fresh t) →
      t.segment.payload = [] ∨ (stack.connections j).Fresh t ∨
        ((stack.perform call).2.connections j).active ∧
          ((stack.perform call).2.connections j).Repeats t :=
    fun j h => h.imp id .inl
  have hsh : ∀ id now, (stack.tcpShutdown id now).2.1 = some t →
      ∃ j, stack.byId t.connectionId = some j ∧ (t.segment.payload = [] ∨
        (stack.connections j).Fresh t ∨ ((stack.perform call).2.connections j).active ∧
          ((stack.perform call).2.connections j).Repeats t) := by
    intro id now h
    unfold tcpShutdown at h
    split at h
    · cases h
    · next i hi =>
      obtain ⟨rfl, hb⟩ := shutdown_transmit h
      exact ⟨i, hi, hkee i hb⟩
  cases call with
  | prepareTransmit id now =>
    simp only [perform, tcpPrepareTransmit] at h
    split at h
    · cases h
    · next i hi =>
      obtain ⟨rfl, hb⟩ := prepareTransmit_transmit h
      exact ⟨i, hi, hkee i hb⟩
  | shutdown id now => exact hsh id now h
  | detach id now =>
    simp only [perform, tcpDetach] at h
    split at h
    · cases h
    · next i hi =>
      split at h
      case h_3 | h_4 =>
        split at h
        · cases h
          exact ⟨i, hi, .inl rfl⟩
        · exact hsh id now h
      all_goals
        cases h
        try exact ⟨i, hi, .inl rfl⟩
  | tick now =>
    obtain ⟨d, e, c, env, hc, hac, hf, ht, hp⟩ := tick_transmit h
    obtain ⟨hid, hb⟩ := fire_transmit hf ht
    have hse : c.active = (stack.connections d.slot).active ∧
        (c.Fresh t → (stack.connections d.slot).Fresh t) := by
      rcases hc with rfl | rfl <;> exact ⟨rfl, fun h => h⟩
    refine ⟨d.slot, ?_, ?_⟩
    · rw [hid]
      exact byId_idFor (hse.1 ▸ hac)
    · rw [hp]
      refine hb.imp id (Or.imp hse.2 fun hr => ⟨?_, hr⟩)
      rcases (fire_spec hf).identity with hkep | ⟨-, -, hn, -⟩
      · exact (congrArg Identity.active hkep).trans hac
      · exact absurd (hn.symm.trans ht) (by simp)
  | receiveData id capacity =>
    simp only [perform] at h
    split at h <;> cases h
  | _ => cases h

end Stack

end MichCore.Tcp
