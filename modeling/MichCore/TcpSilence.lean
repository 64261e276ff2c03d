import MichCore.TcpLog

/-!
# Closed connections are silent

Timers find a connection by its slot and look at the retransmission table and the pending
acknowledgement, not at the state. `tcp_abort` clears both. A reset and the last retry only set
the state, and what they leave in the table is still resent.
-/
namespace MichCore.Tcp

namespace Endpoint

/-- Closed, and no timer has anything left to send. -/
structure Silent (c : Endpoint) : Prop where
  closed : c.state = .closed
  entries : ∀ i, c.retransmissions i = none
  ack : c.ackPending = false

instance (c : Endpoint) : Decidable c.Silent :=
  decidable_of_iff (c.state = .closed ∧ (∀ i, c.retransmissions i = none) ∧ c.ackPending = false)
    ⟨fun h => ⟨h.1, h.2.1, h.2.2⟩, fun h => ⟨h.1, h.2, h.3⟩⟩

variable {c : Endpoint}

namespace Silent

section

variable (h : c.Silent)
include h

theorem same {c' : Endpoint} (hs : (c'.state, c'.retransmissions, c'.ackPending) =
    (c.state, c.retransmissions, c.ackPending)) : c'.Silent := by
  simp only [Prod.mk.injEq] at hs
  exact ⟨hs.1.trans h.closed, fun i => hs.2.1 ▸ h.entries i, hs.2.2.trans h.ack⟩

theorem not_sends : ¬ c.Sends := by simp [Sends, h.closed]

variable (env : Env)

theorem acknowledge (s : Segment) : (c.acknowledge env s).1.Silent := by
  have hsa : (c.retireSacked s.sackBlocks).Silent :=
    ⟨h.closed, fun i => by simp [retireSacked, h.entries i], h.ack⟩
  unfold Endpoint.acknowledge
  generalize c.retireSacked s.sackBlocks = c at *
  simp only
  split
  · obtain ⟨_, _, _, _, heq⟩ := acknowledgeNew_eq env c s.acknowledgement
    rw [heq]
    exact ⟨hsa.closed, fun i => by simp [hsa.entries i], hsa.ack⟩
  split
  · unfold acknowledgeAgain fastRetransmit
    simp only
    split
    · split
      · exact hsa.same rfl
      · next i hi =>
        have hso := List.find?_some hi
        simp [hsa.entries i] at hso
    · exact hsa.same rfl
  · exact hsa

theorem tcpInput (s : Segment) : (c.tcpInput env s).2.endpoint.Silent := by
  unfold Endpoint.tcpInput
  split
  · unfold inputReset
    split
    · simp only
      split <;> exact ⟨rfl, h.entries, h.ack⟩
    · exact h
  have hn : (c.note s).Silent := h.same rfl
  have hac : (if s.flags.ack then (c.note s).acknowledge env s
      else (c.note s, [])).1.Silent := by
    split
    · exact hn.acknowledge env s
    · exact hn
  generalize (if s.flags.ack then (c.note s).acknowledge env s else (c.note s, [])) = acked
    at hac
  have hs : acked.1.inputState env s = (false, ⟨acked.1, none, []⟩) := by
    simp [inputState, inputClosing, hac.closed]
  simp only [hs]
  exact hac

theorem fire (id : UInt64) (t : Timer) (e : Ended) : c.fire env id t ≠ .ended e := by
  unfold Endpoint.fire
  cases t.kind with
  | retransmit => simp [fireRetransmit, h.entries]
  | persist => simp [firePersist, h.not_sends]
  | timeWait => simp [fireTimeWait, h.closed]
  | ackFilter => simp [fireAckFilter, h.ack]

theorem prepareTransmit (id : UInt64) : c.prepareTransmit env id = ⟨c, none, []⟩ := by
  simp [Endpoint.prepareTransmit, h.closed, h.not_sends]

theorem shutdown (id : UInt64) : (c.shutdown env id).2.endpoint = c := by
  simp [Endpoint.shutdown, h.not_sends]

end

end Silent

end Endpoint

namespace Stack

open Endpoint

variable {stack : Stack} {call : Call} {j : Fin 32}

theorem does_silent {c c' : Endpoint} (h : Does stack call j c c') (hac : c.active)
    (hc : c.Silent) : c'.Silent := by
  have hcl : ∀ c : Endpoint, c.Silent → ∀ family address4 address6 ipMtu,
      (c.clampPmtu family address4 address6 ipMtu).Silent := by
    intro c hc family address4 address6 ipMtu
    obtain ⟨mss, -, heq⟩ := clampPmtu_eq c family address4 address6 ipMtu
    rw [heq]
    exact hc.same rfl
  cases h with
  | opened _ hf => exact absurd (hac.symm.trans hf) (by decide)
  | received s => exact hc.tcpInput stack.env s
  | queued id data =>
    rw [Endpoint.queueSend, if_pos (.inr (.inr (.inl hc.not_sends)))]
    exact hc
  | lent id pages offset bytes live pinned =>
    simp only [Endpoint.queueSendPages]
    rw [if_pos (.inr (.inr (.inl hc.not_sends)))]
    exact hc
  | granted pages offset length live pinned =>
    have hs := queueReceivePages_sender c pages offset length live pinned
    exact ⟨(congrArg Sender.state hs).trans hc.closed, hc.entries, hc.ack⟩
  | prepared env id =>
    rw [hc.prepareTransmit env id]
    exact hc
  | shut env id =>
    rw [hc.shutdown env id]
    exact hc
  | shutDetached env id =>
    rw [hc.shutdown env id]
    exact hc.same rfl
  | aborted error => exact ⟨rfl, fun _ => rfl, rfl⟩
  | clamped family address4 address6 ipMtu => exact hcl c hc family address4 address6 ipMtu
  | skippedClamped family address4 address6 ipMtu =>
    exact hcl c.clearAckFilter (hc.same rfl) family address4 address6 ipMtu
  | fired env id d e c₀ _ _ _ hc₀ he =>
    rcases hc₀ with rfl | rfl
    · exact absurd he (hc.fire env id d.timer e)
    · exact absurd he ((hc.same rfl : c.clearAckFilter.Silent).fire env id d.timer e)
  | closed env | closedTwice env env' => exact ⟨rfl, hc.entries, hc.ack⟩
  | _ => exact hc.same rfl

/-- No acknowledgement is pending and no entry is active, but for the one given. -/
def Quiet (c : Endpoint) (except : Option (Fin 8)) : Prop :=
  (∀ i, some i ≠ except → c.retransmissions i = none) ∧ c.ackPending = false
  deriving Decidable

/-- A connection that is not detached is quiet when it takes a reset, and when the retries of its
only entry are used up. -/
def ClosesQuiet (stack : Stack) (call : Call) : Prop :=
  (∀ x ∈ stack.target call, x.2.flags.rst → (stack.connections x.1).AcceptsReset x.2 →
    (stack.connections x.1).detached = false → Quiet (stack.connections x.1) none) ∧
  ∀ x ∈ stack.fires call, x.1.kind = .retransmit →
    ∀ e ∈ (stack.connections x.1.slot).retransmissions x.1.entry, 5 ≤ e.retries →
      (stack.connections x.1.slot).detached = false →
      Quiet (stack.connections x.1.slot) (some x.1.entry)
  deriving Decidable

theorem sent_open {x y : Sender} (h : x.Sent y) (hop : x.state ≠ .closed) :
    y.state ≠ .closed := by
  have hfin : x.finState ≠ .closed := by
    unfold Sender.finState
    split <;> decide
  cases h with
  | nothing => exact hop
  | syn => exact hop
  | fin => exact hfin
  | data i length last y hse hpos hle hmax hw hla hfr hpi hn hu hof
      hst hr =>
    rw [hst]
    split
    · exact hfin
    · exact hop

/-- A segment that closes a connection in its slot is a reset. -/
theorem input_closes {c : Endpoint} {env : Env} {s : Segment} (ho : c.state ≠ .closed)
    (hact : (c.tcpInput env s).2.endpoint.active)
    (hc : (c.tcpInput env s).2.endpoint.state = .closed) :
    s.flags.rst ∧ c.AcceptsReset s ∧ c.detached = false ∧
      (Quiet c none → (c.tcpInput env s).2.endpoint.Silent) := by
  by_cases hrst : s.flags.rst
  · rw [Endpoint.tcpInput, if_pos hrst, inputReset] at hact hc ⊢
    split at hact
    · rename_i hacc
      rw [if_pos hacc] at hc ⊢
      dsimp only at hact hc ⊢
      split at hact
      · exact absurd hact Bool.false_ne_true
      · rename_i hd
        rw [if_neg hd]
        exact ⟨hrst, hacc, by simpa using hd,
          fun h => ⟨rfl, fun i => h.1 i (by simp), h.2⟩⟩
    · rename_i hacc
      rw [if_neg hacc] at hc
      exact absurd hc ho
  · have hk : (if s.flags.ack then (c.note s).acknowledge env s
        else (c.note s, [])).1.state = c.state := by
      split
      · exact (congrArg Sender.state (acknowledge_sender env (c.note s) s)).trans
          (Sender.acknowledge_spec _ s).2.1
      · rfl
    rw [Endpoint.tcpInput, if_neg hrst] at hact hc
    generalize (if s.flags.ack then (c.note s).acknowledge env s else (c.note s, [])) = acked
      at hk hact hc
    dsimp only at hact hc
    obtain ⟨-, -, hs⟩ | ⟨state, hm, hs⟩ := inputState_sender env acked.1 s
    · cases (congrArg Sender.state hs).symm.trans hc
    -- Only LAST_ACK ends in CLOSED, and it gives the slot up.
    obtain rfl : state = .closed := (congrArg Sender.state hs).symm.trans hc
    rw [hk] at hm
    generalize c.state = before at hm hk ho
    cases hm with
    | stay => exact absurd rfl ho
    | lastAcked =>
      simp only [inputState, inputClosing, hk, reduceCtorEq, false_and, if_false]
        at hact hc
      split at hact
      · exact absurd hact Bool.false_ne_true
      · rename_i hack
        rw [if_neg hack, hk] at hc
        cases hc

theorem fire_closes {c : Endpoint} {env : Env} {id : UInt64} {t : Timer} {e : Ended}
    (h : c.fire env id t = .ended e) (ho : c.state ≠ .closed) (hac : e.endpoint.active)
    (hc : e.endpoint.state = .closed) :
    t.kind = .retransmit ∧ (∃ entry ∈ c.retransmissions t.entry, 5 ≤ entry.retries) ∧
      c.detached = false ∧ (Quiet c (some t.entry) → e.endpoint.Silent) := by
  unfold Endpoint.fire at h
  split at h
  · next hk =>
    unfold fireRetransmit at h
    split at h
    · cases h
    · next entry he =>
      split at h
      · cases h
      split at h
      · next hl =>
        cases h
        dsimp only at hac hc ⊢
        split at hac
        · exact absurd hac Bool.false_ne_true
        · next hd =>
          rw [if_neg hd]
          refine ⟨hk, ⟨entry, he, hl⟩, by simpa using hd, fun hq =>
            ⟨rfl, fun i => ?_, hq.2⟩⟩
          by_cases hi : i = t.entry
          · simp [setEntry, hi]
          · simpa [setEntry, hi] using hq.1 i (by simpa using hi)
      · cases h
        have hs : ∀ {y}, c.sender.Resent t.entry entry.piece y → y.state = c.state := by
          rintro y (_ | _) <;> rfl
        exact absurd ((hs (resend_sender env id he).1).symm.trans hc) ho
  · unfold firePersist at h
    split at h
    · cases h
    split at h
    · cases h
    · cases h
      exact absurd hc ho
  · unfold fireTimeWait at h
    split at h
    · cases h
    · cases h
      exact absurd hac Bool.false_ne_true
  · unfold fireAckFilter at h
    split at h
    · cases h
    · cases h
      exact absurd hc ho

/-- What a call closes in its slot is silent. -/
theorem does_closes {c c' : Endpoint} (h : Does stack call j c c') (hc : c = stack.connections j)
    (hco : ClosesQuiet stack call) (hact : c.active) (ho : c.state ≠ .closed)
    (hact' : c'.active) (hclo : c'.state = .closed) : c'.Silent := by
  have hcla (c : Endpoint) (hc : c.state ≠ .closed) {family address4 address6 ipMtu} :
      (c.clampPmtu family address4 address6 ipMtu).state ≠ .closed := by
    obtain ⟨mss, -, heq⟩ := clampPmtu_eq c family address4 address6 ipMtu
    rw [heq]
    exact hc
  cases h with
  | opened c' hfr => exact absurd hact (by simp [hfr])
  | received s ht =>
    obtain ⟨hrst, hacc, hd, hsi⟩ := input_closes ho hact' hclo
    subst hc
    exact hsi (hco.1 (j, s) ht hrst hacc hd)
  | queued id data =>
    unfold Endpoint.queueSend at hclo
    split at hclo <;> exact absurd hclo ho
  | lent id pages offset bytes live pinned =>
    unfold Endpoint.queueSendPages at hclo
    dsimp only at hclo
    split at hclo <;> exact absurd hclo ho
  | granted pages offset length live pinned =>
    have hse := queueReceivePages_sender c pages offset length live pinned
    exact absurd ((congrArg Sender.state hse).symm.trans hclo) ho
  | prepared env id => exact absurd hclo (sent_open (prepareTransmit_sender env c id) ho)
  | shut env id | shutDetached env id =>
    rcases shutdown_sender env c id with h | ⟨-, -, h⟩
    · exact absurd ((congrArg Sender.state h).symm.trans hclo) ho
    · exact absurd hclo (sent_open h ho)
  | closed env | closedTwice env env' => exact absurd hact' Bool.false_ne_true
  | aborted error => exact ⟨rfl, fun _ => rfl, rfl⟩
  | clamped => exact absurd hclo (hcla c ho)
  | skippedClamped => exact absurd hclo (hcla c.clearAckFilter ho)
  | fired env id d e c₀ hfi hsl _ hc₀ he =>
    have hca : c₀.state = c.state ∧ c₀.retransmissions = c.retransmissions ∧
        c₀.detached = c.detached ∧ c₀.ackPending = c.ackPending := by
      rcases hc₀ with rfl | rfl <;> exact ⟨rfl, rfl, rfl, rfl⟩
    obtain ⟨hst, hentri, hd, hack⟩ := hca
    obtain ⟨hki, ⟨entry, hentry, hl⟩, hke, hsi⟩ :=
      fire_closes he (hst ▸ ho) hact' hclo
    subst hc hsl
    rw [hentri] at hentry
    rw [hd] at hke
    have hq := hco.2 (d, e) hfi hki entry hentry hl hke
    exact hsi ⟨fun i hi => hentri ▸ hq.1 i hi, hack.trans hq.2⟩
  | _ => exact absurd hclo ho

/-- A closed connection stays closed as long as it keeps its slot, and segments go out for
connections in use that are not closed. -/
structure ClosedSilent (stack : Stack) : Prop where
  stays : ∀ call j, (stack.connections j).active → (stack.connections j).state = .closed →
    ((stack.perform call).2.connections j).state = .closed
  tick : ∀ now t, (stack.perform (.tick now)).1.transmit = some t →
    ∃ j, stack.byId t.connectionId = some j ∧ (stack.connections j).state ≠ .closed
  prepared : ∀ id now t, (stack.perform (.prepareTransmit id now)).1.transmit = some t →
    ∃ j, stack.byId t.connectionId = some j ∧ (stack.connections j).state ≠ .closed

theorem tick_silent (h : Everywhere (fun c => c.state = .closed → c.Silent) stack) {now : UInt32}
    {t : Transmit} (ht : (stack.perform (.tick now)).1.transmit = some t) :
    ∃ j, stack.byId t.connectionId = some j ∧ (stack.connections j).state ≠ .closed := by
  obtain ⟨d, e, c, env, hc, hac, hf, hse, -⟩ := tick_transmit ht
  have hb : (stack.connections d.slot).active := by
    rcases hc with rfl | rfl <;> exact hac
  refine ⟨d.slot, ?_, fun hcl => ?_⟩
  · rw [(fire_transmit hf hse).1]
    exact byId_idFor hb
  · have hsi : c.Silent := by
      rcases hc with rfl | rfl <;> exact (h d.slot hb hcl).same rfl
    exact hsi.fire env _ d.timer e hf

/-- In every run in which connections that take a reset or run out of retries have nothing else to
send, the closed ones are silent. -/
theorem closed_silent (memory : Fin 32 → Endpoint) (calls : List Call)
    (hrun : EachCall ClosesQuiet (tcpInit memory) calls) :
    ClosedSilent ((tcpInit memory).run calls) := by
  have hall : Everywhere (fun c => c.state = .closed → c.Silent) ((tcpInit memory).run calls) := by
    refine everywhere_run (fun stack c c' ho hcl => ?_)
      (fun stack call j hco hb haf hc hcl => ?_) memory calls hrun
    · have hstar := opens_started ho
      cases hstar <;> simp_all [Endpoint.sender]
    · by_cases hstat : (stack.connections j).state = .closed
      · exact does_silent (perform_does stack call j) hb (hc hstat)
      · exact does_closes (perform_does stack call j) rfl hco hb hstat haf hcl
  refine ⟨fun call j hac hcl => ?_, fun now t => tick_silent hall, fun id now t ht => ?_⟩
  · exact (does_silent (perform_does _ call j) hac (hall j hac hcl)).closed
  · simp only [perform, tcpPrepareTransmit] at ht
    split at ht
    · cases ht
    · next i hi =>
      obtain ⟨rfl, -⟩ := prepareTransmit_transmit ht
      refine ⟨i, hi, fun hcl => ?_⟩
      have hsi := hall i (byId_some hi).1 hcl
      rw [hsi.prepareTransmit] at ht
      cases ht

/-- An open connection has nothing to send when it is reset. -/
theorem closed_silent_aborted :
    ClosedSilent (boot.run (handshake 1460 ++
      [arrive (fromPeer 501 0 ⟨false, false, true, false⟩ []), .tick 100])) :=
  closed_silent _ _ (by decide +kernel)

/-- The peer resets the connection while a byte is in flight, and the byte is sent again. -/
theorem closed_resends : ¬ ClosedSilent (boot.run (handshake 1460 ++ [.queueSend firstId [7],
      .prepareTransmit firstId 0, arrive (fromPeer 501 0 ⟨false, false, true, false⟩ [])])) := by
  intro h
  generalize hst : boot.run _ = stack at h
  have hse : (stack.perform (.tick 100)).1.transmit.isSome := by
    rw [← hst]
    decide +kernel
  have hc : ∀ j, (stack.connections j).state = .closed := by
    rw [← hst]
    decide +kernel
  obtain ⟨t, ht⟩ := Option.isSome_iff_exists.mp hse
  obtain ⟨j, -, ho⟩ := h.tick 100 t ht
  exact ho (hc j)

end Stack

end MichCore.Tcp
