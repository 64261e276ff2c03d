import MichCore.TcpBytes

/-!
# Closing in order

As long as no resend takes `send_next` back once the FIN is out, the acknowledgement of the FIN
covers every byte that was queued: only then does the connection go on to FIN_WAIT_2 and
TIME_WAIT, or leave LAST_ACK.
-/
namespace MichCore.Tcp

open Endpoint SerialNumber List

/-- The number behind the FIN that follows the last byte queued. -/
def Log.finish (log : Log) : UInt32 := wordAt log.isn (2 + log.queued.length)

namespace Stack

/-- While our FIN is out, the entry that a tick resends is not one to be cut. -/
def KeepsFin (stack : Stack) (call : Call) : Prop :=
  ∀ j e, stack.dueEntry call = some (j, e) → (stack.connections j).state.finOut →
    ¬ (stack.connections j).Cuts e

instance (stack : Stack) (call : Call) : Decidable (stack.KeepsFin call) :=
  decidable_of_iff (∀ x ∈ stack.dueEntry call, (stack.connections x.1).state.finOut →
      ¬ (stack.connections x.1).Cuts x.2)
    ⟨fun h j e hdue => h (j, e) hdue, fun h x hdue => h x.1 x.2 hdue⟩

end Stack

namespace Log

/-- What the record knows of a connection that closes. -/
structure Closing (log : Log) (x : Sender) : Prop where
  describes : log.Describes x
  next : x.state.finOut → x.sendNext = log.finish
  acked : x.state = .finWait2 ∨ x.state = .timeWait → log.finish ∈ log.finAcks

theorem Closing.of_open {log : Log} {x : Sender} (h : log.Describes x)
    (hs : x.state.finOut = false) : log.Closing x := by
  refine ⟨h, fun hout => absurd hout (by simp [hs]), fun hd => ?_⟩
  rcases hd with hd | hd <;> rw [hd] at hs <;> cases hs

/-- All that was queued is in segments, so the FIN stands right behind it. -/
theorem finish_of_sent {log : Log} {x y : Sender} (h : log.Describes x) (hsent : x.Sent y)
    (hb : x.state.finOut = false) (haf : y.state.finOut) : y.sendNext = log.finish := by
  obtain ⟨count, finOut, place, hpl⟩ := h
  cases hsent with
  | nothing => exact absurd haf (by simp [hb])
  | syn => exact absurd haf (by simp [Sender.setPiece, hb])
  | fin i hsend hfin he hfr =>
    have hfil := hpl.filling (Sender.sends_filling hsend)
    have hlen := congrArg List.length (hfil.unsent.symm.trans he)
    rw [length_drop, length_nil] at hlen
    have hle := hfil.le
    simp only [hpl.next, hfil.fin, Log.finish]
    refine (wordAt_add log.isn _ 1).trans ?_
    congr 1
    simp
    omega
  | data i length last y hsend hpos hlen hmax hw hla hfr hpi hn hu ho
      hst hr =>
    have hfil := hpl.filling (Sender.sends_filling hsend)
    have hq := congrArg List.length hfil.unsent
    rw [length_drop] at hq
    have hle := hfil.le
    cases last with
    | false =>
      rw [hst] at haf
      exact absurd haf (by simp [hb])
    | true =>
      have hall := hla rfl
      simp only [hn, Sender.dataPiece, hpl.next, hfil.fin, if_true, Log.finish]
      rw [wordAt_add]
      refine (wordAt_add log.isn _ 1).trans ?_
      congr 1
      simp
      omega

end Log

namespace Stack

variable {call : Call} {j : Fin 32} {stack : Stack} {x y : Sender} {log : Log}

theorem finAcks_of_target {s : Segment} (ht : stack.target call = some (j, s))
    (hs : (stack.connections j).state.finOut) (hrst : s.flags.rst = false) (hack : s.flags.ack) :
    stack.finAcks call j = [s.acknowledgement] := by
  simp [finAcks, ht, hs, hrst, hack]

theorem sends_not_finOut (h : x.Sends) : x.state.finOut = false := by
  rcases h with h | h <;> rw [h] <;> rfl

theorem sent_of_finOut (hsent : x.Sent y) (hout : x.state.finOut) : y = x := by
  cases hsent with
  | nothing => rfl
  | syn i hst =>
    rw [hst] at hout
    cases hout
  | fin i hsend | data i length last y hsend =>
    exact absurd hout (by simp [sends_not_finOut hsend])

theorem finState_finOut (x : Sender) : x.finState ≠ .finWait2 ∧ x.finState ≠ .timeWait := by
  unfold Sender.finState
  split <;> decide

theorem sent_not_acked (hsent : x.Sent y) (hop : x.state.finOut = false) :
    ¬ (y.state = .finWait2 ∨ y.state = .timeWait) := by
  have hk : ¬ (x.state = .finWait2 ∨ x.state = .timeWait) := by
    rintro (h | h) <;> rw [h] at hop <;> cases hop
  have hfin : ¬ (x.finState = .finWait2 ∨ x.finState = .timeWait) :=
    fun h => h.elim (finState_finOut x).1 (finState_finOut x).2
  cases hsent with
  | nothing => exact hk
  | syn => exact hk
  | fin => exact hfin
  | data i length last y hsend hpos hle hmax hw hla hfr hpi hn hu hof
      hst hr =>
    rw [hst]
    split
    · exact hfin
    · exact hk

theorem sent_closing (h : log.Closing x) (hs : x.Sent y) (hd : log.Describes y) :
    log.Closing y := by
  cases hop : x.state.finOut with
  | true =>
    rw [sent_of_finOut hs hop]
    exact h
  | false =>
    refine ⟨hd, fun hout => ?_, fun ha => ?_⟩
    · exact Log.finish_of_sent h.describes hs hop hout
    · exact absurd ha (sent_not_acked hs hop)

theorem hear_sendNext (x : Sender) (s : Segment) :
    (x.hear s).sendNext = x.sendNext ∧ (x.hear s).state = x.state := by
  obtain ⟨una, mss, pieces, heq, -⟩ := x.hear_eq s
  rw [heq]
  exact ⟨rfl, rfl⟩

theorem moves_closing {acked : Prop} {state state' : TcpState}
    (h : Sender.Moves acked state state') :
    (state'.finOut → state.finOut) ∧ (state' = .finWait2 ∨ state' = .timeWait →
      acked ∨ state = .finWait2 ∨ state = .timeWait) := by
  cases h with
  | stay => exact ⟨id, .inr⟩
  | finReceived | lastAcked h => exact ⟨nofun, fun h => by rcases h with h | h <;> cases h⟩
  | finAcked h | finAckedReceived h | closingAcked h => exact ⟨fun _ => rfl, fun _ => .inl h⟩
  | finCrossed => exact ⟨fun _ => rfl, fun h => by rcases h with h | h <;> cases h⟩
  | finWaited => exact ⟨fun _ => rfl, fun _ => .inr (.inl rfl)⟩

theorem closing_append (h : log.Closing x) (acks : List UInt32) :
    ({ log with finAcks := log.finAcks ++ acks } : Log).Closing x :=
  ⟨h.describes, h.next, fun hd => mem_append_left _ (h.acked hd)⟩

theorem input_closing {s : Segment} (ht : stack.target call = some (j, s))
    (hi : (stack.connections j).sender.Input s y)
    (hlog : log.Closing (stack.connections j).sender) (hde : log.Describes y) :
    ({ log with finAcks := log.finAcks ++ stack.finAcks call j } : Log).Closing y := by
  cases hi with
  | ignored => exact closing_append hlog _
  | reset | synchronized => exact closing_append (.of_open hde rfl) _
  | heard state hrst hm =>
    obtain ⟨hout, hdo⟩ := moves_closing hm
    refine ⟨hde, fun hs => ?_, fun hs => ?_⟩
    · exact (hear_sendNext _ s).1.trans (hlog.next (hout hs))
    · rcases hdo hs with ⟨hack, hn⟩ | hb
      · have hb : (stack.connections j).state.finOut := by
          refine hout ?_
          rcases hs with h | h <;> rw [show state = _ from h] <;> rfl
        rw [finAcks_of_target ht hb hrst hack, hn]
        exact mem_append_right _ (by rw [hlog.next hb]; exact mem_singleton_self _)
      · exact mem_append_left _ (hlog.acked hb)

theorem changes_closing {bytes : List UInt8} (hc : stack.KeepsFin call)
    (h : Changes stack call j (stack.connections j).sender bytes y)
    (hlog : log.Closing (stack.connections j).sender) :
    ({ log with
      queued := log.queued ++ bytes
      finAcks := log.finAcks ++ stack.finAcks call j } : Log).Closing y := by
  have hde := changes_describes h hlog.describes
  have hnil : ({ log with
      queued := log.queued ++ []
      finAcks := log.finAcks ++ stack.finAcks call j } : Log) =
      { log with finAcks := log.finAcks ++ stack.finAcks call j } := by
    rw [append_nil]
  cases h with
  | queued data hsend | lent loan hsend => exact .of_open hde (sends_not_finOut hsend)
  | same =>
    rw [hnil]
    exact closing_append hlog _
  | slower mss =>
    rw [append_nil] at hde
    rw [hnil]
    exact closing_append ⟨hde, hlog.next, hlog.acked⟩ _
  | exhausted | aborted =>
    rw [append_nil] at hde
    rw [hnil]
    exact closing_append (.of_open hde rfl) _
  | input s ht y hi =>
    rw [append_nil] at hde
    rw [hnil]
    exact input_closing ht hi hlog hde
  | sent y hsent =>
    rw [append_nil] at hde
    rw [hnil]
    exact closing_append (sent_closing hlog hsent hde) _
  | closing y hsend hfin hsent =>
    rw [append_nil] at hde
    rw [hnil]
    obtain ⟨count, finOut, place, hpl⟩ := hlog.describes
    have hsh : log.Closing { (stack.connections j).sender with sendFin := true } :=
      .of_open ⟨count, finOut, place, hpl.retune _ true⟩ (sends_not_finOut hsend)
    exact closing_append (sent_closing hsh hsent hde) _
  | resent i p y hpi hfir hr =>
    rw [append_nil] at hde
    rw [hnil]
    obtain ⟨d, ended, hfir, rfl, hk, -, hy⟩ := hfir
    have hst : y.state = (stack.connections d.slot).sender.state := by
      cases hr <;> rfl
    refine closing_append ⟨hde, fun hout => ?_, fun hdo => ?_⟩ _
    · rw [hst] at hout
      obtain ⟨e, hdue, hne⟩ := fires_sendNext hfir hk
      rw [if_neg (hc d.slot e hdue hout)] at hne
      rw [← hlog.next hout, ← show ended.endpoint.sendNext = y.sendNext from
        congrArg Sender.sendNext hy]
      exact hne
    · rw [hst] at hdo
      exact hlog.acked hdo

theorem started_not_finOut (h : x.Started) : x.state.finOut = false := by
  cases h with
  | listening _ hs | connecting _ hs | answering _ hs => rw [hs]; rfl

theorem perform_closing {logs : Fin 32 → Log} (hco : stack.KeepsFin call)
    (h : ∀ j, (stack.connections j).active → (logs j).Closing (stack.connections j).sender)
    (j : Fin 32) (hac : ((stack.perform call).2.connections j).active) :
    ((logs j).after stack call j).Closing ((stack.perform call).2.connections j).sender := by
  unfold Log.after
  split
  · next ht =>
    rcases does_active (perform_does stack call j) hac with hb | ho
    · exact absurd hb (by simp [ht.1])
    · have hs := opens_started ho
      exact .of_open ⟨_, _, _, hs.placed⟩ (started_not_finOut hs)
  · next ht =>
    have hb : (stack.connections j).active := by
      by_contra hf
      exact ht ⟨by simpa using hf, hac⟩
    have hcl := changes_closing hco (perform_changes hb hac) (h j hb)
    exact ⟨hcl.describes, hcl.next, hcl.acked⟩

/-- In every run in which no resend takes `send_next` back once the FIN is out, FIN_WAIT_2,
TIME_WAIT and the end of LAST_ACK come after an acknowledgement of every byte queued and of
the FIN behind them. -/
theorem orderly_close_run (memory : Fin 32 → Endpoint) (calls : List Call)
    (hrun : EachCall KeepsFin (tcpInit memory) calls) (j : Fin 32) :
    ((((tcpInit memory).run calls).connections j).active →
      (((tcpInit memory).run calls).connections j).state = .finWait2 ∨
        (((tcpInit memory).run calls).connections j).state = .timeWait →
      (history memory calls j).finish ∈ (history memory calls j).finAcks) ∧
    ∀ call s, ((tcpInit memory).run calls).target call = some (j, s) → s.flags.rst = false →
      (((tcpInit memory).run calls).connections j).state = .lastAck →
      ((((tcpInit memory).run calls).perform call).2.connections j).state = .closed →
      s.flags.ack ∧ s.acknowledgement = (history memory calls j).finish := by
  have hclosi : ∀ j, (((tcpInit memory).run calls).connections j).active →
      (history memory calls j).Closing (((tcpInit memory).run calls).connections j).sender := by
    refine watch_induction (R := fun stack logs => ∀ j, (stack.connections j).active →
      (logs j).Closing (stack.connections j).sender) ?_ calls _ _ hrun
      fun j hac => absurd hac Bool.false_ne_true
    exact fun stack logs call hco h => perform_closing hco h
  refine ⟨fun hac hd => (hclosi j hac).acked hd, ?_⟩
  intro call s ht hrst hs hclose
  generalize (tcpInit memory).run calls = stack at *
  have hin := tcpInput_sender stack.env (stack.connections j) s
  rw [(perform_target ht).1, input_connections] at hclose
  have hn := (hclosi j (target_active ht)).next
  generalize hy : ((stack.connections j).tcpInput stack.env s).2.endpoint.sender = y at hin
  have hen : y.state = .closed := by
    rw [← hy]
    exact hclose
  have hl : (stack.connections j).sender.state = .lastAck := hs
  cases hin with
  | ignored h => exact absurd h (by simp [hrst])
  | reset h => exact absurd h (by simp [hrst])
  | synchronized _ _ h => cases hen
  | heard state _ hm =>
    rw [hl, show state = .closed from hen] at hm
    cases hm with
    | lastAcked h => exact ⟨h.1, h.2.trans (hn (by rw [hl]; rfl))⟩

/-- Three bytes and the FIN behind them are lost once, sent again and acknowledged. -/
def resentClose : List Call :=
  handshake 1460 ++ [.queueSend firstId [1, 2, 3], .shutdown firstId 0, .prepareTransmit firstId 0,
    .tick 100, arrive (fromPeer 501 105 ackFlags [])]

theorem orderly_close_run_acked :
    (history (fun _ => zeroed) resentClose 0).finish ∈
      (history (fun _ => zeroed) resentClose 0).finAcks :=
  (orderly_close_run (fun _ => zeroed) resentClose (by decide +kernel) 0).1 (by decide +kernel)
    (by decide +kernel)

/-- Our segment of 537 bytes and the FIN is lost twice. The second resend lowers the path MTU,
and the last byte goes back to the buffer with the FIN; the acknowledgement of the 536 bytes is
taken for that of the FIN. -/
def cutClose : List Call :=
  handshake 537 ++ [.queueSend firstId (List.replicate 537 7), .shutdown firstId 0,
    .prepareTransmit firstId 0, .tick 100, .tick 300, arrive (fromPeer 501 637 ackFlags [])]

theorem finWait2_unsent_byte :
    ((boot.run cutClose).connections 0).state = .finWait2 ∧
      ((boot.run cutClose).connections 0).sendBuffer = [7] ∧
      (history (fun _ => zeroed) cutClose 0).finish = 639 ∧
      (history (fun _ => zeroed) cutClose 0).finAcks = [637] := by decide +kernel

end Stack

end MichCore.Tcp
