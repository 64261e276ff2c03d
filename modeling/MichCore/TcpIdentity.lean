import MichCore.TcpSender

/-!
# Who a connection is, and what it asks of the timers

The identity of a connection is its slot marks, the generation, the addresses and ports, the
timer version and the ties to a listener. Nothing changes it in a connection that stays in use; a
connection that is given up takes the next generation and a new timer version. Each function asks
for few timers, and for one wherever it gives an entry a new deadline.
-/
namespace MichCore.Tcp

open Endpoint Function List

structure Identity where
  active : Bool
  generation : UInt32
  family : Family
  localAddress : UInt32
  remoteAddress : UInt32
  localAddress6 : Address6
  remoteAddress6 : Address6
  localPort : UInt16
  remotePort : UInt16
  timerVersion : UInt32
  passive : Bool
  accepted : Bool
  parentListener : UInt64
  detached : Bool
  listenBacklog : ℕ
  deriving DecidableEq

/-- The slot is given up. -/
def Identity.retire (d : Identity) (version : UInt32) : Identity :=
  { d with
    active := false
    generation := Connection.nextGeneration d.generation
    timerVersion := version }

namespace Endpoint

def identity (c : Endpoint) : Identity where
  active := c.active
  generation := c.generation
  family := c.family
  localAddress := c.localAddress
  remoteAddress := c.remoteAddress
  localAddress6 := c.localAddress6
  remoteAddress6 := c.remoteAddress6
  localPort := c.localPort
  remotePort := c.remotePort
  timerVersion := c.timerVersion
  passive := c.passive
  accepted := c.accepted
  parentListener := c.parentListener
  detached := c.detached
  listenBacklog := c.listenBacklog

/-- Every entry of the table keeps its deadline, or gets a new timer. -/
def Rearms (c : Endpoint) (timers : List Timer) (c' : Endpoint) : Prop :=
  ∀ i e', c'.retransmissions i = some e' →
    (∃ e, c.retransmissions i = some e ∧ e.deadline = e'.deadline) ∨
      ⟨.retransmit, i, e'.deadline⟩ ∈ timers

/-- At most `n` timers are asked for, and they serve the table. -/
structure Asks (c : Endpoint) (n : ℕ) (timers : List Timer) (c' : Endpoint) : Prop where
  rearms : c.Rearms timers c'
  few : timers.length ≤ n

/-- The connection stays who it is. -/
structure Steady (c : Endpoint) (n : ℕ) (timers : List Timer) (c' : Endpoint) : Prop extends
    Asks c n timers c' where
  identity : c'.identity = c.identity

variable {c c' d : Endpoint} {n m : ℕ} {timers : List Timer} {t : Timer} {env : Env} {id : UInt64}

theorem Asks.of_subset (h : ∀ i e, c'.retransmissions i = some e → c.retransmissions i = some e)
    (hfew : timers.length ≤ n) : c.Asks n timers c' :=
  ⟨fun i e he => .inl ⟨e, h i e he, rfl⟩, hfew⟩

theorem Asks.trans {more : List Timer} (h : c.Asks n timers d) (h' : d.Asks m more c') :
    c.Asks (n + m) (timers ++ more) c' := by
  refine ⟨fun i e' he' => ?_, ?_⟩
  · rcases h'.rearms i e' he' with ⟨e, he, hd⟩ | hmem
    · rw [← hd]
      exact (h.rearms i e he).imp_right (mem_append_left _)
    · exact .inr (mem_append_right _ hmem)
  · rw [length_append]
    exact Nat.add_le_add h.few h'.few

theorem Steady.same (hi : c'.identity = c.identity)
    (ht : c'.retransmissions = c.retransmissions) (hfew : timers.length ≤ n) :
    c.Steady n timers c' :=
  ⟨.of_subset (fun i e he => by rwa [ht] at he) hfew, hi⟩

theorem Steady.quiet (h : c'.identity = c.identity)
    (h' : c'.retransmissions = c.retransmissions) : c.Steady n [] c' :=
  .same h h' n.zero_le

theorem Steady.congr {a b : Endpoint} (h : a.Steady n timers b) (ha : a.identity = c.identity)
    (hat : a.retransmissions = c.retransmissions) (hb : c'.identity = b.identity)
    (hbt : c'.retransmissions = b.retransmissions) : c.Steady n timers c' := by
  refine ⟨⟨fun i e he => ?_, h.few⟩, (hb.trans h.identity).trans ha⟩
  rw [← hat]
  exact h.rearms i e (hbt ▸ he)

section

variable (env)

theorem fastRetransmit_steady (c : Endpoint) :
    c.Steady 1 (c.fastRetransmit env).2 (c.fastRetransmit env).1 := by
  unfold fastRetransmit
  simp only
  split
  · exact .quiet rfl rfl
  · next k hk =>
    refine ⟨⟨fun i e he => ?_, le_rfl⟩, rfl⟩
    simp only [setEntry] at he
    by_cases hi : i = k
    · subst hi
      rw [update_self] at he
      obtain ⟨e₀, -, rfl⟩ := Option.map_eq_some_iff.mp he
      exact .inr (mem_singleton_self _)
    · rw [update_of_ne hi] at he
      exact .inl ⟨e, he, rfl⟩

theorem acknowledge_steady (c : Endpoint) (s : Segment) :
    c.Steady 1 (c.acknowledge env s).2 (c.acknowledge env s).1 := by
  have hs : ∀ i e, (c.retireSacked s.sackBlocks).retransmissions i = some e →
      c.retransmissions i = some e := by
    intro i e he
    simp only [retireSacked, Option.filter_eq_some_iff] at he
    exact he.1
  unfold acknowledge
  simp only
  split
  · obtain ⟨_, _, _, _, h⟩ := acknowledgeNew_eq env (c.retireSacked s.sackBlocks) s.acknowledgement
    rw [h]
    refine ⟨.of_subset (fun i e he => ?_) (Nat.zero_le 1), rfl⟩
    exact hs i e (Option.filter_eq_some_iff.mp he).1
  · split
    · unfold acknowledgeAgain
      simp only
      split
      · have hf := fastRetransmit_steady env { c.retireSacked s.sackBlocks with
          duplicateAcks := (c.retireSacked s.sackBlocks).duplicateAcks + 1 }
        refine ⟨⟨fun i e he => ?_, hf.few⟩, hf.identity⟩
        refine (hf.rearms i e he).imp_left ?_
        rintro ⟨e₀, he₀, hd⟩
        exact ⟨e₀, hs i e₀ he₀, hd⟩
      · exact ⟨.of_subset hs (Nat.zero_le 1), rfl⟩
    · exact ⟨.of_subset hs (Nat.zero_le 1), rfl⟩

theorem dataAck_steady (c : Endpoint) (fin : Bool) :
    c.Steady 1 (c.dataAck env fin).timers (c.dataAck env fin).endpoint := by
  unfold dataAck
  split
  · exact .quiet rfl rfl
  · split
    · exact .same rfl rfl le_rfl
    · exact .quiet rfl rfl

theorem inputPayload_steady (c : Endpoint) (s : Segment) :
    c.Steady 1 (c.inputPayload env s).2.timers (c.inputPayload env s).2.endpoint := by
  simp only [inputPayload]
  split
  · exact .quiet rfl rfl
  split
  · exact .quiet rfl rfl
  · split
    · exact (dataAck_steady env _ _).congr rfl rfl rfl rfl
    · exact .quiet rfl rfl

theorem inputFinWait_steady (c : Endpoint) (s : Segment) :
    c.Steady 2 (c.inputFinWait env s).timers (c.inputFinWait env s).endpoint := by
  unfold inputFinWait
  simp only
  generalize hd : (if c.state = .finWait1 ∧ c.ourFinAcked s.toSegmentView then c.enter .finWait2
    else c) = d
  obtain ⟨hi, ht⟩ : d.identity = c.identity ∧ d.retransmissions = c.retransmissions := by
    rw [← hd]
    split <;> exact ⟨rfl, rfl⟩
  have hp := (inputPayload_steady env d s).congr hi ht rfl rfl
  have hw : ∀ x : Endpoint, x.Steady 1 [(x.enterTimeWait env).2] (x.enterTimeWait env).1 :=
    fun x => .same rfl rfl le_rfl
  split
  · split
    · exact ⟨hp.toAsks.trans (hw _).toAsks, hp.identity⟩
    · exact ⟨⟨hp.rearms, hp.few.trans (by omega)⟩, hp.identity⟩
  · exact ⟨⟨hp.rearms, hp.few.trans (by omega)⟩, hp.identity⟩

/-- The connection stays who it is, or its slot is given up and it is closed. -/
def StaysOrCloses (env : Env) (c c' : Endpoint) : Prop :=
  c'.identity = c.identity ∨
    c'.identity = c.identity.retire env.timerEpoch ∧ c'.state = .closed

theorem inputState_spec (c : Endpoint) (s : Segment) :
    StaysOrCloses env c (c.inputState env s).2.endpoint ∧
      c.Asks 2 (c.inputState env s).2.timers (c.inputState env s).2.endpoint := by
  have hs : ∀ {timers c'}, c.Steady 2 timers c' →
      StaysOrCloses env c c' ∧ c.Asks 2 timers c' := fun h => ⟨.inl h.identity, h.toAsks⟩
  unfold inputState
  split
  · exact hs (.quiet rfl rfl)
  split
  · exact hs (.quiet rfl rfl)
  split
  · next r hr =>
    unfold inputClosing at hr
    split at hr
    · cases hr
      exact hs (.quiet rfl rfl)
    · cases hr
      exact hs (.quiet rfl rfl)
    · cases hr
      simp only
      split
      · exact ⟨.inr ⟨rfl, rfl⟩, .of_subset (fun _ _ h => h) (Nat.zero_le _)⟩
      · exact hs (.quiet rfl rfl)
    · split at hr
      · cases hr
        exact hs (.same rfl rfl one_le_two)
      · cases hr
        exact hs (.quiet rfl rfl)
    · cases hr
      exact hs (inputFinWait_steady env c s)
    · cases hr
      exact hs (inputFinWait_steady env c s)
    · cases hr
  · split
    · have hp := inputPayload_steady env c s
      have hfew := hp.few.trans one_le_two
      simp only
      split <;> exact hs ⟨⟨hp.rearms, hfew⟩, hp.identity⟩
    · exact hs (.quiet rfl rfl)

theorem tcpInput_spec (c : Endpoint) (s : Segment) :
    StaysOrCloses env c (c.tcpInput env s).2.endpoint ∧
      c.Asks 3 (c.tcpInput env s).2.timers (c.tcpInput env s).2.endpoint := by
  unfold tcpInput
  split
  · unfold inputReset
    split
    · simp only
      split
      · exact ⟨.inr ⟨rfl, rfl⟩, .of_subset (fun _ _ h => h) (Nat.zero_le _)⟩
      · exact ⟨.inl rfl, .of_subset (fun _ _ h => h) (Nat.zero_le _)⟩
    · exact ⟨.inl rfl, .of_subset (fun _ _ h => h) (Nat.zero_le _)⟩
  · simp only
    generalize hd : (if s.flags.ack then (c.note s).acknowledge env s else (c.note s, [])) = acked
    have hh : c.Steady 1 acked.2 acked.1 := by
      rw [← hd]
      split
      · exact (acknowledge_steady env (c.note s) s).congr rfl rfl rfl rfl
      · exact .quiet rfl rfl
    obtain ⟨hi, has⟩ := inputState_spec env acked.1 s
    rw [StaysOrCloses, hh.identity] at hi
    exact ⟨hi, hh.toAsks.trans has⟩

end

theorem consume_keeps (c : Endpoint) (length : ℕ) :
    (c.consume length).identity = c.identity ∧
      (c.consume length).retransmissions = c.retransmissions := by
  unfold consume
  split
  · split <;> exact ⟨rfl, rfl⟩
  · split
    · exact ⟨rfl, rfl⟩
    · split <;> exact ⟨rfl, rfl⟩

theorem trackRetransmission_steady {now sequence : UInt32} {flags : Flags} {data : List UInt8}
    (h : c.trackRetransmission now sequence flags data = some (c', t)) : c.Steady 1 [t] c' := by
  obtain ⟨k, -, rfl, e', rfl, hd, -⟩ := trackRetransmission_some h
  refine ⟨⟨fun i e he => ?_, le_rfl⟩, rfl⟩
  simp only [setEntry] at he
  by_cases hi : i = k
  · subst hi
    rw [update_self, Option.some.injEq] at he
    rw [← he, hd]
    exact .inr (mem_singleton_self _)
  · rw [update_of_ne hi] at he
    exact .inl ⟨e, he, rfl⟩

theorem prepareTransmit_steady (env : Env) (c : Endpoint) (id : UInt64) :
    c.Steady 1 (c.prepareTransmit env id).timers (c.prepareTransmit env id).endpoint := by
  unfold prepareTransmit
  split
  · unfold prepareSyn
    split
    · exact .quiet rfl rfl
    · split
      · exact .quiet rfl rfl
      · next h => exact (trackRetransmission_steady h).congr rfl rfl rfl rfl
  · split
    · exact .quiet rfl rfl
    split
    · unfold prepareFin
      split
      · exact .quiet rfl rfl
      · split
        · exact .quiet rfl rfl
        · next h => exact (trackRetransmission_steady h).congr rfl rfl rfl rfl
    · split
      · split
        · exact .same rfl rfl le_rfl
        · exact .quiet rfl rfl
      simp only
      split
      · exact .quiet rfl rfl
      unfold prepareData
      simp only
      split
      · exact .quiet rfl rfl
      split
      · exact .quiet rfl rfl
      · next tracked timer h =>
        have ht := trackRetransmission_steady h
        split <;> exact ht.congr rfl rfl (consume_keeps _ _).1 (consume_keeps _ _).2

theorem shutdown_steady (env : Env) (c : Endpoint) (id : UInt64) :
    c.Steady 1 (c.shutdown env id).2.timers (c.shutdown env id).2.endpoint := by
  unfold shutdown
  split
  · exact .quiet rfl rfl
  simp only
  split
  · exact .quiet rfl rfl
  · exact (prepareTransmit_steady env { c with sendFin := true } id).congr rfl rfl rfl rfl

section

variable (c)

theorem queueSend_steady (data : List UInt8) : c.Steady 0 [] (c.queueSend data).2 := by
  unfold queueSend
  split <;> exact .quiet rfl rfl

theorem queueSendPages_steady (pages offset : ℕ) (bytes : List UInt8)
    (live pinned : Bool) : c.Steady 0 [] (c.queueSendPages pages offset bytes live pinned).2 := by
  unfold queueSendPages
  simp only
  split <;> exact .quiet rfl rfl

theorem queueReceivePages_steady (pages offset length : ℕ) (live pinned : Bool) :
    c.Steady 0 [] (c.queueReceivePages pages offset length live pinned).2 := by
  simp only [queueReceivePages, Connection.queueReceivePages]
  split <;> exact .quiet rfl rfl

theorem clampPmtu_keeps (family : Family) (address4 : UInt32) (address6 : Address6) (ipMtu : ℕ) :
    (c.clampPmtu family address4 address6 ipMtu).identity = c.identity ∧
      (c.clampPmtu family address4 address6 ipMtu).retransmissions = c.retransmissions := by
  obtain ⟨mss, -, h⟩ := clampPmtu_eq c family address4 address6 ipMtu
  rw [h]
  exact ⟨rfl, rfl⟩

theorem maybeBlackhole_keeps (i : Fin 8) :
    (c.maybeBlackhole i).1.identity = c.identity ∧
      ∀ k ≠ i, (c.maybeBlackhole i).1.retransmissions k = c.retransmissions k := by
  have hcut : ∀ d : Endpoint, (d.resegmentToMss i).identity = d.identity ∧
      ∀ k ≠ i, (d.resegmentToMss i).retransmissions k = d.retransmissions k := by
    intro d
    unfold resegmentToMss
    split
    · exact ⟨rfl, fun _ _ => rfl⟩
    simp only
    split
    · exact ⟨rfl, fun _ _ => rfl⟩
    · exact ⟨rfl, fun k hk => by simp [setEntry, hk]⟩
  unfold maybeBlackhole
  split
  · exact ⟨rfl, fun _ _ => rfl⟩
  split
  · exact ⟨rfl, fun _ _ => rfl⟩
  simp only
  split
  · exact ⟨rfl, fun _ _ => rfl⟩
  split
  · exact ⟨rfl, fun _ _ => rfl⟩
  obtain ⟨hi, ht⟩ := clampPmtu_keeps
    { c with pmtuBlackholeRtos := c.pmtuBlackholeRtos + 1 } c.family c.remoteAddress
    c.remoteAddress6 c.blackholeNextMtu
  refine ⟨(hcut _).1.trans hi, fun k hk => ((hcut _).2 k hk).trans ?_⟩
  rw [ht]

end

theorem resend_spec (env : Env) (c : Endpoint) (id : UInt64) (i : Fin 8) (e : Retransmission) :
    (c.resend env id i e).endpoint.identity = c.identity ∧ ∀ k e',
      (c.resend env id i e).endpoint.retransmissions k = some e' →
      k ≠ i ∧ c.retransmissions k = some e' ∨
        ⟨.retransmit, k, e'.deadline⟩ ∈ (c.resend env id i e).timers := by
  unfold resend
  simp only [setEntry]
  refine ⟨?_, fun k e' h => ?_⟩
  · split
    · rfl
    · exact (maybeBlackhole_keeps _ i).1
  by_cases hk : k = i
  · subst hk
    rw [update_self, Option.some.injEq] at h
    rw [← h]
    exact .inr (mem_singleton_self _)
  · rw [update_of_ne hk] at h
    refine .inl ⟨hk, ?_⟩
    split at h
    · simpa [hk] using h
    · rw [(maybeBlackhole_keeps _ i).2 k hk] at h
      simpa [hk] using h

/-- What a timer that ends a tick leaves: the identity, or a slot given up that sends nothing; at
most one timer; and a new deadline, or none, for its own entry. -/
structure Fires (env : Env) (c : Endpoint) (t : Timer) (e : Ended) : Prop where
  identity : e.endpoint.identity = c.identity ∨
    e.endpoint.identity = c.identity.retire env.timerEpoch ∧ e.endpoint.state = .closed ∧
      e.transmit = none ∧ e.timers = []
  few : e.timers.length ≤ 1
  rearms : ∀ k e', e.endpoint.retransmissions k = some e' →
    c.retransmissions k = some e' ∧ ¬ (t.kind = .retransmit ∧ t.entry = k) ∨
      ⟨.retransmit, k, e'.deadline⟩ ∈ e.timers

theorem fire_spec {e : Ended} (h : c.fire env id t = .ended e) : Fires env c t e := by
  unfold fire at h
  split at h
  · unfold fireRetransmit at h
    split at h
    · cases h
    split at h
    · cases h
    split at h
    · cases h
      refine ⟨?_, Nat.zero_le 1, fun k e' he' => ?_⟩
      · cases hd : c.detached with
        | true => exact .inr ⟨rfl, rfl, rfl, rfl⟩
        | false => exact .inl rfl
      · have hc : (c.setEntry t.entry none).retransmissions k = some e' := by
          cases hd : c.detached <;> rw [hd] at he' <;> exact he'
        by_cases hk : k = t.entry
        · subst hk
          exact absurd hc (by simp [setEntry])
        · exact .inl ⟨by simpa [setEntry, hk] using hc, fun h => hk h.2.symm⟩
    · cases h
      obtain ⟨hi, hr⟩ := resend_spec env c id t.entry _
      exact ⟨.inl hi, le_rfl, fun k e' he' => (hr k e' he').imp_left
        (fun hke => ⟨hke.2, fun h => hke.1 h.2.symm⟩)⟩
  · next hki =>
    unfold firePersist at h
    split at h
    · cases h
    split at h
    · cases h
    · cases h
      exact ⟨.inl rfl, le_rfl, fun k e' he' => .inl ⟨he', by simp [hki]⟩⟩
  · next hki =>
    unfold fireTimeWait at h
    split at h
    · cases h
    · cases h
      exact ⟨.inr ⟨rfl, rfl, rfl, rfl⟩, Nat.zero_le 1, fun k e' he' => .inl ⟨he', by simp [hki]⟩⟩
  · next hki =>
    unfold fireAckFilter at h
    split at h
    · cases h
    · cases h
      exact ⟨.inl rfl, Nat.zero_le 1, fun k e' he' => .inl ⟨he', by simp [hki]⟩⟩

end Endpoint

end MichCore.Tcp
