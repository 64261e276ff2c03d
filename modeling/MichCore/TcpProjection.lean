import MichCore.TcpSender

/-!
# The receiving side inside the context

A `Connection` is an `Endpoint` without what it needs to send, and a `Context` a `Stack` without
clock, settings and deadlines. A segment that arrives does the same to both, so what holds of the
receiving side on its own holds of it in the whole module.
-/
namespace MichCore.Tcp

open List

namespace Endpoint

variable (env : Env) (c : Endpoint) (s : Segment)

theorem acknowledge_toConnection :
    (c.acknowledge env s).1.toConnection = c.toConnection.acknowledge s.toSegmentView := by
  unfold acknowledge Connection.acknowledge
  by_cases hv : c.AckValid s.acknowledgement
  · obtain ⟨_, _, _, _, hnew⟩ :=
      acknowledgeNew_eq env (c.retireSacked s.sackBlocks) s.acknowledgement
    have hv' : (c.retireSacked s.sackBlocks).AckValid s.acknowledgement := hv
    rw [if_pos hv', hnew]
    exact (if_pos hv).symm
  · have hv' : ¬ (c.retireSacked s.sackBlocks).AckValid s.acknowledgement := hv
    have hk : (c.retireSacked s.sackBlocks).toConnection = c.toConnection := rfl
    refine Eq.trans ?_ (if_neg hv).symm
    simp only [if_neg hv', acknowledgeAgain, fastRetransmit, ← hk]
    split_ifs
    · split <;> rfl
    · rfl
    · rfl

theorem inputPayload_toConnection :
    ((c.inputPayload env s).1, (c.inputPayload env s).2.endpoint.toConnection) =
      c.toConnection.inputPayload s.toSegmentView := by
  simp only [inputPayload, Connection.inputPayload, dataAck]
  split_ifs <;> rfl

theorem inputFinWait_toConnection :
    (c.inputFinWait env s).endpoint.toConnection =
      c.toConnection.inputFinWait s.toSegmentView := by
  have he : (if c.state = .finWait1 ∧ c.ourFinAcked s.toSegmentView then c.enter .finWait2
      else c).toConnection = if c.state = .finWait1 ∧ c.ourFinAcked s.toSegmentView then
        { c.toConnection with state := .finWait2 } else c.toConnection := by
    split_ifs <;> rfl
  simp only [inputFinWait, Connection.inputFinWait, ← he, ← inputPayload_toConnection env]
  split_ifs <;> rfl

theorem inputClosing_toConnection :
    (c.inputClosing env s).map (fun reaction => reaction.endpoint.toConnection) =
      c.toConnection.inputClosing s.toSegmentView := by
  unfold inputClosing Connection.inputClosing
  cases hs : c.state with
  | finWait1 | finWait2 => simp only [Option.map_some, inputFinWait_toConnection]
  | lastAck | closing => 
    by_cases ha : c.ourFinAcked s.toSegmentView <;> simp [ha, enterTimeWait] <;> rfl
  | _ => rfl

theorem inputReset_toConnection :
    ((c.inputReset env s).1, (c.inputReset env s).2.endpoint.toConnection) =
      c.toConnection.inputReset s.toSegmentView := by
  have hac : (if c.state = .synSent then s.flags.ack && s.acknowledgement == c.sendNext
      else s.sequence == c.receiver.receiveNext) = true ↔ c.AcceptsReset s := by
    unfold AcceptsReset
    split_ifs <;> simp
  simp only [inputReset, Connection.inputReset, hac]
  split_ifs <;> rfl

/-- `tcp_input` on a whole connection is `tcp_input` on its receiving side. -/
theorem tcpInput_toConnection :
    ((c.tcpInput env s).1, (c.tcpInput env s).2.endpoint.toConnection) =
      c.toConnection.tcpInput s.toSegmentView := by
  unfold tcpInput Connection.tcpInput
  by_cases hrst : s.flags.rst
  · rw [if_pos hrst, if_pos hrst]
    exact inputReset_toConnection env c s
  rw [if_neg hrst, if_neg hrst]
  have hac :
      (if s.flags.ack then (c.note s).acknowledge env s else (c.note s, [])).1.toConnection =
        if s.flags.ack then (c.toConnection.note s.toSegmentView).acknowledge s.toSegmentView
        else c.toConnection.note s.toSegmentView := by
    split_ifs
    · exact acknowledge_toConnection env (c.note s) s
    · rfl
  simp only [← hac, ← inputPayload_toConnection env, ← inputClosing_toConnection env]
  generalize (if s.flags.ack then (c.note s).acknowledge env s else (c.note s, [])).1 = d
  unfold inputState
  by_cases hs : d.state = .synSent ∧ s.flags.syn ∧ s.flags.ack ∧ s.acknowledgement = d.sendNext
  · rw [if_pos hs, if_pos hs]
  by_cases hre : d.state = .synReceived ∧ s.flags.ack ∧ s.acknowledgement = d.sendNext
  · rw [if_neg hs, if_neg hs, if_pos hre, if_pos hre]
  rw [if_neg hs, if_neg hs, if_neg hre, if_neg hre]
  cases d.inputClosing env s with
  | some reaction => rfl
  | none =>
    simp only [Option.map_none]
    split_ifs <;> rfl

end Endpoint

namespace Stack

/-- The receiving sides of all connections. -/
def context (stack : Stack) : Context := ⟨fun i => (stack.connections i).toConnection⟩

theorem context_put (stack : Stack) (i : Fin 32) (c : Endpoint) (version : UInt32)
    (timers : List Timer) :
    ((stack.put i c).pushAll i version timers).context = stack.context.set i c.toConnection := by
  simp only [context, pushAll_connections, put, Context.set, Context.mk.injEq]
  funext j
  by_cases hj : j = i
  · subst hj
    simp
  · simp [Function.update_of_ne hj]

theorem openPassive_context (stack : Stack) (listener : Fin 32) (source destination : UInt32)
    (s : Segment) (isn : UInt32) :
    let out := stack.openPassive listener s isn (fun c => { c with
      family := .ipv4, localAddress := destination, remoteAddress := source })
    (out.1, out.2.2.context) =
      stack.context.openPassive listener source destination s.toSegmentView isn := by
  have hp : (finRange 32).countP (fun i => (stack.context.connections i).active ∧
      (stack.context.connections i).parentListener = stack.context.idFor listener) =
      stack.pendingOf (stack.idFor listener) := rfl
  have hfr : (finRange 32).find? (fun i => (stack.context.connections i).active = false) =
      stack.freeSlot := rfl
  have hb : (stack.context.connections listener).listenBacklog =
      (stack.connections listener).listenBacklog := rfl
  unfold openPassive Context.openPassive
  simp only [hp, hfr, hb]
  by_cases hfu : (stack.connections listener).listenBacklog ≤
      stack.pendingOf (stack.idFor listener)
  · rw [if_pos hfu, if_pos hfu]
  rw [if_neg hfu, if_neg hfu]
  cases hs : stack.freeSlot with
  | none => rfl
  | some i =>
    simp only [openSlot, Function.update_self]
    have he : ({ answering ((stack.connections i).allocate stack.env) s isn
        (stack.idFor listener) with
          family := .ipv4, localAddress := destination, remoteAddress := source } :
        Endpoint).firstFree = some 0 := rfl
    simp only [Endpoint.trackRetransmission, he, context_put]
    refine congrArg (Prod.mk true) (congrArg Context.mk (funext fun j => ?_))
    by_cases hj : j = i
    · subst hj
      rw [Function.update_self, Function.update_self]
      rfl
    · rw [Function.update_of_ne hj, Function.update_of_ne hj]
      exact congrArg Endpoint.toConnection (Function.update_of_ne hj ..)

/-- `tcp_receive_ipv4` on the whole context is `tcp_receive_ipv4` on the receiving sides. -/
theorem tcpReceiveIpv4_context (stack : Stack) (source destination : UInt32)
    (parsed : Option Segment) (checksumOk : Bool) (isn : UInt32) :
    let out := stack.tcpReceiveIpv4 source destination parsed checksumOk isn
    (out.1, out.2.2.context) = stack.context.tcpReceiveIpv4 source destination
      (parsed.map Segment.toSegmentView) checksumOk isn := by
  rcases parsed with _ | s
  · rfl
  cases checksumOk with
  | false => rfl
  | true =>
    have hc : stack.context.connectionFor source destination s.toSegmentView =
        (finRange 32).find? (fun i => Context.Matches source destination s.toSegmentView
          (stack.connections i).toConnection) := rfl
    have hl : stack.context.listenerFor s.toSegmentView =
        (finRange 32).reverse.find? (fun i => Context.OnPort s.toSegmentView
          (stack.connections i).toConnection ∧ (stack.connections i).state = .listen) := rfl
    simp only [tcpReceiveIpv4, demultiplex, Context.tcpReceiveIpv4, Option.map_some, hc, hl]
    cases (finRange 32).find? (fun i => Context.Matches source destination s.toSegmentView
        (stack.connections i).toConnection) with
    | some i =>
      have hi := Endpoint.tcpInput_toConnection stack.env (stack.connections i) s
      simp only [input, context_put]
      exact congrArg (fun out => (out.1, stack.context.set i out.2)) hi
    | none =>
      cases (finRange 32).reverse.find? (fun i => Context.OnPort s.toSegmentView
          (stack.connections i).toConnection ∧ (stack.connections i).state = .listen) with
      | none => rfl
      | some listener =>
        by_cases hsyn : s.flags.syn ∧ s.flags.ack = false
        · simp only [if_pos hsyn]
          exact openPassive_context stack listener source destination s isn
        · simp only [if_neg hsyn]

end Stack

end MichCore.Tcp
