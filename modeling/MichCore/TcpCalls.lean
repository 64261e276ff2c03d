import MichCore.TcpStack

/-!
# What a call does to one slot

Every call of the TCP module runs one function of a connection on a slot of the table, takes the
slot or gives it up. `Does` lists these with what they need, and `perform_does` says that there
are no others.
-/
namespace MichCore.Tcp

open Endpoint List Function

namespace Endpoint

theorem clampPmtu_eq (c : Endpoint) (family : Family) (address4 : UInt32)
    (address6 : Address6) (ipMtu : ℕ) :
    ∃ mss ≤ c.remoteMss, c.clampPmtu family address4 address6 ipMtu =
      { c with remoteMss := mss } := by
  unfold clampPmtu
  simp only
  split
  · next h =>
    refine ⟨_, ?_, rfl⟩
    rw [UInt16.le_iff_toNat_le, UInt16.toNat_ofNat']
    omega
  · exact ⟨_, UInt16.le_refl _, rfl⟩

end Endpoint

namespace Stack

/-- The connection that the segment of a call reaches. -/
def target (stack : Stack) : Call → Option (Fin 32 × Segment)
  | .receiveIpv4 source destination (some s) true _ =>
    ((List.finRange 32).find? (fun i =>
      Context.Matches source destination s.toSegmentView (stack.connections i).toConnection)).map
      (fun i => (i, s))
  | .receiveIpv6 source destination (some s) true _ =>
    ((List.finRange 32).find? (fun i =>
      OnPort6 destination s (stack.connections i) ∧ (stack.connections i).state ≠ .listen ∧
        (stack.connections i).remotePort = s.sourcePort ∧
        (stack.connections i).remoteAddress6 = source)).map (fun i => (i, s))
  | _ => none

/-- The deadline that ends a tick, and what it does. -/
def fires (stack : Stack) : Call → Option (Deadline × Ended)
  | .tick now => (nextDue (stack.deadlines.length + 1) { stack with now := now }).2
  | _ => none

/-- `allocate` and the writes of an open that follow it, for a slot that was free. -/
inductive Opens (stack : Stack) (c : Endpoint) : Endpoint → Prop where
  | listen (address : UInt32) (port : UInt16)
      (hport : ¬ stack.Exists (fun c => c.family = .ipv4 ∧ c.localPort = port)) :
      Opens stack c { listening (c.allocate stack.env) port with
        family := .ipv4, localAddress := address }
  | listenIpv6 (address : Address6) (port : UInt16) :
      Opens stack c { listening (c.allocate stack.env) port with
        family := .ipv6, localAddress6 := address }
  | connect (local_ : UInt32) (localPort : UInt16) (remote : UInt32) (remotePort : UInt16)
      (isn : UInt32)
      (hnew : ¬ stack.Exists (fun c => c.family = .ipv4 ∧ c.localAddress = local_ ∧
        c.remoteAddress = remote ∧ c.localPort = localPort ∧ c.remotePort = remotePort)) :
      Opens stack c { connecting (c.allocate stack.env) localPort remotePort isn with
        family := .ipv4, localAddress := local_, remoteAddress := remote }
  | connectIpv6 (local_ : Address6) (localPort : UInt16) (remote : Address6)
      (remotePort : UInt16) (isn : UInt32)
      (hnew : ¬ stack.Exists (fun c => c.family = .ipv6 ∧ c.localPort = localPort ∧
        c.remotePort = remotePort ∧ c.localAddress6 = local_ ∧ c.remoteAddress6 = remote)) :
      Opens stack c { connecting (c.allocate stack.env) localPort remotePort isn with
        family := .ipv6, localAddress6 := local_, remoteAddress6 := remote }
  | answer (s : Segment) (isn source destination : UInt32) (listener : Fin 32)
      (hnew : ∀ i, ¬ Context.Matches source destination s.toSegmentView
        (stack.connections i).toConnection)
      (hroom : stack.pendingOf (stack.idFor listener) < (stack.connections listener).listenBacklog)
      (tracked : Endpoint) (timer : Timer)
      (htrack : ({ answering (c.allocate stack.env) s isn (stack.idFor listener) with
          family := .ipv4, localAddress := destination, remoteAddress := source } :
          Endpoint).trackRetransmission stack.now isn synAckFlags [] = some (tracked, timer)) :
      Opens stack c tracked
  | answerIpv6 (s : Segment) (isn : UInt32) (source destination : Address6)
      (listener : Fin 32)
      (hnew : ∀ i, ¬ (OnPort6 destination s (stack.connections i) ∧
        (stack.connections i).state ≠ .listen ∧ (stack.connections i).remotePort = s.sourcePort ∧
        (stack.connections i).remoteAddress6 = source))
      (hroom : stack.pendingOf (stack.idFor listener) < (stack.connections listener).listenBacklog)
      (tracked : Endpoint) (timer : Timer)
      (htrack : ({ answering (c.allocate stack.env) s isn (stack.idFor listener) with
          family := .ipv6, localAddress6 := destination, remoteAddress6 := source } :
          Endpoint).trackRetransmission stack.now isn synAckFlags [] = some (tracked, timer)) :
      Opens stack c tracked

/-- What a call does to the connection `c` of slot `j`. -/
inductive Does (stack : Stack) (call : Call) (j : Fin 32) (c : Endpoint) : Endpoint → Prop where
  | kept : Does stack call j c c
  | opened (c' : Endpoint) (hfree : c.active = false) (h : Opens stack c c') :
      Does stack call j c c'
  | backlog (n : ℕ) (hactive : c.active) : Does stack call j c (c.setBacklog n)
  | accepted (id : UInt64) (h : Acceptable id c) :
      Does stack call j c c.markAccepted
  | received (s : Segment) (h : stack.target call = some (j, s)) (hactive : c.active) :
      Does stack call j c (c.tcpInput stack.env s).2.endpoint
  | queued (id : UInt64) (data : List UInt8) (hcall : call = .queueSend id data)
      (hid : stack.byId id = some j) (hactive : c.active) :
      Does stack call j c (c.queueSend data).2
  | lent (id : UInt64) (pages offset : ℕ) (bytes : List UInt8) (live pinned : Bool)
      (hcall : call = .queueSendPages id pages offset bytes live pinned)
      (hid : stack.byId id = some j) (hactive : c.active) :
      Does stack call j c (c.queueSendPages pages offset bytes live pinned).2
  | granted (pages offset length : ℕ) (live pinned : Bool) (hactive : c.active) :
      Does stack call j c (c.queueReceivePages pages offset length live pinned).2
  | read (capacity : ℕ) (hactive : c.active) : Does stack call j c (c.receiveData capacity).2
  | errorTaken (hactive : c.active) : Does stack call j c c.clearError
  | prepared (env : Env) (id : UInt64) (hactive : c.active) :
      Does stack call j c (c.prepareTransmit env id).endpoint
  | shut (env : Env) (id : UInt64) (hactive : c.active) :
      Does stack call j c (c.shutdown env id).2.endpoint
  | shutDetached (env : Env) (id : UInt64) (hactive : c.active) :
      Does stack call j c (c.shutdown env id).2.endpoint.markDetached
  | detached (hactive : c.active) : Does stack call j c c.markDetached
  | closed (env : Env) (hactive : c.active) : Does stack call j c (c.close env)
  | closedTwice (env env' : Env) (hactive : c.active) (hstate : c.state = .listen)
      (hself : c.parentListener = stack.idFor j) : Does stack call j c ((c.close env).close env')
  | aborted (error : ℤ) (hactive : c.active) : Does stack call j c (c.abort error)
  | clamped (family : Family) (address4 : UInt32) (address6 : Address6) (ipMtu : ℕ) :
      Does stack call j c (c.clampPmtu family address4 address6 ipMtu)
  | skipped : Does stack call j c c.clearAckFilter
  | skippedClamped (family : Family) (address4 : UInt32) (address6 : Address6) (ipMtu : ℕ) :
      Does stack call j c (c.clearAckFilter.clampPmtu family address4 address6 ipMtu)
  | fired (env : Env) (id : UInt64) (d : Deadline) (e : Ended) (c₀ : Endpoint)
      (hfires : stack.fires call = some (d, e)) (hslot : d.slot = j) (hactive : c.active)
      (hc₀ : c₀ = c ∨ c₀ = c.clearAckFilter)
      (he : c₀.fire env id d.timer = .ended e) : Does stack call j c e.endpoint

@[simp] theorem put_connections_self (stack : Stack) (i : Fin 32) (c : Endpoint) :
    (stack.put i c).connections i = c := by simp [put]

variable {i j : Fin 32} {id : UInt64} {stack : Stack} {call : Call}

section

variable (stack)

theorem put_connections_of_ne (h : j ≠ i) (c : Endpoint) :
    (stack.put i c).connections j = stack.connections j := by simp [put, h]

@[simp] theorem deadlinePush_connections (i : Fin 32) (v : UInt32) (t : Timer) :
    (stack.deadlinePush i v t).connections = stack.connections := by
  unfold deadlinePush
  split <;> rfl

@[simp] theorem pushAll_connections (i : Fin 32) (v : UInt32)
    (timers : List Timer) : (stack.pushAll i v timers).connections = stack.connections := by
  unfold pushAll
  induction timers generalizing stack with
  | nil => rfl
  | cons t ts ih => rw [foldl_cons, ih, deadlinePush_connections]

@[simp] theorem deadlinePush_ops (i : Fin 32) (v : UInt32) (t : Timer) :
    (stack.deadlinePush i v t).ops = stack.ops := by
  unfold deadlinePush
  split <;> rfl

@[simp] theorem pushAll_ops (i : Fin 32) (v : UInt32) (timers : List Timer) :
    (stack.pushAll i v timers).ops = stack.ops := by
  unfold pushAll
  induction timers generalizing stack with
  | nil => rfl
  | cons t ts ih => rw [foldl_cons, ih, deadlinePush_ops]

end

theorem byId_some (h : stack.byId id = some i) :
    (stack.connections i).active ∧ i.val + 1 = id.toNat % 2 ^ 32 ∧
      (stack.connections i).generation.toNat = id.toNat / 2 ^ 32 := by
  obtain ⟨hs, ha, hg⟩ := SlotTable.find_some h
  exact ⟨ha, hs, hg⟩

theorem byId_iff :
    stack.byId id = some i ↔ (stack.connections i).active ∧ i.val + 1 = id.toNat % 2 ^ 32 ∧
      (stack.connections i).generation.toNat = id.toNat / 2 ^ 32 := by
  refine ⟨byId_some, fun ⟨hac, hs, hg⟩ => ?_⟩
  cases h : stack.byId id with
  | none =>
    exact absurd ⟨hs, hac, hg⟩ (SlotTable.find_none h i)
  | some k =>
    have hk := (byId_some h).2.1
    exact congrArg some (Fin.ext (by omega))

theorem idFor_toNat (stack : Stack) (i : Fin 32) :
    (stack.idFor i).toNat % 2 ^ 32 = i.val + 1 ∧
      (stack.idFor i).toNat / 2 ^ 32 = (stack.connections i).generation.toNat := by
  have hlt := (stack.connections i).generation.toNat_lt
  have hi := i.isLt
  rw [idFor, UInt64.toNat_ofNat']
  omega

theorem idFor_congr {stack' : Stack}
    (h : (stack'.connections i).generation = (stack.connections i).generation) :
    stack'.idFor i = stack.idFor i := by
  rw [idFor, idFor, h]

theorem byId_idFor (h : (stack.connections i).active) : stack.byId (stack.idFor i) = some i := by
  obtain ⟨hs, hg⟩ := stack.idFor_toNat i
  exact byId_iff.mpr ⟨h, hs.symm, hg.symm⟩

theorem idFor_of_byId (h : stack.byId id = some i) : stack.idFor i = id := by
  obtain ⟨-, hs, hg⟩ := byId_some h
  obtain ⟨hs', hg'⟩ := stack.idFor_toNat i
  rw [← UInt64.toNat_inj]
  omega

theorem freeSlot_some (h : stack.freeSlot = some i) : (stack.connections i).active = false := by
  have hp := find?_some h
  simpa using hp

variable {s : Segment}

section Lands

variable {stack : Stack} {call : Call} {j : Fin 32}

variable {c : Endpoint} {i : Fin 32} {id : UInt64}

theorem put_does (h : Does stack call i (stack.connections i) c) :
    Does stack call j (stack.connections j) ((stack.put i c).connections j) := by
  by_cases hj : j = i
  · subst hj
    rwa [put_connections_self]
  · rw [put_connections_of_ne stack hj]
    exact .kept

theorem openNew_does {f : Endpoint → Endpoint} (h : ∀ c, Opens stack c (f (c.allocate stack.env))) :
    Does stack call j (stack.connections j) ((stack.openNew f).2.connections j) := by
  unfold openNew
  split
  · exact .kept
  · next i hf =>
    by_cases hj : j = i
    · subst hj
      simp only [openSlot, update_self]
      exact .opened _ (freeSlot_some hf) (h _)
    · simp only [openSlot, update_of_ne hj]
      exact .kept

theorem onId_does {α : Type} {f : Endpoint → α × Endpoint}
    (h : ∀ i, stack.byId id = some i → (stack.connections i).active →
      Does stack call i (stack.connections i) (f (stack.connections i)).2) :
    Does stack call j (stack.connections j) ((stack.onId id f).2.connections j) := by
  unfold onId
  split
  · exact .kept
  · next i hi => exact put_does (h i hi (byId_some hi).1)

theorem openPassive_does {listener : Fin 32} {isn : UInt32}
    {place : Endpoint → Endpoint}
    (h : stack.pendingOf (stack.idFor listener) < (stack.connections listener).listenBacklog →
      ∀ c tracked timer,
        (place (answering (c.allocate stack.env) s isn (stack.idFor listener))).trackRetransmission
          stack.now isn synAckFlags [] = some (tracked, timer) → Opens stack c tracked) :
    Does stack call j (stack.connections j)
      ((stack.openPassive listener s isn place).2.2.connections j) := by
  unfold openPassive
  simp only
  split
  · exact .kept
  · next hr =>
    split
    · exact .kept
    · next i hf =>
      split
      · exact .kept
      · next tracked timer ht =>
        simp only [openSlot, update_self] at ht
        simp only [pushAll_connections]
        by_cases hj : j = i
        · subst hj
          rw [put_connections_self]
          exact .opened _ (freeSlot_some hf) (h (by omega) _ _ _ ht)
        · rw [put_connections_of_ne _ hj]
          simp only [openSlot, update_of_ne hj]
          exact .kept

theorem demultiplex_does {isn : UInt32} {listens connected : Endpoint → Bool}
    {place : Endpoint → Endpoint}
    (hin : ∀ i, (List.finRange 32).find? (fun i => connected (stack.connections i)) = some i →
      (stack.connections i).active ∧ stack.target call = some (i, s))
    (ho : (∀ i, connected (stack.connections i) = false) → ∀ listener,
      stack.pendingOf (stack.idFor listener) < (stack.connections listener).listenBacklog →
      ∀ c tracked timer,
        (place (answering (c.allocate stack.env) s isn (stack.idFor listener))).trackRetransmission
          stack.now isn synAckFlags [] = some (tracked, timer) → Opens stack c tracked) :
    Does stack call j (stack.connections j)
      ((stack.demultiplex s isn listens connected place).2.2.connections j) := by
  unfold demultiplex
  split
  · next i hi =>
    simp only [input, pushAll_connections]
    exact put_does (.received s (hin i hi).2 (hin i hi).1)
  · next hn =>
    have hf : ∀ i, connected (stack.connections i) = false := by
      intro i
      have hi := find?_eq_none.mp hn i (mem_finRange i)
      simpa using hi
    split
    · next listener _ =>
      split
      · exact openPassive_does (ho hf listener)
      · exact .kept
    · exact .kept

theorem closeSlot_connections_of_ne (h : j ≠ i) :
    (stack.closeSlot i).connections j = stack.connections j := put_connections_of_ne _ h _

theorem closeChildren_connections (stack : Stack) (j : Fin 32) (id : UInt64) :
    (stack.closeChildren id).connections j = stack.connections j ∨
      Waiting id (stack.connections j) ∧
        ∃ env, (stack.closeChildren id).connections j = (stack.connections j).close env := by
  -- A slot that was closed is free, so the loop closes it once.
  let Once (cur : Stack) : Prop := cur.connections j = stack.connections j ∨
    Waiting id (stack.connections j) ∧ ∃ env, cur.connections j = (stack.connections j).close env
  suffices h : ∀ (slots : List (Fin 32)) (cur : Stack), Once cur → Once (slots.foldl (fun stack i =>
      if Waiting id (stack.connections i) then stack.closeSlot i else stack) cur) by
    change Once (stack.closeChildren id)
    unfold closeChildren
    exact h (List.finRange 32) stack (.inl rfl)
  intro slots
  induction slots with
  | nil => exact fun cur h => h
  | cons i is ih =>
    intro cur h
    rw [foldl_cons]
    apply ih
    split
    · next hw =>
      by_cases hj : j = i
      · subst hj
        rcases h with h | ⟨-, env, h⟩
        · refine .inr ⟨h ▸ hw, cur.env, ?_⟩
          rw [closeSlot, put_connections_self, h]
        · rw [h] at hw
          exact absurd hw.1 Bool.false_ne_true
      · simp only [Once]
        rwa [closeSlot_connections_of_ne hj]
    · exact h

theorem tcpClose_does (id : UInt64) :
    Does stack call j (stack.connections j) ((stack.tcpClose id).2.connections j) := by
  unfold tcpClose
  split
  · exact .kept
  · next i hi =>
    have hac := (byId_some hi).1
    have hid : stack.idFor i = id := idFor_of_byId hi
    simp only
    split
    · next hl =>
      by_cases hj : j = i
      · subst hj
        rw [closeSlot, put_connections_self]
        rcases closeChildren_connections stack j id with h | ⟨hw, env, h⟩
        · rw [h]
          exact .closed _ hac
        · rw [h]
          exact .closedTwice _ _ hac hl (hid ▸ hw.2.1)
      · rw [closeSlot_connections_of_ne hj]
        rcases closeChildren_connections stack j id with h | ⟨hw, env, h⟩
        · rw [h]
          exact .kept
        · rw [h]
          exact .closed _ hw.1
    · exact put_does (.closed _ hac)

theorem tcpShutdown_connections (hi : stack.byId id = some i) (now : UInt32) :
    ∃ env, (stack.tcpShutdown id now).2.2.connections =
      update stack.connections i ((stack.connections i).shutdown env id).2.endpoint := by
  simp only [tcpShutdown, hi, settle, pushAll_connections, put]
  split
  · exact ⟨_, rfl⟩
  · exact ⟨_, rfl⟩

theorem tcpShutdown_does (id : UInt64) (now : UInt32) :
    Does stack call j (stack.connections j) ((stack.tcpShutdown id now).2.2.connections j) := by
  cases hi : stack.byId id with
  | none =>
    simp only [tcpShutdown, hi]
    exact .kept
  | some i =>
    obtain ⟨env, h⟩ := tcpShutdown_connections hi now
    rw [h]
    by_cases hj : j = i
    · subst hj
      rw [update_self]
      exact .shut env id (byId_some hi).1
    · rw [update_of_ne hj]
      exact .kept

theorem tcpDetach_does (id : UInt64) (now : UInt32) :
    Does stack call j (stack.connections j) ((stack.tcpDetach id now).2.2.connections j) := by
  cases hi : stack.byId id with
  | none =>
    simp only [tcpDetach, hi]
    exact .kept
  | some i =>
    have hs : Does stack call j (stack.connections j) (((stack.tcpShutdown id now).2.2.put i
          ((stack.tcpShutdown id now).2.2.connections i).markDetached).connections j) := by
      obtain ⟨env, h⟩ := tcpShutdown_connections hi now
      by_cases hj : j = i
      · subst hj
        rw [put_connections_self, h, update_self]
        exact .shutDetached env id (byId_some hi).1
      · rw [put_connections_of_ne _ hj, h, update_of_ne hj]
        exact .kept
    have hm : Does stack call j (stack.connections j)
        ((stack.put i (stack.connections i).markDetached).connections j) :=
      put_does (.detached (byId_some hi).1)
    simp only [tcpDetach, hi]
    split
    case h_3 | h_4 =>
      split
      · exact tcpClose_does id
      · exact hs
    all_goals first | exact tcpClose_does id | exact hm

theorem fire_skip {env : Env} {c' : Endpoint} {t : Timer} (h : c.fire env id t = .skip c') :
    c' = c ∨ c' = c.clearAckFilter := by
  unfold fire at h
  split at h
  · unfold fireRetransmit at h
    grind
  · unfold firePersist at h
    grind
  · unfold fireTimeWait at h
    grind
  · unfold fireAckFilter at h
    grind

/-- The loop of a tick leaves every connection as it was, up to the mark of a filter that
ran out, and stops at a live deadline. -/
theorem nextDue_spec (fuel : ℕ) (stack : Stack) :
    let out := nextDue fuel stack
    (∀ j, out.1.connections j = stack.connections j ∨
      out.1.connections j = (stack.connections j).clearAckFilter) ∧
    ∀ d e, out.2 = some (d, e) → (out.1.connections d.slot).active ∧
      (out.1.connections d.slot).timerVersion = d.version ∧
      ∃ env, (out.1.connections d.slot).fire env (stack.idFor d.slot) d.timer = .ended e := by
  induction fuel generalizing stack with
  | zero => exact ⟨fun j => .inl rfl, fun d e h => by cases h⟩
  | succ fuel ih =>
    rw [nextDue]
    split
    · exact ⟨fun j => .inl rfl, fun d e h => by cases h⟩
    · next d ds hh =>
      split
      · exact ⟨fun j => .inl rfl, fun d e h => by cases h⟩
      simp only
      split
      · exact ih _
      · next hlive =>
        split
        · next c hsk =>
          let popped : Stack := { stack with deadlines := deadlinePop stack.deadlines }
          obtain ⟨hsa, hend⟩ := ih (popped.put d.slot c)
          have hid : ∀ j, (popped.put d.slot c).idFor j = stack.idFor j := by
            intro j
            refine idFor_congr ?_
            by_cases hj : j = d.slot
            · subst hj
              rw [put_connections_self]
              rcases fire_skip hsk with rfl | rfl <;> rfl
            · rw [put_connections_of_ne _ hj]
          simp only [hid] at hend
          refine ⟨fun j => ?_, hend⟩
          -- Clearing the mark twice is clearing it once.
          by_cases hj : j = d.slot
          · subst hj
            have hj := hsa d.slot
            rw [put_connections_self] at hj
            rcases fire_skip hsk with rfl | rfl
            · exact hj
            · exact .inr (hj.elim id id)
          · have hj' := hsa j
            rwa [put_connections_of_ne _ hj] at hj'
        · next e hende =>
          refine ⟨fun j => .inl rfl, ?_⟩
          rintro d' e' ⟨⟩
          rw [not_or] at hlive
          exact ⟨by simpa using hlive.1, not_not.mp hlive.2, _, hende⟩

theorem clampPmtu_does {c₀ : Endpoint} (h : c₀ = c ∨ c₀ = c.clearAckFilter) (family : Family)
    (address4 : UInt32) (address6 : Address6) (ipMtu : ℕ) :
    Does stack call j c (c₀.clampPmtu family address4 address6 ipMtu) := by
  rcases h with rfl | rfl
  · exact .clamped ..
  · exact .skippedClamped ..

theorem tcpTick_does (now : UInt32) :
    Does stack (.tick now) j (stack.connections j) ((stack.tcpTick now).stack.connections j) := by
  obtain ⟨hs, hend⟩ := nextDue_spec (stack.deadlines.length + 1) { stack with now := now }
  have hk : Does stack (.tick now) j (stack.connections j)
      ((nextDue (stack.deadlines.length + 1) { stack with now := now }).1.connections j) := by
    rcases hs j with h | h <;> rw [h]
    · exact .kept
    · exact .skipped
  have hfires : stack.fires (.tick now) =
      (nextDue (stack.deadlines.length + 1) { stack with now := now }).2 := rfl
  unfold tcpTick
  generalize nextDue (stack.deadlines.length + 1) { stack with now := now } = out at *
  obtain ⟨mid, due⟩ := out
  cases due with
  | none => exact hk
  | some due =>
    obtain ⟨d, e⟩ := due
    obtain ⟨hac, -, env, hfire⟩ := hend d e rfl
    simp only [finishTick, pushAll_connections]
    by_cases hj : j = d.slot
    · subst hj
      rw [put_connections_self]
      have hac' : (stack.connections d.slot).active := by
        rcases hs d.slot with h | h <;> rw [h] at hac <;> exact hac
      exact .fired env _ d e _ hfires rfl hac' (hs d.slot) hfire
    · rw [put_connections_of_ne _ hj]
      cases e.pmtu with
      | none => exact hk
      | some mtu => exact clampPmtu_does (hs j) ..

end Lands

theorem perform_does (stack : Stack) (call : Call) (j : Fin 32) :
    Does stack call j (stack.connections j) ((stack.perform call).2.connections j) := by
  cases call with
  | listen address port =>
    simp only [perform, tcpListen]
    split
    · exact .kept
    · next h =>
      rw [not_or, not_or] at h
      exact openNew_does fun c => .listen address port h.2.2
  | listenIpv6 address port =>
    simp only [perform, tcpListenIpv6]
    split
    · exact .kept
    · exact openNew_does fun c => .listenIpv6 address port
  | setListenerBacklog id backlog =>
    simp only [perform, tcpSetListenerBacklog]
    split
    · exact .kept
    · next i hi =>
      split
      · exact .kept
      · exact put_does (.backlog backlog (byId_some hi).1)
  | activeOpen local_ localPort remote remotePort isn =>
    simp only [perform, tcpActiveOpen]
    split
    · exact .kept
    · next h =>
      simp only [not_or] at h
      exact openNew_does fun c => .connect local_ localPort remote remotePort isn h.2.2.2.2
  | activeOpenIpv6 local_ localPort remote remotePort isn =>
    simp only [perform, tcpActiveOpenIpv6]
    split
    · exact .kept
    · next h =>
      simp only [not_or] at h
      exact openNew_does fun c => .connectIpv6 local_ localPort remote remotePort isn h.2.2.2.2
  | accept id =>
    simp only [perform, tcpAccept]
    split
    · exact .kept
    split
    · exact .kept
    split
    · exact .kept
    · next i hi =>
      have hacc := find?_some hi
      exact put_does (.accepted id (by simpa using hacc))
  | receiveIpv4 source destination parsed checksumOk isn =>
    simp only [perform, tcpReceiveIpv4]
    split
    · refine demultiplex_does (fun i hi => ?_) fun hf listener hr c tracked timer h => ?_
      · have hm := find?_some hi
        exact ⟨(of_decide_eq_true hm).1.1, by simp only [target, hi, Option.map_some]⟩
      · exact .answer _ isn source destination listener (fun i => by simpa using hf i)
          hr tracked timer h
    · exact .kept
  | receiveIpv6 source destination parsed checksumOk isn =>
    simp only [perform, tcpReceiveIpv6]
    split
    · refine demultiplex_does (fun i hi => ?_) fun hf listener hr c tracked timer h => ?_
      · have hm := find?_some hi
        exact ⟨(of_decide_eq_true hm).1.1, by simp only [target, hi, Option.map_some]⟩
      · exact .answerIpv6 _ isn source destination listener
          (fun i => of_decide_eq_false (hf i)) hr tracked timer h
    · exact .kept
  | queueSend id data => exact onId_does fun i hi h => .queued id data rfl hi h
  | queueSendPages id pages offset bytes live pinned =>
    exact onId_does fun i hi h => .lent id pages offset bytes live pinned rfl hi h
  | queueReceivePages id pages offset length live pinned =>
    exact onId_does fun i _ h => .granted pages offset length live pinned h
  | receiveData id capacity =>
    have h : Does stack (.receiveData id capacity) j (stack.connections j)
        ((stack.onId id (fun c => c.receiveData capacity)).2.connections j) :=
      onId_does fun i _ h => .read capacity h
    simp only [perform, tcpReceiveData]
    split <;> exact h
  | takeError id => exact onId_does fun i _ h => .errorTaken h
  | prepareTransmit id now =>
    simp only [perform, tcpPrepareTransmit]
    split
    · exact .kept
    · next i hi =>
      simp only [settle, pushAll_connections]
      exact put_does (.prepared ({ stack with now := now } : Stack).env id (byId_some hi).1)
  | shutdown id now => exact tcpShutdown_does id now
  | detach id now => exact tcpDetach_does id now
  | close id => exact tcpClose_does id
  | abort id error =>
    simp only [perform, tcpAbort]
    split
    · exact .kept
    · exact onId_does fun i _ hact => .aborted error hact
  | abortAll error =>
    simp only [perform, tcpAbortAll]
    split
    · exact .kept
    simp only
    split
    · next hact => exact .aborted error hact
    · exact .kept
  | tick now => exact tcpTick_does now
  | clampPmtu family address4 address6 ipMtu => exact .clamped family address4 address6 ipMtu
  | setCc ops => exact .kept
  | setAckFilter enabled => exact .kept
  | setMss mss =>
    simp only [perform, tcpSetMss]
    split <;> exact .kept

theorem perform_target (h : stack.target call = some (j, s)) :
    (stack.perform call).2 = (stack.input j s).2.2 ∧
      (stack.perform call).1.response = (stack.input j s).2.1 := by
  unfold target at h
  split at h
  · obtain ⟨i, hi, hp⟩ := Option.map_eq_some_iff.mp h
    cases hp
    simp only [perform, tcpReceiveIpv4, demultiplex]
    rw [hi]
    exact ⟨rfl, rfl⟩
  · obtain ⟨i, hi, hp⟩ := Option.map_eq_some_iff.mp h
    cases hp
    simp only [perform, tcpReceiveIpv6, demultiplex]
    rw [hi]
    exact ⟨rfl, rfl⟩
  · cases h

theorem target_active (h : stack.target call = some (j, s)) : (stack.connections j).active := by
  unfold target at h
  split at h
  · obtain ⟨i, hi, hp⟩ := Option.map_eq_some_iff.mp h
    cases hp
    have hm := find?_some hi
    exact (of_decide_eq_true hm).1.1
  · obtain ⟨i, hi, hp⟩ := Option.map_eq_some_iff.mp h
    cases hp
    have hm := find?_some hi
    exact (of_decide_eq_true hm).1.1
  · cases h

theorem input_connections (stack : Stack) (j : Fin 32) (s : Segment) :
    (stack.input j s).2.2.connections j =
      ((stack.connections j).tcpInput stack.env s).2.endpoint := by
  simp only [input, pushAll_connections, put_connections_self]

theorem does_active {c c' : Endpoint} (h : Does stack call j c c') (ha : c'.active) :
    c.active ∨ Opens stack c c' := by
  cases h with
  | kept => exact .inl ha
  | opened c' hf ho => exact .inr ho
  | clamped family address4 address6 ipMtu =>
    obtain ⟨mss, -, hc⟩ := clampPmtu_eq c family address4 address6 ipMtu
    rw [hc] at ha
    exact .inl ha
  | skipped => exact .inl ha
  | skippedClamped family address4 address6 ipMtu =>
    obtain ⟨mss, -, hc⟩ := clampPmtu_eq c.clearAckFilter family address4 address6 ipMtu
    rw [hc] at ha
    exact .inl ha
  | accepted id h => exact .inl h.1
  | _ => exact .inl ‹c.active = true›

theorem run_induction {P : Stack → Prop} {condition : Stack → Call → Prop}
    (hs : ∀ stack call, condition stack call → P stack → P (stack.perform call).2)
    (calls : List Call) (stack : Stack) (hrun : EachCall condition stack calls) (h : P stack) :
    P (stack.run calls) := by
  induction calls generalizing stack with
  | nil => exact h
  | cons call calls ih => exact ih _ hrun.2 (hs stack call hrun.1 h)

theorem EachCall.and {P Q : Stack → Call → Prop} {stack : Stack} {calls : List Call}
    (hp : EachCall P stack calls) (hq : EachCall Q stack calls) :
    EachCall (fun stack call => P stack call ∧ Q stack call) stack calls := by
  induction calls generalizing stack with
  | nil => trivial
  | cons call calls ih => exact ⟨⟨hp.1, hq.1⟩, ih hp.2 hq.2⟩

/-- All connections in use have the property. -/
def Everywhere (P : Endpoint → Prop) (stack : Stack) : Prop :=
  ∀ j, (stack.connections j).active → P (stack.connections j)

theorem everywhere_init (P : Endpoint → Prop) (memory : Fin 32 → Endpoint) :
    Everywhere P (tcpInit memory) := fun _ ha => absurd ha Bool.false_ne_true

/-- A property of every new connection that no call takes away holds of all connections in use
after any run. -/
theorem everywhere_run {P : Endpoint → Prop} {condition : Stack → Call → Prop}
    (hopen : ∀ stack c c', Opens stack c c' → P c')
    (hs : ∀ stack call j, condition stack call → (stack.connections j).active →
      ((stack.perform call).2.connections j).active → P (stack.connections j) →
      P ((stack.perform call).2.connections j)) (memory : Fin 32 → Endpoint) (calls : List Call)
    (hrun : EachCall condition (tcpInit memory) calls) :
    Everywhere P ((tcpInit memory).run calls) := by
  refine run_induction (fun stack call hc h j ha => ?_) calls _ hrun
    (everywhere_init P memory)
  rcases does_active (perform_does stack call j) ha with hb | hopens
  · exact hs stack call j hc hb ha (h j hb)
  · exact hopen _ _ _ hopens

end Stack

end MichCore.Tcp
