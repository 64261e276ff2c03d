import MichCore.Ipc

/-!
# Parked senders never wait in a circle

The parked senders and their destinations are a forest of pointers: calls remove pointers, and a
sender parks only when the walk from its destination did not come back to it. When it does come
back, the whole chain is let go.
-/
namespace MichCore.Ipc
open Process (TaskState)
open ParentForest Function

namespace System

/-- The task a parked sender waits for. -/
def next (s : System) (a : Slot) : Option Slot :=
  if (s.pool a).state = .blockedSend then s.taskForPid (s.pool a).sendTo else none

/-- Task `a` is blocked sending to task `b`. -/
def SendsTo (s : System) (a b : Slot) : Prop :=
  (s.pool a).state = .blockedSend ∧ s.taskForPid (s.pool a).sendTo = some b

variable {s s' : System} {slot receiver current cursor sender : Slot} {P : Slot → Prop}

theorem next_eq_some {a b : Slot} : s.next a = some b ↔ s.SendsTo a b := by
  unfold next SendsTo
  by_cases h : (s.pool a).state = .blockedSend <;> simp [h]

/-- Nothing in `s'` waits that did not wait for the same task in `s`. -/
structure Calmer (s s' : System) : Prop where
  count : s'.count = s.count
  ids : ∀ a, (s'.pool a).id = (s.pool a).id
  live : ∀ a, (s.pool a).state = .free ∨ (s.pool a).state = .zombie →
    (s'.pool a).state = .free ∨ (s'.pool a).state = .zombie
  sends : ∀ a, (s'.pool a).state = .blockedSend →
    (s.pool a).state = .blockedSend ∧ (s'.pool a).sendTo = (s.pool a).sendTo

theorem Calmer.refl (s : System) : Calmer s s :=
  ⟨rfl, fun _ => rfl, fun _ => id, fun _ h => ⟨h, rfl⟩⟩

theorem Calmer.trans {s'' : System} (h : Calmer s s') (h' : Calmer s' s'') : Calmer s s'' where
  count := h'.count.trans h.count
  ids a := (h'.ids a).trans (h.ids a)
  live a hs := h'.live a (h.live a hs)
  sends a hs := by
    obtain ⟨hs', hto'⟩ := h'.sends a hs
    obtain ⟨hs, hto⟩ := h.sends a hs'
    exact ⟨hs, hto'.trans hto⟩

theorem calmer_of_update (slot : Slot) (t : Task) (hpool : s'.pool = update s.pool slot t)
    (hcount : s'.count = s.count) (hid : t.id = (s.pool slot).id)
    (hlive : (s.pool slot).state = .free ∨ (s.pool slot).state = .zombie →
      t.state = .free ∨ t.state = .zombie)
    (hs : t.state = .blockedSend →
      (s.pool slot).state = .blockedSend ∧ t.sendTo = (s.pool slot).sendTo) : Calmer s s' := by
  refine ⟨hcount, fun a => ?_, fun a => ?_, fun a => ?_⟩ <;> rw [hpool] <;>
    by_cases ha : a = slot
  · rw [ha, update_self, hid]
  · rw [update_of_ne ha]
  · rw [ha, update_self]
    exact hlive
  · rw [update_of_ne ha]
    exact id
  · rw [ha, update_self]
    exact hs
  · rw [update_of_ne ha]
    exact fun h => ⟨h, rfl⟩

theorem taskForPid_eq_some {pid : ℕ} :
    s.taskForPid pid = some slot ↔ pid % 65536 = slot.val ∧ 1 ≤ slot.val ∧ slot.val < s.count ∧
      ((s.pool slot).state ≠ .free ∧ (s.pool slot).state ≠ .zombie) ∧ (s.pool slot).id = pid := by
  unfold taskForPid
  constructor
  · intro h
    split at h
    · rename_i hlt
      dsimp only at h
      split at h
      · cases h
      rename_i hr
      split at h
      · cases h
      rename_i hlive
      cases h
      simp only [not_or, not_not] at hlive hr
      exact ⟨rfl, Nat.pos_of_ne_zero hr.1, Nat.lt_of_not_le hr.2,
        ⟨hlive.1, hlive.2.1⟩, hlive.2.2⟩
    · cases h
  · rintro ⟨hs, hlo, hhi, ⟨hf, hz⟩, hid⟩
    have hlt : pid % 65536 < 32 := hs ▸ slot.isLt
    have heq : (⟨pid % 65536, hlt⟩ : Slot) = slot := Fin.ext hs
    rw [dif_pos hlt, heq]
    dsimp only
    rw [if_neg (by omega), if_neg (by simp [hf, hz, hid])]

theorem Calmer.taskForPid (h : Calmer s s') {pid : ℕ} (hs' : s'.taskForPid pid = some slot) :
    s.taskForPid pid = some slot := by
  rw [taskForPid_eq_some] at hs' ⊢
  obtain ⟨hsl, hlo, hhi, hlive, hid⟩ := hs'
  refine ⟨hsl, hlo, h.count ▸ hhi, ?_, (h.ids slot).symm.trans hid⟩
  by_contra hd
  have hg := h.live slot (by tauto)
  tauto

theorem Calmer.next (h : Calmer s s') {a b : Slot} (hs' : s'.next a = some b) :
    s.next a = some b := by
  rw [next_eq_some] at hs' ⊢
  obtain ⟨hb, hto⟩ := hs'
  obtain ⟨hb', hsa⟩ := h.sends a hb
  exact ⟨hb', h.taskForPid (hsa ▸ hto)⟩

/-- No circle of parked senders: from every task the pointers come to an end. -/
def Forest (s : System) : Prop := ∀ a, Rooted s.next a

theorem Forest.calmer (hs : s.Forest) (h : Calmer s s') : s'.Forest :=
  fun a => (hs a).mono (fun _ _ => h.next)

theorem calmer_of_running (slot : Slot) (t : Task) (hpool : s'.pool = update s.pool slot t)
    (hcount : s'.count = s.count) (hid : t.id = (s.pool slot).id)
    (hlive : (s.pool slot).state ≠ .free ∧ (s.pool slot).state ≠ .zombie)
    (hs : t.state ≠ .blockedSend) : Calmer s s' :=
  calmer_of_update slot t hpool hcount hid
    (fun h => absurd h (not_or.mpr hlive)) (fun h => absurd h hs)

theorem calmer_of_record (slot : Slot) (t : Task) (hpool : s'.pool = update s.pool slot t)
    (hcount : s'.count = s.count) (hid : t.id = (s.pool slot).id)
    (hs : t.state = (s.pool slot).state) (hto : t.sendTo = (s.pool slot).sendTo) :
    Calmer s s' :=
  calmer_of_update slot t hpool hcount hid (fun h => hs ▸ h) (fun h => ⟨hs ▸ h, hto⟩)

theorem calmer_setResult (s : System) (slot : Slot) (result : ℤ) :
    Calmer s (s.setResult slot result) := calmer_of_record slot _ rfl rfl rfl rfl rfl

theorem calmer_unparkSend (h : (s.pool slot).state = .blockedSend) : Calmer s (s.unparkSend slot) :=
  calmer_of_running slot _ rfl rfl rfl (by simp [h]) (by simp)

theorem calmer_unparkRecv (h : (s.pool slot).state = .blockedRecv) : Calmer s (s.unparkRecv slot) :=
  calmer_of_running slot _ rfl rfl rfl (by simp [h]) (by simp)

variable (result : ℤ)

theorem calmer_releaseSender (h : (s.pool slot).state = .blockedSend) :
    Calmer s (s.releaseSender slot result) :=
  (calmer_unparkSend h).trans (calmer_setResult _ slot result)

theorem calmer_releaseReceiver (h : (s.pool slot).state = .blockedRecv) :
    Calmer s (s.releaseReceiver slot result) :=
  (calmer_unparkRecv h).trans (calmer_setResult _ slot result)

theorem deliver_pool (s : System) (receiver : Slot) (address : ℕ) (origin : Option ℕ)
    (message : Message) : (s.deliver receiver address origin message).1.pool = s.pool ∧
      (s.deliver receiver address origin message).1.count = s.count := by
  unfold deliver
  split <;> exact ⟨rfl, rfl⟩

theorem calmer_deliver (s : System) (receiver : Slot) (address : ℕ) (origin : Option ℕ)
    (message : Message) : Calmer s (s.deliver receiver address origin message).1 := by
  obtain ⟨hpool, hcount⟩ := deliver_pool s receiver address origin message
  exact ⟨hcount, fun a => by rw [hpool], fun a => by rw [hpool]; exact id,
    fun a h => by rw [hpool] at h ⊢; exact ⟨h, rfl⟩⟩

theorem calmer_sendNow (sender : Slot) (message : Message)
    (h : (s.pool receiver).state = .blockedRecv) :
    Calmer s (s.sendNow sender receiver message).1 := by
  unfold sendNow
  refine (calmer_deliver s receiver _ _ _).trans (calmer_releaseReceiver _ ?_)
  rw [(deliver_pool s receiver _ _ _).1]
  exact h

theorem calmer_breakDeadlockFrom (sender : Slot) (depth : ℕ) (cursor : Option Slot) (s : System) :
    Calmer s (breakDeadlockFrom sender depth cursor s) := by
  induction depth generalizing cursor s with
  | zero => exact Calmer.refl s
  | succ depth ih =>
    cases cursor with
    | none => exact Calmer.refl s
    | some cursor =>
      rw [breakDeadlockFrom]
      split
      · exact Calmer.refl s
      split
      · exact Calmer.refl s
      · rename_i hb
        exact (calmer_releaseSender edeadlk (not_not.mp hb)).trans (ih _ _)

theorem calmer_enter (s : System) (slot : Slot) (event : ℕ → ℕ → Event) :
    Calmer s (s.enter slot event) := calmer_of_record slot _ rfl rfl rfl rfl rfl

theorem calmer_leave (slot : Slot) (answer : System × Option ℤ) :
    Calmer answer.1 (leave slot answer) := by
  obtain ⟨s, result | result⟩ := answer
  · exact calmer_of_record slot _ rfl rfl rfl rfl rfl
  · exact ⟨rfl, fun _ => rfl, fun _ => id, fun _ h => ⟨h, rfl⟩⟩

theorem calmer_sendNb (s : System) (current : Slot) (destination : ℕ) (message : Option Message) :
    Calmer s (s.sendNb current destination message).1 := by
  unfold sendNb
  split
  · exact Calmer.refl s
  split
  · exact Calmer.refl s
  split
  · rename_i ha
    split
    · exact Calmer.refl s
    · exact calmer_sendNow current _ ha.1
  · exact Calmer.refl s

theorem findSender_some {expected : ℕ} (h : s.findSender receiver expected = some slot) :
    slot ∈ s.slots ∧ (s.pool slot).state = .blockedSend ∧
      (s.pool slot).sendTo = (s.pool receiver).id ∧ s.pendingValid slot = true ∧
      (expected = 0 ∨ (s.pool slot).id = expected) := by
  have hf := List.find?_some h
  exact ⟨List.mem_of_find?_eq_some h, of_decide_eq_true hf⟩

theorem calmer_recv (hr : (s.pool current).state = .running) (expected address : ℕ)
    (alone : Bool) : Calmer s (s.recv current expected address alone).1 := by
  have hp : Calmer s (s.parkRecv current expected address) :=
    calmer_of_running current _ rfl rfl rfl (by simp [hr]) (by simp)
  unfold recv
  split
  · exact Calmer.refl s
  split
  · exact Calmer.refl s
  split
  · exact calmer_deliver s _ _ _ _
  split
  · rename_i slot hf
    refine (calmer_deliver s _ _ _ _).trans (calmer_releaseSender _ ?_)
    rw [(deliver_pool s _ _ _ _).1]
    exact (findSender_some hf).2.1
  · dsimp only
    split
    · exact hp.trans (calmer_unparkRecv (by
        change (update s.pool current _ current).state = _
        rw [update_self]))
    · exact hp

theorem calmer_foldl {step : System → Slot → System} (hs : ∀ s slot, Calmer s (step s slot))
    (slots : List Slot) (s : System) : Calmer s (slots.foldl step s) := by
  induction slots generalizing s with
  | nil => exact Calmer.refl s
  | cons slot rest ih => exact (hs s slot).trans (ih _)

theorem calmer_tick (s : System) (now : UInt32) : Calmer s (s.tick now) := by
  refine calmer_foldl (fun s slot => ?_) _ s
  unfold tickSlot
  split
  · exact Calmer.refl s
  · rename_i h
    exact calmer_releaseSender _ (not_not.mp (not_or.mp h).1)

theorem calmer_diedSlot (pid : ℕ) (s : System) (slot : Slot) : Calmer s (diedSlot pid s slot) := by
  unfold diedSlot
  extract_lets told
  have ht : Calmer s told := by
    simp only [told]
    split
    · rename_i h
      exact calmer_releaseSender _ h.1
    · exact Calmer.refl s
  split
  · rename_i h
    refine ht.trans ((calmer_deliver told _ _ _ _).trans (calmer_releaseReceiver _ ?_))
    rw [(deliver_pool told _ _ _ _).1]
    exact h.1
  · exact ht

theorem calmer_taskDied (s : System) (pid : ℕ) : Calmer s (s.taskDied pid) := by
  unfold taskDied
  extract_lets cleared
  have hc : Calmer s cleared := by
    simp only [cleared]
    split
    · exact ⟨rfl, fun _ => rfl, fun _ => id, fun _ h => ⟨h, rfl⟩⟩
    · exact Calmer.refl s
  exact hc.trans (calmer_foldl (calmer_diedSlot pid) _ cleared)

theorem calmer_die (s : System) (slot : Slot) (zombie : Bool) : Calmer s (s.die slot zombie) := by
  unfold die
  extract_lets told
  refine (calmer_taskDied s _).trans (calmer_of_update slot _ rfl rfl rfl (fun _ => ?_) ?_)
  · cases zombie
    · exact Or.inl rfl
    · exact Or.inr rfl
  · cases zombie <;> simp

theorem deadlockFrom_iff {depth : ℕ} (hend : climb s.next depth cursor = none) :
    s.deadlockFrom sender depth cursor = true ↔ ∃ k, climb s.next k cursor = some sender := by
  induction depth generalizing cursor with
  | zero => simp [climb] at hend
  | succ depth ih =>
    rw [deadlockFrom, exists_climb_step]
    split
    · next hc => exact iff_of_true rfl (.inl hc)
    next hc =>
    rw [or_iff_right hc]
    split
    · next hb =>
      have hno : s.next cursor = none := by
        rcases hb with hs | hz
        · exact if_neg hs
        · rw [next, hz]
          split <;> rfl
      simp [hno]
    next hb =>
    have hne : s.next cursor = s.taskForPid (s.pool cursor).sendTo :=
      if_pos (not_not.mp (not_or.mp hb).1)
    rw [climb, hne] at hend
    rw [hne]
    cases hto : s.taskForPid (s.pool cursor).sendTo with
    | none => simp
    | some b =>
      rw [hto] at hend
      simpa using ih hend

theorem Forest.deadlock_iff (hs : s.Forest) {destination : Slot} :
    s.deadlock sender destination = true ↔ ∃ k, climb s.next k destination = some sender :=
  deadlockFrom_iff (by simpa using (hs destination).climb_card)

section Update

variable (s s') (slot : Slot) (t : Task) (hpool : s'.pool = update s.pool slot t)
  (hcount : s'.count = s.count) (hid : t.id = (s.pool slot).id)
  (hlive : (t.state ≠ .free ∧ t.state ≠ .zombie) ↔
    ((s.pool slot).state ≠ .free ∧ (s.pool slot).state ≠ .zombie))
include hpool hcount hid hlive

theorem taskForPid_update (pid : ℕ) : s'.taskForPid pid = s.taskForPid pid := by
  ext a
  rw [taskForPid_eq_some, taskForPid_eq_some, hpool, hcount]
  by_cases ha : a = slot
  · rw [ha, update_self, hid, hlive]
  · rw [update_of_ne ha]

theorem next_update {v : Option Slot}
    (hv : (if t.state = .blockedSend then s.taskForPid t.sendTo else none) = v) :
    s'.next = update s.next slot v := by
  funext a
  unfold next
  rw [taskForPid_update s s' slot t hpool hcount hid hlive, hpool]
  by_cases ha : a = slot
  · rw [ha, update_self, update_self, hv]
  · rw [update_of_ne ha, update_of_ne ha]

end Update

theorem next_parkSend (hr : (s.pool current).state = .running) (destination : ℕ)
    (message : Message) (deadline : UInt32) (timed : Bool) :
    (s.parkSend current destination message deadline timed).next =
      update s.next current (s.taskForPid destination) :=
  next_update s (s.parkSend current destination message deadline timed) current _ rfl rfl rfl
    (by simp [hr]) (by simp)

/-- A parked sender that runs again with a result. -/
def released (t : Task) (result : ℤ) : Task :=
  { t with sendTo := 0, sendDeadline := 0, state := .running, rax := result }

/-- The senders in `P`, and nothing else, are let go. -/
structure LetGo (P : Slot → Prop) (result : ℤ) (s s' : System) : Prop where
  rest : s' =
    { s with
      pool := s'.pool
      pendingValid := s'.pendingValid
      pendingTimed := s'.pendingTimed }
  freed : ∀ c, P c → s'.pool c = released (s.pool c) result ∧ s'.pendingValid c = false ∧
    s'.pendingTimed c = false
  kept : ∀ c, ¬ P c → s'.pool c = s.pool c ∧ s'.pendingValid c = s.pendingValid c ∧
    s'.pendingTimed c = s.pendingTimed c

theorem LetGo.none (s : System) (h : ∀ c, ¬ P c) :
    LetGo P result s s :=
  ⟨rfl, fun c hc => absurd hc (h c), fun _ _ => ⟨rfl, rfl, rfl⟩⟩

theorem LetGo.congr {Q : Slot → Prop} {result : ℤ} (h : LetGo P result s s')
    (hPQ : ∀ c, Q c ↔ P c) :
    LetGo Q result s s' :=
  ⟨h.rest, fun c hc => h.freed c ((hPQ c).mp hc), fun c hc => h.kept c (mt (hPQ c).mpr hc)⟩

theorem releaseSender_eq (s : System) (slot : Slot) (result : ℤ) :
    s.releaseSender slot result =
      { s with
        pool := update s.pool slot (released (s.pool slot) result)
        pendingValid := update s.pendingValid slot false
        pendingTimed := update s.pendingTimed slot false } := by
  simp [releaseSender, unparkSend, setResult, setTask, released]

theorem LetGo.after {result : ℤ} (hs : ¬ P slot)
    (h : LetGo P result (s.releaseSender slot result) s') :
    LetGo (fun c => c = slot ∨ P c) result s s' := by
  obtain ⟨hr, hf, hk⟩ := h
  rw [releaseSender_eq] at hr hf hk
  refine ⟨hr, fun c hc => ?_, fun c hc => ?_⟩
  · by_cases heq : c = slot
    · subst heq
      simpa using hk c hs
    · simpa [heq] using hf c (hc.resolve_left heq)
  · obtain ⟨heq, hout⟩ := not_or.mp hc
    simpa [heq] using hk c hout

theorem next_releaseSender (hb : (s.pool slot).state = .blockedSend) (result : ℤ) :
    (s.releaseSender slot result).next = update s.next slot Option.none :=
  next_update s (s.releaseSender slot result) slot (released (s.pool slot) result)
    (by rw [releaseSender_eq]) rfl rfl (by simp [released, hb]) (by simp [released])

/-- The parked senders the pointers from a task lead to. -/
def OnChain (s : System) (cursor c : Slot) : Prop :=
  (∃ k, climb s.next k cursor = some c) ∧ (s.pool c).state = .blockedSend

theorem not_onChain (h : (s.pool cursor).state ≠ .blockedSend) (c : Slot) :
    ¬ s.OnChain cursor c := by
  rw [OnChain, exists_climb_step, next, if_neg h]
  rintro ⟨rfl | ⟨b, hb, -⟩, hbl⟩
  · exact h hbl
  · cases hb

theorem onChain_step (h : (s.pool cursor).state = .blockedSend) (c : Slot) :
    s.OnChain cursor c ↔ c = cursor ∨ ∃ b, s.next cursor = some b ∧ s.OnChain b c := by
  unfold OnChain
  rw [exists_climb_step]
  constructor
  · rintro ⟨rfl | ⟨b, hb, hk⟩, hc⟩
    · exact .inl rfl
    · exact .inr ⟨b, hb, hk, hc⟩
  · rintro (rfl | ⟨b, hb, hk, hc⟩)
    · exact ⟨.inl rfl, h⟩
    · exact ⟨.inr ⟨b, hb, hk⟩, hc⟩

theorem breakDeadlockFrom_letGo {depth : ℕ} (hse : (s.pool sender).state ≠ .blockedSend)
    (hend : climb s.next depth cursor = none) :
    LetGo (s.OnChain cursor) edeadlk s (breakDeadlockFrom sender depth (some cursor) s) := by
  induction depth generalizing s cursor with
  | zero => simp [climb] at hend
  | succ depth ih =>
    rw [breakDeadlockFrom]
    split
    · next hcu =>
      exact .none _ _ (not_onChain (hcu ▸ hse))
    next hcu =>
    by_cases hb : (s.pool cursor).state = .blockedSend
    swap
    · rw [if_pos hb]
      exact .none _ _ (not_onChain hb)
    rw [if_neg (not_not.mpr hb)]
    have hn : s.next cursor = s.taskForPid (s.pool cursor).sendTo := if_pos hb
    rw [← hn]
    cases hto : s.next cursor with
    | none =>
      have hsto : breakDeadlockFrom sender depth Option.none (s.releaseSender cursor edeadlk) =
          s.releaseSender cursor edeadlk := by
        cases depth with
        | zero => rfl
        | succ depth => rfl
      rw [hsto]
      refine ((LetGo.none edeadlk _ (fun _ => id)).after id).congr (fun c => ?_)
      simp [onChain_step hb, hto]
    | some b =>
      have hste : ∀ k, climb s.next (k + 1) cursor = climb s.next k b := by
        intro k
        rw [climb, hto, Option.bind_some]
      -- The pointers do not come back to the cursor, so letting it go does not cut the rest.
      have havo : Avoids s.next cursor b := by
        intro k hk
        exact climb_periodic (Nat.succ_pos k) ((hste k).trans hk) (depth + 1) hend
      have hcl : ∀ k, climb (s.releaseSender cursor edeadlk).next k b = climb s.next k b := by
        intro k
        rw [next_releaseSender hb, climb_update_of_avoids havo]
      have ho : ∀ c, c ≠ cursor → (s.releaseSender cursor edeadlk).pool c = s.pool c := by
        intro c hc
        rw [releaseSender_eq]
        exact update_of_ne hc _ _
      have hch : ∀ c, (s.releaseSender cursor edeadlk).OnChain b c ↔ s.OnChain b c := by
        intro c
        unfold OnChain
        simp only [hcl]
        refine and_congr_right ?_
        rintro ⟨k, hk⟩
        rw [ho c (fun heq => havo k (heq ▸ hk))]
      refine ((ih ?_ ?_).after ?_).congr (fun c => ?_)
      · rw [ho sender (Ne.symm hcu)]
        exact hse
      · rw [hcl, ← hste]
        exact hend
      · rw [hch]
        rintro ⟨⟨k, hk⟩, -⟩
        exact havo k hk
      · simp [onChain_step hb, hto, hch]

theorem Forest.sendInternal_cycle (hs : s.Forest) (hrea : (s.pool current).state = .running)
    {destination : ℕ} (hto : s.taskForPid destination = some receiver)
    (hcy : ∃ k, climb s.next k receiver = some current) (message : Message) (deadline : UInt32)
    (timed alone : Bool) :
    ∃ s', s.sendInternal current destination (some message) deadline timed alone =
        (s', some edeadlk) ∧ LetGo (s.OnChain receiver) edeadlk s s' := by
  have hcu : (s.pool current).state ≠ .blockedSend := by simp [hrea]
  simp only [System.sendInternal, hto]
  by_cases hse : receiver = current
  · rw [if_pos hse]
    exact ⟨s, rfl, .none _ _ (not_onChain (hse ▸ hcu))⟩
  -- A task on the way to the sender is itself parked sending, so it does not wait to receive.
  have haw : ¬ s.Awaits receiver current := by
    rintro ⟨hrec, -, -⟩
    rw [exists_climb_step] at hcy
    simp [hse, next, hrec] at hcy
  rw [if_neg hse, if_neg haw, if_pos (hs.deadlock_iff.mpr hcy)]
  exact ⟨_, rfl, breakDeadlockFrom_letGo hcu (by simpa using (hs receiver).climb_card)⟩

theorem next_enter (s : System) (slot : Slot) (event : ℕ → ℕ → Event) :
    (s.enter slot event).next = s.next := by
  have hn : (s.enter slot event).next = update s.next slot (s.next slot) :=
    next_update s (s.enter slot event) slot _ rfl rfl rfl Iff.rfl rfl
  rw [hn, update_eq_self]

theorem Forest.sendInternal (hs : s.Forest) (hrea : (s.pool current).state = .running)
    (destination : ℕ) (message : Option Message) (deadline : UInt32) (timed alone : Bool) :
    (s.sendInternal current destination message deadline timed alone).1.Forest := by
  unfold System.sendInternal
  split
  · exact hs
  rename_i receiver hrec
  split
  · exact hs
  split
  · exact hs
  rename_i message
  split
  · rename_i ha
    exact hs.calmer (calmer_sendNow current message ha.1)
  split
  · exact hs.calmer (calmer_breakDeadlockFrom current 32 _ s)
  rename_i hn
  dsimp only
  split
  · refine hs.calmer (calmer_of_running current
      { s.pool current with sendTo := 0, sendDeadline := 0, state := .running } ?_ rfl rfl
      (by simp [hrea]) (by simp))
    simp [unparkSend, parkSend]
  · intro a
    rw [next_parkSend hrea, hrec]
    refine (hs a).update_some (hs receiver) (fun k hk => hn ?_)
    exact hs.deadlock_iff.mpr ⟨k, hk⟩

end System

open MichCore.Ipc.System

variable {s : System}

theorem forest_of_initial (h : s.Initial) : s.Forest :=
  fun a => .root (if_neg (h.idle a).1)

theorem Forest.perform (hs : s.Forest) (op : Op) : (op.perform s).Forest := by
  have he : ∀ slot event, s.Ready slot →
      (s.enter slot event).Forest ∧ ((s.enter slot event).pool slot).state = .running := by
    intro slot event hre
    refine ⟨hs.calmer (calmer_enter s slot event), ?_⟩
    simp [enter, hre.2.2.1]
  cases op with
  | send slot destination message alone | sendTimeout slot destination message deadline alone =>
    rw [Op.perform]
    split
    · rename_i hre
      obtain ⟨hf, hru⟩ := he slot (.send · · destination message) hre
      exact (hf.sendInternal hru _ _ _ _ _).calmer (calmer_leave _ _)
    · exact hs
  | sendNb slot destination message =>
    rw [Op.perform]
    split
    · exact hs.calmer (((calmer_enter s slot _).trans (calmer_sendNb _ _ _ _)).trans
        (calmer_leave _ _))
    · exact hs
  | recv slot expected address alone =>
    rw [Op.perform]
    split
    · rename_i hre
      obtain ⟨hf, hru⟩ := he slot (.recv · · expected) hre
      exact (hf.calmer (calmer_recv hru _ _ _)).calmer (calmer_leave _ _)
    · exact hs
  | resume slot | remap slot mapped =>
    rw [Op.perform]
    split
    · exact hs.calmer (calmer_of_record slot _ rfl rfl rfl rfl rfl)
    · exact hs
  | tick now => exact hs.calmer (calmer_tick s now)
  | die slot zombie =>
    rw [Op.perform]
    split
    · exact hs.calmer (calmer_die s slot zombie)
    · exact hs

theorem Forest.performAll (hs : s.Forest) (ops : List Op) : (performAll s ops).Forest := by
  induction ops generalizing s with
  | nil => exact hs
  | cons op rest ih => exact ih (Forest.perform hs op)

/-- The call is a send of this message that waits for a receiver. -/
inductive BlockingSend (slot : Slot) (destination : ℕ) (message : Message) : Op → Prop where
  | send (alone : Bool) : BlockingSend slot destination message
      (.send slot destination (some message) alone)
  | timed (deadline : UInt32) (alone : Bool) : BlockingSend slot destination message
      (.sendTimeout slot destination (some message) deadline alone)

/-- The task lies on the chain of parked senders from `receiver` back to `sender`. -/
def Between (s : System) (receiver sender c : Slot) : Prop :=
  Relation.ReflTransGen s.SendsTo receiver c ∧ Relation.TransGen s.SendsTo c sender

theorem sendsTo_eq (s : System) : s.SendsTo = fun a b => s.next a = some b := by
  funext a b
  exact propext next_eq_some.symm

theorem between_iff_onChain {receiver sender : Slot} (hs : (s.pool sender).state = .running)
    (hcy : ∃ k, climb s.next k receiver = some sender) (c : Slot) :
    Between s receiver sender c ↔ s.OnChain receiver c := by
  unfold Between OnChain
  rw [sendsTo_eq, ← exists_climb_iff]
  refine and_congr_right (fun hc => ⟨fun hl => ?_, fun hbl => ?_⟩)
  · obtain ⟨b, hb, -⟩ := Relation.TransGen.head'_iff.mp hl
    exact (next_eq_some.mp hb).1
  · refine transGen_root (if_neg (by simp [hs])) hcy hc ?_
    rintro rfl
    rw [hs] at hbl
    cases hbl

/-- What a send that would close a circle leaves behind: the answer and the chain let go. -/
structure Refused (s s' : System) (slot receiver : Slot) (sent : Event) : Prop where
  answer : s'.log = .returned s.calls edeadlk :: sent :: s.log
  chain : ∀ c, Between s receiver slot c → s'.pool c = released (s.pool c) edeadlk ∧
    s'.pendingValid c = false ∧ s'.pendingTimed c = false
  caller : s'.pool slot = { s.pool slot with call := s.calls }
  others : ∀ c, ¬ Between s receiver slot c → c ≠ slot → s'.pool c = s.pool c
  messages : ∀ c, ¬ Between s receiver slot c → s'.pendingValid c = s.pendingValid c ∧
    s'.pendingTimed c = s.pendingTimed c
  pending : s'.pending = s.pending

theorem Forest.perform_cycle (hs : s.Forest) {slot receiver : Slot} (hre : s.Ready slot)
    {destination : ℕ} {message : Message} {op : Op} (hop : BlockingSend slot destination message op)
    (hto : s.taskForPid destination = some receiver)
    (hcy : Relation.ReflTransGen s.SendsTo receiver slot) :
    Refused s (op.perform s) slot receiver
      (.send s.calls (s.pool slot).id destination (some message)) := by
  rw [sendsTo_eq, ← exists_climb_iff] at hcy
  set e := s.enter slot (.send · · destination (some message)) with he
  have hnex : e.next = s.next := next_enter s slot _
  have hpool : ∀ c, c ≠ slot → e.pool c = s.pool c :=
    fun c hc => update_of_ne hc _ _
  have hsl : e.pool slot = { s.pool slot with call := s.calls } := update_self ..
  have hru : (e.pool slot).state = .running := by
    rw [hsl]
    exact hre.2.2.1
  have heto : e.taskForPid destination = some receiver := by
    rw [← hto]
    exact taskForPid_update s e slot _ rfl rfl rfl Iff.rfl destination
  have hf : e.Forest := hs.calmer (calmer_enter s slot _)
  obtain ⟨s', han, hgo⟩ : ∃ s', op.perform s = leave slot (s', some edeadlk) ∧
      LetGo (e.OnChain receiver) edeadlk e s' := by
    have hgo := hf.sendInternal_cycle hru heto (hnex ▸ hcy) message
    cases hop with
    | send alone =>
      obtain ⟨s', heq, hgo⟩ := hgo 0 false alone
      exact ⟨s', by rw [Op.perform, if_pos hre, ← he, heq], hgo⟩
    | timed deadline alone =>
      obtain ⟨s', heq, hgo⟩ := hgo deadline true alone
      exact ⟨s', by rw [Op.perform, if_pos hre, ← he, heq], hgo⟩
  have hch : ∀ c, Between s receiver slot c ↔ e.OnChain receiver c := by
    intro c
    rw [between_iff_onChain hre.2.2.1 hcy]
    unfold OnChain
    rw [hnex]
    by_cases hc : c = slot
    · rw [hc, hsl]
    · rw [hpool c hc]
  have hout : ¬ Between s receiver slot slot := by
    rw [hch]
    rintro ⟨-, hb⟩
    rw [hru] at hb
    cases hb
  have hgo := hgo.congr hch
  have hca : s'.pool slot = e.pool slot := (hgo.kept slot hout).1
  rw [han]
  refine ⟨?_, fun c hc => ?_, hca.trans hsl, fun c hc hne => ?_, fun c hc => ?_, ?_⟩
  · have hlog : s'.log = e.log := by rw [hgo.rest]
    show .returned (s'.pool slot).call edeadlk :: s'.log = _
    rw [hca, hsl, hlog]
    rfl
  · have hne : c ≠ slot := fun heq => hout (heq ▸ hc)
    exact hpool c hne ▸ hgo.freed c hc
  · exact (hgo.kept c hc).1.trans (hpool c hne)
  · exact (hgo.kept c hc).2
  · show s'.pending = _
    rw [hgo.rest]
    rfl

/-- Parked senders never wait in a circle. A waiting send that would close one, of any length,
answers `EDEADLK`, lets the whole chain go and changes nothing else; its destination is parked
or is the caller. -/
theorem no_send_cycle {start : System} (hstart : start.Initial) (ops : List Op) :
    (∀ a, ¬ Relation.TransGen (performAll start ops).SendsTo a a) ∧
    ∀ {slot receiver : Slot} {destination : ℕ} {message : Message} {op : Op},
      (performAll start ops).Ready slot → BlockingSend slot destination message op →
      (performAll start ops).taskForPid destination = some receiver →
      Relation.ReflTransGen (performAll start ops).SendsTo receiver slot →
      Refused (performAll start ops) (op.perform (performAll start ops)) slot receiver
        (.send (performAll start ops).calls ((performAll start ops).pool slot).id destination
          (some message)) := by
  have hf : (performAll start ops).Forest := Forest.performAll (forest_of_initial hstart) ops
  refine ⟨fun a => ?_, fun hr hop hto hc => ?_⟩
  · rw [sendsTo_eq]
    exact (hf a).not_transGen
  · exact Forest.perform_cycle hf hr hop hto hc

/-- Two idle tasks, in slots 1 and 2. -/
def pair : System where
  pool slot :=
    { id := slot.val, state := .running, recvBuf := 0, recvExpect := 0, sendTo := 0
      sendDeadline := 0, mapped := fun _ => true, rax := 0, call := 0, parked := false }
  count := 3
  pending _ := diedNotice 0
  pendingValid _ := false
  pendingTimed _ := false
  calls := 0
  log := []

theorem pair_initial : pair.Initial where
  count := by decide
  ids slot := Nat.mod_eq_of_lt (lt_trans slot.isLt (by decide))
  idle _ := ⟨by simp [pair], by simp [pair], rfl⟩
  log := rfl

/-- Task 1 is parked sending to task 2. -/
def oneParked : System := performAll pair [.send 1 2 (some (diedNotice 0)) false]

/-- The send of task 2 back to task 1 is refused. -/
theorem no_send_cycle_pair : pair.Initial ∧
    Refused oneParked ((Op.send 2 1 (some (diedNotice 0)) false).perform oneParked) 2 1
      (.send 1 2 1 (some (diedNotice 0))) := by
  have hr : oneParked.Ready 2 := by decide
  have hto : oneParked.taskForPid 1 = some 1 := by decide
  have hp : oneParked.SendsTo 1 2 := ⟨by decide, by decide⟩
  exact ⟨pair_initial, (no_send_cycle pair_initial [.send 1 2 (some (diedNotice 0)) false]).2
    hr (.send false) hto (.single hp)⟩

end MichCore.Ipc
