import MichCore.Events

/-!
# The registrations of waiting tasks

A task that waits is blocked, and its bit stands in the waiters of exactly the events of its
wait set (`Registered`). A stop of such a task breaks this: it leaves the blocked state and its
registrations stay, so that a signal of an auto-reset event can be spent on it.

The calls that wake several tasks first write the state of the event. Such a write commutes with
the wakes (`wakeSlot_modifyEvent`), so that only single wakes of a consistent state are looked at.
-/
namespace MichCore.Objects

open Function List Option
open Process (Pool Signal TaskState)

/-- Bits and wait sets agree, and a task with a wait set is blocked. -/
structure Registered (s : System) : Prop where
  bits : ∀ index slot, (s.event index).active = true →
    ((s.event index).waiters slot = true ↔
      ∃ object ∈ s.waitSet slot, stateFor s object = some index)
  blocked : ∀ slot, s.waitSet slot ≠ [] → (s.pool.task slot).state = .blockedEvent

/-- What the calls rely on besides: each event has one object, wait sets hold events only and
belong to tasks of the table, and a blocked task has one. -/
structure Consistent (s : System) : Prop extends Registered s where
  objects : ∀ object, (s.objects object).active = true →
    (s.objects object).type = kobjectEvent → stateFor s object ≠ none
  unique : ∀ object object' index, stateFor s object = some index →
    stateFor s object' = some index → object = object'
  known : ∀ slot, ∀ object ∈ s.waitSet slot, stateFor s object ≠ none
  bound : ∀ slot, s.waitSet slot ≠ [] → slot < s.pool.count ∧ slot < taskMax
  waits : ∀ slot, (s.pool.task slot).state = .blockedEvent → s.waitSet slot ≠ []

theorem stateFor_eq_some_iff (s : System) (object index : ℕ) :
    stateFor s object = some index ↔
      (s.objects object).active = true ∧ (s.objects object).type = kobjectEvent ∧
        (s.objects object).value = index + 1 ∧ index < eventMax ∧
        (s.event index).active = true := by
  unfold stateFor
  simp only
  split
  · next h =>
    refine iff_of_false (by simp) ?_
    rintro ⟨hac, ht, hv, hi, -⟩
    rcases h with h | h | h | h
    · rw [hac] at h
      cases h
    · exact h ht
    · omega
    · omega
  · next h =>
    simp only [not_or, Bool.not_eq_false, not_not, not_lt] at h
    obtain ⟨hac, ht, hv, hmax⟩ := h
    split
    · next hev =>
      rw [some_inj]
      constructor
      · rintro rfl
        exact ⟨hac, ht, by omega, by omega, hev⟩
      · rintro ⟨-, -, heq, -, -⟩
        omega
    · next hev =>
      refine iff_of_false (by simp) ?_
      rintro ⟨-, -, heq, -, hon⟩
      have hi : (s.objects object).value - 1 = index := by omega
      rw [hi] at hev
      exact hev hon

variable {s s' : System} {index object slot : ℕ} {f : EventState → EventState}

theorem stateFor_congr (ho : s'.objects = s.objects)
    (ha : ∀ index, (s'.event index).active = (s.event index).active) (object : ℕ) :
    stateFor s' object = stateFor s object := by
  refine ext fun index => ?_
  rw [stateFor_eq_some_iff, stateFor_eq_some_iff, ho, ha]

@[simp] theorem System.modifyEvent_same (s : System) (index : ℕ) (f : EventState → EventState) :
    (s.modifyEvent index f).event index = f (s.event index) := by
  simp [System.modifyEvent]

theorem System.modifyEvent_other (s : System) {other : ℕ} (h : other ≠ index)
    (f : EventState → EventState) : (s.modifyEvent index f).event other = s.event other :=
  update_of_ne h _ _

theorem stateFor_modifyEvent (s : System) (index : ℕ) (hac : ∀ e, (f e).active = e.active)
    (object : ℕ) : stateFor (s.modifyEvent index f) object = stateFor s object := by
  have he : ∀ other, ((s.modifyEvent index f).event other).active =
      (s.event other).active := by
    intro other
    by_cases h : other = index
    · subst h
      rw [System.modifyEvent_same, hac]
    · rw [s.modifyEvent_other h]
  exact @stateFor_congr s (s.modifyEvent index f) rfl he object

theorem EventState.mark_mark (slot : ℕ) (bit bit' : Bool) (e : EventState) :
    (e.mark slot bit).mark slot bit' = e.mark slot bit' := by
  simp [EventState.mark]

/-- All the bits of a task for a list of objects. -/
def markAll (s : System) (slot : ℕ) (bit : Bool) (objects : List ℕ) : System :=
  { s with event := fun index =>
      if ∃ object ∈ objects, stateFor s object = some index then (s.event index).mark slot bit
      else s.event index }

theorem markAll_active (s : System) (slot : ℕ) (bit : Bool) (objects : List ℕ) (index : ℕ) :
    ((markAll s slot bit objects).event index).active = (s.event index).active := by
  simp only [markAll]
  split <;> rfl

theorem markAll_other (s : System) {other : ℕ} (h : other ≠ slot) (bit : Bool) (objects : List ℕ)
    (index : ℕ) : ((markAll s slot bit objects).event index).waiters other =
      (s.event index).waiters other := by
  simp only [markAll]
  split
  · exact update_of_ne h _ _
  · rfl

theorem stateFor_markAll (s : System) (slot : ℕ) (bit : Bool) (objects : List ℕ) (object : ℕ) :
    stateFor (markAll s slot bit objects) object = stateFor s object :=
  @stateFor_congr s (markAll s slot bit objects) rfl (markAll_active s slot bit objects) object

theorem foldl_markObject (slot : ℕ) (bit : Bool) (objects : List ℕ) (s : System) :
    objects.foldl (markObject slot bit) s = markAll s slot bit objects := by
  induction objects generalizing s with
  | nil => simp [markAll]
  | cons object objects ih =>
    rw [foldl_cons, ih, markObject]
    cases hstate : stateFor s object with
    | none => simp [markAll, hstate]
    | some index =>
      have hstates := stateFor_modifyEvent s index (f := EventState.mark slot bit) fun _ => rfl
      simp only [markAll, hstates, mem_cons, exists_eq_or_imp, hstate, some_inj]
      refine congrArg (fun event => { s with event := event }) (funext fun other => ?_)
      by_cases h : other = index
      · subst h
        rw [System.modifyEvent_same, EventState.mark_mark, ite_self, if_pos (.inl rfl)]
      · rw [s.modifyEvent_other h]
        simp only [Ne.symm h, false_or]

theorem markAll_modifyEvent (s : System) (index slot : ℕ) (objects : List ℕ)
    (hf : ∀ e, f (e.mark slot false) = f e) (hc : ∀ e, (f e).mark slot false = f e) :
    markAll (s.modifyEvent index f) slot false objects =
      (markAll s slot false objects).modifyEvent index f := by
  have he : (markAll (s.modifyEvent index f) slot false objects).event =
      ((markAll s slot false objects).modifyEvent index f).event := by
    funext other
    by_cases h : other = index
    · subst h
      simp only [markAll, System.modifyEvent_same, hc, ite_self]
      split
      · rw [hf]
      · rfl
    · have hs : ∀ object, stateFor (s.modifyEvent index f) object = some other ↔
          stateFor s object = some other := by
        intro object
        rw [stateFor_eq_some_iff, stateFor_eq_some_iff, s.modifyEvent_other h]
        rfl
      rw [System.modifyEvent_other _ h]
      simp only [markAll, hs, s.modifyEvent_other h]
  exact congrArg (fun event => { s with event := event }) he

/-- The state behind a wake. -/
def System.woken (s : System) (slot : ℕ) (result : ℤ) : System where
  pool := s.pool.modify slot fun t => { t with state := .running, result := result }
  objects := s.objects
  event := (markAll s slot false (s.waitSet slot)).event
  waitSet := update s.waitSet slot []
  deadline := update s.deadline slot 0
  timed := update s.timed slot false

theorem wakeSlot_eq (s : System) (slot : ℕ) (result : ℤ) :
    wakeSlot s slot result =
      if s.pool.count ≤ slot ∨ (s.pool.task slot).state ≠ .blockedEvent then s
      else if taskMax ≤ slot then
        { s with
          pool := s.pool.modify slot fun t => { t with state := .running, result := result } }
      else s.woken slot result := by
  unfold wakeSlot clearWaitSet
  by_cases hw : s.pool.count ≤ slot ∨ (s.pool.task slot).state ≠ .blockedEvent
  · rw [if_pos hw, if_pos hw]
  rw [if_neg hw, if_neg hw]
  by_cases hs : taskMax ≤ slot
  · simp only [if_pos hs]
  · simp only [if_neg hs, foldl_markObject]
    rfl

theorem wakeSlot_modifyEvent (s : System) (index slot : ℕ) (result : ℤ)
    (hf : ∀ e, f (e.mark slot false) = f e) (hc : ∀ e, (f e).mark slot false = f e) :
    wakeSlot (s.modifyEvent index f) slot result =
      (wakeSlot s slot result).modifyEvent index f := by
  have hm := markAll_modifyEvent s index slot (s.waitSet slot) hf hc
  rw [wakeSlot_eq, wakeSlot_eq]
  by_cases hw : s.pool.count ≤ slot ∨ (s.pool.task slot).state ≠ .blockedEvent
  · rw [if_pos hw]
    exact if_pos hw
  rw [if_neg hw]
  refine (if_neg hw).trans ?_
  by_cases hs : taskMax ≤ slot
  · rw [if_pos hs, if_pos hs]
    rfl
  · rw [if_neg hs, if_neg hs]
    have he := congrArg System.event hm
    exact congrArg (fun event => { s.woken slot result with event := event }) he

/-- The objects and the active events are the same. -/
structure SameEvents (s s' : System) : Prop where
  isActive : ∀ object, (s'.objects object).active = (s.objects object).active
  type : ∀ object, (s'.objects object).type = (s.objects object).type
  value : ∀ object, (s'.objects object).value = (s.objects object).value
  event : ∀ index, (s'.event index).active = (s.event index).active
  count : s'.pool.count = s.pool.count

theorem SameEvents.stateFor (h : SameEvents s s') (object : ℕ) :
    stateFor s' object = stateFor s object := by
  refine ext fun index => ?_
  rw [stateFor_eq_some_iff, stateFor_eq_some_iff, h.isActive, h.type, h.value, h.event]

/-- A task that keeps its wait set and its bits. -/
structure SlotKept (s s' : System) (slot : ℕ) : Prop where
  waitSet : s'.waitSet slot = s.waitSet slot
  blocked : (s'.pool.task slot).state = .blockedEvent ↔ (s.pool.task slot).state = .blockedEvent
  waiters : ∀ index, (s.event index).active = true →
    (s'.event index).waiters slot = (s.event index).waiters slot

/-- A task that waits for nothing. -/
structure SlotFree (s : System) (slot : ℕ) : Prop where
  waitSet : s.waitSet slot = []
  blocked : (s.pool.task slot).state ≠ .blockedEvent
  waiters : ∀ index, (s.event index).active = true → (s.event index).waiters slot = false

/-- What a consistent state says of one task. -/
structure SlotSound (s : System) (slot : ℕ) : Prop where
  bits : ∀ index, (s.event index).active = true →
    ((s.event index).waiters slot = true ↔
      ∃ object ∈ s.waitSet slot, stateFor s object = some index)
  known : ∀ object ∈ s.waitSet slot, stateFor s object ≠ none
  bound : s.waitSet slot ≠ [] → slot < s.pool.count ∧ slot < taskMax
  waits : s.waitSet slot ≠ [] ↔ (s.pool.task slot).state = .blockedEvent

theorem SlotKept.sound (hs : SameEvents s s') (h : SlotSound s slot)
    (hk : SlotKept s s' slot) : SlotSound s' slot where
  bits := by
    intro index ha
    rw [hs.event] at ha
    simp only [hs.stateFor, hk.waitSet, hk.waiters index ha]
    exact h.bits index ha
  known := by simpa only [hk.waitSet, hs.stateFor] using h.known
  bound := by simpa only [hk.waitSet, hs.count] using h.bound
  waits := by simpa only [hk.waitSet, hk.blocked] using h.waits

theorem SlotFree.sound (h : SlotFree s slot) : SlotSound s slot where
  bits := fun index ha => by simp [h.waiters index ha, h.waitSet]
  known := by simp [h.waitSet]
  bound := absurd h.waitSet
  waits := iff_of_false (not_not.mpr h.waitSet) h.blocked

theorem consistent_of_slots (ho : ∀ object, (s.objects object).active = true →
      (s.objects object).type = kobjectEvent → stateFor s object ≠ none)
    (hu : ∀ object object' index, stateFor s object = some index →
      stateFor s object' = some index → object = object')
    (hs : ∀ slot, SlotSound s slot) : Consistent s where
  bits := fun index slot => (hs slot).bits index
  blocked := fun slot => (hs slot).waits.mp
  objects := ho
  unique := hu
  known := fun slot => (hs slot).known
  bound := fun slot => (hs slot).bound
  waits := fun slot => (hs slot).waits.mpr

section

variable (h : Consistent s)
include h

theorem Consistent.sound (slot : ℕ) : SlotSound s slot :=
  ⟨fun index => h.bits index slot, h.known slot, h.bound slot, h.blocked slot, h.waits slot⟩

theorem Consistent.of_slots (hsa : SameEvents s s')
    (hsl : ∀ slot, SlotKept s s' slot ∨ SlotSound s' slot) : Consistent s' := by
  refine consistent_of_slots (fun object => ?_) (fun object object' index => ?_) fun slot => ?_
  · rw [hsa.isActive, hsa.type, hsa.stateFor]
    exact h.objects object
  · rw [hsa.stateFor, hsa.stateFor]
    exact h.unique object object' index
  · exact (hsl slot).elim (SlotKept.sound hsa (h.sound slot)) id

theorem Consistent.woken (slot : ℕ) (result : ℤ) : Consistent (s.woken slot result) := by
  have hs : SameEvents s (s.woken slot result) :=
    ⟨fun _ => rfl, fun _ => rfl, fun _ => rfl, markAll_active s slot false _, rfl⟩
  refine h.of_slots hs fun other => ?_
  by_cases ho : other = slot
  · subst ho
    refine .inr (SlotFree.sound ⟨update_self .., ?_, fun index hac => ?_⟩)
    · rw [System.woken, Pool.modify_same]
      exact TaskState.noConfusion
    · -- A bit that no object of the wait set cleared was not set.
      rw [hs.event] at hac
      simp only [System.woken, markAll]
      split
      · exact update_self ..
      · next hn =>
        exact Bool.eq_false_iff.mpr fun hbit => hn ((h.bits index other hac).mp hbit)
  · refine .inl ⟨update_of_ne ho _ _, ?_, fun index _ => markAll_other s ho false _ index⟩
    rw [System.woken, Pool.modify_other _ ho]

theorem Consistent.wakeSlot_eq (slot : ℕ) (result : ℤ) :
    wakeSlot s slot result = if s.waitSet slot ≠ [] then s.woken slot result else s := by
  rw [Objects.wakeSlot_eq]
  by_cases hw : s.waitSet slot ≠ []
  · have hb := h.blocked slot hw
    obtain ⟨hcount, ht⟩ := h.bound slot hw
    rw [if_pos hw, if_neg, if_neg (not_le.mpr ht)]
    rintro (hle | hne)
    · omega
    · exact hne hb
  · rw [if_neg hw, if_pos]
    exact .inr fun hb => hw (h.waits slot hb)

theorem Consistent.wake (slot : ℕ) (result : ℤ) : Consistent (wakeSlot s slot result) := by
  rw [h.wakeSlot_eq]
  split
  · exact h.woken slot result
  · exact h

theorem Consistent.wakeSlot_waitSet (slot : ℕ) (result : ℤ) :
    (wakeSlot s slot result).waitSet = update s.waitSet slot [] := by
  rw [h.wakeSlot_eq]
  split
  · rfl
  · next hw =>
    exact (update_eq_self_iff.mpr (not_not.mp hw).symm).symm

end

theorem wakeSlot_objects (s : System) (slot : ℕ) (result : ℤ) :
    (wakeSlot s slot result).objects = s.objects := by
  rw [wakeSlot_eq]
  split
  · rfl
  · split <;> rfl

/-- The wakes of a list of slots, each with a result that is read off the state. -/
def wakeEach (result : System → ℕ → ℤ) (s : System) (slots : List ℕ) : System :=
  slots.foldl (fun s slot => wakeSlot s slot (result s slot)) s

theorem wakeEach_objects (result : System → ℕ → ℤ) (slots : List ℕ) (s : System) :
    (wakeEach result s slots).objects = s.objects := by
  induction slots generalizing s with
  | nil => rfl
  | cons slot slots ih => exact (ih _).trans (wakeSlot_objects s slot _)

theorem wakeEach_modifyEvent {result : System → ℕ → ℤ} (index : ℕ)
    (hr : ∀ s slot, result (s.modifyEvent index f) slot = result s slot)
    (hf : ∀ slot e, f (e.mark slot false) = f e)
    (hc : ∀ slot e, (f e).mark slot false = f e) (slots : List ℕ) (s : System) :
    wakeEach result (s.modifyEvent index f) slots =
      (wakeEach result s slots).modifyEvent index f := by
  induction slots generalizing s with
  | nil => rfl
  | cons slot slots ih =>
    have hw := wakeSlot_modifyEvent s index slot (result s slot) (hf slot) (hc slot)
    simp only [wakeEach, foldl_cons] at ih ⊢
    rw [hr, hw, ih]

theorem Consistent.wakes (h : Consistent s) (result : System → ℕ → ℤ) (slots : List ℕ) :
    Consistent (wakeEach result s slots) ∧ ∀ slot, (wakeEach result s slots).waitSet slot =
      if slot ∈ slots then [] else s.waitSet slot := by
  induction slots generalizing s with
  | nil => exact ⟨h, fun slot => by simp [wakeEach]⟩
  | cons first slots ih =>
    obtain ⟨hc, hset⟩ := ih (h.wake first (result s first))
    refine ⟨hc, fun slot => (hset slot).trans ?_⟩
    rw [h.wakeSlot_waitSet]
    split
    · next hsl =>
      rw [if_pos (mem_cons_of_mem _ hsl)]
    next hsl =>
    by_cases hf : slot = first
    · subst hf
      rw [update_self, if_pos mem_cons_self]
    · rw [update_of_ne hf, if_neg]
      exact fun hmem => (mem_cons.mp hmem).elim hf hsl

theorem event_active (hs : stateFor s object = some index) :
    (s.event index).active = true := ((stateFor_eq_some_iff s object index).mp hs).2.2.2.2

section

variable (h : Consistent s)
include h

theorem Consistent.wakeEach_free (hst : stateFor s object = some index)
    (result : System → ℕ → ℤ) (slot : ℕ) :
    object ∉ (wakeEach result s (slotsOf (s.event index).waiters)).waitSet slot := by
  rw [(h.wakes result _).2]
  split
  · exact not_mem_nil
  · next hsl =>
    intro hmem
    have hac := event_active hst
    have hbit := (h.bits index slot hac).mpr ⟨object, hmem, hst⟩
    have hbo := (h.bound slot (ne_nil_of_mem hmem)).2
    exact hsl (mem_filter.mpr ⟨mem_range.mpr hbo, hbit⟩)

theorem Consistent.modifyEvent (index : ℕ)
    (hac : (f (s.event index)).active = (s.event index).active)
    (hw : (f (s.event index)).waiters = (s.event index).waiters) :
    Consistent (s.modifyEvent index f) := by
  have he : ∀ other, ((s.modifyEvent index f).event other).active = (s.event other).active ∧
      ((s.modifyEvent index f).event other).waiters = (s.event other).waiters := by
    intro other
    by_cases ho : other = index
    · subst ho
      rw [System.modifyEvent_same]
      exact ⟨hac, hw⟩
    · rw [s.modifyEvent_other ho]
      exact ⟨rfl, rfl⟩
  refine h.of_slots ⟨fun _ => rfl, fun _ => rfl, fun _ => rfl, fun other => (he other).1, rfl⟩
    fun slot => .inl ⟨rfl, Iff.rfl, fun other _ => ?_⟩
  rw [(he other).2]

theorem Consistent.waiters_eq_false (hs : stateFor s object = some index)
    (hf : object ∉ s.waitSet slot) : (s.event index).waiters slot = false := by
  have hac := event_active hs
  refine Bool.eq_false_iff.mpr fun hbit => ?_
  obtain ⟨object', hmem, hs'⟩ := (h.bits index slot hac).mp hbit
  exact hf (h.unique object' object index hs' hs ▸ hmem)

theorem wakeSlot_stateFor (slot : ℕ) (result : ℤ) (object : ℕ) :
    stateFor (wakeSlot s slot result) object = stateFor s object := by
  rw [h.wakeSlot_eq]
  split
  · exact stateFor_markAll s slot false (s.waitSet slot) object
  · rfl

theorem wakeEach_stateFor (result : System → ℕ → ℤ) (slots : List ℕ) (object : ℕ) :
    stateFor (wakeEach result s slots) object = stateFor s object := by
  induction slots generalizing s with
  | nil => rfl
  | cons slot slots ih => exact (ih (h.wake slot _)).trans (wakeSlot_stateFor h slot _ object)

theorem Consistent.eventSignal_auto {first : ℕ} {rest : List ℕ}
    (hst : stateFor s object = some index) (hmo : (s.event index).mode = .autoReset)
    (hsl : slotsOf (s.event index).waiters = first :: rest) :
    eventSignal s object = (wakeSlot s first (waitIndex s first object), 0) := by
  have hw := h.wake first (waitIndex s first object)
  have hset : object ∉ (wakeSlot s first (waitIndex s first object)).waitSet first := by
    rw [h.wakeSlot_waitSet, update_self]
    exact not_mem_nil
  have hbit := hw.waiters_eq_false ((wakeSlot_stateFor h first _ object).trans hst) hset
  have hc := wakeSlot_modifyEvent s index first (waitIndex s first object)
    (f := EventState.mark first false) (fun e => e.mark_mark first false false)
    (fun e => e.mark_mark first false false)
  rw [eventSignal, hst]
  simp only [hsl, hmo]
  rw [hc]
  refine Prod.ext ?_ rfl
  have hma : (wakeSlot s first (waitIndex s first object)).event index =
      ((wakeSlot s first (waitIndex s first object)).event index).mark first false := by
    rw [EventState.mark, ← hbit, update_eq_self]
  rw [System.modifyEvent, ← hma, update_eq_self]

theorem Consistent.signal (object : ℕ) : Consistent (eventSignal s object).1 := by
  cases hst : stateFor s object with
  | none =>
    rw [eventSignal, hst]
    exact h
  | some index =>
    cases hsl : slotsOf (s.event index).waiters with
    | nil =>
      rw [eventSignal, hst]
      simp only [hsl]
      exact h.modifyEvent index rfl rfl
    | cons first rest =>
      cases hm : (s.event index).mode with
      | autoReset =>
        rw [h.eventSignal_auto hst hm hsl]
        exact h.wake first _
      | manualReset =>
        let result : System → ℕ → ℤ := fun s slot => waitIndex s slot object
        let raised : EventState → EventState :=
          fun e => { e with waiters := fun _ => false, signaled := true }
        have hw : wakeEach result (s.modifyEvent index raised) (first :: rest) =
            (wakeEach result s (first :: rest)).modifyEvent index raised :=
          wakeEach_modifyEvent index (fun _ _ => rfl) (fun _ _ => rfl)
            (fun slot e => by simp [raised, EventState.mark]) (first :: rest) s
        rw [eventSignal, hst]
        simp only [hsl, hm]
        change Consistent (wakeEach result (s.modifyEvent index raised) (first :: rest))
        rw [hw]
        have hc := (h.wakes result (first :: rest)).1
        refine hc.modifyEvent index rfl (funext fun slot => ?_)
        have hf := h.wakeEach_free hst result slot
        rw [hsl] at hf
        exact (hc.waiters_eq_false
          ((wakeEach_stateFor h _ _ object).trans hst) hf).symm

/-- One object that nobody waits for, and the event of it, come or go. -/
structure ObjectChange (s s' : System) (object : ℕ) : Prop where
  pool : s'.pool = s.pool
  waitSet : s'.waitSet = s.waitSet
  free : ∀ slot, object ∉ s.waitSet slot
  objects : ∀ other, other ≠ object → s'.objects other = s.objects other
  states : ∀ other, other ≠ object → stateFor s' other = stateFor s other
  known : (s'.objects object).active = true → (s'.objects object).type = kobjectEvent →
    stateFor s' object ≠ none
  fresh : ∀ index, stateFor s' object = some index → ∀ other, other ≠ object →
    stateFor s other ≠ some index
  event : ∀ index, (s'.event index).active = true →
    ((s.event index).active = true ∧ (s'.event index).waiters = (s.event index).waiters) ∨
      (∀ slot, (s'.event index).waiters slot = false) ∧
        ∀ other, other ≠ object → stateFor s other ≠ some index

theorem Consistent.of_object (hc : ObjectChange s s' object) : Consistent s' := by
  have hne : ∀ slot, ∀ other ∈ s.waitSet slot, other ≠ object :=
    fun slot other hmem heq => hc.free slot (heq ▸ hmem)
  refine consistent_of_slots (fun other hac ht => ?_)
    (fun other other' index hstate hstate' => ?_) fun slot => ⟨fun index hac => ?_, ?_, ?_, ?_⟩
  · by_cases hot : other = object
    · subst hot
      exact hc.known hac ht
    · rw [hc.objects other hot] at hac ht
      rw [hc.states other hot]
      exact h.objects other hac ht
  · by_cases hot : other = object
    · by_cases hot' : other' = object
      · rw [hot, hot']
      · rw [hc.states other' hot'] at hstate'
        rw [hot] at hstate
        exact absurd hstate' (hc.fresh index hstate other' hot')
    · rw [hc.states other hot] at hstate
      by_cases hot' : other' = object
      · rw [hot'] at hstate'
        exact absurd hstate (hc.fresh index hstate' other hot)
      · rw [hc.states other' hot'] at hstate'
        exact h.unique other other' index hstate hstate'
  · have hstates : (∃ other ∈ s'.waitSet slot, stateFor s' other = some index) ↔
        ∃ other ∈ s.waitSet slot, stateFor s other = some index := by
      rw [hc.waitSet]
      refine exists_congr fun other => and_congr_right fun hmem => ?_
      rw [hc.states other (hne slot other hmem)]
    rw [hstates]
    rcases hc.event index hac with ⟨hold, hw⟩ | ⟨hw, hstates⟩
    · rw [hw]
      exact h.bits index slot hold
    rw [hw slot]
    refine iff_of_false (by decide) ?_
    rintro ⟨other, hmem, hstate⟩
    exact hstates other (hne slot other hmem) hstate
  · rw [hc.waitSet]
    intro other hmem
    rw [hc.states other (hne slot other hmem)]
    exact h.known slot other hmem
  · rw [hc.pool, hc.waitSet]
    exact h.bound slot
  · rw [hc.pool, hc.waitSet]
    exact (h.sound slot).waits

end

theorem stateFor_finished (s : System) (object : ℕ)
    (ho : (s.objects object).active = false) : stateFor s object = none := by
  refine eq_none_iff_forall_ne_some.mpr fun index hs => ?_
  have hac := ((stateFor_eq_some_iff s object index).mp hs).1
  rw [ho] at hac
  cases hac

theorem Consistent.finish (h : Consistent s) (hst : stateFor s object = none) :
    Consistent { s with objects := finishRelease s.objects object } := by
  set s' : System := { s with objects := finishRelease s.objects object }
  have ho : ∀ other, other ≠ object → s'.objects other = s.objects other :=
    fun other hne => update_of_ne hne _ _
  have hg : (s'.objects object).active = false := by simp [s', finishRelease]
  refine h.of_object ⟨rfl, rfl, fun slot hmem => h.known slot object hmem hst, ho,
    fun other hne => ?_, fun hac => ?_, fun index hso => ?_,
    fun index hac => .inl ⟨hac, rfl⟩⟩
  · refine ext fun index => ?_
    rw [stateFor_eq_some_iff, stateFor_eq_some_iff, ho other hne]
  · rw [hg] at hac
    cases hac
  · rw [stateFor_finished s' object hg] at hso
    cases hso

theorem Consistent.retire (h : Consistent s) (hst : stateFor s object = some index)
    (hfr : ∀ slot, object ∉ s.waitSet slot) (hf : ∀ e, (f e).active = false) :
    Consistent { s.modifyEvent index f with objects := finishRelease s.objects object } := by
  set s' : System := { s.modifyEvent index f with objects := finishRelease s.objects object }
  have ho : ∀ other, other ≠ object → s'.objects other = s.objects other :=
    fun other hne => update_of_ne hne _ _
  have hg : (s'.objects object).active = false := by simp [s', finishRelease]
  have hi : (s'.event index).active = false := by
    rw [show s'.event index = f (s.event index) from s.modifyEvent_same index f, hf]
  have hev : ∀ e, e ≠ index → s'.event e = s.event e := fun e he => s.modifyEvent_other he f
  refine h.of_object ⟨rfl, rfl, hfr, ho, fun other hne => ?_, fun hac => ?_,
    fun e hso => ?_, fun e hac => ?_⟩
  · refine ext fun e => ?_
    by_cases he : e = index
    · subst he
      refine iff_of_false (fun hso => ?_) fun hso => hne (h.unique _ _ _ hso hst)
      have hac := event_active hso
      rw [hi] at hac
      cases hac
    · rw [stateFor_eq_some_iff, stateFor_eq_some_iff, ho other hne, hev e he]
  · rw [hg] at hac
    cases hac
  · rw [stateFor_finished s' object hg] at hso
    cases hso
  · have he : e ≠ index := by
      rintro rfl
      rw [hi] at hac
      cases hac
    rw [hev e he] at hac ⊢
    exact .inl ⟨hac, rfl⟩

/-- Events are created with the callback and with a reference. -/
def Owned (t : ObjectTable) : Prop :=
  ∀ object, (t object).active = true → (t object).type = kobjectEvent →
    (t object).destroy = true ∧ 0 < (t object).references

theorem Consistent.references (h : Consistent s) {o : KObject}
    (hac : o.active = (s.objects object).active) (ht : o.type = (s.objects object).type)
    (hv : o.value = (s.objects object).value) :
    Consistent { s with objects := update s.objects object o } := by
  have hf : ∀ other, (update s.objects object o other).active = (s.objects other).active ∧
      (update s.objects object o other).type = (s.objects other).type ∧
      (update s.objects object o other).value = (s.objects other).value := by
    intro other
    by_cases ho : other = object
    · subst ho
      rw [update_self]
      exact ⟨hac, ht, hv⟩
    · rw [update_of_ne ho]
      exact ⟨rfl, rfl, rfl⟩
  exact h.of_slots ⟨fun other => (hf other).1, fun other => (hf other).2.1,
    fun other => (hf other).2.2, fun _ => rfl, rfl⟩
    fun slot => .inl ⟨rfl, Iff.rfl, fun _ _ => rfl⟩

theorem Owned.update {t : ObjectTable} (h : Owned t) {o : KObject}
    (ho : o.active = true → o.type = kobjectEvent → o.destroy = true ∧ 0 < o.references) :
    Owned (update t object o) := by
  intro other
  by_cases hot : other = object
  · subst hot
    rw [update_self]
    exact ho
  · rw [update_of_ne hot]
    exact h other

theorem eventDestroy_objects (s : System) (object : ℕ) :
    (eventDestroy s object).objects = s.objects := by
  unfold eventDestroy
  simp only
  split
  · rfl
  · split
    · rfl
    · exact wakeEach_objects (fun _ _ => -3) _ _

theorem Consistent.destroy (h : Consistent s) (hac : (s.objects object).active = true) :
    Consistent { eventDestroy s object with
      objects := finishRelease (eventDestroy s object).objects object } := by
  cases hs : stateFor s object with
  | none =>
    have ht : (s.objects object).type ≠ kobjectEvent :=
      fun ht => h.objects object hac ht hs
    rw [eventDestroy, if_pos (.inl ht)]
    exact h.finish hs
  | some index =>
    obtain ⟨-, ht, hv, hi, he⟩ := (stateFor_eq_some_iff s object index).mp hs
    let retired : EventState → EventState :=
      fun e => { e with waiters := fun _ => false, signaled := false, active := false }
    have hw : wakeEach (fun _ _ => -3) (s.modifyEvent index retired)
          (slotsOf (s.event index).waiters) =
        (wakeEach (fun _ _ => -3) s (slotsOf (s.event index).waiters)).modifyEvent index retired :=
      wakeEach_modifyEvent index (fun _ _ => rfl) (fun _ _ => rfl)
        (fun slot e => by simp [retired, EventState.mark]) _ s
    have hd : eventDestroy s object =
        (wakeEach (fun _ _ => -3) s (slotsOf (s.event index).waiters)).modifyEvent index
          retired := by
      have hg : ¬ ((s.objects object).type ≠ kobjectEvent ∨ (s.objects object).value = 0 ∨
          eventMax < (s.objects object).value) := by
        rintro (h | h | h)
        · exact h ht
        · omega
        · omega
      have hp : (s.objects object).value - 1 = index := by omega
      rw [← hw, eventDestroy, if_neg hg]
      simp only [hp, he]
      rfl
    rw [hd]
    exact (h.wakes _ _).1.retire ((wakeEach_stateFor h _ _ object).trans hs)
      (h.wakeEach_free hs _) fun _ => rfl

theorem Consistent.release (h : Consistent s) (how : Owned s.objects) (object : ℕ) :
    Consistent (Objects.release s object) ∧ Owned (Objects.release s object).objects := by
  unfold Objects.release dropReference
  by_cases hi : (s.objects object).active = false ∨ (s.objects object).references = 0
  · rw [if_pos hi]
    exact ⟨h, how⟩
  rw [if_neg hi]
  obtain ⟨hac, hr⟩ := not_or.mp hi
  rw [Bool.not_eq_false] at hac
  by_cases hk : (s.objects object).references - 1 ≠ 0
  · rw [if_pos hk]
    refine ⟨h.references rfl rfl rfl, how.update fun _ hty => ⟨?_, Nat.pos_of_ne_zero hk⟩⟩
    exact (how object hac hty).1
  rw [if_neg hk]
  set t := update s.objects object
    { s.objects object with references := 0, destroy := false } with ht
  have hdr : Consistent { s with objects := t } := h.references rfl rfl rfl
  have hse : (t object).active = true := by
    rw [ht, update_self]
    exact hac
  have hg : ∀ t' : ObjectTable, (∀ other, other ≠ object → t' other = s.objects other) →
      Owned (finishRelease t' object) := by
    intro t' hother other hon hty
    have hne : other ≠ object := by
      rintro rfl
      simp [finishRelease] at hon
    rw [finishRelease, update_of_ne hne, hother other hne] at hon hty ⊢
    exact how other hon hty
  have hothers : ∀ other, other ≠ object → t other = s.objects other :=
    fun other hne => update_of_ne hne _ _
  simp only
  split
  · refine ⟨hdr.destroy hse, hg _ fun other hne => ?_⟩
    rw [eventDestroy_objects]
    exact hothers other hne
  · next hde =>
    refine ⟨hdr.finish ?_, hg t hothers⟩
    refine eq_none_iff_forall_ne_some.mpr fun index hst => hde ?_
    have hty := ((stateFor_eq_some_iff _ object index).mp hst).2.1
    rw [show ({ s with objects := t } : System).objects = t from rfl, ht, update_self] at hty
    exact (how object hac hty).1

theorem Consistent.created (h : Consistent s) {mode : EventMode} {signaled : Bool}
    (hina : (s.event index).active = false) (hind : index < eventMax)
    (hf : (s.objects object).active = false) :
    Consistent { s.modifyEvent index fun _ => ⟨mode, signaled, fun _ => false, true⟩ with
      objects := update s.objects object
        ⟨kobjectEvent, 1, index + 1, true, true⟩ } := by
  set s' : System := { s.modifyEvent index fun _ => ⟨mode, signaled, fun _ => false, true⟩ with
      objects := update s.objects object ⟨kobjectEvent, 1, index + 1, true, true⟩ }
  have hnew : s'.objects object = ⟨kobjectEvent, 1, index + 1, true, true⟩ := update_self ..
  have hot : ∀ other, other ≠ object → s'.objects other = s.objects other :=
    fun other hne => update_of_ne hne _ _
  have hev : ∀ e, e ≠ index → s'.event e = s.event e :=
    fun e he => update_of_ne he _ _
  have hse : s'.event index = ⟨mode, signaled, fun _ => false, true⟩ := update_self ..
  have hold : ∀ other, stateFor s other ≠ some index := by
    intro other hst
    have hac := event_active hst
    rw [hina] at hac
    cases hac
  refine h.of_object ⟨rfl, rfl, fun slot hmem => ?_, hot, fun other hne => ?_, fun _ _ => ?_,
    fun e hst other _ => ?_, fun e hac => ?_⟩
  · exact h.known slot object hmem (stateFor_finished s object hf)
  · refine ext fun e => ?_
    by_cases he : e = index
    · -- An older object with the number of the event would have kept it active.
      subst he
      refine iff_of_false (fun hst => ?_) (hold other)
      obtain ⟨hac, ht, hv, -, -⟩ := (stateFor_eq_some_iff s' other e).mp hst
      rw [hot other hne] at hac ht hv
      obtain ⟨e', he'⟩ := ne_none_iff_exists'.mp (h.objects other hac ht)
      have hv' := ((stateFor_eq_some_iff s other e').mp he').2.2.1
      have heq : e' = e := by omega
      exact hold other (heq ▸ he')
    · rw [stateFor_eq_some_iff, stateFor_eq_some_iff, hot other hne, hev e he]
  · have hst : stateFor s' object = some index := by
      rw [stateFor_eq_some_iff, hnew, hse]
      exact ⟨rfl, rfl, rfl, hind, rfl⟩
    rw [hst]
    exact some_ne_none _
  · have hv := ((stateFor_eq_some_iff s' object e).mp hst).2.2.1
    rw [hnew] at hv
    have heq : e = index := (Nat.succ.inj hv).symm
    rw [heq]
    exact hold other
  · by_cases he : e = index
    · subst he
      rw [hse]
      exact .inr ⟨fun _ => rfl, fun other _ => hold other⟩
    · rw [hev e he] at hac ⊢
      exact .inl ⟨hac, rfl⟩

theorem Consistent.create (h : Consistent s) (ho : Owned s.objects) (mode : EventMode)
    (signaled : Bool) :
    Consistent (eventCreate s mode signaled).1 ∧ Owned (eventCreate s mode signaled).1.objects := by
  unfold eventCreate
  split
  · exact ⟨h, ho⟩
  · next index hfi =>
    have hfo := find?_some hfi
    have hina : (s.event index).active = false := of_decide_eq_true hfo
    have hind : index < eventMax := mem_range.mp (mem_of_find?_eq_some hfi)
    simp only
    split
    · refine ⟨h.of_slots ⟨fun _ => rfl, fun _ => rfl, fun _ => rfl, fun e => ?_, rfl⟩
        fun slot => .inl ⟨rfl, Iff.rfl, fun e hac => ?_⟩, ho⟩
      · by_cases he : e = index
        · subst he
          rw [System.modifyEvent_same, hina]
        · rw [System.modifyEvent_other _ he, System.modifyEvent_other _ he]
      · have he : e ≠ index := by
          rintro rfl
          rw [hina] at hac
          cases hac
        rw [System.modifyEvent_other _ he, System.modifyEvent_other _ he]
    · next t object hc =>
      obtain ⟨-, -, hfr, rfl⟩ := objectCreate_some hc
      exact ⟨h.created hina hind hfr, ho.update fun _ _ => ⟨rfl, Nat.one_pos⟩⟩

theorem scanObjects_pending {prior objects : List ℕ} (h : scanObjects s prior objects = .pending) :
    ∀ object ∈ objects, stateFor s object ≠ none := by
  induction objects generalizing prior with
  | nil => exact fun _ hmem => absurd hmem not_mem_nil
  | cons first objects ih =>
    unfold scanObjects at h
    split at h
    · cases h
    · next state hs =>
      split_ifs at h
      refine forall_mem_cons.mpr ⟨?_, ih h⟩
      rw [hs]
      exact some_ne_none _

theorem Consistent.register (h : Consistent s) {objects : List ℕ} (hob : objects ≠ [])
    (hcount : slot < s.pool.count) (ht : slot < taskMax) (he : s.waitSet slot = [])
    (hk : ∀ object ∈ objects, stateFor s object ≠ none) (deadline : ℕ → UInt32) (timed : ℕ → Bool) :
    Consistent { markAll s slot true objects with
      waitSet := update s.waitSet slot objects
      deadline := deadline
      timed := timed
      pool := s.pool.modify slot fun t => { t with state := .blockedEvent } } := by
  set s' : System := { markAll s slot true objects with
    waitSet := update s.waitSet slot objects
    deadline := deadline
    timed := timed
    pool := s.pool.modify slot fun t => { t with state := .blockedEvent } }
  have hsa : SameEvents s s' :=
    ⟨fun _ => rfl, fun _ => rfl, fun _ => rfl, markAll_active s slot true objects, rfl⟩
  refine h.of_slots hsa fun other => ?_
  by_cases hot : other = slot
  · subst hot
    have hset : s'.waitSet other = objects := update_self ..
    refine .inr ⟨fun index hac => ?_, ?_, fun _ => ⟨hcount, ht⟩, iff_of_true ?_ ?_⟩
    · rw [hsa.event] at hac
      simp only [hsa.stateFor, hset]
      simp only [s', markAll]
      split
      · next hma => exact iff_of_true (update_self ..) hma
      · next hu =>
        refine iff_of_false (fun hbit => ?_) hu
        obtain ⟨object, hmem, -⟩ := (h.bits index other hac).mp hbit
        rw [he] at hmem
        exact absurd hmem not_mem_nil
    · simpa only [hset, hsa.stateFor] using hk
    · rw [hset]
      exact hob
    · simp only [s', Pool.modify_same]
  · refine .inl ⟨update_of_ne hot _ _, ?_, fun index _ => markAll_other s hot true _ index⟩
    simp only [s', Pool.modify_other _ hot]

theorem Consistent.waitMany (h : Consistent s) (objects : List ℕ) (slot : ℕ) (deadline : UInt32)
    (timed : Bool) : Consistent (eventWaitMany s objects slot deadline timed).1 := by
  unfold eventWaitMany
  split
  · exact h
  · next hg =>
    simp only [not_or, not_not, not_le] at hg
    obtain ⟨ho, -, hcount, ht, hr, he⟩ := hg
    split
    · exact h
    · simp only
      split
      · exact h.modifyEvent _ rfl rfl
      · exact h
    · next hs =>
      have hk := scanObjects_pending hs
      simp only [foldl_markObject]
      exact h.register ho hcount ht he hk _ _

theorem Consistent.tick (h : Consistent s) (now : UInt32) (result : ℤ) :
    Consistent (eventTick s now result) := by
  unfold eventTick
  generalize List.range s.pool.count = slots
  induction slots generalizing s with
  | nil => exact h
  | cons slot slots ih =>
    rw [foldl_cons]
    refine ih ?_
    unfold tickSlot
    split
    · exact h
    · exact h.wake slot result

theorem Consistent.cancel (h : Consistent s) (slot : ℕ) (result : ℤ) :
    Consistent (eventCancelTask s slot result) := by
  unfold eventCancelTask
  split
  · exact h
  · next hs =>
    split
    · exact h.wake slot result
    · next hb =>
      have he : s.waitSet slot = [] := by
        by_contra hw
        exact hb (h.blocked slot hw)
      rw [clearWaitSet, if_neg hs, he]
      refine h.of_slots ⟨fun _ => rfl, fun _ => rfl, fun _ => rfl, fun _ => rfl, rfl⟩
        fun other => .inl ⟨?_, Iff.rfl, fun _ _ => rfl⟩
      exact congrFun (update_eq_self_iff.mpr he.symm) other

theorem kept_blocked_iff {t t' : Process.Task} (h : Process.Kept t t') :
    t'.state = .blockedEvent ↔ t.state = .blockedEvent := by
  rcases h.state with hs | ⟨hw, hr⟩
  · rw [hs]
  · rw [hw, hr]
    decide

theorem Consistent.of_pool (h : Consistent s) {pool : Pool} (hcount : pool.count = s.pool.count)
    (ht : ∀ slot, (pool.task slot).state = .blockedEvent ↔
      (s.pool.task slot).state = .blockedEvent) : Consistent { s with pool := pool } :=
  h.of_slots ⟨fun _ => rfl, fun _ => rfl, fun _ => rfl, fun _ => rfl, hcount⟩
    fun slot => .inl ⟨rfl, ht slot, fun _ _ => rfl⟩

theorem Consistent.stop (h : Consistent s) (hb : (s.pool.task slot).state ≠ .blockedEvent)
    (sig : Signal) : Consistent { s with pool := Process.signalStop s.pool slot sig } := by
  refine h.of_pool (Process.signalStop_spares s.pool slot sig).count fun other => ?_
  by_cases ho : other = slot
  · subst ho
    rw [(Process.signalStop_target s.pool other sig).1]
    exact iff_of_false (by decide) hb
  · exact kept_blocked_iff (Process.signalStop_other s.pool ho sig)

theorem Consistent.continue (h : Consistent s) (slot : ℕ) :
    Consistent { s with pool := Process.continueTask s.pool slot } := by
  refine h.of_pool (Process.continueTask_spares s.pool slot).count fun other => ?_
  by_cases ho : other = slot
  · subst ho
    rw [(Process.continueTask_target s.pool other).1]
    by_cases hs : (s.pool.task other).state = .stopped
    · rw [if_pos hs, hs]
      decide
    · rw [if_neg hs]
  · exact kept_blocked_iff (Process.continueTask_other s.pool ho)

theorem eventWaitMany_objects (s : System) (objects : List ℕ) (slot : ℕ) (deadline : UInt32)
    (timed : Bool) : (eventWaitMany s objects slot deadline timed).1.objects = s.objects := by
  unfold eventWaitMany
  split
  · rfl
  split
  · rfl
  · simp only
    split <;> rfl
  · simp only [foldl_markObject]
    rfl

theorem eventSignal_objects (s : System) (object : ℕ) :
    (eventSignal s object).1.objects = s.objects := by
  unfold eventSignal
  split
  · rfl
  simp only
  split
  · rfl
  · split
    · exact wakeEach_objects (fun s slot => waitIndex s slot object) _ _
    · exact wakeSlot_objects _ _ _

theorem eventTick_objects (s : System) (now : UInt32) (result : ℤ) :
    (eventTick s now result).objects = s.objects := by
  unfold eventTick
  generalize List.range s.pool.count = slots
  induction slots generalizing s with
  | nil => rfl
  | cons slot slots ih =>
    rw [foldl_cons, ih, tickSlot]
    split
    · rfl
    · exact wakeSlot_objects s slot result

theorem eventCancel_objects (s : System) (slot : ℕ) (result : ℤ) :
    (eventCancelTask s slot result).objects = s.objects := by
  unfold eventCancelTask
  split
  · rfl
  · next hs =>
    split
    · exact wakeSlot_objects s slot result
    · rw [clearWaitSet, if_neg hs, foldl_markObject]
      rfl

/-- A stop of a task that waits for an event. -/
def Call.StopsWaiter (s : System) : Call → Prop
  | .stop slot _ => (s.pool.task slot).state = .blockedEvent
  | _ => False

def run (s : System) (calls : List Call) : System := calls.foldl Call.apply s

/-- The property holds in every state of the run. -/
def Along (P : System → Prop) : System → List Call → Prop
  | s, [] => P s
  | s, call :: calls => P s ∧ Along P (call.apply s) calls

def StopsNoWaiter : System → List Call → Prop
  | _, [] => True
  | s, call :: calls => ¬ call.StopsWaiter s ∧ StopsNoWaiter (call.apply s) calls

section

variable (h : Consistent s)
include h

theorem Consistent.apply (ho : Owned s.objects) {call : Call}
    (hc : ¬ call.StopsWaiter s) : Consistent (call.apply s) ∧ Owned (call.apply s).objects := by
  cases call with
  | create mode signaled => exact h.create ho mode signaled
  | waitMany objects slot deadline timed =>
    exact ⟨h.waitMany objects slot deadline timed, by rwa [Call.apply, eventWaitMany_objects]⟩
  | signal object => exact ⟨h.signal object, by rwa [Call.apply, eventSignal_objects]⟩
  | reset object =>
    rw [Call.apply, eventReset]
    cases stateFor s object with
    | none => exact ⟨h, ho⟩
    | some index =>
      refine ⟨?_, ho⟩
      dsimp only
      exact h.modifyEvent index rfl rfl
  | tick now result => exact ⟨h.tick now result, by rwa [Call.apply, eventTick_objects]⟩
  | cancel slot result => exact ⟨h.cancel slot result, by rwa [Call.apply, eventCancel_objects]⟩
  | retain object =>
    rw [Call.apply]
    cases hret : objectRetain s.objects object with
    | none => exact ⟨h, ho⟩
    | some t =>
      obtain ⟨ha, href, rfl⟩ := objectRetain_some hret
      refine ⟨h.references rfl rfl rfl, ho.update fun _ ht => ⟨?_, Nat.succ_pos _⟩⟩
      exact (ho object ha ht).1
  | release object => exact h.release ho object
  | stop slot sig => exact ⟨h.stop hc sig, ho⟩
  | «continue» slot => exact ⟨h.continue slot, ho⟩

theorem Consistent.not_registered {call : Call} (hc : call.StopsWaiter s) :
    ¬ Registered (call.apply s) := by
  cases call with
  | stop slot sig =>
    intro hr
    have hb := hr.blocked slot (h.waits slot hc)
    rw [Call.apply, (Process.signalStop_target s.pool slot sig).1] at hb
    cases hb
  | _ => exact absurd hc id

theorem Consistent.along_iff (howned : Owned s.objects) (calls : List Call) :
    Along Registered s calls ↔ StopsNoWaiter s calls := by
  induction calls generalizing s with
  | nil => exact iff_of_true h.toRegistered trivial
  | cons call calls ih =>
    by_cases hc : call.StopsWaiter s
    · refine iff_of_false (fun hall => ?_) fun hno => hno.1 hc
      have hne : Registered (call.apply s) := by
        have ht := hall.2
        cases calls with
        | nil => exact ht
        | cons _ _ => exact ht.1
      exact h.not_registered hc hne
    · obtain ⟨hne, hownedN⟩ := h.apply howned hc
      exact and_congr (iff_of_true h.toRegistered hc) (ih hne hownedN)

theorem Consistent.run (howned : Owned s.objects) {calls : List Call}
    (hc : StopsNoWaiter s calls) : Consistent (run s calls) := by
  induction calls generalizing s with
  | nil => exact h
  | cons call calls ih =>
    obtain ⟨hn, hownedN⟩ := h.apply howned hc.1
    exact ih hn hownedN hc.2

/-- A signal of an auto-reset event makes one blocked task run with the index of the event in
its wait set, or leaves the event signaled. -/
def SignalSound (s : System) : Prop :=
  ∀ object index, stateFor s object = some index → (s.event index).mode = .autoReset →
    (∃ slot, ∃ i : ℕ, (s.pool.task slot).state = .blockedEvent ∧
      (s.waitSet slot)[i]? = some object ∧ (eventSignal s object).1.pool =
        s.pool.modify slot fun t => { t with state := .running, result := i }) ∨
    ((eventSignal s object).1.event index).signaled = true ∧
      (eventSignal s object).1.pool = s.pool

theorem Consistent.signalSound : SignalSound s := by
  intro object index hst hmo
  have hac := event_active hst
  cases hsl : slotsOf (s.event index).waiters with
  | nil =>
    refine .inr ?_
    rw [eventSignal, hst]
    simp only [hsl]
    exact ⟨by rw [System.modifyEvent_same], rfl⟩
  | cons first rest =>
    have hf : first ∈ slotsOf (s.event index).waiters := by
      rw [hsl]
      exact mem_cons_self
    obtain ⟨hra, hbit⟩ := mem_filter.mp hf
    obtain ⟨object', hmem, hst'⟩ := (h.bits index first hac).mp hbit
    have heq : object' = object := h.unique object' object index hst' hst
    subst heq
    obtain ⟨i, hi⟩ := isSome_iff_exists.mp (isSome_idxOf?.mpr hmem)
    obtain ⟨hlt, hget, -⟩ := idxOf?_eq_some_iff.mp hi
    have hre : waitIndex s first object' = i := by
      rw [waitIndex, if_neg (not_le.mpr (mem_range.mp hra)), hi]
    have hw : s.waitSet first ≠ [] := ne_nil_of_mem hmem
    refine .inl ⟨first, i, h.blocked first hw, ?_, ?_⟩
    · rw [getElem?_eq_getElem hlt, hget]
    · rw [h.eventSignal_auto hst hmo hsl, h.wakeSlot_eq, if_pos hw, hre]
      rfl

end

theorem System.Initial.consistent (h : s.Initial) : Consistent s := by
  have he : ∀ index, (s.event index).active ≠ true := by simp [h.events]
  refine consistent_of_slots (fun object hac ht => absurd ht (h.objects object hac))
    (fun object object' index hs => absurd (event_active hs) (he index)) fun slot => ?_
  exact SlotFree.sound ⟨h.waitSet slot, h.tasks slot, fun index hac =>
    absurd hac (he index)⟩

/-- The registrations are right in every state of a run exactly when no call stops a task that
waits for an event; then no signal of an auto-reset event is lost. -/
theorem registrations_kept_iff {s : System} (hinitial : s.Initial) (calls : List Call) :
    (Along Registered s calls ↔ StopsNoWaiter s calls) ∧
      (StopsNoWaiter s calls → SignalSound (run s calls)) := by
  have ho : Owned s.objects :=
    fun object hac ht => absurd ht (hinitial.objects object hac)
  exact ⟨hinitial.consistent.along_iff ho calls,
    fun hc => (hinitial.consistent.run ho hc).signalSound⟩

/-- Three running tasks and no event. -/
def noEvents : System where
  pool := Process.threeTasks
  objects := fun _ => KObject.none
  event := fun _ => ⟨.autoReset, false, fun _ => false, false⟩
  waitSet := fun _ => []
  deadline := fun _ => 0
  timed := fun _ => false

theorem noEvents_initial : noEvents.Initial where
  objects := by
    intro object ha
    cases ha
  events := fun _ => rfl
  waitSet := fun _ => rfl
  tasks := fun _ => TaskState.noConfusion

theorem registrations_kept_for_one_waiter :
    SignalSound (run noEvents [.create .autoReset false, .waitMany [0] 1 0 false]) :=
  (registrations_kept_iff noEvents_initial _).2 ⟨id, id, trivial⟩

/-- The waiter is stopped; the signal then is spent, but no task runs and the task keeps its wait
set. -/
theorem stopped_waiter_loses_signal :
    let s := run noEvents
      [.create .autoReset false, .waitMany [0] 1 0 false, .stop 1 .stop, .signal 0]
    (s.event 0).signaled = false ∧ (s.event 0).waiters 1 = false ∧ s.waitSet 1 = [0] ∧
      (s.pool.task 1).state = .stopped := by
  decide

/-- No task is left waiting for an event that is gone: what a blocked task waits for is there,
and has the task among its waiters. -/
theorem blocked_waits_on_live {s : System} (hinitial : s.Initial) (calls : List Call)
    (hcalls : StopsNoWaiter s calls) (slot : ℕ)
    (hblocked : ((run s calls).pool.task slot).state = .blockedEvent) :
    (run s calls).waitSet slot ≠ [] ∧ ∀ object ∈ (run s calls).waitSet slot,
      ((run s calls).objects object).active = true ∧ ∃ index,
        stateFor (run s calls) object = some index ∧
          ((run s calls).event index).waiters slot = true := by
  have ho : Owned s.objects :=
    fun object hac ht => absurd ht (hinitial.objects object hac)
  have h := hinitial.consistent.run ho hcalls
  refine ⟨h.waits slot hblocked, fun object hmem => ?_⟩
  obtain ⟨index, hind⟩ := ne_none_iff_exists'.mp (h.known slot object hmem)
  obtain ⟨hac, -, -, -, he⟩ := (stateFor_eq_some_iff _ _ _).mp hind
  exact ⟨hac, index, hind, (h.bits index slot he).mpr ⟨object, hmem, hind⟩⟩

theorem blocked_waits_on_live_one :
    (run noEvents [.create .autoReset false, .waitMany [0] 1 0 false]).waitSet 1 ≠ [] :=
  (blocked_waits_on_live noEvents_initial [.create .autoReset false, .waitMany [0] 1 0 false]
    ⟨id, id, trivial⟩ 1 (by decide)).1

end MichCore.Objects
