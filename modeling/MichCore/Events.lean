import MichCore.GroupKill
import MichCore.KernelObjects

/-!
# Events and their waiters

`objects/event.c` over the object table and the task table. A wait registers a task as a bit in
the waiters of each event and as the wait set of the task. `event_destroy` runs as the destroy
callback of the object of the event; `task64_set_result` is the wake callback. The mode of an
event is an enumeration, so `event_create` has no other numbers to refuse.
-/
namespace MichCore.Objects

open Function
open Process (Pool Signal TaskState)

def eventMax : ℕ := 64
def eventWaitManyMax : ℕ := 16

inductive EventMode where
  | autoReset
  | manualReset
  deriving DecidableEq, Repr

structure EventState where
  mode : EventMode
  signaled : Bool
  waiters : ℕ → Bool
  active : Bool

structure System where
  pool : Pool
  objects : ObjectTable
  event : ℕ → EventState
  /-- `wait_sets`, as long as `wait_counts`. -/
  waitSet : ℕ → List ℕ
  deadline : ℕ → UInt32
  timed : ℕ → Bool

def System.modifyEvent (s : System) (index : ℕ) (f : EventState → EventState) : System :=
  { s with event := update s.event index (f (s.event index)) }

/-- `state_for`: the index of the state. -/
def stateFor (s : System) (object : ℕ) : Option ℕ :=
  let o := s.objects object
  if o.active = false ∨ o.type ≠ kobjectEvent ∨ o.value = 0 ∨ eventMax < o.value then none
  else if (s.event (o.value - 1)).active = true then some (o.value - 1)
  else none

def waitIndex (s : System) (slot object : ℕ) : ℤ :=
  if taskMax ≤ slot then -1
  else
    match (s.waitSet slot).idxOf? object with
    | some index => index
    | none => -1

/-- The bit of a task in the waiters of a state. -/
def EventState.mark (slot : ℕ) (bit : Bool) (e : EventState) : EventState :=
  { e with waiters := update e.waiters slot bit }

/-- Writes the bit of a task for one object, if that is an event. -/
def markObject (slot : ℕ) (bit : Bool) (s : System) (object : ℕ) : System :=
  match stateFor s object with
  | none => s
  | some index => s.modifyEvent index (EventState.mark slot bit)

def clearWaitSet (s : System) (slot : ℕ) : System :=
  if taskMax ≤ slot then s
  else
    let s := (s.waitSet slot).foldl (markObject slot false) s
    { s with
      waitSet := update s.waitSet slot []
      deadline := update s.deadline slot 0
      timed := update s.timed slot false }

def wakeSlot (s : System) (slot : ℕ) (result : ℤ) : System :=
  if s.pool.count ≤ slot ∨ (s.pool.task slot).state ≠ .blockedEvent then s
  else
    let s := clearWaitSet s slot
    { s with pool := s.pool.modify slot fun t => { t with state := .running, result := result } }

/-- The slots of a bit mask, in ascending order. -/
def slotsOf (waiters : ℕ → Bool) : List ℕ := (List.range taskMax).filter waiters

def eventDestroy (s : System) (object : ℕ) : System :=
  let o := s.objects object
  if o.type ≠ kobjectEvent ∨ o.value = 0 ∨ eventMax < o.value then s
  else
    let e := s.event (o.value - 1)
    if e.active = false then s
    else
      let s := s.modifyEvent (o.value - 1) fun e =>
        { e with waiters := fun _ => false, signaled := false, active := false }
      (slotsOf e.waiters).foldl (fun s slot => wakeSlot s slot (-3)) s

/-- `object_release` -/
def release (s : System) (object : ℕ) : System :=
  match dropReference s.objects object with
  | (t, .ignored) => { s with objects := t }
  | (t, .kept) => { s with objects := t }
  | (t, .last destroy) =>
    let s := { s with objects := t }
    let s := if destroy = true then eventDestroy s object else s
    { s with objects := finishRelease s.objects object }

def eventCreate (s : System) (mode : EventMode) (signaled : Bool) : System × Option ℕ :=
  match (List.range eventMax).find? fun index => (s.event index).active = false with
  | none => (s, none)
  | some index =>
    let s := s.modifyEvent index fun _ => ⟨mode, signaled, fun _ => false, true⟩
    match objectCreate s.objects kobjectEvent (index + 1) true with
    | none => (s.modifyEvent index fun e => { e with active := false }, none)
    | some (t, object) => ({ s with objects := t }, some object)

/-- What the first loop of `event_wait_many` finds. -/
inductive Scan where
  | refused
  | ready (index state : ℕ)
  | pending
  deriving DecidableEq, Repr

/-- The first loop of `event_wait_many` over the objects behind `prior`. -/
def scanObjects (s : System) : List ℕ → List ℕ → Scan
  | _, [] => .pending
  | prior, object :: rest =>
    match stateFor s object with
    | none => .refused
    | some state =>
      if object ∈ prior then .refused
      else if (s.event state).signaled = true then .ready prior.length state
      else scanObjects s (prior ++ [object]) rest

inductive WaitAnswer where
  | refused
  | ready (index : ℕ)
  | blocked
  deriving DecidableEq, Repr

def eventWaitMany (s : System) (objects : List ℕ) (slot : ℕ) (deadline : UInt32)
    (timed : Bool) : System × WaitAnswer :=
  if objects = [] ∨ eventWaitManyMax < objects.length ∨ s.pool.count ≤ slot ∨ taskMax ≤ slot ∨
      (s.pool.task slot).state ≠ .running ∨ s.waitSet slot ≠ [] then
    (s, .refused)
  else
    match scanObjects s [] objects with
    | .refused => (s, .refused)
    | .ready index state =>
      (if (s.event state).mode = .autoReset then
          s.modifyEvent state fun e => { e with signaled := false }
        else s, .ready index)
    | .pending =>
      let s := objects.foldl (markObject slot true) s
      ({ s with
          waitSet := update s.waitSet slot objects
          deadline := update s.deadline slot deadline
          timed := update s.timed slot timed
          pool := s.pool.modify slot fun t => { t with state := .blockedEvent } }, .blocked)

/-- One slot of `event_tick`: the deadline is reached when the difference is not negative as a
signed number. -/
def tickSlot (now : UInt32) (result : ℤ) (s : System) (slot : ℕ) : System :=
  if s.timed slot = false ∨ 2 ^ 31 ≤ (now - s.deadline slot).toNat then s
  else wakeSlot s slot result

def eventTick (s : System) (now : UInt32) (result : ℤ) : System :=
  (List.range s.pool.count).foldl (tickSlot now result) s

def eventSignal (s : System) (object : ℕ) : System × ℤ :=
  match stateFor s object with
  | none => (s, -1)
  | some state =>
    let e := s.event state
    match slotsOf e.waiters with
    | [] => (s.modifyEvent state fun e => { e with signaled := true }, 0)
    | first :: rest =>
      match e.mode with
      | .manualReset =>
        let s := s.modifyEvent state fun e =>
          { e with waiters := fun _ => false, signaled := true }
        ((first :: rest).foldl (fun s slot => wakeSlot s slot (waitIndex s slot object)) s, 0)
      | .autoReset =>
        (wakeSlot (s.modifyEvent state (EventState.mark first false)) first
          (waitIndex s first object), 0)

def eventReset (s : System) (object : ℕ) : System × ℤ :=
  match stateFor s object with
  | none => (s, -1)
  | some state => (s.modifyEvent state fun e => { e with signaled := false }, 0)

def eventCancelTask (s : System) (slot : ℕ) (result : ℤ) : System :=
  if taskMax ≤ slot then s
  else if (s.pool.task slot).state = .blockedEvent then wakeSlot s slot result
  else clearWaitSet s slot

inductive Call where
  | create (mode : EventMode) (signaled : Bool)
  | waitMany (objects : List ℕ) (slot : ℕ) (deadline : UInt32) (timed : Bool)
  | signal (object : ℕ)
  | reset (object : ℕ)
  | tick (now : UInt32) (result : ℤ)
  | cancel (slot : ℕ) (result : ℤ)
  | retain (object : ℕ)
  | release (object : ℕ)
  | stop (slot : ℕ) (sig : Signal)
  | continue (slot : ℕ)

def Call.apply (s : System) : Call → System
  | .create mode signaled => (eventCreate s mode signaled).1
  | .waitMany objects slot deadline timed => (eventWaitMany s objects slot deadline timed).1
  | .signal object => (eventSignal s object).1
  | .reset object => (eventReset s object).1
  | .tick now result => eventTick s now result
  | .cancel slot result => eventCancelTask s slot result
  | .retain object => { s with objects := (objectRetain s.objects object).getD s.objects }
  | .release object => Objects.release s object
  | .stop slot sig => { s with pool := Process.signalStop s.pool slot sig }
  | .continue slot => { s with pool := Process.continueTask s.pool slot }

/-- The state behind `event_init`: no event, no waiter, and no task that waits for one. -/
structure System.Initial (s : System) : Prop where
  objects : ∀ object, (s.objects object).active = true →
    (s.objects object).type ≠ kobjectEvent
  events : ∀ index, (s.event index).active = false
  waitSet : ∀ slot, s.waitSet slot = []
  tasks : ∀ slot, (s.pool.task slot).state ≠ .blockedEvent

end MichCore.Objects
