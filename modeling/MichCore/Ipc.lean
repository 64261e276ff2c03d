import MichCore.Signals
import MichCore.ParentForest

/-!
# Synchronous messages between tasks

`arch/x86_64/kernel/ipc64.c`: a message goes straight into the buffer of a receiver that waits
for it, or the sender parks until one does. Parked senders are also released by the clock, by
the death of their destination, and by the send that would have closed a cycle of them.

User memory is given from outside. `alone` is the scheduler's answer that nothing else can run.
The fields `call`, `calls` and `log` are a record that no kernel function reads; `parked` says
that the last call of a task is still open, and `Ready` and `resume` go by it.
-/
namespace MichCore.Ipc
open Function
open Process (TaskState)

/-- `MAX_TASKS` slots. -/
abbrev Slot := Fin 32

structure Message where
  fromId : ℕ
  type : ℕ
  data : Vector UInt8 56
deriving DecidableEq

def msgDied : ℕ := 60
def esrch : ℤ := -3
def einval : ℤ := -22
def edeadlk : ℤ := -35
def etimedout : ℤ := -110

/-- The notice that stands for a message of a dead task. -/
def diedNotice (pid : ℕ) : Message := ⟨pid, msgDied, Vector.replicate 56 0⟩

structure Task where
  id : ℕ
  state : TaskState
  recvBuf : ℕ
  recvExpect : ℕ
  sendTo : ℕ
  sendDeadline : UInt32
  /-- A message fits into the task's own pages at this address. -/
  mapped : ℕ → Bool
  /-- The saved register a parked call returns. -/
  rax : ℤ
  /-- The task's latest call. -/
  call : ℕ
  /-- That call has not returned. -/
  parked : Bool

def userBase : ℕ := 0x100000000

def Task.writable (t : Task) (address : ℕ) : Bool := decide (userBase ≤ address) && t.mapped address

inductive Event where
  /-- A send call, and what its buffer held. -/
  | send (call sender destination : ℕ) (message : Option Message)
  | recv (call receiver expected : ℕ)
  /-- A message written for a receiving call; `origin` is the send it came from. -/
  | copied (origin : Option ℕ) (call : ℕ) (message : Message)
  | returned (call : ℕ) (result : ℤ)

structure System where
  pool : Slot → Task
  count : ℕ
  pending : Slot → Message
  pendingValid : Slot → Bool
  pendingTimed : Slot → Bool
  calls : ℕ
  log : List Event

/-- `task_for_pid`: the slot of a live task. -/
def System.taskForPid (s : System) (pid : ℕ) : Option Slot :=
  if h : pid % 65536 < 32 then
    let slot : Slot := ⟨pid % 65536, h⟩
    if slot.val = 0 ∨ slot.val ≥ s.count then none
    else if (s.pool slot).state = .free ∨ (s.pool slot).state = .zombie ∨
        (s.pool slot).id ≠ pid then none
    else some slot
  else none

/-- The slots of `for (slot = 1; slot < task_pool_count; slot++)`. -/
def System.slots (s : System) : List Slot :=
  (List.finRange 32).filter (fun slot => 1 ≤ slot.val ∧ slot.val < s.count)

namespace System

def setTask (s : System) (slot : Slot) (t : Task) : System :=
  { s with pool := update s.pool slot t }

/-- Withdraw the message of a parked sender and let it run. -/
def unparkSend (s : System) (slot : Slot) : System :=
  { s with
    pool := update s.pool slot
      { s.pool slot with sendTo := 0, sendDeadline := 0, state := .running }
    pendingValid := update s.pendingValid slot false
    pendingTimed := update s.pendingTimed slot false }

/-- `task64_set_result`. -/
def setResult (s : System) (slot : Slot) (result : ℤ) : System :=
  s.setTask slot { s.pool slot with rax := result }

def releaseSender (s : System) (slot : Slot) (result : ℤ) : System :=
  (s.unparkSend slot).setResult slot result

def unparkRecv (s : System) (slot : Slot) : System :=
  s.setTask slot { s.pool slot with recvBuf := 0, recvExpect := 0, state := .running }

def releaseReceiver (s : System) (slot : Slot) (result : ℤ) : System :=
  (s.unparkRecv slot).setResult slot result

/-- The walk of `deadlock`, with the steps it has left. -/
def deadlockFrom (s : System) (sender : Slot) : ℕ → Slot → Bool
  | 0, _ => true
  | depth + 1, cursor =>
    if cursor = sender then true
    else if (s.pool cursor).state ≠ .blockedSend ∨ (s.pool cursor).sendTo = 0 then false
    else
      match s.taskForPid (s.pool cursor).sendTo with
      | some next => s.deadlockFrom sender depth next
      | none => false

def deadlock (s : System) (sender destination : Slot) : Bool := s.deadlockFrom sender 32 destination

/-- The loop of `break_deadlock`. -/
def breakDeadlockFrom (sender : Slot) : ℕ → Option Slot → System → System
  | 0, _, s => s
  | _ + 1, none, s => s
  | depth + 1, some cursor, s =>
    if cursor = sender then s
    else if (s.pool cursor).state ≠ .blockedSend then s
    else
      breakDeadlockFrom sender depth (s.taskForPid (s.pool cursor).sendTo)
        (s.releaseSender cursor edeadlk)

def breakDeadlock (s : System) (chain sender : Slot) : System :=
  breakDeadlockFrom sender 32 (some chain) s

/-- Write a message into a receiver's buffer. -/
def deliver (s : System) (receiver : Slot) (address : ℕ) (origin : Option ℕ) (message : Message) :
    System × ℤ :=
  if (s.pool receiver).writable address then
    ({ s with log := .copied origin (s.pool receiver).call message :: s.log }, 0)
  else (s, einval)

def sendNow (s : System) (sender receiver : Slot) (message : Message) : System × ℤ :=
  let (s', result) := s.deliver receiver (s.pool receiver).recvBuf (some (s.pool sender).call)
    { message with fromId := (s.pool sender).id }
  (s'.releaseReceiver receiver result, result)

/-- The receiver waits for a message that this sender may bring. -/
def Awaits (s : System) (receiver sender : Slot) : Prop :=
  (s.pool receiver).state = .blockedRecv ∧ (s.pool receiver).recvBuf ≠ 0 ∧
    ((s.pool receiver).recvExpect = 0 ∨ (s.pool receiver).recvExpect = (s.pool sender).id)
  deriving Decidable

def parkSend (s : System) (current : Slot) (destination : ℕ) (message : Message)
    (deadline : UInt32) (timed : Bool) : System :=
  { s with
    pool := update s.pool current
      { s.pool current with sendTo := destination, sendDeadline := deadline, state := .blockedSend }
    pending := update s.pending current message
    pendingValid := update s.pendingValid current true
    pendingTimed := update s.pendingTimed current timed }

/-- `send_internal`; `none` as an answer means that the caller parked. -/
def sendInternal (s : System) (current : Slot) (destination : ℕ) (message : Option Message)
    (deadline : UInt32) (timed alone : Bool) : System × Option ℤ :=
  match s.taskForPid destination with
  | none => (s, some esrch)
  | some receiver =>
    if receiver = current then (s, some edeadlk)
    else
      match message with
      | none => (s, some einval)
      | some message =>
        if s.Awaits receiver current then
          ((s.sendNow current receiver message).1, some (s.sendNow current receiver message).2)
        else if s.deadlock current receiver then
          (s.breakDeadlock receiver current, some edeadlk)
        else
          let parked := s.parkSend current destination message deadline timed
          if alone then (parked.unparkSend current, some edeadlk) else (parked, none)

def sendNb (s : System) (current : Slot) (destination : ℕ) (message : Option Message) :
    System × Option ℤ :=
  match s.taskForPid destination with
  | none => (s, some esrch)
  | some receiver =>
    if receiver = current then (s, some edeadlk)
    else if s.Awaits receiver current then
      match message with
      | none => (s, some einval)
      | some message =>
        ((s.sendNow current receiver message).1, some (s.sendNow current receiver message).2)
    else (s, some (-1))

/-- The parked sender a receiver takes its message from. -/
def findSender (s : System) (receiver : Slot) (expected : ℕ) : Option Slot :=
  s.slots.find? (fun slot => (s.pool slot).state = .blockedSend ∧
    (s.pool slot).sendTo = (s.pool receiver).id ∧ s.pendingValid slot = true ∧
    (expected = 0 ∨ (s.pool slot).id = expected))

def parkRecv (s : System) (current : Slot) (expected address : ℕ) : System :=
  s.setTask current
    { s.pool current with recvBuf := address, recvExpect := expected, state := .blockedRecv }

def recv (s : System) (current : Slot) (expected address : ℕ) (alone : Bool) :
    System × Option ℤ :=
  if (s.pool current).writable address = false then (s, some einval)
  else if expected = (s.pool current).id then (s, some edeadlk)
  else if expected ≠ 0 ∧ s.taskForPid expected = none then
    ((s.deliver current address none (diedNotice expected)).1, some 0)
  else
    match s.findSender current expected with
    | some slot =>
      let (s', result) := s.deliver current address (some (s.pool slot).call)
        { s.pending slot with fromId := (s.pool slot).id }
      (s'.releaseSender slot result, some result)
    | none =>
      let parked := s.parkRecv current expected address
      if alone then (parked.unparkRecv current, some edeadlk) else (parked, none)

/-- Body of the loop of `ipc64_task_died`. -/
def diedSlot (pid : ℕ) (s : System) (slot : Slot) : System :=
  let s := if (s.pool slot).state = .blockedSend ∧ (s.pool slot).sendTo = pid then
      s.releaseSender slot esrch
    else s
  if (s.pool slot).state = .blockedRecv ∧ (s.pool slot).recvBuf ≠ 0 ∧
      (s.pool slot).recvExpect = pid then
    let (s', result) := s.deliver slot (s.pool slot).recvBuf none (diedNotice pid)
    s'.releaseReceiver slot result
  else s

def taskDied (s : System) (pid : ℕ) : System :=
  let s := if h : pid % 65536 < 32 then
      { s with
        pendingValid := update s.pendingValid ⟨pid % 65536, h⟩ false
        pendingTimed := update s.pendingTimed ⟨pid % 65536, h⟩ false }
    else s
  s.slots.foldl (diedSlot pid) s

/-- Body of the loop of `ipc64_tick`: the deadline passed when the 32-bit difference is not
negative. -/
def tickSlot (now : UInt32) (s : System) (slot : Slot) : System :=
  if (s.pool slot).state ≠ .blockedSend ∨ s.pendingTimed slot = false ∨
      (now - (s.pool slot).sendDeadline).toNat ≥ 2 ^ 31 then s
  else s.releaseSender slot etimedout

def tick (s : System) (now : UInt32) : System := s.slots.foldl (tickSlot now) s

/-- What `terminate64` does to the fields of messages: the others are told, then the slot holds
a zombie or is free. -/
def die (s : System) (slot : Slot) (zombie : Bool) : System :=
  let s := s.taskDied (s.pool slot).id
  s.setTask slot
    { s.pool slot with
      state := if zombie then .zombie else .free
      recvBuf := 0
      recvExpect := 0
      sendTo := 0
      sendDeadline := 0
      parked := false }

/-- Number and record a call of a task. -/
def enter (s : System) (slot : Slot) (event : ℕ → ℕ → Event) : System :=
  { s with
    pool := update s.pool slot { s.pool slot with call := s.calls }
    calls := s.calls + 1
    log := event s.calls (s.pool slot).id :: s.log }

/-- Record the answer of a call, or that its task parked. -/
def leave (slot : Slot) : System × Option ℤ → System
  | (s, some result) => { s with log := .returned (s.pool slot).call result :: s.log }
  | (s, none) => s.setTask slot { s.pool slot with parked := true }

end System

/-- What can happen next. A task calls only while it runs and its last call has returned. -/
inductive Op where
  | send (slot : Slot) (destination : ℕ) (message : Option Message) (alone : Bool)
  | sendTimeout (slot : Slot) (destination : ℕ) (message : Option Message) (deadline : UInt32)
      (alone : Bool)
  | sendNb (slot : Slot) (destination : ℕ) (message : Option Message)
  | recv (slot : Slot) (expected address : ℕ) (alone : Bool)
  | resume (slot : Slot)
  | tick (now : UInt32)
  | die (slot : Slot) (zombie : Bool)
  /-- A task changes its own pages between two calls. -/
  | remap (slot : Slot) (mapped : ℕ → Bool)

/-- The task in the slot can make a call; slot 0 holds the idle task, which makes none. -/
def System.Ready (s : System) (slot : Slot) : Prop :=
  1 ≤ slot.val ∧ slot.val < s.count ∧ (s.pool slot).state = .running ∧ (s.pool slot).parked = false
  deriving Decidable

/-- The slot holds a task that can die. -/
def System.Live (s : System) (slot : Slot) : Prop :=
  1 ≤ slot.val ∧ slot.val < s.count ∧ (s.pool slot).state ≠ .free ∧ (s.pool slot).state ≠ .zombie
  deriving Decidable

def Op.perform (s : System) : Op → System
  | .send slot destination message alone =>
    if s.Ready slot then
      System.leave slot ((s.enter slot (.send · · destination message)).sendInternal slot
        destination message 0 false alone)
    else s
  | .sendTimeout slot destination message deadline alone =>
    if s.Ready slot then
      System.leave slot ((s.enter slot (.send · · destination message)).sendInternal slot
        destination message deadline true alone)
    else s
  | .sendNb slot destination message =>
    if s.Ready slot then
      System.leave slot ((s.enter slot (.send · · destination message)).sendNb slot
        destination message)
    else s
  | .recv slot expected address alone =>
    if s.Ready slot then
      System.leave slot ((s.enter slot (.recv · · expected)).recv slot expected address alone)
    else s
  | .resume slot =>
    if slot.val < s.count ∧ (s.pool slot).state = .running ∧ (s.pool slot).parked = true then
      { s.setTask slot { s.pool slot with parked := false } with
        log := .returned (s.pool slot).call (s.pool slot).rax :: s.log }
    else s
  | .tick now => s.tick now
  | .die slot zombie => if s.Live slot then s.die slot zombie else s
  | .remap slot mapped =>
    if s.Ready slot then s.setTask slot { s.pool slot with mapped := mapped } else s

/-- Any set of tasks of which none is inside a message call. -/
structure System.Initial (s : System) : Prop where
  count : s.count ≤ 32
  ids : ∀ slot : Slot, (s.pool slot).id % 65536 = slot.val
  idle : ∀ slot, (s.pool slot).state ≠ .blockedSend ∧ (s.pool slot).state ≠ .blockedRecv ∧
    (s.pool slot).parked = false
  log : s.log = []

def performAll (s : System) (ops : List Op) : System := ops.foldl Op.perform s

end MichCore.Ipc
