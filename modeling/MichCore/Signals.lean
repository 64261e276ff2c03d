import MichCore.SlotTable

/-!
# Tasks and POSIX signals

`process/posix_signal.c` with the task transitions (`process/task.c`), the process groups
(`process/posix_pgroup.c`), the reports to parents and `terminate64`
(`arch/x86_64/kernel/kernel.c`), and the `kill` system call
(`arch/x86_64/kernel/syscall_dispatch.c`).

A signal mask is a set of known signals. User memory is outside: whether a frame could be copied
is an argument, and what is only written there is left out. Of `terminate64` the part that
changes tasks is modelled.
-/
namespace MichCore.Process

open Function

inductive TaskState where
  | running
  | blockedSend
  | blockedRecv
  | zombie
  | free
  | blockedWait
  | blockedEvent
  | suspended
  | blockedSleep
  | blockedPipe
  | blockedSocket
  | blockedPoll
  | stopped
  | blockedTty
  deriving DecidableEq, Repr

/-- The known signals, in the order of their numbers. -/
inductive Signal where
  | hup
  | int
  | quit
  | ill
  | abrt
  | fpe
  | kill
  | usr1
  | segv
  | usr2
  | pipe
  | alrm
  | term
  | chld
  | cont
  | stop
  | tstp
  | ttin
  | ttou
  deriving DecidableEq, Repr

namespace Signal

def number : Signal → ℕ
  | hup => 1
  | int => 2
  | quit => 3
  | ill => 4
  | abrt => 6
  | fpe => 8
  | kill => 9
  | usr1 => 10
  | segv => 11
  | usr2 => 12
  | pipe => 13
  | alrm => 14
  | term => 15
  | chld => 17
  | cont => 18
  | stop => 19
  | tstp => 20
  | ttin => 21
  | ttou => 22

def ascending : List Signal :=
  [hup, int, quit, ill, abrt, fpe, kill, usr1, segv, usr2, pipe, alrm, term, chld, cont, stop,
    tstp, ttin, ttou]

/-- `sig_known` -/
def ofNumber (signo : ℕ) : Option Signal := ascending.find? (·.number = signo)

/-- `sig_default_stop` -/
def defaultStop (s : Signal) : Prop := s = stop ∨ s = tstp ∨ s = ttin ∨ s = ttou

/-- `sig_default_term` -/
def defaultTerm (s : Signal) : Prop := s ≠ chld ∧ s ≠ cont
  deriving Decidable

instance (s : Signal) : Decidable s.defaultStop := inferInstanceAs (Decidable (_ ∨ _))
variable (s : Signal)

theorem mem_ascending : s ∈ ascending := by cases s <;> decide

@[simp] theorem ofNumber_number : ofNumber s.number = some s := by cases s <;> rfl

theorem number_ne_zero : s.number ≠ 0 := by cases s <;> decide

end Signal

/-- A signal mask. -/
abbrev SignalSet := Signal → Bool

/-- `POSIX_SIG_DFL` and `POSIX_SIG_IGN`; everything above is the address of a handler. -/
def sigDfl : UInt64 := 0
def sigIgn : UInt64 := 1

structure SignalState where
  pending : SignalSet
  blocked : SignalSet
  handler : Signal → UInt64
  restorer : Signal → UInt64
  handlerMask : Signal → SignalSet

def SignalState.reset : SignalState :=
  ⟨fun _ => false, fun _ => false, fun _ => 0, fun _ => 0, fun _ _ => false⟩

def SignalState.post (s : SignalState) (sig : Signal) : SignalState :=
  { s with pending := update s.pending sig true }

structure Task where
  id : ℤ
  gen : ℕ
  state : TaskState
  parentId : ℤ
  uid : ℕ
  exitCode : ℤ
  exitSignal : ℕ
  waitPid : ℤ
  waitPosix : Bool
  waitUntraced : Bool
  waitContinued : Bool
  stopReport : ℕ
  continuedReport : Bool
  stopAnswer : Option ℤ
  sleepDeadline : ℕ
  onCpu : Option ℕ
  isIdle : Bool
  /-- The answer in the saved registers. -/
  result : ℤ
  /-- The group that was named for the slot, or 0. -/
  group : ℕ
  signals : SignalState

/-- A running task with default dispositions, nothing blocked and nothing pending. -/
def Task.fresh (id : ℤ) (uid : ℕ) : Task where
  id := id
  gen := 1
  state := .running
  parentId := 0
  uid := uid
  exitCode := 0
  exitSignal := 0
  waitPid := -1
  waitPosix := false
  waitUntraced := false
  waitContinued := false
  stopReport := 0
  continuedReport := false
  stopAnswer := none
  sleepDeadline := 0
  onCpu := none
  isIdle := false
  result := 0
  group := 0
  signals := SignalState.reset

/-- The task table, the CPU that runs the call, and the pid of the `init` service. -/
structure Pool where
  count : ℕ
  cpu : ℕ
  initPid : ℤ
  task : ℕ → Task

def Pool.modify (p : Pool) (slot : ℕ) (f : Task → Task) : Pool :=
  { p with task := update p.task slot (f (p.task slot)) }

@[simp] theorem Pool.modify_same (p : Pool) (slot : ℕ) (f : Task → Task) :
    (p.modify slot f).task slot = f (p.task slot) := by
  simp [Pool.modify]

theorem Pool.modify_other (p : Pool) {slot other : ℕ} (h : other ≠ slot) (f : Task → Task) :
    (p.modify slot f).task other = p.task other := update_of_ne h _ _

def epermCode : ℤ := -1
def esrchCode : ℤ := -3
def eintrCode : ℤ := -4
def einvalCode : ℤ := -22
def edeadlkCode : ℤ := -35

def pidSlot (pid : ℤ) : ℕ := (pid % 65536).toNat

/-- `task_pick_next`: the first task behind `current`, round to itself, that this CPU may run;
the idle task only when there is no other. -/
def pickNext (p : Pool) (current : ℕ) : Option ℕ :=
  let candidates := ((List.range p.count).map fun k => (current + (k + 1)) % p.count).filter
    fun c => (p.task c).state = .running ∧
      ((p.task c).onCpu = none ∨ (p.task c).onCpu = some p.cpu)
  match candidates.find? fun c => (p.task c).isIdle = false with
  | some c => some c
  | none => candidates.head?

/-- `task_wait_wake` -/
def waitWake (t : Task) (childId : ℤ) : Option Task :=
  if t.state = .blockedWait ∧ (t.waitPid = -1 ∨ t.waitPid = childId) then
    some { t with waitPid := -1, state := .running }
  else none

/-- `wake_with_eintr`. A task that waits for one child, for a message or for an event is not
woken. -/
def wakeWithEintr (t : Task) : Task :=
  match t.state with
  | .blockedSleep => { t with sleepDeadline := 0, state := .running, result := eintrCode }
  | .blockedPipe | .blockedSocket | .blockedPoll | .blockedTty =>
    { t with state := .running, result := eintrCode }
  | .blockedWait =>
    if t.waitPid = -1 then
      { t with
        waitPosix := false
        waitUntraced := false
        waitContinued := false
        state := .running
        result := eintrCode }
    else t
  | _ => t

/-- `task64_report_child`: a parent that waits and asked for the report is woken with it. -/
def reportChild (p : Pool) (slot : ℕ) : Pool :=
  let child := p.task slot
  let parent := p.task (pidSlot child.parentId)
  if p.count ≤ slot ∨ (child.stopReport = 0 ∧ child.continuedReport = false) ∨
      pidSlot child.parentId = 0 ∨ p.count ≤ pidSlot child.parentId ∨
      parent.id ≠ child.parentId ∨ parent.waitPosix = false ∨
      (child.stopReport ≠ 0 ∧ parent.waitUntraced = false) ∨
      (child.continuedReport = true ∧ parent.waitContinued = false) then
    p
  else
    match waitWake parent child.id with
    | none => p
    | some woken =>
      let p := p.modify (pidSlot child.parentId) fun _ => { woken with
        waitPosix := false
        waitUntraced := false
        waitContinued := false
        result := child.id }
      p.modify slot fun t => { t with stopReport := 0, continuedReport := false }

/-- `posix_signal_stop` -/
def signalStop (p : Pool) (target : ℕ) (sig : Signal) : Pool :=
  if (p.task target).state = .stopped then p
  else
    let p := if (p.task target).state = .running then p else p.modify target wakeWithEintr
    let p := p.modify target fun t => { t with state := .stopped, stopReport := sig.number }
    reportChild p target

/-- `posix_signal_continue_task` -/
def continueTask (p : Pool) (target : ℕ) : Pool :=
  let p := p.modify target fun t => { t with
    signals := { t.signals with pending := fun s => t.signals.pending s && !decide s.defaultStop } }
  if (p.task target).state ≠ .stopped then p
  else
    let p := p.modify target fun t => { t with
      state := .running
      stopReport := 0
      continuedReport := true
      result := t.stopAnswer.getD t.result
      stopAnswer := none }
    reportChild p target

/-- `posix_signal_one`: 0 posted or nothing to do, 1 the target must terminate, 2 it stopped
itself, or a negative error. -/
def signalOne (p : Pool) (caller target signo : ℕ) : Pool × ℤ :=
  if signo = 0 then (p, 0)
  else
    match Signal.ofNumber signo with
    | none => (p, einvalCode)
    | some sig =>
      let c := p.task caller
      let t := p.task target
      if c.uid ≠ t.uid ∧ c.uid ≠ 0 then (p, epermCode)
      else if sig = .kill then (p, 1)
      else if t.signals.handler sig = sigIgn then
        (if sig = .cont then continueTask p target else p, 0)
      else if t.signals.blocked sig = true then
        (p.modify target fun t => { t with signals := t.signals.post sig }, 0)
      else if t.signals.handler sig = sigDfl then
        if sig = .cont then (continueTask p target, 0)
        else if sig.defaultStop then
          if target = caller ∧ pickNext p caller = none then (p, edeadlkCode)
          else
            let p := signalStop p target sig
            if target = caller then
              (p.modify target fun t => { t with stopAnswer := some (t.stopAnswer.getD 0) }, 2)
            else (p, 0)
        else if sig.defaultTerm then (p, 1)
        else (p, 0)
      else
        let p := p.modify target fun t => { t with signals := t.signals.post sig }
        let p := if sig = .cont then continueTask p target else p
        (p.modify target wakeWithEintr, 0)

/-- `posix_signal_procmask`; `none` is the answer for an unknown operation. -/
def procmask (s : SignalState) (how : ℕ) (mask : SignalSet) : Option SignalState :=
  let apply (blocked : SignalSet) : SignalState :=
    { s with blocked := update blocked .kill false }
  if how = 0 then some (apply fun sig => s.blocked sig || mask sig)
  else if how = 1 then some (apply fun sig => s.blocked sig && !mask sig)
  else if how = 2 then some (apply mask)
  else none

/-- The part of a `sigaction` request that is applied. -/
structure ActionRequest where
  applies : Bool
  handler : UInt64
  restorer : UInt64
  mask : SignalSet

/-- `posix_signal_action` -/
def action (s : SignalState) (sig : Signal) (r : ActionRequest) : Option SignalState :=
  if sig = .kill ∨ sig = .stop then none
  else if r.applies = true then
    some { s with
      handler := update s.handler sig r.handler
      restorer := update s.restorer sig (if sigIgn < r.handler then r.restorer else 0)
      handlerMask := update s.handlerMask sig r.mask }
  else some s

/-- `posix_signal_exec` -/
def signalExec (s : SignalState) : SignalState :=
  { s with handler := fun sig => if sigIgn < s.handler sig then sigDfl else s.handler sig }

/-- `posix_signal_fork`: the state of the child. -/
def signalFork (s : SignalState) : SignalState := { s with pending := fun _ => false }

structure Regs where
  rax : UInt64
  rcx : UInt64
  rdx : UInt64
  rsi : UInt64
  rdi : UInt64
  r8 : UInt64
  r9 : UInt64
  r10 : UInt64
  r11 : UInt64
  rip : UInt64
  rsp : UInt64
  rflags : UInt64
  deriving DecidableEq, Repr

/-- `posix_sigframe`, 15 words. -/
structure SigFrame where
  restorer : UInt64
  signo : ℕ
  savedMask : SignalSet
  regs : Regs

/-- What `posix_signal_deliver` answers: 0, 1 with the frame and the new registers, or the
negated number of a signal. -/
inductive Delivery where
  | nothing
  | entered (frame : SigFrame) (regs : Regs)
  | fatal (signo : ℕ)

/-- `posix_signal_pick` -/
def pick (s : SignalState) : Option Signal :=
  Signal.ascending.find? fun sig => s.pending sig && !s.blocked sig

/-- `posix_signal_deliver`; `stackTakes` says whether the frame could be copied to the user
stack. -/
def deliver (s : SignalState) (regs : Regs) (forced : Option Signal) (stackTakes : Bool) :
    SignalState × Delivery :=
  match forced.or (pick s) with
  | none => (s, .nothing)
  | some sig =>
    let taken : SignalState :=
      if forced.isSome = true then s
      else { s with pending := update s.pending sig false }
    if s.handler sig ≤ sigIgn then
      if s.handler sig = sigIgn ∨ ¬ sig.defaultTerm then (taken, .nothing)
      else (taken, .fatal sig.number)
    else
      let top := ((regs.rsp - 120) &&& ~~~0xF) - 8
      let frame : SigFrame := ⟨s.restorer sig, sig.number, s.blocked, regs⟩
      if stackTakes = false then (s, .fatal Signal.segv.number)
      else
        ({ taken with
            blocked := fun other => s.blocked other || s.handlerMask sig other || other == sig },
          .entered frame { regs with
            rip := s.handler sig
            rsp := top
            rdi := UInt64.ofNat sig.number })

/-- `posix_signal_restore`: `frame` is what could be read at the address, and `resumes` the
outcome of the checks on its instruction and stack pointers. -/
def restore (s : SignalState) (frame : Option SigFrame) (resumes : Bool) :
    Option (SignalState × Regs) :=
  match frame with
  | none => none
  | some frame =>
    if resumes = true then some ({ s with blocked := frame.savedMask }, frame.regs) else none

/-- `task_free_slot` -/
def freeSlot (p : Pool) (slot : ℕ) : Pool :=
  p.modify slot fun t => { t with
    exitSignal := 0
    signals := SignalState.reset
    group := 0
    parentId := -1
    exitCode := 0
    waitPid := -1
    waitPosix := false
    sleepDeadline := 0
    onCpu := none
    isIdle := false
    gen := if (t.gen + 1) % 0x8000 = 0 then 1 else (t.gen + 1) % 0x8000
    state := .free }

/-- `task_mark_zombie` -/
def markZombie (p : Pool) (slot : ℕ) (code : ℤ) : Pool :=
  p.modify slot fun t => { t with
    signals := SignalState.reset
    group := 0
    exitCode := code
    onCpu := none
    state := .zombie
    sleepDeadline := 0
    waitPid := -1
    waitPosix := false }

/-- `wake_waiting_parent`: a parent that waits for the dead child is woken, and the slot of the
child is free. -/
def wakeWaitingParent (p : Pool) (slot : ℕ) : Pool :=
  let child := p.task slot
  let parentSlot := pidSlot child.parentId
  let parent := p.task parentSlot
  if parentSlot = 0 ∨ p.count ≤ parentSlot ∨ parent.id ≠ child.parentId then p
  else
    match waitWake parent child.id with
    | none => p
    | some woken =>
      if woken.waitPosix = true then
        let p := p.modify parentSlot fun _ => { woken with waitPosix := false, result := child.id }
        let p := p.modify slot fun t => { t with stopReport := 0, continuedReport := false }
        freeSlot p slot
      else
        freeSlot (p.modify parentSlot fun _ => { woken with result := child.exitCode }) slot

/-- One slot of `reparent_children`. -/
def reparent (dead adopter : ℤ) (p : Pool) (slot : ℕ) : Pool :=
  let child := p.task slot
  if child.state = .free ∨ child.parentId ≠ dead then p
  else
    let p := p.modify slot fun t => { t with parentId := adopter }
    if child.state ≠ .zombie then p
    else if 0 < adopter then wakeWaitingParent p slot
    else freeSlot p slot

def reparentChildren (p : Pool) (dead : ℤ) : Pool :=
  let adopter := if p.initPid = dead ∨ p.initPid < 0 then 0 else p.initPid
  ((List.range p.count).drop 1).foldl (reparent dead adopter) p

/-- `posix_signal_child_exiting`: is the child freed at once? -/
def childExiting (p : Pool) (slot : ℕ) : Pool × Bool :=
  let child := p.task slot
  let parentSlot := pidSlot child.parentId
  let parent := p.task parentSlot
  if child.parentId ≤ 0 ∨ parentSlot = 0 ∨ 32 ≤ parentSlot ∨ parent.id ≠ child.parentId ∨
      parent.state = .free ∨ parent.state = .zombie then
    (p, false)
  else if parent.signals.handler .chld = sigIgn then (p, true)
  else if parent.signals.handler .chld = sigDfl then (p, false)
  else
    let p := p.modify parentSlot fun t => { t with signals := t.signals.post .chld }
    if parent.signals.blocked .chld = true then (p, false)
    else (p.modify parentSlot wakeWithEintr, false)

/-- `terminate64` -/
def terminate (p : Pool) (slot : ℕ) (code : ℤ) : Pool :=
  let p := reparentChildren p (p.task slot).id
  match childExiting p slot with
  | (p, true) => freeSlot p slot
  | (p, false) => wakeWaitingParent (markZombie p slot code) slot

/-- `posix_pgroup_get` -/
def groupOf (t : Task) : ℤ := if t.group ≠ 0 then t.group else t.id

/-- `posix_pgroup_members` -/
def groupMembers (p : Pool) (group : ℤ) : List ℕ :=
  if group = 0 then []
  else (((List.range p.count).drop 1).filter fun slot =>
    (p.task slot).state ≠ .free ∧ (p.task slot).state ≠ .zombie ∧
      groupOf (p.task slot) = group).take 32

inductive KillAnswer where
  | error (code : ℤ)
  | exited
  | stopped
  | done
  deriving DecidableEq, Repr

/-- The table behind the call, the slots that `posix_signal_one` was applied to, in order, and
the answer. -/
structure KillRun where
  pool : Pool
  applied : List ℕ
  answer : KillAnswer

/-- The loop over the targets. -/
def killLoop (caller signo : ℕ) : List ℕ → Pool → Bool → KillRun
  | [], p, selfStop => ⟨p, [], if selfStop = true then .stopped else .done⟩
  | target :: targets, p, selfStop =>
    let (p, result) := signalOne p caller target signo
    if result = 1 then
      if target = caller then ⟨terminate p target (128 + signo), [target], .exited⟩
      else
        let p := p.modify target fun t => { t with exitSignal := signo }
        let run := killLoop caller signo targets (terminate p target (128 + signo)) selfStop
        { run with applied := target :: run.applied }
    else if result < 0 then ⟨p, [target], .error result⟩
    else
      let run := killLoop caller signo targets p (selfStop || result == 2)
      { run with applied := target :: run.applied }

/-- `posix_signal_target` -/
def signalTarget (p : Pool) (pid : ℤ) : Option ℕ :=
  let slot := pidSlot pid
  if slot = 0 ∨ p.count ≤ slot ∨ (p.task slot).id ≠ pid ∨ (p.task slot).state = .free ∨
      (p.task slot).state = .zombie then
    none
  else some slot

/-- The targets that `kill` names: one task, the group of the caller, or another group. -/
def killTargets (p : Pool) (caller : ℕ) (pid : ℤ) : List ℕ :=
  if 0 < pid then (signalTarget p pid).toList
  else groupMembers p (if pid = 0 then groupOf (p.task caller) else -pid)

/-- `POSIX_SYSCALL_KILL` -/
def kill (p : Pool) (caller : ℕ) (pid : ℤ) (signo : ℕ) : KillRun :=
  if signo ≠ 0 ∧ Signal.ofNumber signo = none then ⟨p, [], .error einvalCode⟩
  else if pid = -1 then ⟨p, [], .error einvalCode⟩
  else if killTargets p caller pid = [] then ⟨p, [], .error esrchCode⟩
  else killLoop caller signo (killTargets p caller pid) p false

end MichCore.Process
