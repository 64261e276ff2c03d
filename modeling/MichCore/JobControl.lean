import MichCore.SignalEffects

/-!
# Masks and job control

The blocked mask is written by `posix_signal_procmask`, by the entry into a handler, by
`posix_signal_restore`, and inherited over `fork`; only the first keeps SIGKILL out of it and
none keeps SIGSTOP or SIGCONT out. So SIGSTOP and SIGCONT act exactly when they are not blocked
(or SIGCONT is ignored); SIGKILL does not look at the mask.
-/
namespace MichCore.Process

/-- The calls that change the signal state of a task. -/
inductive SignalCall where
  | procmask (how : ℕ) (mask : SignalSet)
  | action (sig : Signal) (request : ActionRequest)
  | deliver (regs : Regs) (forced : Option Signal) (stackTakes : Bool)
  | restore (frame : Option SigFrame) (resumes : Bool)
  | exec
  | fork

/-- A refused call changes nothing. -/
def SignalCall.apply (s : SignalState) : SignalCall → SignalState
  | .procmask how mask => (Process.procmask s how mask).getD s
  | .action sig request => (Process.action s sig request).getD s
  | .deliver regs forced stackTakes => (Process.deliver s regs forced stackTakes).1
  | .restore frame resumes => ((Process.restore s frame resumes).map Prod.fst).getD s
  | .exec => signalExec s
  | .fork => signalFork s

def history (s : SignalState) (calls : List SignalCall) : SignalState :=
  calls.foldl SignalCall.apply s

theorem procmask_handler {s s' : SignalState} {how : ℕ} {mask : SignalSet}
    (h : procmask s how mask = some s') : s'.handler = s.handler := by
  unfold procmask at h
  split_ifs at h <;> cases h <;> rfl

theorem action_stop_handler {s s' : SignalState} {sig : Signal} {request : ActionRequest}
    (h : action s sig request = some s') : s'.handler .stop = s.handler .stop := by
  unfold action at h
  split at h
  · cases h
  next hr =>
  split at h
  · cases h
    exact Function.update_of_ne (fun hs => hr (.inr hs.symm)) _ _
  · cases h
    rfl

theorem deliver_handler (s : SignalState) (regs : Regs) (forced : Option Signal)
    (stackTakes : Bool) : (deliver s regs forced stackTakes).1.handler = s.handler := by
  unfold deliver
  cases forced.or (pick s) with
  | none => rfl
  | some sig =>
    simp only
    split_ifs <;> rfl

theorem restore_handler {s : SignalState} {frame : Option SigFrame} {resumes : Bool}
    {restored : SignalState × Regs} (h : restore s frame resumes = some restored) :
    restored.1.handler = s.handler := by
  unfold restore at h
  cases frame with
  | none => cases h
  | some frame =>
    simp only at h
    split_ifs at h
    cases h
    rfl

theorem SignalCall.apply_stop (s : SignalState) (call : SignalCall)
    (h : s.handler .stop = sigDfl) : (call.apply s).handler .stop = sigDfl := by
  cases call with
  | procmask how mask =>
    rw [SignalCall.apply]
    cases hm : Process.procmask s how mask with
    | none => exact h
    | some s' => exact (congrFun (procmask_handler hm) .stop).trans h
  | action sig request =>
    rw [SignalCall.apply]
    cases ha : Process.action s sig request with
    | none => exact h
    | some s' => exact (action_stop_handler ha).trans h
  | deliver regs forced stackTakes =>
    exact (congrFun (deliver_handler s regs forced stackTakes) .stop).trans h
  | restore frame resumes =>
    rw [SignalCall.apply]
    cases hr : Process.restore s frame resumes with
    | none => exact h
    | some restored => exact (congrFun (restore_handler hr) .stop).trans h
  | exec =>
    change (if sigIgn < s.handler .stop then sigDfl else s.handler .stop) = sigDfl
    rw [h, ite_self]
  | fork => exact h

theorem history_stop (calls : List SignalCall) (s : SignalState)
    (h : s.handler .stop = sigDfl) : (history s calls).handler .stop = sigDfl := by
  induction calls generalizing s with
  | nil => exact h
  | cons call calls ih => exact ih _ (call.apply_stop s h)

/-- The slot is dead behind `terminate64`: a zombie, or free when nobody waits for it. -/
theorem terminate_target (p : Pool) (slot : ℕ) (code : ℤ) :
    ((terminate p slot code).task slot).state = .zombie ∨
      ((terminate p slot code).task slot).state = .free := by
  have hf : ∀ q : Pool, ((freeSlot q slot).task slot).state = .free := fun q => by
    rw [freeSlot, Pool.modify_same]
  unfold terminate
  simp only
  split
  · exact .inr (hf _)
  · next q _ =>
    have hz : ((markZombie q slot code).task slot).state = .zombie := by
      rw [markZombie, Pool.modify_same]
    unfold wakeWaitingParent
    simp only
    split
    · exact .inl hz
    split
    · exact .inl hz
    · split
      · exact .inr (hf _)
      · exact .inr (hf _)

section JobControl

variable {p : Pool} {caller target : ℕ}

section

variable (hpermitted : Permitted p caller target)
include hpermitted

theorem signalOne_kill : signalOne p caller target Signal.kill.number = (p, 1) := by
  rw [signalOne_permitted .kill hpermitted, if_pos rfl]

/-- A continue reaches a stopped task unless it is blocked and not ignored. -/
theorem signalOne_cont_running_iff (hs : (p.task target).state = .stopped) :
    ((signalOne p caller target Signal.cont.number).1.task target).state = .running ↔
      (p.task target).signals.blocked .cont = false ∨
        (p.task target).signals.handler .cont = sigIgn := by
  have hc : ∀ q : Pool, (q.task target).state = .stopped →
      ((continueTask q target).task target).state = .running := by
    intro q hq
    rw [(continueTask_target q target).1, if_pos hq]
  have hpo := signalOne_permitted .cont hpermitted
  rw [if_neg (by decide)] at hpo
  split at hpo
  · next hign =>
    rw [hpo]
    exact ⟨fun _ => .inr hign, fun _ => hc p hs⟩
  next hign =>
  split at hpo
  · next hb =>
    rw [hpo, Pool.modify_same]
    simp [hs, hb, hign]
  next hb =>
  rw [Bool.not_eq_true] at hb
  refine iff_of_true ?_ (.inl hb)
  by_cases hdfl : (p.task target).signals.handler .cont = sigDfl
  · rw [if_pos hdfl, if_pos rfl] at hpo
    rw [hpo]
    exact hc p hs
  rw [if_neg hdfl] at hpo
  have hr := hc (p.modify target fun t => { t with signals := t.signals.post .cont })
    (by rw [Pool.modify_same]; exact hs)
  rw [hpo, Pool.modify_same]
  change (wakeWithEintr ((continueTask _ target).task target)).state = .running
  rw [wakeWithEintr, hr]
  exact hr

/-- A stop reaches a running task unless it is blocked. -/
theorem signalOne_stop_stopped_iff (hh : (p.task target).signals.handler .stop = sigDfl)
    (hr : (p.task target).state = .running)
    (hd : (signalOne p caller target Signal.stop.number).2 ≠ edeadlkCode) :
    ((signalOne p caller target Signal.stop.number).1.task target).state = .stopped ↔
      (p.task target).signals.blocked .stop = false := by
  have hpo := signalOne_permitted .stop hpermitted
  have hn : ¬ (p.task target).signals.handler .stop = sigIgn := by rw [hh]; decide
  rw [if_neg (by decide), if_neg hn] at hpo
  by_cases hb : (p.task target).signals.blocked .stop = true
  · rw [if_pos hb] at hpo
    rw [hpo, Pool.modify_same]
    simp [hr, hb]
  rw [if_neg hb, if_pos hh, if_neg (by decide), if_pos (by decide)] at hpo
  rw [Bool.not_eq_true] at hb
  refine iff_of_true ?_ hb
  have hs := (signalStop_target p target .stop).1
  split at hpo
  · rw [hpo] at hd
    exact absurd rfl hd
  split at hpo
  · rw [hpo, Pool.modify_same]
    exact hs
  · rw [hpo]
    exact hs

theorem kill_terminates :
    ((killLoop caller Signal.kill.number [target] p false).pool.task target).state = .zombie ∨
      ((killLoop caller Signal.kill.number [target] p false).pool.task target).state = .free := by
  simp only [killLoop, signalOne_kill hpermitted, if_true]
  split
  · exact terminate_target p target _
  · exact terminate_target _ target _

end

/-- Over every history of calls, a permitted SIGCONT continues the stopped task exactly when it
is not blocked or is ignored, a permitted SIGSTOP without the deadlock error stops the running
task exactly when it is not blocked, and a permitted SIGKILL terminates the task. -/
theorem job_control_after_history {s : SignalState} (hs : s.handler .stop = sigDfl)
    (calls : List SignalCall) (htask : (p.task target).signals = history s calls)
    (hpermitted : Permitted p caller target) :
    ((p.task target).state = .stopped →
      (((signalOne p caller target Signal.cont.number).1.task target).state = .running ↔
        (history s calls).blocked .cont = false ∨ (history s calls).handler .cont = sigIgn)) ∧
      ((p.task target).state = .running →
        (signalOne p caller target Signal.stop.number).2 ≠ edeadlkCode →
        (((signalOne p caller target Signal.stop.number).1.task target).state = .stopped ↔
          (history s calls).blocked .stop = false)) ∧
      (((killLoop caller Signal.kill.number [target] p false).pool.task target).state = .zombie ∨
        ((killLoop caller Signal.kill.number [target] p false).pool.task target).state =
          .free) := by
  refine ⟨fun hst => ?_, fun hr hd => ?_, kill_terminates hpermitted⟩
  · rw [← htask]
    exact signalOne_cont_running_iff hpermitted hst
  · have hh : (p.task target).signals.handler .stop = sigDfl := by
      rw [htask]
      exact history_stop calls s hs
    rw [← htask]
    exact signalOne_stop_stopped_iff hpermitted hh hr hd

end JobControl

/-- Three tasks of one user, in one state and with one history. -/
def tasksAfter (state : TaskState) (calls : List SignalCall) : Pool :=
  ⟨3, 0, -1, fun slot =>
    { Task.fresh slot 0 with state := state, signals := history .reset calls }⟩

def stopAndCont : SignalSet := fun sig => sig == .stop || sig == .cont

theorem job_control_after_unmasking :
    ((signalOne (tasksAfter .stopped [.procmask 0 stopAndCont, .procmask 1 stopAndCont])
      1 2 Signal.cont.number).1.task 2).state = .running :=
  ((job_control_after_history rfl [.procmask 0 stopAndCont, .procmask 1 stopAndCont] rfl
    (.inl rfl)).1 rfl).mpr (.inl (by decide))

/-- With SIGSTOP and SIGCONT in the mask the posts succeed, but nothing stops or goes on. -/
theorem masked_job_control_ignored :
    (signalOne (tasksAfter .stopped [.procmask 2 stopAndCont]) 1 2 Signal.cont.number).2 = 0 ∧
      ((signalOne (tasksAfter .stopped [.procmask 2 stopAndCont]) 1 2
        Signal.cont.number).1.task 2).state = .stopped ∧
      (signalOne (tasksAfter .running [.procmask 2 stopAndCont]) 1 2 Signal.stop.number).2 = 0 ∧
      ((signalOne (tasksAfter .running [.procmask 2 stopAndCont]) 1 2
        Signal.stop.number).1.task 2).state = .running := by
  decide

end MichCore.Process
