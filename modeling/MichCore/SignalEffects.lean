import MichCore.Signals

/-!
# When a signal takes effect

A signal that is posted unblocked acts at once; one that is posted blocked acts when the mask
opens, by the rules of `posix_signal_deliver`. The two agree except for signals whose default
action is to stop, which then terminate, and for a stopped task, which a blocked signal neither
continues nor terminates.
-/
namespace MichCore.Process

/-- The caller has the user of the target, or is user 0. -/
def Permitted (p : Pool) (caller target : ℕ) : Prop :=
  (p.task caller).uid = (p.task target).uid ∨ (p.task caller).uid = 0
  deriving Decidable

/-- A task keeps its signals, its user and its CPU; a waiting one may be woken. -/
structure Kept (t t' : Task) : Prop where
  signals : t'.signals = t.signals
  uid : t'.uid = t.uid
  onCpu : t'.onCpu = t.onCpu
  state : t'.state = t.state ∨ (t.state = .blockedWait ∧ t'.state = .running)

theorem Kept.refl (t : Task) : Kept t t := ⟨rfl, rfl, rfl, .inl rfl⟩

theorem waitWake_some {t t' : Task} {childId : ℤ} (h : waitWake t childId = some t') :
    t.state = .blockedWait ∧ t' = { t with waitPid := -1, state := .running } := by
  unfold waitWake at h
  split at h
  · next hw =>
    cases h
    exact ⟨hw.1, rfl⟩
  · cases h

theorem Kept.trans {t t' t'' : Task} (h : Kept t t') (h' : Kept t' t'') : Kept t t'' := by
  refine ⟨h'.signals.trans h.signals, h'.uid.trans h.uid, h'.onCpu.trans h.onCpu, ?_⟩
  rcases h'.state with hs | ⟨hw, hr⟩
  · rw [hs]
    exact h.state
  rcases h.state with hs | ⟨-, hr'⟩
  · exact .inr ⟨hs ▸ hw, hr⟩
  · rw [hr'] at hw
    cases hw

theorem modify_kept {p : Pool} {slot : ℕ} {f : Task → Task}
    (h : Kept (p.task slot) (f (p.task slot))) (other : ℕ) :
    Kept (p.task other) ((p.modify slot f).task other) := by
  by_cases hs : other = slot
  · subst hs
    rwa [Pool.modify_same]
  · rw [Pool.modify_other p hs]
    exact .refl _

theorem reportChild_kept (p : Pool) (slot other : ℕ) :
    Kept (p.task other) ((reportChild p slot).task other) := by
  unfold reportChild
  simp only
  split
  · exact .refl _
  split
  · exact .refl _
  · next woken hwak =>
    obtain ⟨hwai, rfl⟩ := waitWake_some hwak
    refine Kept.trans (modify_kept ?_ other) (modify_kept ?_ other)
    · exact ⟨rfl, rfl, rfl, .inr ⟨hwai, rfl⟩⟩
    · exact ⟨rfl, rfl, rfl, .inl rfl⟩

theorem wakeWithEintr_signals (t : Task) : (wakeWithEintr t).signals = t.signals := by
  unfold wakeWithEintr
  split <;> first | rfl | (split <;> rfl)

theorem signalStop_target (p : Pool) (target : ℕ) (sig : Signal) :
    ((signalStop p target sig).task target).state = .stopped ∧
      ((signalStop p target sig).task target).signals = (p.task target).signals := by
  unfold signalStop
  split
  · next hsto => exact ⟨hsto, rfl⟩
  simp only
  set p' := (if (p.task target).state = .running then p else p.modify target wakeWithEintr) with hp'
  have hsi : (p'.task target).signals = (p.task target).signals := by
    rw [hp']
    split
    · rfl
    · rw [Pool.modify_same, wakeWithEintr_signals]
  have hk := reportChild_kept
    (p'.modify target fun t => { t with state := .stopped, stopReport := sig.number }) target
    target
  rw [Pool.modify_same] at hk
  refine ⟨?_, hk.signals.trans hsi⟩
  rcases hk.state with hsta | ⟨hw, -⟩
  · exact hsta
  · cases hw

theorem signalStop_other (p : Pool) {target other : ℕ} (h : other ≠ target) (sig : Signal) :
    Kept (p.task other) ((signalStop p target sig).task other) := by
  unfold signalStop
  split
  · exact .refl _
  refine Kept.trans ?_ (reportChild_kept _ target other)
  rw [Pool.modify_other _ h]
  split
  · exact .refl _
  · rw [Pool.modify_other p h]
    exact .refl _

theorem continueTask_target (p : Pool) (target : ℕ) :
    ((continueTask p target).task target).state =
        (if (p.task target).state = .stopped then .running else (p.task target).state) ∧
      ((continueTask p target).task target).signals =
        { (p.task target).signals with
          pending := fun s => (p.task target).signals.pending s && !decide s.defaultStop } := by
  unfold continueTask
  simp only [Pool.modify_same]
  by_cases hs : (p.task target).state = .stopped
  · rw [if_neg (not_not.mpr hs), if_pos hs]
    have hk : ∀ q : Pool, Kept (q.task target) ((reportChild q target).task target) :=
      fun q => reportChild_kept q target target
    refine ⟨(hk _).state.elim (fun h => h.trans ?_) fun h => absurd h.1 ?_,
      (hk _).signals.trans ?_⟩
    · rw [Pool.modify_same]
    · rw [Pool.modify_same]
      exact TaskState.noConfusion
    · rw [Pool.modify_same, Pool.modify_same]
  · rw [if_pos hs, if_neg hs, Pool.modify_same]
    exact ⟨rfl, rfl⟩

theorem continueTask_other (p : Pool) {target other : ℕ} (h : other ≠ target) :
    Kept (p.task other) ((continueTask p target).task other) := by
  unfold continueTask
  simp only
  split
  · rw [Pool.modify_other p h]
    exact .refl _
  · refine Kept.trans ?_ (reportChild_kept _ target other)
    rw [Pool.modify_other _ h, Pool.modify_other p h]
    exact .refl _

theorem SignalState.post_pending_same (s : SignalState) (sig : Signal) :
    (s.post sig).pending sig = true := Function.update_self ..

inductive Life where
  | alive
  | stopped
  | terminated
  deriving DecidableEq, Repr

/-- What a signal did to the process: is it stopped or terminated, and which handler runs? -/
structure Effect where
  life : Life
  handler : Option UInt64
  deriving DecidableEq, Repr

def Task.life (t : Task) : Life := if t.state = .stopped then .stopped else .alive

/-- The way back to user mode: a negative answer of `posix_signal_deliver` terminates the task.
A stopped task is not picked by the scheduler and takes no signal. -/
def returnToUser (t : Task) (regs : Regs) (stackTakes : Bool) : Effect :=
  if t.state = .stopped then ⟨.stopped, none⟩
  else
    match (deliver t.signals regs none stackTakes).2 with
    | .nothing => ⟨.alive, none⟩
    | .entered _ regs' => ⟨.alive, some regs'.rip⟩
    | .fatal _ => ⟨.terminated, none⟩

/-- The task when the deliveries reach the signal: of the pending ones only it is left. -/
def Task.atTurn (t : Task) (sig : Signal) : Task :=
  { t with signals := { t.signals with
      pending := fun other => t.signals.pending other && other == sig } }

/-- The signal is posted, the mask is changed, and the target returns to user mode. -/
def postEffect (p : Pool) (caller target : ℕ) (sig : Signal) (mask : SignalState → SignalState)
    (regs : Regs) (stackTakes : Bool) : Effect :=
  match signalOne p caller target sig.number with
  | (p', result) =>
    if result = 1 then ⟨.terminated, none⟩
    else
      let t := p'.task target
      returnToUser (Task.atTurn { t with signals := mask t.signals } sig) regs stackTakes

/-- Posting while the signal is not blocked. -/
def effectNow (p : Pool) (caller target : ℕ) (sig : Signal) (regs : Regs) (stackTakes : Bool) :
    Effect :=
  postEffect p caller target sig id regs stackTakes

def only (sig : Signal) : SignalSet := fun s => s == sig

/-- The target with the signal blocked. -/
def blockSignal (p : Pool) (target : ℕ) (sig : Signal) : Pool :=
  p.modify target fun t => { t with signals := (procmask t.signals 0 (only sig)).getD t.signals }

def unblockSignal (sig : Signal) (s : SignalState) : SignalState :=
  (procmask s 1 (only sig)).getD s

/-- The target blocks the signal, the signal is posted, and the target opens its mask. -/
def effectLater (p : Pool) (caller target : ℕ) (sig : Signal) (regs : Regs)
    (stackTakes : Bool) : Effect :=
  postEffect (blockSignal p target sig) caller target sig (unblockSignal sig) regs stackTakes

/-- What a pending signal with the handler `h` does to a process. -/
def delivered (life : Life) (h : UInt64) (sig : Signal) (stackTakes : Bool) : Effect :=
  if life = .stopped then ⟨.stopped, none⟩
  else if h ≤ sigIgn then
    if h = sigIgn ∨ ¬ sig.defaultTerm then ⟨life, none⟩ else ⟨.terminated, none⟩
  else if stackTakes = false then ⟨.terminated, none⟩
  else ⟨life, some h⟩

theorem pick_atTurn {t : Task} {sig : Signal} (ho : t.signals.blocked sig = false) :
    pick (t.atTurn sig).signals = if t.signals.pending sig = true then some sig else none := by
  have hf : ∀ found, pick (t.atTurn sig).signals = some found →
      t.signals.pending sig = true ∧ found = sig := by
    intro found hpi
    have ht := List.find?_some hpi
    simp only [Task.atTurn, Bool.and_eq_true, beq_iff_eq] at ht
    obtain ⟨⟨hpe, rfl⟩, -⟩ := ht
    exact ⟨hpe, rfl⟩
  cases hpi : pick (t.atTurn sig).signals with
  | none =>
    rw [pick, List.find?_eq_none] at hpi
    have hpe := hpi sig (Signal.mem_ascending sig)
    simp only [Task.atTurn, beq_self_eq_true, Bool.and_true, ho, Bool.not_false] at hpe
    rw [if_neg hpe]
  | some found =>
    obtain ⟨hpe, rfl⟩ := hf found hpi
    rw [if_pos hpe]

theorem returnToUser_atTurn {t : Task} {sig : Signal} (ho : t.signals.blocked sig = false)
    (regs : Regs) (stackTakes : Bool) :
    returnToUser (t.atTurn sig) regs stackTakes =
      if t.signals.pending sig = true then
        delivered t.life (t.signals.handler sig) sig stackTakes
      else ⟨t.life, none⟩ := by
  rw [returnToUser, deliver, pick_atTurn ho, delivered, Task.life]
  have hsta : (t.atTurn sig).state = t.state := rfl
  have hh : (t.atTurn sig).signals.handler sig = t.signals.handler sig := rfl
  rw [hsta]
  by_cases hsto : t.state = .stopped
  · simp [hsto]
  by_cases hp : t.signals.pending sig = true
  · simp only [if_neg hsto, if_pos hp, Option.none_or, hh, reduceCtorEq, if_false]
    by_cases hd : t.signals.handler sig ≤ sigIgn
    · simp only [if_pos hd]
      by_cases hn : t.signals.handler sig = sigIgn ∨ ¬ sig.defaultTerm
      · simp only [if_pos hn]
      · simp only [if_neg hn]
    · simp only [if_neg hd]
      cases stackTakes <;> rfl
  · simp only [if_neg hsto, if_neg hp]
    rfl

theorem wakeWithEintr_life (t : Task) : (wakeWithEintr t).life = t.life := by
  cases hs : t.state with
  | blockedWait =>
    simp only [wakeWithEintr, hs, Task.life]
    split
    · rfl
    · rw [hs]
  | _ => simp [wakeWithEintr, hs, Task.life]

/-- Is the task stopped behind a continue? -/
def lifeBehind (t : Task) (sig : Signal) : Life := if sig = .cont then .alive else t.life

theorem continueTask_life (p : Pool) (target : ℕ) :
    ((continueTask p target).task target).life = .alive := by
  rw [Task.life, (continueTask_target p target).1]
  by_cases hs : (p.task target).state = .stopped
  · rw [if_pos hs]
    rfl
  · rw [if_neg hs, if_neg hs]

theorem le_sigIgn_iff (h : UInt64) : h ≤ sigIgn ↔ h = sigDfl ∨ h = sigIgn := by
  rw [UInt64.le_iff_toNat_le, ← UInt64.toNat_inj, ← UInt64.toNat_inj]
  change h.toNat ≤ 1 ↔ h.toNat = 0 ∨ h.toNat = 1
  omega

/-- The continue that goes with a posted signal. -/
def continued (p : Pool) (target : ℕ) (sig : Signal) : Pool :=
  if sig = .cont then continueTask p target else p

theorem continued_target (p : Pool) (target : ℕ) (sig : Signal) :
    let t := p.task target
    let t' := (continued p target sig).task target
    t'.life = lifeBehind t sig ∧ t'.signals.blocked = t.signals.blocked ∧
      t'.signals.handler = t.signals.handler ∧
      t'.signals.pending sig = t.signals.pending sig := by
  dsimp only
  unfold continued lifeBehind
  by_cases hsig : sig = .cont
  · subst hsig
    rw [if_pos rfl, if_pos rfl, (continueTask_target p target).2]
    exact ⟨continueTask_life p target, rfl, rfl, by simp [Signal.defaultStop]⟩
  · rw [if_neg hsig, if_neg hsig]
    exact ⟨rfl, rfl, rfl, rfl⟩

theorem signalOne_permitted {p : Pool} {caller target : ℕ} (sig : Signal)
    (hpermitted : Permitted p caller target) :
    signalOne p caller target sig.number =
      if sig = .kill then (p, 1)
      else if (p.task target).signals.handler sig = sigIgn then
        (continued p target sig, 0)
      else if (p.task target).signals.blocked sig = true then
        (p.modify target fun t => { t with signals := t.signals.post sig }, 0)
      else if (p.task target).signals.handler sig = sigDfl then
        if sig = .cont then (continueTask p target, 0)
        else if sig.defaultStop then
          if target = caller ∧ pickNext p caller = none then (p, edeadlkCode)
          else if target = caller then
            ((signalStop p target sig).modify target
              fun t => { t with stopAnswer := some (t.stopAnswer.getD 0) }, 2)
          else (signalStop p target sig, 0)
        else if sig.defaultTerm then (p, 1)
        else (p, 0)
      else
        ((continued (p.modify target fun t => { t with signals := t.signals.post sig })
          target sig).modify target wakeWithEintr, 0) := by
  have hperm : ¬ ((p.task caller).uid ≠ (p.task target).uid ∧ (p.task caller).uid ≠ 0) := by
    rintro ⟨h₁, h₂⟩
    rcases hpermitted with h | h
    · exact h₁ h
    · exact h₂ h
  rw [signalOne, if_neg sig.number_ne_zero, Signal.ofNumber_number]
  simp only
  rw [if_neg hperm]
  rfl

theorem Task.life_ne_terminated (t : Task) : t.life ≠ .terminated := by
  unfold Task.life
  split <;> decide

theorem delivered_ignored (life : Life) (sig : Signal) (stackTakes : Bool) :
    delivered life sigIgn sig stackTakes = ⟨life, none⟩ := by
  by_cases hs : life = .stopped <;> simp [delivered, hs]

theorem delivered_default {sig : Signal} (ht : ¬ sig.defaultTerm) (life : Life)
    (stackTakes : Bool) : delivered life sigDfl sig stackTakes = ⟨life, none⟩ := by
  have hdfl : sigDfl ≤ sigIgn := by decide
  by_cases hs : life = .stopped <;> simp [delivered, hs, ht, hdfl]

theorem postEffect_of_post {p p' : Pool} {caller target : ℕ} {sig : Signal} {result : ℤ}
    (mask : SignalState → SignalState) (hp : signalOne p caller target sig.number = (p', result))
    (hr : result ≠ 1) (ho : (mask (p'.task target).signals).blocked sig = false)
    (regs : Regs) (stackTakes : Bool) :
    postEffect p caller target sig mask regs stackTakes =
      if (mask (p'.task target).signals).pending sig = true then
        delivered (p'.task target).life ((mask (p'.task target).signals).handler sig) sig stackTakes
      else ⟨(p'.task target).life, none⟩ := by
  simp only [postEffect, hp]
  rw [if_neg hr, returnToUser_atTurn ho]
  rfl

theorem Signal.defaultStop.defaultTerm {sig : Signal} (h : sig.defaultStop) : sig.defaultTerm := by
  rcases h with h | h | h | h <;> rw [h] <;> decide

section Effects

variable {p : Pool} {caller target : ℕ} {sig : Signal}

theorem effectNow_eq (hk : sig ≠ .kill) (hpermitted : Permitted p caller target)
    (hpi : pickNext p caller ≠ none) (hop : (p.task target).signals.blocked sig = false)
    (regs : Regs) (stackTakes : Bool) :
    effectNow p caller target sig regs stackTakes =
      if (p.task target).signals.handler sig = sigIgn then ⟨lifeBehind (p.task target) sig, none⟩
      else if (p.task target).signals.handler sig = sigDfl then
        if sig.defaultStop then ⟨.stopped, none⟩
        else if sig.defaultTerm then ⟨.terminated, none⟩
        else ⟨lifeBehind (p.task target) sig, none⟩
      else delivered (lifeBehind (p.task target) sig) ((p.task target).signals.handler sig) sig
        stackTakes := by
  have hpost := signalOne_permitted sig hpermitted
  rw [if_neg hk] at hpost
  rw [effectNow]
  by_cases hign : (p.task target).signals.handler sig = sigIgn
  · rw [if_pos hign] at hpost ⊢
    obtain ⟨hl, hb, hh, -⟩ := continued_target p target sig
    rw [postEffect_of_post id hpost zero_ne_one ((congrFun hb sig).trans hop), id, hl,
      hh, hign, delivered_ignored, ite_self]
  rw [if_neg hign] at hpost ⊢
  rw [if_neg (by rw [hop]; decide)] at hpost
  by_cases hdfl : (p.task target).signals.handler sig = sigDfl
  · rw [if_pos hdfl] at hpost ⊢
    by_cases hsig : sig = .cont
    · obtain ⟨hl, hb, hh, -⟩ := continued_target p target sig
      have hnos : ¬ sig.defaultStop := by rw [hsig]; decide
      have hnot : ¬ sig.defaultTerm := by rw [hsig]; decide
      rw [if_pos hsig] at hpost
      rw [continued, if_pos hsig] at hl hb hh
      rw [postEffect_of_post id hpost zero_ne_one ((congrFun hb sig).trans hop), id, hl,
        hh, hdfl, delivered_default hnot, if_neg hnos, if_neg hnot, ite_self]
    rw [if_neg hsig] at hpost
    by_cases hsto : sig.defaultStop
    · rw [if_pos hsto, if_neg fun h => hpi h.2] at hpost
      obtain ⟨hsta, hsign⟩ := signalStop_target p target sig
      -- A task that stops itself is given its answer when it is continued.
      obtain ⟨p', result, hone, hr, hsta', hsign'⟩ : ∃ p' result,
          signalOne p caller target sig.number = (p', result) ∧ result ≠ 1 ∧
            (p'.task target).state = .stopped ∧
            (p'.task target).signals = (p.task target).signals := by
        split at hpost
        · refine ⟨_, _, hpost, by decide, ?_, ?_⟩ <;> rw [Pool.modify_same]
          · exact hsta
          · exact hsign
        · exact ⟨_, _, hpost, zero_ne_one, hsta, hsign⟩
      rw [if_pos hsto, postEffect_of_post id hone hr (by rw [hsign']; exact hop),
        Task.life, if_pos hsta', delivered, if_pos rfl, ite_self]
    · rw [if_neg hsto] at hpost ⊢
      by_cases ht : sig.defaultTerm
      · rw [if_pos ht] at hpost ⊢
        simp only [postEffect, hpost, if_true]
      · rw [if_neg ht] at hpost ⊢
        rw [postEffect_of_post id hpost zero_ne_one hop, id, hdfl, delivered_default ht,
          ite_self, lifeBehind, if_neg hsig]
  · rw [if_neg hdfl] at hpost ⊢
    obtain ⟨hl, hb, hh, hpen⟩ := continued_target
      (p.modify target fun t => { t with signals := t.signals.post sig }) target sig
    rw [Pool.modify_same] at hl hb hh hpen
    have hposte := hpen.trans (SignalState.post_pending_same _ sig)
    rw [postEffect_of_post id hpost zero_ne_one, id, Pool.modify_same, wakeWithEintr_life,
      wakeWithEintr_signals, if_pos hposte, hl, hh]
    · rfl
    · rw [id, Pool.modify_same, wakeWithEintr_signals]
      exact (congrFun hb sig).trans hop

theorem unblockSignal_handler (sig : Signal) (s : SignalState) :
    (unblockSignal sig s).handler = s.handler := rfl

theorem unblockSignal_pending (sig : Signal) (s : SignalState) :
    (unblockSignal sig s).pending = s.pending := rfl

theorem blockSignal_uid (p : Pool) (target : ℕ) (sig : Signal) (slot : ℕ) :
    ((blockSignal p target sig).task slot).uid = (p.task slot).uid := by
  unfold blockSignal
  by_cases hs : slot = target
  · subst hs
    rw [Pool.modify_same]
  · rw [Pool.modify_other p hs]

theorem effectLater_eq (hk : sig ≠ .kill) (hpermitted : Permitted p caller target)
    (regs : Regs) (stackTakes : Bool) :
    effectLater p caller target sig regs stackTakes =
      if (p.task target).signals.handler sig = sigIgn then ⟨lifeBehind (p.task target) sig, none⟩
      else delivered (p.task target).life ((p.task target).signals.handler sig) sig stackTakes := by
  set p₁ := blockSignal p target sig with hp₁
  have ht : p₁.task target = { p.task target with
      signals := (procmask (p.task target).signals 0 (only sig)).getD (p.task target).signals } :=
    Pool.modify_same p target _
  have hb : (p₁.task target).signals.blocked sig = true := by
    rw [ht]
    simp [procmask, only, hk]
  have hh : (p₁.task target).signals.handler = (p.task target).signals.handler := by
    rw [ht]
    rfl
  have hlife : (p₁.task target).life = (p.task target).life := by
    rw [ht]
    rfl
  -- The mask that is opened again lets the signal through.
  have ho : ∀ s : SignalState, (unblockSignal sig s).blocked sig = false := by
    intro s
    simp [unblockSignal, procmask, only, hk]
  have hpermitted₁ : Permitted p₁ caller target := by
    rw [Permitted, hp₁, blockSignal_uid, blockSignal_uid]
    exact hpermitted
  have hpost := signalOne_permitted sig hpermitted₁
  rw [if_neg hk, hh] at hpost
  rw [effectLater, ← hp₁]
  by_cases hign : (p.task target).signals.handler sig = sigIgn
  · rw [if_pos hign] at hpost ⊢
    obtain ⟨hlife', -, hh', -⟩ := continued_target p₁ target sig
    have hlifeB : lifeBehind (p₁.task target) sig = lifeBehind (p.task target) sig := by
      rw [lifeBehind, lifeBehind, hlife]
    rw [postEffect_of_post (unblockSignal sig) hpost zero_ne_one (ho _), unblockSignal_handler,
      hlife', hh', hh, hign, delivered_ignored, ite_self, hlifeB]
  · rw [if_neg hign, if_pos hb] at hpost
    have hposte := SignalState.post_pending_same (p₁.task target).signals sig
    rw [if_neg hign, postEffect_of_post (unblockSignal sig) hpost zero_ne_one (ho _),
      Pool.modify_same, unblockSignal_pending, unblockSignal_handler, if_pos hposte, ← hlife, ← hh]
    rfl

/-- The signals that act alike at once and later. A default stop terminates a task when it is
delivered later. A stopped task opens no mask: a blocked continue leaves it stopped, and a blocked
signal that would have terminated it stays pending. -/
def ActsAlike (t : Task) (sig : Signal) : Prop :=
  t.signals.handler sig = sigIgn ∨
    if t.state = .stopped then
      sig ≠ .cont ∧ ¬ (t.signals.handler sig = sigDfl ∧ sig.defaultTerm ∧ ¬ sig.defaultStop)
    else ¬ (t.signals.handler sig = sigDfl ∧ sig.defaultStop)
  deriving Decidable

/-- Posting a signal that is not blocked, and posting it while it is blocked and opening the
mask, have the same effect exactly for the signals that act alike. -/
theorem posted_effect_eq_deferred_iff (hkill : sig ≠ .kill) (hpermitted : Permitted p caller target)
    (hpick : pickNext p caller ≠ none) (hopen : (p.task target).signals.blocked sig = false)
    (regs : Regs) (stackTakes : Bool) :
    effectNow p caller target sig regs stackTakes =
        effectLater p caller target sig regs stackTakes ↔
      ActsAlike (p.task target) sig := by
  rw [effectNow_eq hkill hpermitted hpick hopen, effectLater_eq hkill hpermitted, ActsAlike]
  by_cases hign : (p.task target).signals.handler sig = sigIgn
  · rw [if_pos hign, if_pos hign]
    exact ⟨fun _ => .inl hign, fun _ => rfl⟩
  rw [if_neg hign, if_neg hign, or_iff_right hign, lifeBehind, Task.life]
  by_cases hdfl : (p.task target).signals.handler sig = sigDfl
  · have hle : sigDfl ≤ sigIgn := by decide
    have hne : sigDfl ≠ sigIgn := by decide
    rw [if_pos hdfl, hdfl]
    by_cases ht : sig.defaultTerm
    · have hc : sig ≠ .cont := ht.2
      by_cases hsto : sig.defaultStop <;> by_cases hsta : (p.task target).state = .stopped <;>
        simp [delivered, hsto, ht, hsta, hc, hle, hne]
    · have hsto : ¬ sig.defaultStop := fun hsto => ht hsto.defaultTerm
      rw [delivered_default ht, if_neg hsto, if_neg ht]
      by_cases hsta : (p.task target).state = .stopped <;> simp [hsto, ht, hsta]
  · rw [if_neg hdfl]
    have hla : ¬ (p.task target).signals.handler sig ≤ sigIgn := by
      rw [le_sigIgn_iff]
      exact fun hle => hle.elim hdfl hign
    by_cases hsta : (p.task target).state = .stopped
    · by_cases hsig : sig = .cont
      · cases stackTakes <;> simp [delivered, hsta, hsig, hsig ▸ hla]
      · simp [hsta, hsig, hdfl]
    · simp [hsta, hdfl]

end Effects

/-- Three running tasks of one user. -/
def threeTasks : Pool := ⟨3, 0, -1, fun slot => .fresh slot 0⟩

def someRegs : Regs := ⟨0, 0, 0, 0, 0, 0, 0, 0, 0, 0x1000, 0x8000, 0x202⟩

theorem posted_effect_eq_deferred_term :
    effectNow threeTasks 1 2 .term someRegs true =
      effectLater threeTasks 1 2 .term someRegs true := by
  have hk : Signal.term ≠ .kill := by decide
  have hal : ActsAlike (threeTasks.task 2) .term := by decide
  have hp : pickNext threeTasks 1 ≠ none := by decide
  exact (posted_effect_eq_deferred_iff hk (.inl rfl) hp rfl someRegs true).mpr hal

/-- A default SIGTSTP that is posted unblocked stops the task; posted blocked it terminates the
task when the mask opens. -/
theorem deferred_tstp_terminates :
    effectNow threeTasks 1 2 .tstp someRegs true = ⟨.stopped, none⟩ ∧
      effectLater threeTasks 1 2 .tstp someRegs true = ⟨.terminated, none⟩ := by
  decide

end MichCore.Process
