import MichCore.JobControl

/-!
# Signals to a process group

`kill(0)` and `kill(-group)` walk the members of a group in the order of their slots, up to the
first member that is refused, or the caller when the signal terminates it. A refusal is the
answer even when members in front of it were signalled.

What the walk does to a member leaves the other live tasks their user, their dispositions and
masks (`Spares`), so each later step is decided by the table as it was at the call.
-/
namespace MichCore.Process

open List

def Task.Live (t : Task) : Prop := t.state ≠ .free ∧ t.state ≠ .zombie

/-- A live task keeps its user, its dispositions and its mask; a running one runs on. -/
structure Spared (t t' : Task) : Prop where
  uid : t'.uid = t.uid
  live : t.Live → t'.Live
  handler : t.Live → t'.signals.handler = t.signals.handler
  blocked : t.Live → t'.signals.blocked = t.signals.blocked
  running : t.state = .running → t'.state = .running ∧ t'.onCpu = t.onCpu

theorem Spared.refl (t : Task) : Spared t t := ⟨rfl, id, fun _ => rfl, fun _ => rfl, (⟨·, rfl⟩)⟩

variable {t t' : Task} {p : Pool} {target slot : ℕ}

theorem Spared.trans {t'' : Task} (h : Spared t t') (h' : Spared t' t'') :
    Spared t t'' where
  uid := h'.uid.trans h.uid
  live := fun hlive => h'.live (h.live hlive)
  handler := fun hlive => (h'.handler (h.live hlive)).trans (h.handler hlive)
  blocked := fun hlive => (h'.blocked (h.live hlive)).trans (h.blocked hlive)
  running := fun hr =>
    have ht := h.running hr
    have hla := h'.running ht.1
    ⟨hla.1, hla.2.trans ht.2⟩

theorem Kept.spared (h : Kept t t') : Spared t t' where
  uid := h.uid
  live := fun hlive => by
    rcases h.state with hs | ⟨-, hr⟩
    · rw [Task.Live, hs]
      exact hlive
    · rw [Task.Live, hr]
      exact ⟨TaskState.noConfusion, TaskState.noConfusion⟩
  handler := fun _ => by rw [h.signals]
  blocked := fun _ => by rw [h.signals]
  running := fun hr => by
    rcases h.state with hs | ⟨hw, -⟩
    · exact ⟨hs.trans hr, h.onCpu⟩
    · rw [hw] at hr
      cases hr

theorem Spared.of_dead (huid : t'.uid = t.uid) (hd : ¬ t.Live) :
    Spared t t' where
  uid := huid
  live := fun hlive => absurd hlive hd
  handler := fun hlive => absurd hlive hd
  blocked := fun hlive => absurd hlive hd
  running := fun hr => absurd ⟨by rw [hr]; decide, by rw [hr]; decide⟩ hd

theorem Spared.of_woken (huid : t'.uid = t.uid) (hs : t'.signals = t.signals)
    (hr : t'.state = .running) (hw : t.state ≠ .running) : Spared t t' where
  uid := huid
  live := fun _ => by
    rw [Task.Live, hr]
    exact ⟨TaskState.noConfusion, TaskState.noConfusion⟩
  handler := fun _ => by rw [hs]
  blocked := fun _ => by rw [hs]
  running := fun h => absurd h hw

theorem wakeWithEintr_spared (t : Task) : Spared t (wakeWithEintr t) := by
  have hw : ∀ state, t.state = state → state ≠ .running → t.state ≠ .running :=
    fun state h hne => h ▸ hne
  unfold wakeWithEintr
  split
  case h_6 h =>
    split
    · exact .of_woken rfl rfl rfl (hw _ h (by decide))
    · exact .refl t
  case h_7 => exact .refl t
  all_goals
    next h => exact .of_woken rfl rfl rfl (hw _ h (by decide))

/-- The tables differ in the target, and other tasks are spared. -/
structure Spares (p q : Pool) (target : ℕ) : Prop where
  count : q.count = p.count
  cpu : q.cpu = p.cpu
  uid : ∀ slot, (q.task slot).uid = (p.task slot).uid
  other : ∀ slot, slot ≠ target → Spared (p.task slot) (q.task slot)

theorem Spares.refl (p : Pool) (target : ℕ) : Spares p p target :=
  ⟨rfl, rfl, fun _ => rfl, fun _ _ => .refl _⟩

theorem Spares.trans {q r : Pool} (h : Spares p q target) (h' : Spares q r target) :
    Spares p r target where
  count := h'.count.trans h.count
  cpu := h'.cpu.trans h.cpu
  uid := fun slot => (h'.uid slot).trans (h.uid slot)
  other := fun slot hs => (h.other slot hs).trans (h'.other slot hs)

theorem modify_spares {f : Task → Task} (huid : (f (p.task slot)).uid = (p.task slot).uid)
    (h : slot ≠ target → Spared (p.task slot) (f (p.task slot))) :
    Spares p (p.modify slot f) target := by
  refine ⟨rfl, rfl, fun other => ?_, fun other ho => ?_⟩
  · by_cases hs : other = slot
    · subst hs
      rw [Pool.modify_same, huid]
    · rw [Pool.modify_other p hs]
  · by_cases hs : other = slot
    · subst hs
      rw [Pool.modify_same]
      exact h ho
    · rw [Pool.modify_other p hs]
      exact .refl _

theorem modify_target_spares {f : Task → Task}
    (huid : (f (p.task target)).uid = (p.task target).uid) : Spares p (p.modify target f) target :=
  modify_spares huid fun h => absurd rfl h

theorem reportChild_spares (p : Pool) (slot target : ℕ) : Spares p (reportChild p slot) target := by
  have hk := reportChild_kept p slot
  have hpool : (reportChild p slot).count = p.count ∧ (reportChild p slot).cpu = p.cpu := by
    unfold reportChild
    extract_lets child parent
    split
    · exact ⟨rfl, rfl⟩
    · split <;> exact ⟨rfl, rfl⟩
  exact ⟨hpool.1, hpool.2, fun other => (hk other).uid, fun other _ => (hk other).spared⟩

theorem signalStop_spares (p : Pool) (target : ℕ) (sig : Signal) :
    Spares p (signalStop p target sig) target := by
  unfold signalStop
  split
  · exact .refl p target
  refine Spares.trans (.trans ?_ (modify_target_spares rfl)) (reportChild_spares _ target target)
  split
  · exact .refl p target
  · exact modify_target_spares (wakeWithEintr_spared _).uid

theorem continueTask_spares (p : Pool) (target : ℕ) : Spares p (continueTask p target) target := by
  unfold continueTask
  simp only
  split
  · exact modify_target_spares rfl
  · exact Spares.trans (.trans (modify_target_spares rfl) (modify_target_spares rfl))
      (reportChild_spares _ target target)

theorem continued_spares (p : Pool) (target : ℕ) (sig : Signal) :
    Spares p (continued p target sig) target := by
  unfold continued
  split
  · exact continueTask_spares p target
  · exact .refl p target

/-- Every path of `posix_signal_one` changes the target and wakes at most the parent. -/
theorem signalOne_spares {caller : ℕ} (sig : Signal) (hpermitted : Permitted p caller target) :
    Spares p (signalOne p caller target sig.number).1 target := by
  rw [signalOne_permitted sig hpermitted]
  split_ifs <;> dsimp only
  · exact .refl p target
  · exact continued_spares p target sig
  · exact modify_target_spares rfl
  · exact continueTask_spares p target
  · exact .refl p target
  · exact (signalStop_spares p target sig).trans (modify_target_spares rfl)
  · exact signalStop_spares p target sig
  · exact .refl p target
  · exact .refl p target
  · exact Spares.trans (.trans (modify_target_spares rfl) (continued_spares _ target sig))
      (modify_target_spares (wakeWithEintr_spared _).uid)

theorem freeSlot_spares (h : slot ≠ target → ¬ (p.task slot).Live) :
    Spares p (freeSlot p slot) target :=
  modify_spares rfl fun hs => .of_dead rfl (h hs)

theorem wakeWaitingParent_spares (h : slot ≠ target → ¬ (p.task slot).Live) :
    Spares p (wakeWaitingParent p slot) target := by
  unfold wakeWaitingParent
  extract_lets child parentSlot parent
  split
  · exact .refl p target
  split
  · exact .refl p target
  · next woken hwak =>
    obtain ⟨hwai, rfl⟩ := waitWake_some hwak
    have hp : ∀ t : Task, t.uid = (p.task parentSlot).uid →
        t.signals = (p.task parentSlot).signals → t.state = .running →
        Spares p (p.modify parentSlot fun _ => t) target := by
      intro t huid hsi hr
      exact modify_spares huid fun _ => .of_woken huid hsi hr (by rw [hwai]; decide)
    -- The dead child is not the parent that waits.
    have hc : ∀ f, slot ≠ target → ¬ ((p.modify parentSlot f).task slot).Live := by
      intro f hsl
      have hne : slot ≠ parentSlot := by
        intro heq
        refine h hsl ⟨?_, ?_⟩ <;> rw [heq, hwai] <;> decide
      rw [Pool.modify_other p hne]
      exact h hsl
    split
    · have hwo := hp { p.task parentSlot with
        waitPid := -1
        state := .running
        waitPosix := false
        result := (p.task slot).id } rfl rfl rfl
      refine hwo.trans (Spares.trans ?_ (freeSlot_spares fun hsl => ?_))
      · exact modify_spares rfl fun hsl => .of_dead rfl (hc _ hsl)
      · rw [Pool.modify_same]
        exact hc _ hsl
    · have hwo := hp { p.task parentSlot with
        waitPid := -1
        state := .running
        result := (p.task slot).exitCode } rfl rfl rfl
      exact hwo.trans (freeSlot_spares (hc _))

theorem reparent_spares (dead adopter : ℤ) (p : Pool) (slot target : ℕ) :
    Spares p (reparent dead adopter p slot) target := by
  have hm : Spares p (p.modify slot fun t => { t with parentId := adopter }) target :=
    modify_spares rfl fun _ => Kept.spared ⟨rfl, rfl, rfl, .inl rfl⟩
  unfold reparent
  simp only
  split
  · exact .refl p target
  split
  · exact hm
  · next hz =>
    have hd : slot ≠ target →
        ¬ ((p.modify slot fun t => { t with parentId := adopter }).task slot).Live := by
      intro _ hlive
      rw [Pool.modify_same] at hlive
      exact hlive.2 (not_not.mp hz)
    split
    · exact hm.trans (wakeWaitingParent_spares hd)
    · exact hm.trans (freeSlot_spares hd)

theorem reparentChildren_spares (p : Pool) (dead : ℤ) (target : ℕ) :
    Spares p (reparentChildren p dead) target := by
  unfold reparentChildren
  simp only
  generalize (List.range p.count).drop 1 = slots
  generalize (if p.initPid = dead ∨ p.initPid < 0 then 0 else p.initPid) = adopter
  induction slots generalizing p with
  | nil => exact .refl p target
  | cons slot slots ih =>
    rw [foldl_cons]
    exact (reparent_spares dead adopter p slot target).trans (ih _)

theorem childExiting_spares (p : Pool) (slot target : ℕ) :
    Spares p (childExiting p slot).1 target := by
  have hp : ∀ parent, Spares p
      (p.modify parent fun t => { t with signals := t.signals.post .chld }) target :=
    fun parent => modify_spares rfl fun _ => ⟨rfl, id, fun _ => rfl, fun _ => rfl, (⟨·, rfl⟩)⟩
  unfold childExiting
  simp only
  split_ifs
  · exact .refl p target
  · exact .refl p target
  · exact .refl p target
  · exact hp _
  · exact (hp _).trans (modify_spares (wakeWithEintr_spared _).uid
      fun _ => wakeWithEintr_spared _)

theorem terminate_spares (p : Pool) (target : ℕ) (code : ℤ) :
    Spares p (terminate p target code) target := by
  have hc := reparentChildren_spares p (p.task target).id target
  have he := hc.trans (childExiting_spares _ target target)
  unfold terminate
  simp only
  split
  · next q hq =>
    rw [hq] at he
    exact he.trans (freeSlot_spares fun h => absurd rfl h)
  · next q hq =>
    rw [hq] at he
    exact (he.trans (modify_target_spares rfl)).trans
      (wakeWaitingParent_spares fun h => absurd rfl h)

/-- The signal terminates a task with these dispositions and this mask. -/
def Terminates (s : SignalState) (sig : Signal) : Prop :=
  sig = .kill ∨
    s.handler sig = sigDfl ∧ s.blocked sig = false ∧ sig.defaultTerm ∧ ¬ sig.defaultStop
  deriving Decidable

/-- The caller runs on the CPU of the call. -/
structure OnCpu (p : Pool) (caller : ℕ) : Prop where
  slot : caller < p.count
  running : (p.task caller).state = .running
  cpu : (p.task caller).onCpu = none ∨ (p.task caller).onCpu = some p.cpu

theorem OnCpu.pickNext_ne_none {caller : ℕ} (h : OnCpu p caller) : pickNext p caller ≠ none := by
  unfold pickNext
  simp only
  split
  · exact Option.some_ne_none _
  rw [ne_eq, head?_eq_none_iff]
  refine @ne_nil_of_mem _ caller _ (mem_filter.mpr ⟨?_, ?_⟩)
  · rw [mem_map]
    refine ⟨p.count - 1, mem_range.mpr (by have := h.slot; omega), ?_⟩
    have hl : caller + (p.count - 1 + 1) = caller + p.count := by
      have := h.slot
      omega
    rw [hl, Nat.add_mod_right, Nat.mod_eq_of_lt h.slot]
  · rw [decide_eq_true_eq]
    exact ⟨h.running, h.cpu⟩

section Walk

variable {p : Pool} {caller target : ℕ} {sig : Signal}

theorem signalOne_refused (h : ¬ Permitted p caller target) :
    signalOne p caller target sig.number = (p, epermCode) := by
  have huid := not_or.mp h
  rw [signalOne, if_neg sig.number_ne_zero, Signal.ofNumber_number]
  simp only
  rw [if_pos huid]

/-- The answer to a permitted post is 1 exactly when the target must terminate, and never an
error when the caller runs. -/
theorem signalOne_result (hpermitted : Permitted p caller target)
    (hcpu : target = caller → OnCpu p caller) :
    0 ≤ (signalOne p caller target sig.number).2 ∧
      ((signalOne p caller target sig.number).2 = 1 ↔ Terminates (p.task target).signals sig) := by
  rw [signalOne_permitted sig hpermitted, Terminates]
  split
  · next hk =>
    exact ⟨Int.one_nonneg, iff_of_true rfl (.inl hk)⟩
  next hk =>
  by_cases hign : (p.task target).signals.handler sig = sigIgn
  · have hdfl : ¬ (p.task target).signals.handler sig = sigDfl := by rw [hign]; decide
    rw [if_pos hign]
    exact ⟨le_rfl, by simp [hk, hdfl]⟩
  rw [if_neg hign]
  split
  · next hb =>
    exact ⟨le_rfl, by simp [hk, hb]⟩
  next hb =>
  rw [Bool.not_eq_true] at hb
  split
  · next hdfl =>
    by_cases hco : sig = .cont
    · have ht : ¬ sig.defaultTerm := fun h => h.2 hco
      rw [if_pos hco]
      exact ⟨le_rfl, by simp [hk, ht]⟩
    rw [if_neg hco]
    by_cases hs : sig.defaultStop
    · have hn : ¬ (target = caller ∧ pickNext p caller = none) :=
        fun h => (hcpu h.1).pickNext_ne_none h.2
      rw [if_pos hs, if_neg hn]
      split
      · exact ⟨Int.zero_le_ofNat 2, by simp [hk, hs]⟩
      · exact ⟨le_rfl, by simp [hk, hs]⟩
    rw [if_neg hs]
    split
    · next ht =>
      exact ⟨Int.one_nonneg, iff_of_true rfl (.inr ⟨hdfl, hb, ht, hs⟩)⟩
    · next ht =>
      exact ⟨le_rfl, by simp [hk, ht]⟩
  · next hdfl =>
    exact ⟨le_rfl, by simp [hk, hdfl]⟩

/-- What ends the walk: a member that is refused, or the caller when the signal terminates it. -/
def EndsWalk (p : Pool) (caller : ℕ) (sig : Signal) (member : ℕ) : Prop :=
  ¬ Permitted p caller member ∨ member = caller ∧ Terminates (p.task caller).signals sig
  deriving Decidable

theorem killLoop_refused (h : ¬ Permitted p caller target) (targets : List ℕ) (selfStop : Bool) :
    killLoop caller sig.number (target :: targets) p selfStop =
      ⟨p, [target], .error epermCode⟩ := by
  rw [killLoop, signalOne_refused h]
  rfl

theorem killLoop_exited (hcpu : OnCpu p caller) (h : Terminates (p.task caller).signals sig)
    (targets : List ℕ) (selfStop : Bool) :
    (killLoop caller sig.number (caller :: targets) p selfStop).applied = [caller] ∧
      (killLoop caller sig.number (caller :: targets) p selfStop).answer = .exited := by
  have hr := (signalOne_result (.inl rfl) fun _ => hcpu).2.mpr h
  rw [killLoop]
  simp only [hr, if_true, and_self]

theorem killLoop_passed (h : ¬ EndsWalk p caller sig target)
    (hcpu : target = caller → OnCpu p caller) (targets : List ℕ) (selfStop : Bool) :
    ∃ q selfStop', Spares p q target ∧
      killLoop caller sig.number (target :: targets) p selfStop =
        { killLoop caller sig.number targets q selfStop' with
          applied := target :: (killLoop caller sig.number targets q selfStop').applied } := by
  have hpermitted : Permitted p caller target := by
    by_contra href
    exact h (.inl href)
  obtain ⟨hn, hone⟩ := @signalOne_result p caller target sig hpermitted hcpu
  have hsp := signalOne_spares sig hpermitted
  rw [killLoop]
  generalize signalOne p caller target sig.number = posted at *
  obtain ⟨q, result⟩ := posted
  simp only at hn hone hsp ⊢
  by_cases hres : result = 1
  · have hot : target ≠ caller := by
      intro hse
      refine h (.inr ⟨hse, ?_⟩)
      rw [← hse]
      exact hone.mp hres
    rw [if_pos hres, if_neg hot]
    exact ⟨_, selfStop, (hsp.trans (modify_target_spares rfl)).trans (terminate_spares _ _ _),
      rfl⟩
  · rw [if_neg hres, if_neg (not_lt.mpr hn)]
    exact ⟨q, _, hsp, rfl⟩

end Walk

/-- The table still decides about the members ahead as the table of the call did. -/
structure Decides (p q : Pool) (caller : ℕ) (members : List ℕ) : Prop where
  uid : ∀ slot, (q.task slot).uid = (p.task slot).uid
  live : ∀ member ∈ members, (q.task member).Live
  onCpu : caller ∈ members → OnCpu q caller
  handler : caller ∈ members → (q.task caller).signals.handler = (p.task caller).signals.handler
  blocked : caller ∈ members → (q.task caller).signals.blocked = (p.task caller).signals.blocked

section Members

variable {p q : Pool} {caller : ℕ} {sig : Signal} {member : ℕ} {members : List ℕ}

theorem Decides.permitted_iff (h : Decides p q caller members) (target : ℕ) :
    Permitted q caller target ↔ Permitted p caller target := by
  rw [Permitted, Permitted, h.uid, h.uid]

section

variable (h : Decides p q caller (member :: members))
include h

theorem Decides.endsWalk_iff : EndsWalk q caller sig member ↔ EndsWalk p caller sig member := by
  refine or_congr (not_congr (h.permitted_iff member)) (and_congr_right fun hs => ?_)
  have hmem : caller ∈ member :: members := hs ▸ mem_cons_self
  rw [Terminates, Terminates, h.handler hmem, h.blocked hmem]

theorem Decides.passed {q' : Pool}
    (hmemb : member ∉ members) (hsp : Spares q q' member) : Decides p q' caller members := by
  have ho : ∀ slot ∈ members, Spared (q.task slot) (q'.task slot) :=
    fun slot hsl => hsp.other slot fun heq => hmemb (heq ▸ hsl)
  have hlive : ∀ slot ∈ members, (q.task slot).Live :=
    fun slot hsl => h.live slot (mem_cons_of_mem _ hsl)
  refine ⟨fun slot => (hsp.uid slot).trans (h.uid slot),
    fun slot hsl => (ho slot hsl).live (hlive slot hsl), fun hmem => ?_,
    fun hmem => ?_, fun hmem => ?_⟩
  · have hcpu := h.onCpu (mem_cons_of_mem _ hmem)
    obtain ⟨hr, hsa⟩ := (ho caller hmem).running hcpu.running
    refine ⟨by rw [hsp.count]; exact hcpu.slot, hr, ?_⟩
    rw [hsa, hsp.cpu]
    exact hcpu.cpu
  · exact ((ho caller hmem).handler (hlive caller hmem)).trans
      (h.handler (mem_cons_of_mem _ hmem))
  · exact ((ho caller hmem).blocked (hlive caller hmem)).trans
      (h.blocked (mem_cons_of_mem _ hmem))

/-- One member of the walk: it ends there with a refusal or the death of the caller, or it goes
on with the members behind. -/
theorem killLoop_cons (hm : member ∉ members) (selfStop : Bool) :
    let out := killLoop caller sig.number (member :: members) q selfStop
    (¬ Permitted p caller member ∧ out.applied = [member] ∧ ∃ code, out.answer = .error code) ∨
    (member = caller ∧ Terminates (p.task caller).signals sig ∧
      out.applied = [member] ∧ out.answer = .exited) ∨
    (¬ EndsWalk p caller sig member ∧ ∃ q' selfStop', Decides p q' caller members ∧
      out.applied = member :: (killLoop caller sig.number members q' selfStop').applied ∧
      out.answer = (killLoop caller sig.number members q' selfStop').answer) := by
  have hcpu : member = caller → OnCpu q caller := fun hse => h.onCpu (hse ▸ mem_cons_self)
  by_cases hen : EndsWalk p caller sig member
  · rcases hen with hr | ⟨hse, ht⟩
    · have hr' : ¬ Permitted q caller member := fun hp => hr ((h.permitted_iff _).mp hp)
      rw [killLoop_refused hr']
      exact .inl ⟨hr, rfl, epermCode, rfl⟩
    subst hse
    have ht' : Terminates (q.task member).signals sig := by
      rw [Terminates, h.handler mem_cons_self, h.blocked mem_cons_self]
      exact ht
    exact .inr (.inl ⟨rfl, ht, killLoop_exited (hcpu rfl) ht' members selfStop⟩)
  · have hpa : ¬ EndsWalk q caller sig member := fun he => hen (h.endsWalk_iff.mp he)
    obtain ⟨q', selfStop', hsp, heq⟩ := killLoop_passed hpa hcpu members selfStop
    exact .inr (.inr ⟨hen, q', selfStop', h.passed hm hsp, by rw [heq], by rw [heq]⟩)

end

/-- Every permitted member is reached exactly when no member in front of a permitted one ends
the walk. -/
theorem killLoop_reaches_iff (hno : members.Nodup) (h : Decides p q caller members)
    (selfStop : Bool) :
    (∀ m ∈ members, Permitted p caller m →
        m ∈ (killLoop caller sig.number members q selfStop).applied) ↔
      members.Pairwise fun front behind =>
        Permitted p caller behind → ¬ EndsWalk p caller sig front := by
  induction members generalizing q selfStop with
  | nil => simp
  | cons member members ih =>
    obtain ⟨hme, hno⟩ := nodup_cons.mp hno
    have hne : ∀ m ∈ members, m ≠ member := fun m hm heq => hme (heq ▸ hm)
    -- A member that ends the walk may have no permitted one behind it.
    have hl : EndsWalk p caller sig member →
        (killLoop caller sig.number (member :: members) q selfStop).applied = [member] →
        ((∀ m ∈ member :: members, Permitted p caller m →
          m ∈ (killLoop caller sig.number (member :: members) q selfStop).applied) ↔
        (member :: members).Pairwise fun front behind =>
          Permitted p caller behind → ¬ EndsWalk p caller sig front) := by
      intro hen hap
      rw [hap, pairwise_cons]
      constructor
      · intro hall
        have hr : ∀ m ∈ members, ¬ Permitted p caller m := fun m hm hp =>
          hne m hm (mem_singleton.mp (hall m (mem_cons_of_mem _ hm) hp))
        refine ⟨fun m hm hp => absurd hp (hr m hm), ?_⟩
        exact pairwise_of_forall_mem_list fun _ _ m hm hp => absurd hp (hr m hm)
      · rintro ⟨hf, -⟩ m hm hp
        rcases mem_cons.mp hm with rfl | hm
        · exact mem_singleton_self m
        · exact absurd hen (hf m hm hp)
    rcases @killLoop_cons p q caller sig member members h hme selfStop with
      ⟨hr, hap, -⟩ | ⟨hs, ht, hap, -⟩ |
      ⟨hen, q', selfStop', hd, hap, -⟩
    · exact hl (.inl hr) hap
    · exact hl (.inr ⟨hs, ht⟩) hap
    · rw [hap, pairwise_cons, ← ih hno hd selfStop']
      constructor
      · intro hall
        refine ⟨fun _ _ _ => hen, fun m hm hp => ?_⟩
        exact mem_of_ne_of_mem (hne m hm) (hall m (mem_cons_of_mem _ hm) hp)
      · rintro ⟨-, hall⟩ m hm hp
        rcases mem_cons.mp hm with rfl | hm
        · exact mem_cons_self
        · exact mem_cons_of_mem _ (hall m hm hp)

/-- The answer is an error exactly when the first member that ends the walk is a refused one. -/
theorem killLoop_error_iff (hn : members.Nodup) (h : Decides p q caller members) (selfStop : Bool) :
    (∃ code, (killLoop caller sig.number members q selfStop).answer = .error code) ↔
      ∃ m, members.find? (fun m => EndsWalk p caller sig m) = some m ∧ ¬ Permitted p caller m := by
  induction members generalizing q selfStop with
  | nil =>
    refine iff_of_false ?_ (by simp)
    rintro ⟨code, hc⟩
    rw [killLoop] at hc
    split at hc <;> cases hc
  | cons member members ih =>
    obtain ⟨hm, hn⟩ := nodup_cons.mp hn
    rcases @killLoop_cons p q caller sig member members h hm selfStop with
      ⟨hr, -, her⟩ | ⟨hs, ht, -, hex⟩ |
      ⟨hen, q', selfStop', hd, -, han⟩
    · have hen : EndsWalk p caller sig member := .inl hr
      exact iff_of_true her ⟨member, find?_cons_of_pos (decide_eq_true hen), hr⟩
    · have hen : EndsWalk p caller sig member := .inr ⟨hs, ht⟩
      rw [hex, find?_cons_of_pos (by simpa using hen)]
      simp [hs, Permitted]
    · rw [han, ih hn hd selfStop', find?_cons_of_neg (by simpa using hen)]

end Members

/-- The live tasks of a group; slot 0 is in no group, and no group has the number 0. -/
structure IsMember (p : Pool) (group : ℤ) (slot : ℕ) : Prop where
  pos : 0 < slot
  lt : slot < p.count
  live : (p.task slot).Live
  group_ne : group ≠ 0
  group_eq : groupOf (p.task slot) = group

/-- The group that a `kill` with a number that is not positive names. -/
def killedGroup (p : Pool) (caller : ℕ) (pid : ℤ) : ℤ :=
  if pid = 0 then groupOf (p.task caller) else -pid

/-- Every member that the caller may signal is reached, and an error is reported only when there
is none. -/
structure ReachesGroup (p : Pool) (caller : ℕ) (group : ℤ) (run : KillRun) : Prop where
  reached : ∀ slot, IsMember p group slot → Permitted p caller slot → slot ∈ run.applied
  error : (∃ code, run.answer = .error code) →
    ∀ slot, IsMember p group slot → ¬ Permitted p caller slot

section Group

variable {p : Pool} {caller : ℕ}

theorem groupMembers_sublist (p : Pool) (group : ℤ) :
    (groupMembers p group).Sublist (List.range p.count) := by
  unfold groupMembers
  split
  · exact nil_sublist _
  · exact (take_sublist _ _).trans (filter_sublist.trans (drop_sublist _ _))

theorem mem_groupMembers (hcount : p.count ≤ 32) (group : ℤ) (slot : ℕ) :
    slot ∈ groupMembers p group ↔ IsMember p group slot := by
  unfold groupMembers
  by_cases hg : group = 0
  · rw [if_pos hg]
    exact iff_of_false (by simp) fun h => h.group_ne hg
  have hd : slot ∈ (List.range p.count).drop 1 ↔ 0 < slot ∧ slot < p.count := by
    rw [mem_drop_iff_getElem]
    constructor
    · rintro ⟨i, hi, heq⟩
      rw [length_range] at hi
      rw [getElem_range] at heq
      omega
    · rintro ⟨hpos, hlt⟩
      refine ⟨slot - 1, by rw [length_range]; omega, ?_⟩
      rw [getElem_range]
      omega
  rw [if_neg hg, take_of_length_le]
  · rw [mem_filter, decide_eq_true_eq, hd]
    constructor
    · rintro ⟨⟨hpos, hlt⟩, hf, hz, heq⟩
      exact ⟨hpos, hlt, ⟨hf, hz⟩, hg, heq⟩
    · intro h
      exact ⟨⟨h.pos, h.lt⟩, h.live.1, h.live.2, h.group_eq⟩
  · refine (length_filter_le _ _).trans ?_
    rw [length_drop, length_range]
    omega

theorem groupMembers_pairwise_iff (hcount : p.count ≤ 32) (group : ℤ) {R : ℕ → ℕ → Prop} :
    (groupMembers p group).Pairwise R ↔
      ∀ front behind, IsMember p group front → IsMember p group behind → front < behind →
        R front behind := by
  have hso : (groupMembers p group).Pairwise (· < ·) :=
    pairwise_lt_range.sublist (groupMembers_sublist p group)
  simp only [← mem_groupMembers hcount]
  constructor
  · intro hp front behind hf hbe hlt
    -- A list of pairs in order decides every pair that is in order.
    have hbo : (groupMembers p group).Pairwise
        fun a b => (a < b → R a b) ∧ (b < a → R b a) :=
      hp.imp₂ (fun a b hR hab => ⟨fun _ => hR, fun hba => absurd hba hab.asymm⟩) hso
    have hsy : Std.Symm fun a b => (a < b → R a b) ∧ (b < a → R b a) := ⟨fun _ _ h => h.symm⟩
    exact (hbo.forall hf hbe hlt.ne).1 hlt
  · intro hall
    exact hso.imp_of_mem fun hf hbe hlt => hall _ _ hf hbe hlt

theorem kill_group_targets {pid : ℤ} (hpid : pid ≤ 0) :
    killTargets p caller pid = groupMembers p (killedGroup p caller pid) :=
  if_neg (not_lt.mpr hpid)

theorem reachesGroup_error_iff (group code : ℤ) :
    ReachesGroup p caller group ⟨p, [], .error code⟩ ↔
      ∀ slot, IsMember p group slot → ¬ Permitted p caller slot :=
  ⟨fun h => h.error ⟨code, rfl⟩,
    fun h => ⟨fun slot hm hp => absurd hp (h slot hm), fun _ => h⟩⟩

theorem Decides.start (hcpu : OnCpu p caller) (hcount : p.count ≤ 32) (group : ℤ) :
    Decides p p caller (groupMembers p group) where
  uid := fun _ => rfl
  live := fun slot hs => ((mem_groupMembers hcount group slot).mp hs).live
  onCpu := fun _ => hcpu
  handler := fun _ => rfl
  blocked := fun _ => rfl

/-- When no member in front of a permitted one ends the walk, it comes to a refused member
exactly when there is one and the caller does not end the walk before. -/
theorem walk_refused_iff {sig : Signal} {group : ℤ} (hcount : p.count ≤ 32)
    (hw : ∀ front behind, IsMember p group front → IsMember p group behind → front < behind →
      Permitted p caller behind → ¬ EndsWalk p caller sig front) :
    (∃ m, (groupMembers p group).find? (fun m => EndsWalk p caller sig m) = some m ∧
        ¬ Permitted p caller m) ↔
      (∃ slot, IsMember p group slot ∧ ¬ Permitted p caller slot) ∧
        ¬ (IsMember p group caller ∧ Terminates (p.task caller).signals sig) := by
  have hmem := mem_groupMembers hcount group
  constructor
  · rintro ⟨refused, hfin, hr⟩
    obtain ⟨-, front, behind, heq, hfr⟩ := find?_eq_some_iff_append.mp hfin
    have hmemb : IsMember p group refused := (hmem refused).mp (mem_of_find?_eq_some hfin)
    refine ⟨⟨refused, hmemb, hr⟩, fun ⟨hca, ht⟩ => ?_⟩
    have hin := (hmem caller).mpr hca
    rw [heq, mem_append, mem_cons] at hin
    rcases hin with hin | rfl | hin
    · have hp : ¬ EndsWalk p caller sig caller := by simpa using hfr caller hin
      exact hp (.inr ⟨rfl, ht⟩)
    · exact hr (.inl rfl)
    · have hs : (groupMembers p group).Pairwise (· < ·) :=
        pairwise_lt_range.sublist (groupMembers_sublist p group)
      rw [heq, pairwise_append] at hs
      have hlt := rel_of_pairwise_cons hs.2.1 hin
      exact hw refused caller hmemb hca hlt (.inl rfl) (.inl hr)
  · rintro ⟨⟨slot, hmemb, hr⟩, hca⟩
    have hen : ((groupMembers p group).find? fun m => EndsWalk p caller sig m).isSome := by
      rw [find?_isSome]
      exact ⟨slot, (hmem slot).mpr hmemb, decide_eq_true (.inl hr)⟩
    obtain ⟨first, hfir⟩ := Option.isSome_iff_exists.mp hen
    refine ⟨first, hfir, ?_⟩
    have hen := find?_some hfir
    rcases of_decide_eq_true hen with h | ⟨rfl, ht⟩
    · exact h
    · exact absurd ⟨(hmem first).mp (mem_of_find?_eq_some hfir), ht⟩ hca

/-- A group `kill` reaches the whole group exactly when no member may be signalled, or it names
no group by -1, no member in front of a permitted one ends the walk, and a member is refused
only behind a caller that the signal terminates. -/
theorem group_kill_reaches_iff (hcount : p.count ≤ 32) (hcpu : OnCpu p caller) {pid : ℤ}
    (hpid : pid ≤ 0) (sig : Signal) :
    ReachesGroup p caller (killedGroup p caller pid) (kill p caller pid sig.number) ↔
      (∀ slot, IsMember p (killedGroup p caller pid) slot → ¬ Permitted p caller slot) ∨ pid ≠ -1 ∧
        (∀ front behind, IsMember p (killedGroup p caller pid) front →
          IsMember p (killedGroup p caller pid) behind → front < behind →
          Permitted p caller behind → ¬ EndsWalk p caller sig front) ∧
        ((∃ slot, IsMember p (killedGroup p caller pid) slot ∧ ¬ Permitted p caller slot) →
          IsMember p (killedGroup p caller pid) caller ∧
            Terminates (p.task caller).signals sig) := by
  set group := killedGroup p caller pid with hg
  by_cases hnon : ∀ slot, IsMember p group slot → ¬ Permitted p caller slot
  · exact iff_of_true ⟨fun slot hmember hp => absurd hp (hnon slot hmember), fun _ => hnon⟩
      (.inl hnon)
  have hk : ¬ (sig.number ≠ 0 ∧ Signal.ofNumber sig.number = none) := by
    rw [Signal.ofNumber_number]
    exact fun h => Option.some_ne_none _ h.2
  rw [kill, if_neg hk, kill_group_targets hpid, ← hg]
  by_cases hall : pid = -1
  · rw [if_pos hall, reachesGroup_error_iff]
    exact iff_of_false hnon fun h => h.elim hnon fun h => h.1 hall
  have hmembers : groupMembers p group ≠ [] := by
    intro hnil
    refine hnon fun slot hmember => ?_
    rw [← mem_groupMembers hcount, hnil] at hmember
    exact absurd hmember (by simp)
  rw [if_neg hall, if_neg hmembers]
  have hnod : (groupMembers p group).Nodup := nodup_range.sublist (groupMembers_sublist p group)
  have hs := Decides.start hcpu hcount group
  have hrea := @killLoop_reaches_iff p p caller sig _ hnod hs false
  have he := @killLoop_error_iff p p caller sig _ hnod hs false
  rw [groupMembers_pairwise_iff hcount] at hrea
  simp only [mem_groupMembers hcount] at hrea
  constructor
  · intro h
    have hw := hrea.mp h.reached
    refine .inr ⟨hall, hw, fun href => ?_⟩
    by_contra hca
    have hcod := he.mpr ((walk_refused_iff hcount hw).mpr ⟨href, hca⟩)
    exact hnon (h.error hcod)
  · rintro (h | ⟨-, hw, hca⟩)
    · exact absurd h hnon
    · refine ⟨hrea.mpr hw, fun hcod => ?_⟩
      obtain ⟨href, hnot⟩ := (walk_refused_iff hcount hw).mp (he.mp hcod)
      exact absurd (hca href) hnot

end Group

/-- Three tasks of one user, two of them in group 5. -/
def groupOfTwo : Pool :=
  ⟨3, 0, -1, fun slot => { Task.fresh slot 0 with group := if slot = 0 then 0 else 5 }⟩

theorem groupOfTwo_running (caller : ℕ) (h : caller < 3) : OnCpu groupOfTwo caller :=
  ⟨h, rfl, .inl rfl⟩

/-- The last member reaches the whole group although it terminates itself. -/
theorem group_kill_reaches_last :
    ReachesGroup groupOfTwo 2 5 (kill groupOfTwo 2 (-5) Signal.term.number) := by
  have hpid : (-5 : ℤ) ≤ 0 := by decide
  refine (group_kill_reaches_iff (by decide) (groupOfTwo_running 2 (by decide)) hpid .term).mpr
    (.inr ⟨by decide, fun front behind hf hb hlt _ => ?_, ?_⟩)
  · have hone : front = 1 := by
      have hpos := hf.pos
      have hcount : behind < 3 := hb.lt
      omega
    subst hone
    decide
  · rintro ⟨slot, -, hr⟩
    exact absurd (.inl rfl) hr

/-- The first member terminates itself and the second is not reached. -/
theorem group_kill_stops_at_caller :
    ¬ ReachesGroup groupOfTwo 1 5 (kill groupOfTwo 1 (-5) Signal.term.number) := by
  intro h
  have hlive : (groupOfTwo.task 2).Live := ⟨by decide, by decide⟩
  have hr := h.reached 2 ⟨by decide, by decide, hlive, by decide, by decide⟩ (.inl rfl)
  exact absurd hr (by decide)

end MichCore.Process
