import MichCore.Signals

/-!
# Sleeps and poll timeouts

`nanosleep` and `poll` park a task with a deadline on the tick counter, and the timer interrupt
wakes it once the signed difference says that the deadline has passed.
-/

namespace MichCore.PosixTime

/-- The fields of a task that the clock uses. -/
structure Task where
  state : Process.TaskState
  sleepDeadline : UInt32
  pollDeadline : UInt32

/-- `posix_sleep_ticks`; the count is a `u64`. -/
def sleepTicks (sec nsec : ℤ) : Option UInt32 :=
  if sec < 0 ∨ nsec < 0 ∨ 999999999 < nsec then none
  else
    let count := (sec.toNat * 100 + (nsec.toNat + 9999999) / 10000000) % 2 ^ 64
    some (UInt32.ofNat (min count 0xFFFFFFFE))

/-- `POSIX_SYSCALL_NANOSLEEP`: an answer, or the task as it is parked. -/
def nanosleep (timerTicks : UInt32) (sec nsec : ℤ) (t : Task) : ℤ ⊕ Task :=
  match sleepTicks sec nsec with
  | none => .inl (-22)
  | some ticks =>
    if ticks = 0 then .inl 0
    else .inr { t with state := .blockedSleep, sleepDeadline := timerTicks + ticks }

/-- `posix_poll` once nothing is ready and the timeout is not 0 -/
def pollPark (timerTicks : UInt32) (timeoutMs : ℤ) (t : Task) : Task := { t with
  state := .blockedPoll
  pollDeadline :=
    if 0 < timeoutMs then
      timerTicks + UInt32.ofNat (min ((timeoutMs.toNat + 9) / 10) 0xFFFFFFFE)
    else 0 }

/-- `(i32)(now - deadline) >= 0` -/
def Passed (now deadline : UInt32) : Prop := (now - deadline).toNat < 2 ^ 31
  deriving Decidable

/-- `posix_time_tick`, for one task -/
def timeTick (now : UInt32) (t : Task) : Task :=
  if t.state = .blockedSleep ∧ Passed now t.sleepDeadline then
    { t with state := .running, sleepDeadline := 0 }
  else t

/-- `posix_poll_tick`, for one task -/
def pollTick (now : UInt32) (t : Task) : Task :=
  if t.state = .blockedPoll ∧ t.pollDeadline ≠ 0 ∧ Passed now t.pollDeadline then
    { t with state := .running, pollDeadline := 0 }
  else t

/-- The task after `n` timer interrupts. -/
def clock (timerTicks : UInt32) (t : Task) : ℕ → Task
  | 0 => t
  | n + 1 =>
    let now := timerTicks + UInt32.ofNat (n + 1)
    pollTick now (timeTick now (clock timerTicks t n))

/-- The interrupt that wakes the task. -/
def WokenAt (timerTicks : UInt32) (t : Task) (n : ℕ) : Prop :=
  (clock timerTicks t n).state = .running ∧ ∀ m < n, (clock timerTicks t m).state ≠ .running

instance (k : UInt32) (t : Task) (n : ℕ) : Decidable (WokenAt k t n) :=
  inferInstanceAs (Decidable (_ ∧ _))

/-- A wait for so many ticks does not end before them or, when the counter cannot hold them,
before `2 ^ 31 - 1`. -/
def NeverShort (timerTicks : UInt32) (t : Task) (ticks : ℕ) : Prop :=
  ∀ n, WokenAt timerTicks t n → ticks ≤ n ∨ 2 ^ 32 ≤ ticks ∧ 2 ^ 31 - 1 ≤ n

variable {k : UInt32} {t : Task}

/-- One of the two ticks wakes the task. -/
def Due (t : Task) (now : UInt32) : Prop :=
  t.state = .blockedSleep ∧ Passed now t.sleepDeadline ∨
    t.state = .blockedPoll ∧ t.pollDeadline ≠ 0 ∧ Passed now t.pollDeadline

theorem tick_cases (now : UInt32) (t : Task) :
    Due t now ∧ (pollTick now (timeTick now t)).state = .running ∨
      ¬ Due t now ∧ pollTick now (timeTick now t) = t := by
  unfold Due timeTick pollTick
  by_cases hs : t.state = .blockedSleep ∧ Passed now t.sleepDeadline
  · simp [hs]
  · by_cases hp : t.state = .blockedPoll ∧ t.pollDeadline ≠ 0 ∧ Passed now t.pollDeadline <;>
      simp [hs, hp]

theorem clock_cases (n : ℕ) :
    (∃ m < n, Due t (k + UInt32.ofNat (m + 1))) ∧ (clock k t n).state = .running ∨
      (∀ m < n, ¬ Due t (k + UInt32.ofNat (m + 1))) ∧ clock k t n = t := by
  induction n with
  | zero => exact .inr ⟨nofun, rfl⟩
  | succ n ih =>
    rw [clock]
    rcases ih with ⟨⟨m, hm, hdue⟩, hrun⟩ | ⟨hn, heq⟩
    · exact .inl ⟨⟨m, hm.trans n.lt_succ_self, hdue⟩, by simp [timeTick, pollTick, hrun]⟩
    rw [heq]
    rcases tick_cases (k + UInt32.ofNat (n + 1)) t with ⟨hdue, hrun⟩ | ⟨hdue, hs⟩
    · exact .inl ⟨⟨n, n.lt_succ_self, hdue⟩, hrun⟩
    · refine .inr ⟨fun m hm => ?_, hs⟩
      rcases Nat.lt_succ_iff_lt_or_eq.mp hm with hm | rfl
      · exact hn m hm
      · exact hdue

theorem neverShort_iff (hp : t.state ≠ .running) (ticks : ℕ) :
    NeverShort k t ticks ↔ ∀ n, Due t (k + UInt32.ofNat (n + 1)) →
      ticks ≤ n + 1 ∨ 2 ^ 32 ≤ ticks ∧ 2 ^ 31 - 1 ≤ n + 1 := by
  classical
  constructor
  · intro h n hdue
    have hex : ∃ m, Due t (k + UInt32.ofNat (m + 1)) := ⟨n, hdue⟩
    have hf := h (Nat.find hex + 1) ⟨?_, fun m hm hrun => ?_⟩
    · have := Nat.find_min' hex hdue
      omega
    · rcases clock_cases (k := k) (t := t) (Nat.find hex + 1) with h | h
      · exact h.2
      · exact absurd (Nat.find_spec hex) (h.1 _ (Nat.lt_succ_self _))
    · rcases clock_cases (k := k) (t := t) m with ⟨⟨j, hj, hdue⟩, -⟩ | h
      · exact Nat.find_min hex (by omega) hdue
      · exact hp (h.2 ▸ hrun)
  · rintro h n ⟨hrun, -⟩
    rcases clock_cases (k := k) (t := t) n with ⟨⟨m, hm, hdue⟩, -⟩ | h'
    · have := h m hdue
      omega
    · exact absurd (h'.2 ▸ hrun) hp

/-- The deadline lies `wait` ticks ahead, if the counter can hold that many. One more than half
the counter ahead has passed at the next interrupt. -/
theorem ahead_iff (k wait : UInt32) (ticks : ℕ) (hpos : wait ≠ 0)
    (hw : ticks < 2 ^ 32 → wait.toNat = min ticks 0xFFFFFFFE) :
    (∀ n, Passed (k + UInt32.ofNat (n + 1)) (k + wait) →
      ticks ≤ n + 1 ∨ 2 ^ 32 ≤ ticks ∧ 2 ^ 31 - 1 ≤ n + 1) ↔
    ticks ≤ 2 ^ 31 + 1 ∨ 2 ^ 32 ≤ ticks ∧ 2 ^ 31 - 1 ≤ wait.toNat ∧ wait.toNat ≤ 2 ^ 31 + 1 := by
  have hk := k.toNat_lt
  have hlt := wait.toNat_lt
  have hpos' : wait.toNat ≠ 0 := fun h => hpos (UInt32.toNat_inj.mp h)
  simp only [Passed, UInt32.toNat_sub, UInt32.toNat_add, UInt32.toNat_ofNat']
  constructor
  · intro h
    have hne := h 0
    have hla := h (wait.toNat - 1)
    omega
  · intro h n hn
    omega

/-- A sleep or a poll of at most half the counter and one tick is not cut short. A longer sleep is
not either when its count overflows 64 bits to about half the counter, nor a longer poll whose
deadline is tick 0, which means that it has none. -/
theorem waits_long_iff (timerTicks : UInt32) (t : Task) :
    (∀ sec nsec t', nanosleep timerTicks sec nsec t = .inr t' →
      let ticks := ((sec * 1000000000 + nsec).toNat + 9999999) / 10000000
      (NeverShort timerTicks t' ticks ↔ ticks ≤ 2 ^ 31 + 1 ∨
        2 ^ 32 ≤ ticks ∧ 2 ^ 31 - 1 ≤ ticks % 2 ^ 64 ∧ ticks % 2 ^ 64 ≤ 2 ^ 31 + 1)) ∧
    ∀ timeoutMs > 0,
      let ticks := (timeoutMs.toNat + 9) / 10
      (NeverShort timerTicks (pollPark timerTicks timeoutMs t) ticks ↔
        ticks ≤ 2 ^ 31 + 1 ∨ timerTicks.toNat + min ticks 0xFFFFFFFE = 2 ^ 32) := by
  refine ⟨fun sec nsec t' hpa => ?_, fun timeoutMs hpos => ?_⟩
  · unfold nanosleep at hpa
    cases ht : sleepTicks sec nsec with
    | none => simp [ht] at hpa
    | some wait =>
      simp only [ht] at hpa
      split_ifs at hpa with hz
      obtain rfl := Sum.inr.inj hpa
      simp only [sleepTicks, Option.ite_none_left_eq_some, Option.some.injEq] at ht
      obtain ⟨hv, rfl⟩ := ht
      dsimp only
      rw [neverShort_iff (by simp)]
      simp only [Due, true_and, reduceCtorEq, false_and, or_false]
      have hsum : ((sec * 1000000000 + nsec).toNat + 9999999) / 10000000 =
          sec.toNat * 100 + (nsec.toNat + 9999999) / 10000000 := by omega
      rw [hsum]
      generalize sec.toNat * 100 + (nsec.toNat + 9999999) / 10000000 = ticks at hz ⊢
      have hnat : (UInt32.ofNat (min (ticks % 2 ^ 64) 0xFFFFFFFE)).toNat =
          min (ticks % 2 ^ 64) 0xFFFFFFFE := by
        rw [UInt32.toNat_ofNat']
        omega
      rw [ahead_iff timerTicks _ _ hz fun hsm => by rw [hnat]; omega, hnat]
      omega
  · simp only [pollPark, if_pos hpos]
    rw [neverShort_iff (by simp)]
    simp only [Due, true_and, reduceCtorEq, false_and, false_or]
    set wait := UInt32.ofNat (min ((timeoutMs.toNat + 9) / 10) 0xFFFFFFFE) with hw
    have hnat : wait.toNat = min ((timeoutMs.toNat + 9) / 10) 0xFFFFFFFE := by
      rw [hw, UInt32.toNat_ofNat']
      omega
    have hno : timerTicks + wait = 0 ↔
        timerTicks.toNat + min ((timeoutMs.toNat + 9) / 10) 0xFFFFFFFE = 2 ^ 32 := by
      have ht := timerTicks.toNat_lt
      rw [← UInt32.toNat_inj, UInt32.toNat_add, hnat, UInt32.toNat_zero]
      omega
    rw [← hno]
    by_cases hz : timerTicks + wait = 0
    · simp [hz]
    · have hne : wait ≠ 0 := by
        intro h
        rw [h] at hnat
        simp at hnat
        omega
      have := ahead_iff timerTicks wait _ hne fun _ => hnat
      simp only [hz, ne_eq, not_false_eq_true, true_and, or_false]
      rw [this]
      omega

/-- The deadlines of two ticks at the last value of the counter lie behind its wrap. -/
theorem waits_long_wrap :
    nanosleep 0xFFFFFFFF 0 20000000 ⟨.running, 0, 0⟩ = .inr ⟨.blockedSleep, 1, 0⟩ ∧
    NeverShort 0xFFFFFFFF ⟨.blockedSleep, 1, 0⟩ 2 ∧
    NeverShort 0xFFFFFFFF (pollPark 0xFFFFFFFF 20 ⟨.running, 0, 0⟩) 2 :=
  ⟨rfl, ((waits_long_iff 0xFFFFFFFF ⟨.running, 0, 0⟩).1 0 20000000 _ rfl).mpr (.inl (by decide)),
    ((waits_long_iff 0xFFFFFFFF ⟨.running, 0, 0⟩).2 20 (by decide)).mpr (.inl (by decide))⟩

/-- 249 days are asked for, and the next interrupt ends the sleep. -/
theorem sleep_short :
    nanosleep 0 21474837 0 ⟨.running, 0, 0⟩ = .inr ⟨.blockedSleep, 2147483700, 0⟩ ∧
      WokenAt 0 ⟨.blockedSleep, 2147483700, 0⟩ 1 :=
  ⟨rfl, by decide⟩

end MichCore.PosixTime
