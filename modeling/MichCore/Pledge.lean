import Mathlib.Data.BitVec
import Mathlib.Tactic

/-!
# Promises of a task

`process/posix_pledge.c`, the promise half: a task may only narrow the set of its promises, and
can name a set that takes over at its next `execve`. The gate compares a call's required promises
with the set in force.
-/
namespace MichCore.Pledge

open Function BitVec

/-- A C string without its terminator. -/
abbrev CString := List Char

abbrev Promises := BitVec 32

namespace Promise

def stdio : Promises := 1 <<< 0
def rpath : Promises := 1 <<< 1
def wpath : Promises := 1 <<< 2
def cpath : Promises := 1 <<< 3
def fattr : Promises := 1 <<< 4
def proc : Promises := 1 <<< 5
def exec : Promises := 1 <<< 6
def unveil : Promises := 1 <<< 7
def error : Promises := 1 <<< 8
def net : Promises := 1 <<< 9

end Promise

open Promise

def eperm : ℤ := -1
def einval : ℤ := -22
def enosys : ℤ := -38

/-- One unveil rule: the node it names, its place, and what it permits. -/
structure VeilEntry where
  slot : ℕ
  generation : ℕ
  parent : ℕ
  parentGeneration : ℕ
  name : List UInt8
  permissions : BitVec 8
  isDirectory : Bool
deriving DecidableEq

/-- struct posix_pledge_state; the zeroed state is the unrestricted one. -/
structure State where
  promises : Promises := 0
  execPromises : Promises := 0
  promised : Bool := false
  hasExecPromises : Bool := false
  veiled : Bool := false
  locked : Bool := false
  entries : List VeilEntry := []
deriving DecidableEq

def promiseTable : List (CString × Promises) :=
  [(['s', 't', 'd', 'i', 'o'], stdio), (['r', 'p', 'a', 't', 'h'], rpath),
    (['w', 'p', 'a', 't', 'h'], wpath), (['c', 'p', 'a', 't', 'h'], cpath),
    (['f', 'a', 't', 't', 'r'], fattr), (['p', 'r', 'o', 'c'], proc),
    (['e', 'x', 'e', 'c'], exec), (['u', 'n', 'v', 'e', 'i', 'l'], unveil),
    (['e', 'r', 'r', 'o', 'r'], error), (['n', 'e', 't'], net)]

def promiseToken (token : CString) : Option Promises :=
  (promiseTable.find? (fun row => row.1 = token)).map Prod.snd

/-- The loop of parse_promises: `token` holds the characters since the last space. -/
def parseFrom (mask : Promises) (token : CString) : CString → Option Promises
  | [] => if token = [] then some mask else (promiseToken token).map (mask ||| ·)
  | c :: rest =>
    if c ≠ ' ' then parseFrom mask (token ++ [c]) rest
    else if token = [] then parseFrom mask [] rest
    else match promiseToken token with
      | some bit => parseFrom (mask ||| bit) [] rest
      | none => none

def parsePromises (string : CString) : Option Promises := parseFrom 0 [] string

/-- The half of posix_pledge_promise that sets the promises in force. -/
def State.promiseNow (state : State) (promises : CString) : State × ℤ :=
  match parsePromises promises with
  | none => (state, einval)
  | some next =>
    if state.promised = true ∧ next &&& ~~~state.promises ≠ 0 then (state, eperm)
    else
      ({ state with
          promises := next
          promised := true
          locked := if next &&& unveil = 0 then true else state.locked }, 0)

/-- The half that sets the promises of the next image. -/
def State.promiseExec (state : State) (execpromises : CString) : State × ℤ :=
  match parsePromises execpromises with
  | none => (state, einval)
  | some next =>
    if state.hasExecPromises = true ∧ next &&& ~~~state.execPromises ≠ 0 then (state, eperm)
    else ({ state with execPromises := next, hasExecPromises := true }, 0)

/-- `posix_pledge_promise`; `none` is a null string. -/
def State.promise (state : State) (promises execpromises : Option CString) : State × ℤ :=
  let first := promises.elim (state, 0) state.promiseNow
  if first.2 ≠ 0 then first
  else execpromises.elim first first.1.promiseExec

/-- `posix_pledge_exec`. -/
def State.onExec (state : State) : State :=
  let state := if state.hasExecPromises then
      { state with promises := state.execPromises, hasExecPromises := false }
    else state
  { state with execPromises := 0 }

/-! The system calls of each group, by number. -/

/-- close, read, write, lseek, dup, dup2, fcntl, fstat, getcwd, brk, getrandom, pread, pwrite,
fsync, fdatasync, clock_gettime, clock_getres, nanosleep, sigaction, sigprocmask, sigreturn,
sigpending, pipe, poll, ioctl. -/
def stdioCalls : List ℕ :=
  [187, 188, 189, 190, 191, 192, 193, 195, 200, 208, 209, 228, 229, 230, 231, 235, 236, 237, 239,
    240, 241, 242, 245, 262, 263]

/-- stat, chdir, getdents, readlink, lstat, access. -/
def rpathCalls : List ℕ := [194, 199, 217, 225, 226, 232]

/-- truncate, ftruncate. -/
def wpathCalls : List ℕ := [201, 227]

/-- mkdir, rmdir, unlink, link, rename, symlink. -/
def cpathCalls : List ℕ := [196, 197, 198, 222, 223, 224]

/-- chmod, fchmod, chown, umask, utimensat, futimens. -/
def fattrCalls : List ℕ := [218, 219, 220, 221, 233, 234]

/-- fork, waitpid, kill. -/
def procCalls : List ℕ := [202, 205, 238]

/-- execve. -/
def execCalls : List ℕ := [203]

/-- socket, bind, listen, accept, connect. -/
def netCalls : List ℕ := [246, 247, 248, 249, 250]

def callGroups : List (List ℕ × Promises) :=
  [(stdioCalls, stdio), (rpathCalls, rpath), (wpathCalls, wpath), (cpathCalls, cpath),
    (fattrCalls, fattr), (procCalls, proc), (execCalls, exec), (netCalls, net)]

def requiredPromises (number : ℕ) : Promises :=
  ((callGroups.find? (fun group => number ∈ group.1)).map Prod.snd).getD 0

def State.gateMask (state : State) (need : Promises) : ℤ :=
  if state.promised = false ∨ need = 0 then 0
  else if state.promises &&& need = need then 0
  else if state.promises &&& error ≠ 0 then enosys
  else 1

/-- `posix_pledge_gate`: zero lets the call through. -/
def State.gate (state : State) (number : ℕ) : ℤ := state.gateMask (requiredPromises number)

/-- The calls of a task's life that touch its promises. -/
inductive Op where
  | promise (slot : ℕ) (promises execpromises : Option CString)
  | fork (parent child : ℕ)
  | exec (slot : ℕ)

/-- The table of all slots after one call. -/
def Op.perform (states : ℕ → State) : Op → ℕ → State
  | .promise slot promises execpromises =>
    update states slot ((states slot).promise promises execpromises).1
  | .fork parent child => update states child (states parent)
  | .exec slot => update states slot (states slot).onExec

def performAll (states : ℕ → State) (ops : List Op) : ℕ → State := ops.foldl Op.perform states

/-- The call neither replaces the image of the slot's task nor puts a new task there. -/
def Op.Spares (slot : ℕ) : Op → Prop
  | .promise _ _ _ => True
  | .fork _ child => child ≠ slot
  | .exec other => other ≠ slot

/-- The life of a task between two images, from its slot to its own or to that of a descendant. -/
inductive Lineage : ℕ → List Op → ℕ → Prop where
  | here (slot : ℕ) : Lineage slot [] slot
  | stay {slot last : ℕ} {op : Op} {ops : List Op} (hop : op.Spares slot)
      (h : Lineage slot ops last) : Lineage slot (op :: ops) last
  | child {parent child last : ℕ} {ops : List Op} (h : Lineage child ops last) :
      Lineage parent (.fork parent child :: ops) last

/-- Every promise of `a` is one of `b`. -/
def Within (a b : Promises) : Prop := ∀ i, a.getLsbD i = true → b.getLsbD i = true

theorem Within.refl (a : Promises) : Within a a := fun _ h => h

variable {a b next : Promises} {s : State} {promises : Option CString} {string : CString}

theorem Within.trans {c : Promises} (h : Within a b) (h' : Within b c) : Within a c :=
  fun i ha => h' i (h i ha)

theorem and_eq_iff_within : a &&& b = b ↔ Within b a := by
  constructor
  · intro h i hb
    rw [← h, getLsbD_and, Bool.and_eq_true] at hb
    exact hb.1
  · intro h
    apply eq_of_getLsbD_eq
    intro i _
    rw [getLsbD_and]
    cases hb : b.getLsbD i with
    | false => exact Bool.and_false _
    | true => rw [h i hb, Bool.and_true]

theorem and_not_eq_zero_iff_within : a &&& ~~~b = 0 ↔ Within a b := by
  constructor
  · intro h i ha
    have hbit : (a &&& ~~~b).getLsbD i = false := by
      rw [h]
      exact getLsbD_zero
    have hlt := lt_of_getLsbD ha
    rw [getLsbD_and, getLsbD_not, ha] at hbit
    simpa [hlt] using hbit
  · intro h
    apply eq_of_getLsbD_eq
    intro i hlt
    rw [getLsbD_and, getLsbD_not]
    cases ha : a.getLsbD i with
    | false => exact getLsbD_zero.symm
    | true => simp [h i ha]

instance (a b : Promises) : Decidable (Within a b) :=
  decidable_of_iff (a &&& ~~~b = 0) and_not_eq_zero_iff_within

theorem gate_eq_zero_iff (state : State) {number : ℕ} (hg : requiredPromises number ≠ 0) :
    state.gate number = 0 ↔ state.promised = false ∨
      Within (requiredPromises number) state.promises := by
  unfold State.gate State.gateMask
  rw [← and_eq_iff_within]
  by_cases hp : state.promised = false
  · simp [hp]
  rw [if_neg (not_or.mpr ⟨hp, hg⟩)]
  by_cases hin : state.promises &&& requiredPromises number = requiredPromises number
  · simp [hin]
  rw [if_neg hin]
  refine iff_of_false ?_ (not_or.mpr ⟨hp, hin⟩)
  split
  · decide
  · decide

/-- Promises once made stay, and only shrink; so do those of the next image. -/
structure Narrows (s s' : State) : Prop where
  now : s.promised = true → s'.promised = true ∧ Within s'.promises s.promises
  next : s.hasExecPromises = true →
    s'.hasExecPromises = true ∧ Within s'.execPromises s.execPromises

theorem Narrows.refl (s : State) : Narrows s s where
  now h := ⟨h, Within.refl _⟩
  next h := ⟨h, Within.refl _⟩

theorem Narrows.trans {s' s'' : State} (h : Narrows s s') (h' : Narrows s' s'') :
    Narrows s s'' where
  now hs := by
    obtain ⟨hs', hin⟩ := h.now hs
    obtain ⟨hs'', hin'⟩ := h'.now hs'
    exact ⟨hs'', hin'.trans hin⟩
  next hs := by
    obtain ⟨hs', hin⟩ := h.next hs
    obtain ⟨hs'', hin'⟩ := h'.next hs'
    exact ⟨hs'', hin'.trans hin⟩

theorem within_of_accepted {flag : Bool} {old : Promises}
    (h : ¬ (flag = true ∧ next &&& ~~~old ≠ 0)) (hf : flag = true) : Within next old :=
  and_not_eq_zero_iff_within.mp (by_contra fun hne => h ⟨hf, hne⟩)

theorem promiseNow_narrows (s : State) (string : CString) : Narrows s (s.promiseNow string).1 := by
  unfold State.promiseNow
  cases parsePromises string with
  | none => exact Narrows.refl s
  | some next =>
    dsimp only
    split
    · exact Narrows.refl s
    · rename_i ha
      exact ⟨fun h => ⟨rfl, within_of_accepted ha h⟩, fun h => ⟨h, Within.refl _⟩⟩

theorem promiseExec_narrows (s : State) (string : CString) :
    Narrows s (s.promiseExec string).1 := by
  unfold State.promiseExec
  cases parsePromises string with
  | none => exact Narrows.refl s
  | some next =>
    dsimp only
    split
    · exact Narrows.refl s
    · rename_i ha
      exact ⟨fun h => ⟨h, Within.refl _⟩, fun h => ⟨rfl, within_of_accepted ha h⟩⟩

theorem promise_narrows (s : State) (promises execpromises : Option CString) :
    Narrows s (s.promise promises execpromises).1 := by
  have hf : Narrows s (promises.elim (s, 0) s.promiseNow).1 := by
    cases promises with
    | none => exact Narrows.refl s
    | some string => exact promiseNow_narrows s string
  unfold State.promise
  extract_lets first
  split
  · exact hf
  · cases execpromises with
    | none => exact hf
    | some string => exact hf.trans (promiseExec_narrows first.1 string)

theorem perform_narrows (states : ℕ → State) {op : Op} {slot : ℕ} (h : op.Spares slot) :
    Narrows (states slot) (op.perform states slot) := by
  cases op with
  | promise other promises execpromises =>
    by_cases hs : slot = other
    · rw [hs]
      change Narrows _ (update states other _ other)
      rw [update_self]
      exact promise_narrows _ _ _
    · change Narrows _ (update states other _ slot)
      rw [update_of_ne hs]
      exact Narrows.refl _
  | fork parent child =>
    change Narrows _ (update states child _ slot)
    rw [update_of_ne (Ne.symm h)]
    exact Narrows.refl _
  | exec other =>
    change Narrows _ (update states other _ slot)
    rw [update_of_ne (Ne.symm h)]
    exact Narrows.refl _

theorem lineage_narrows {slot last : ℕ} {ops : List Op} (h : Lineage slot ops last)
    (states : ℕ → State) : Narrows (states slot) (performAll states ops last) := by
  induction h generalizing states with
  | here slot => exact Narrows.refl _
  | @stay slot last op ops hop h ih =>
    exact (perform_narrows states hop).trans (ih (op.perform states))
  | @child parent child last ops h ih =>
    have hc : (Op.fork parent child).perform states child = states parent :=
      update_self child _ states
    have hr := ih ((Op.fork parent child).perform states)
    rwa [hc] at hr

theorem promise_exec_set {execpromises : CString} {mask : Promises}
    (hok : (s.promise promises (some execpromises)).2 = 0)
    (hm : parsePromises execpromises = some mask) :
    (s.promise promises (some execpromises)).1.hasExecPromises = true ∧
      (s.promise promises (some execpromises)).1.execPromises = mask := by
  unfold State.promise at hok ⊢
  dsimp only at hok ⊢
  generalize promises.elim (s, 0) s.promiseNow = first at hok ⊢
  by_cases hf : first.2 ≠ 0
  · rw [if_pos hf] at hok
    exact absurd hok hf
  rw [if_neg hf] at hok ⊢
  simp only [Option.elim, State.promiseExec, hm] at hok ⊢
  by_cases hr : first.1.hasExecPromises = true ∧ mask &&& ~~~first.1.execPromises ≠ 0
  · rw [if_pos hr] at hok
    exact absurd hok (show eperm ≠ 0 by decide)
  · rw [if_neg hr]
    exact ⟨rfl, rfl⟩

theorem onExec_of_set (h : s.hasExecPromises = true) :
    s.onExec.promises = s.execPromises ∧ s.onExec.promised = s.promised := by
  simp [State.onExec, h]

theorem promiseExec_error (h : (s.promiseExec string).2 ≠ 0) : (s.promiseExec string).1 = s := by
  unfold State.promiseExec at h ⊢
  cases hp : parsePromises string with
  | none => rfl
  | some next =>
    rw [hp] at h
    dsimp only at h ⊢
    split at h
    · rename_i hr
      rw [if_pos hr]
    · exact absurd rfl h

/-- The first half sets the promises to `next`, which is what they were. -/
def State.Repeats (s : State) (next : Promises) : Prop :=
  next = s.promises ∧ s.promised = true ∧ (next &&& unveil = 0 → s.locked = true)

/-- The first half refuses to set the promises to `next`. -/
def State.Refuses (s : State) (next : Promises) : Prop :=
  s.promised = true ∧ ¬ Within next s.promises

theorem promiseNow_of_refuses (hp : parsePromises string = some next) (h : s.Refuses next) :
    s.promiseNow string = (s, eperm) := by
  unfold State.promiseNow
  rw [hp]
  dsimp only
  rw [if_pos ⟨h.1, fun hz => h.2 (and_not_eq_zero_iff_within.mp hz)⟩]

theorem promiseNow_of_accepts (hp : parsePromises string = some next) (h : ¬ s.Refuses next) :
    (s.promiseNow string).1 = s ↔ s.Repeats next := by
  unfold State.promiseNow
  rw [hp]
  dsimp only
  rw [if_neg (fun hne => h ⟨hne.1, fun hin => hne.2 (and_not_eq_zero_iff_within.mpr hin)⟩)]
  obtain ⟨promises, execPromises, promised, hasExecPromises, veiled, locked, entries⟩ := s
  simp only [State.Repeats, State.mk.injEq]
  by_cases hv : next &&& unveil = 0
  · simp [hv, eq_comm]
  · simp [eq_comm]

theorem promise_error_state {execpromises : Option CString}
    (he : (s.promise promises execpromises).2 ≠ 0) :
    (s.promise promises execpromises).1 = (promises.elim (s, 0) s.promiseNow).1 := by
  unfold State.promise at he ⊢
  dsimp only at he ⊢
  generalize promises.elim (s, 0) s.promiseNow = first at he ⊢
  by_cases hf : first.2 ≠ 0
  · rw [if_pos hf]
  rw [if_neg hf] at he ⊢
  cases execpromises with
  | none => exact absurd he hf
  | some string => exact promiseExec_error he

/-- The state is as it was, unless the first half of the call went through and changed something
before the second half failed. -/
theorem promise_error_unchanged_iff {execpromises : Option CString}
    (he : (s.promise promises execpromises).2 ≠ 0) :
    (s.promise promises execpromises).1 = s ↔
      ∀ string next, promises = some string → parsePromises string = some next →
        s.Refuses next ∨ s.Repeats next := by
  rw [promise_error_state he]
  cases promises with
  | none => exact iff_of_true rfl (by simp)
  | some string =>
    change (s.promiseNow string).1 = s ↔ _
    cases hp : parsePromises string with
    | none =>
      have hnow : s.promiseNow string = (s, einval) := by
        unfold State.promiseNow
        rw [hp]
      rw [hnow]
      refine iff_of_true rfl (fun string' next hs hp' => ?_)
      rw [← Option.some_inj.mp hs, hp] at hp'
      exact absurd hp' (by simp)
    | some next =>
      have ho : (∀ string' next', some string = some string' →
          parsePromises string' = some next' → s.Refuses next' ∨ s.Repeats next') ↔
          s.Refuses next ∨ s.Repeats next := by
        constructor
        · exact fun h => h string next rfl hp
        · intro h string' next' hs hp'
          rw [← Option.some_inj.mp hs, hp] at hp'
          rwa [← Option.some_inj.mp hp']
      rw [ho]
      by_cases hr : s.Refuses next
      · rw [promiseNow_of_refuses hp hr]
        exact iff_of_true rfl (Or.inl hr)
      · rw [promiseNow_of_accepts hp hr, or_iff_right hr]

/-- Promises narrow between two images; the set named for the next image is enforced there
exactly when some promise was in force before it (or it has every promise the gate asks for);
and a failed call changes nothing exactly when its first half did not. -/
theorem pledge_contract (states : ℕ → State) (slot : ℕ) :
    (∀ ops last, Lineage slot ops last → (states slot).promised = true →
      ∀ number, requiredPromises number ≠ 0 →
        (performAll states ops last).gate number = 0 → (states slot).gate number = 0) ∧
    (∀ promises execpromises mask ops last,
      ((states slot).promise promises (some execpromises)).2 = 0 →
      parsePromises execpromises = some mask → Lineage slot ops last →
      ((∀ number, requiredPromises number ≠ 0 →
        (performAll states (.promise slot promises (some execpromises) :: ops ++ [.exec last])
          last).gate number = 0 → Within (requiredPromises number) mask) ↔
      (performAll states (.promise slot promises (some execpromises) :: ops) last).promised = true ∨
        ∀ number, Within (requiredPromises number) mask)) ∧
    (∀ promises execpromises, ((states slot).promise promises execpromises).2 ≠ 0 →
      (((states slot).promise promises execpromises).1 = states slot ↔
        ∀ string next, promises = some string → parsePromises string = some next →
          (states slot).Refuses next ∨ (states slot).Repeats next)) := by
  refine ⟨fun ops last hl hp number hg hop => ?_,
    fun promises execpromises mask ops last hok hmask hl => ?_,
    fun promises execpromises => promise_error_unchanged_iff⟩
  · obtain ⟨hst, hin⟩ := (lineage_narrows hl states).now hp
    rw [gate_eq_zero_iff _ hg] at hop ⊢
    rcases hop with hnon | hw
    · exact absurd hst (by simp [hnon])
    · exact Or.inr (hw.trans hin)
  · obtain ⟨hset, hmasks⟩ := promise_exec_set hok hmask
    let now := (Op.promise slot promises (some execpromises)).perform states
    have hf : now slot = ((states slot).promise promises (some execpromises)).1 :=
      update_self slot _ states
    have hna := lineage_narrows hl now
    rw [← hf] at hset hmasks
    obtain ⟨hst, hin⟩ := hna.next hset
    rw [hmasks] at hin
    have hc : performAll states (.promise slot promises (some execpromises) :: ops) last =
        performAll now ops last := rfl
    have hex : performAll states
        (.promise slot promises (some execpromises) :: ops ++ [.exec last]) last =
        (performAll now ops last).onExec := by
      unfold performAll
      rw [List.foldl_append, List.foldl_cons, List.foldl_cons, List.foldl_nil]
      exact update_self last _ _
    rw [hex, hc]
    generalize performAll now ops last = before at *
    obtain ⟨hnow, hp⟩ := onExec_of_set hst
    constructor
    · intro hen
      by_cases hb : before.promised = true
      · exact Or.inl hb
      refine Or.inr (fun number => ?_)
      by_cases hg : requiredPromises number = 0
      · rw [hg]
        intro i hi
        simp at hi
      · refine hen number hg ((gate_eq_zero_iff _ hg).mpr (Or.inl ?_))
        rw [hp]
        simpa using hb
    · rintro (hb | hall) number hg hop
      · rw [gate_eq_zero_iff _ hg, hp, hnow] at hop
        rcases hop with hnon | hw
        · exact absurd hb (by simp [hnon])
        · exact hw.trans hin
      · exact hall number

/-- A task that only named promises for its next image runs it unrestricted, and a call whose
second string is not understood has set the first one. -/
theorem exec_promises_unenforced :
    (State.promise {} none (some ['s', 't', 'd', 'i', 'o'])).2 = 0 ∧
    parsePromises ['s', 't', 'd', 'i', 'o'] = some stdio ∧
    (performAll (fun _ => {}) [.promise 1 none (some ['s', 't', 'd', 'i', 'o']), .exec 1] 1).gate
      203 = 0 ∧
    requiredPromises 203 ≠ 0 ∧ ¬ Within (requiredPromises 203) stdio ∧
    (State.promise {} (some ['s', 't', 'd', 'i', 'o']) (some ['x'])).2 = einval ∧
    (State.promise {} (some ['s', 't', 'd', 'i', 'o']) (some ['x'])).1 ≠ {} := by
  decide

/-- A task after `pledge("stdio exec", "stdio")`. -/
def pledged : State :=
  (State.promise {} (some ['s', 't', 'd', 'i', 'o', ' ', 'e', 'x', 'e', 'c'])
    (some ['s', 't', 'd', 'i', 'o'])).1

/-- It forks a child that promises less; it names a set for its next image; and asking for a
promise it gave up leaves it as it is. -/
theorem pledge_contract_kept :
    (∀ number, requiredPromises number ≠ 0 →
      (performAll (fun _ => pledged) [.fork 1 2, .promise 2 (some ['s', 't', 'd', 'i', 'o']) none]
        2).gate number = 0 → pledged.gate number = 0) ∧
    (∀ number, requiredPromises number ≠ 0 →
      (performAll (fun _ => pledged) [.promise 1 none (some ['s', 't', 'd', 'i', 'o']), .exec 1]
        1).gate number = 0 → Within (requiredPromises number) stdio) ∧
    (pledged.promise (some ['r', 'p', 'a', 't', 'h']) none).2 ≠ 0 ∧
    (pledged.promise (some ['r', 'p', 'a', 't', 'h']) none).1 = pledged := by
  obtain ⟨hn, he, hf⟩ := pledge_contract (fun _ => pledged) 1
  refine ⟨hn _ 2 (.child (.stay trivial (.here 2))) rfl, ?_, by decide, ?_⟩
  · exact (he none ['s', 't', 'd', 'i', 'o'] stdio [] 1 (by decide) (by decide)
      (.here 1)).mpr (Or.inl (by decide))
  · refine (hf (some ['r', 'p', 'a', 't', 'h']) none (by decide)).mpr
      fun string next hs hp => Or.inl ?_
    obtain rfl := Option.some_inj.mp hs
    obtain rfl := Option.some_inj.mp hp
    exact ⟨rfl, by decide⟩

end MichCore.Pledge
