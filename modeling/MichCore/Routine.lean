import Mathlib.Tactic

/-!
# Routines that ask a device and may fail

A routine is a tree of requests: it returns, or asks one request and goes on with the answer. A
handler gives the requests a meaning over a store, and one simulation between two handlers covers
every routine.

A failing routine returns `none` and keeps the effects it has made so far. Preconditions are
computed backwards by `wp`, with one postcondition for each of the two outcomes.
-/
namespace MichCore

/-- Requests of type `ρ`, each with its own type of answers. -/
inductive Prog (ρ : Type) (ans : ρ → Type) (α : Type) : Type where
  | ret (a : α)
  | ask (r : ρ) (k : ans r → Prog ρ ans α)

/-- One answer and one new store for each request. -/
abbrev Handler (ρ : Type) (ans : ρ → Type) (σ : Type) := (r : ρ) → σ → ans r × σ

namespace Prog
variable {ρ : Type} {ans : ρ → Type} {α β γ σ τ : Type}

def bind (p : Prog ρ ans α) (f : α → Prog ρ ans β) : Prog ρ ans β :=
  match p with
  | ret a => f a
  | ask r k => ask r (fun x => (k x).bind f)

def run (h : Handler ρ ans σ) (p : Prog ρ ans α) (s : σ) : α × σ :=
  match p with
  | ret a => (a, s)
  | ask r k => (k (h r s).1).run h (h r s).2

section

variable (h : Handler ρ ans σ)
include h

@[simp] theorem run_ret (a : α) (s : σ) :
    (ret a : Prog ρ ans α).run h s = (a, s) := rfl

@[simp] theorem run_ask (r : ρ) (k : ans r → Prog ρ ans α) (s : σ) :
    (ask r k).run h s = (k (h r s).1).run h (h r s).2 := rfl

@[simp] theorem run_bind (p : Prog ρ ans α) (f : α → Prog ρ ans β) (s : σ) :
    (p.bind f).run h s = (f (p.run h s).1).run h (p.run h s).2 := by
  induction p generalizing s with
  | ret a => rfl
  | ask r k ih => exact ih _ _

theorem run_invariant (I : σ → Prop)
    (step : ∀ r s, I s → I (h r s).2) (p : Prog ρ ans α) (s : σ) (hs : I s) : I (p.run h s).2 := by
  induction p generalizing s with
  | ret a => exact hs
  | ask r k ih => exact ih _ _ (step r s hs)

/-- Simulation lifts from requests to routines. `bad` marks a store that has left
the range in which the two agree, and once bad it stays bad. -/
theorem run_simulates (g : Handler ρ ans τ)
    (R : σ → τ → Prop) (bad : τ → Prop) (stays : ∀ r t, bad t → bad (g r t).2)
    (step : ∀ r s t, R s t → ¬ bad (g r t).2 → (h r s).1 = (g r t).1 ∧ R (h r s).2 (g r t).2)
    (p : Prog ρ ans α) (s : σ) (t : τ) (hR : R s t) (hb : ¬ bad (p.run g t).2) :
    (p.run h s).1 = (p.run g t).1 ∧ R (p.run h s).2 (p.run g t).2 := by
  induction p generalizing s t with
  | ret a => exact ⟨rfl, hR⟩
  | ask r k ih =>
    have hnb : ¬ bad (g r t).2 := by
      intro hbad
      exact hb (run_invariant g bad stays (k (g r t).1) _ hbad)
    obtain ⟨he, hR'⟩ := step r s t hR hnb
    simp only [run_ask, he]
    exact ih _ _ _ hR' hb

end

end Prog

/-- Memory of the calling code beside the store the requests go to. -/
structure Config (μ σ : Type) where
  mem : μ
  store : σ

/-- A routine over memory `μ`; `none` is the C result -1. -/
def Routine (ρ : Type) (ans : ρ → Type) (μ α : Type) := μ → Prog ρ ans (Option α × μ)

namespace Routine
variable {ρ : Type} {ans : ρ → Type} {μ α β σ τ : Type}

/-- What the caller does with the outcome of a callee. -/
def next (f : α → Routine ρ ans μ β) (r : Option α × μ) : Prog ρ ans (Option β × μ) :=
  match r with
  | (some a, m) => f a m
  | (none, m) => .ret (none, m)

instance : Monad (Routine ρ ans μ) where
  pure a := fun m => .ret (some a, m)
  bind p f := fun m => (p m).bind (next f)

def fail : Routine ρ ans μ α := fun m => .ret (none, m)

def getMem : Routine ρ ans μ μ := fun m => .ret (some m, m)

def modifyMem (f : μ → μ) : Routine ρ ans μ Unit := fun m => .ret (some (), f m)

/-- One request, its answer handed to the caller as it is. -/
def request (r : ρ) : Routine ρ ans μ (ans r) := fun m => .ask r (fun x => .ret (some x, m))

/-- Run a callee and look at its result code instead of passing a failure on. -/
def attempt (p : Routine ρ ans μ α) : Routine ρ ans μ (Option α) := fun m =>
  (p m).bind (fun r => .ret (some r.1, r.2))

/-- `for (i = first; i < first + n; i++) if (f(i)) return -1;` -/
def forRange (f : ℕ → Routine ρ ans μ Unit) : ℕ → ℕ → Routine ρ ans μ Unit
  | _, 0 => pure ()
  | first, n + 1 => do
    f first
    forRange f (first + 1) n

/-- The result of a routine on a configuration, under a handler. -/
def exec (h : Handler ρ ans σ) (p : Routine ρ ans μ α) (c : Config μ σ) :
    Option α × Config μ σ :=
  let r := (p c.mem).run h c.store
  (r.1.1, ⟨r.1.2, r.2⟩)

section Exec
variable (h : Handler ρ ans σ) (c : Config μ σ)

@[simp] theorem exec_pure (a : α) :
    exec h (pure a : Routine ρ ans μ α) c = (some a, c) := rfl

@[simp] theorem exec_fail : exec h (fail : Routine ρ ans μ α) c = (none, c) := rfl

@[simp] theorem exec_getMem : exec h (getMem : Routine ρ ans μ μ) c = (some c.mem, c) := rfl

@[simp] theorem exec_modifyMem (f : μ → μ) :
    exec h (modifyMem f : Routine ρ ans μ Unit) c = (some (), ⟨f c.mem, c.store⟩) := rfl

@[simp] theorem exec_request (r : ρ) :
    exec h (request r : Routine ρ ans μ (ans r)) c =
      (some (h r c.store).1, ⟨c.mem, (h r c.store).2⟩) := rfl

theorem exec_request_eq {r : ρ} {a : ans r} {s : σ} (hr : h r c.store = (a, s)) :
    exec h (request r : Routine ρ ans μ (ans r)) c = (some a, ⟨c.mem, s⟩) := by
  rw [exec_request, hr]

/-- The second half of `exec_bind`: the continuation on either outcome. -/
def follow (f : α → Routine ρ ans μ β) (r : Option α × Config μ σ) :
    Option β × Config μ σ :=
  match r with
  | (some a, c) => exec h (f a) c
  | (none, c) => (none, c)

@[simp] theorem follow_some (f : α → Routine ρ ans μ β) (a : α) (c : Config μ σ) :
    follow h f (some a, c) = exec h (f a) c := rfl

@[simp] theorem follow_none (f : α → Routine ρ ans μ β) (c : Config μ σ) :
    follow h f (none, c) = (none, c) := rfl

theorem exec_bind (p : Routine ρ ans μ α) (f : α → Routine ρ ans μ β) :
    exec h (p >>= f) c = follow h f (exec h p c) := by
  change exec h (fun m => (p m).bind (next f)) c = _
  simp only [exec, Prog.run_bind]
  rcases (p c.mem).run h c.store with ⟨⟨_ | a, m⟩, s⟩ <;> rfl

@[simp] theorem exec_attempt (p : Routine ρ ans μ α) :
    exec h (attempt p) c = (some (exec h p c).1, (exec h p c).2) := by
  simp only [exec, attempt, Prog.run_bind, Prog.run_ret]

end Exec

theorem exec_simulates (h : Handler ρ ans σ) (g : Handler ρ ans τ)
    (R : σ → τ → Prop) (bad : τ → Prop) (stays : ∀ r t, bad t → bad (g r t).2)
    (step : ∀ r s t, R s t → ¬ bad (g r t).2 → (h r s).1 = (g r t).1 ∧ R (h r s).2 (g r t).2)
    (p : Routine ρ ans μ α) (m : μ) (s : σ) (t : τ) (hR : R s t)
    (hb : ¬ bad (exec g p ⟨m, t⟩).2.store) :
    (exec h p ⟨m, s⟩).1 = (exec g p ⟨m, t⟩).1 ∧ (exec h p ⟨m, s⟩).2.mem = (exec g p ⟨m, t⟩).2.mem ∧
      R (exec h p ⟨m, s⟩).2.store (exec g p ⟨m, t⟩).2.store := by
  obtain ⟨he, hR'⟩ := Prog.run_simulates h g R bad stays step (p m) s t hR hb
  exact ⟨congrArg Prod.fst he, congrArg Prod.snd he, hR'⟩

/-- Weakest precondition with a postcondition for success and one for failure. -/
def wp (h : Handler ρ ans σ) (p : Routine ρ ans μ α) (Q : α → Config μ σ → Prop)
    (E : Config μ σ → Prop) (c : Config μ σ) : Prop :=
  match exec h p c with
  | (some a, c') => Q a c'
  | (none, c') => E c'

section Wp
variable {h : Handler ρ ans σ} {c : Config μ σ}

theorem wp_of_some {p : Routine ρ ans μ α} {a : α} {c' : Config μ σ}
    (he : exec h p c = (some a, c')) (Q : α → Config μ σ → Prop) (E : Config μ σ → Prop) :
    wp h p Q E c ↔ Q a c' := by
  simp only [wp, he]

@[simp] theorem wp_pure (a : α) (Q : α → Config μ σ → Prop) (E : Config μ σ → Prop) :
    wp h (pure a : Routine ρ ans μ α) Q E c ↔ Q a c := Iff.rfl

@[simp] theorem wp_getMem (Q : μ → Config μ σ → Prop) (E : Config μ σ → Prop) :
    wp h (getMem : Routine ρ ans μ μ) Q E c ↔ Q c.mem c := Iff.rfl

theorem wp_bind (p : Routine ρ ans μ α) (f : α → Routine ρ ans μ β)
    (Q : β → Config μ σ → Prop) (E : Config μ σ → Prop) :
    wp h (p >>= f) Q E c ↔ wp h p (fun a c' => wp h (f a) Q E c') E c := by
  simp only [wp, exec_bind]
  rcases exec h p c with ⟨_ | a, c'⟩ <;> rfl

theorem wp_mono {p : Routine ρ ans μ α} {Q Q' : α → Config μ σ → Prop}
    {E E' : Config μ σ → Prop} (hw : wp h p Q E c) (hQ : ∀ a c', Q a c' → Q' a c')
    (hE : ∀ c', E c' → E' c') : wp h p Q' E' c := by
  unfold wp at hw ⊢
  generalize exec h p c = r at hw ⊢
  rcases r with ⟨_ | a, c'⟩
  · exact hE _ hw
  · exact hQ _ _ hw

end Wp

end Routine

end MichCore
