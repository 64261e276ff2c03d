import MichCore.KernelObjects

/-!
# The binding of an interrupt resource

`irq_resource_bind`, `irq_resource_unbind`, `irq_resource_set_mask` and `irq_destroy` of
`objects/resource.c` on one resource and the object table. A mask backend gives any answer; the
source number that it is called with plays no part here.
-/
namespace MichCore.Irq

open Objects Function

def kobjectEndpoint : ℕ := 8
def controllerMax : ℕ := 3

/-- `irq_resource` with the object table and the controllers that have a mask backend. -/
structure System where
  objects : ObjectTable
  backend : ℕ → Bool
  controller : ℕ
  masked : Bool
  binding : Option ℕ
  active : Bool

/-- `irq_create_kind_locked` -/
def System.created (objects : ObjectTable) (backend : ℕ → Bool) (controller : ℕ) : System :=
  ⟨objects, backend, controller, true, none, true⟩

/-- `object_release`. What a destroy callback does besides is left out: no release here is the
last one of its object. -/
def objectRelease (t : ObjectTable) (object : ℕ) : ObjectTable :=
  match dropReference t object with
  | (t, .last _) => finishRelease t object
  | (t, _) => t

inductive Op where
  | bind (target : ℕ)
  /-- With the answer of the backend, if it is called. -/
  | unbind (answer : ℤ)
  | setMask (masked : Bool) (answer : ℤ)
  /-- The last release of the resource, `irq_destroy`. -/
  | destroy

namespace System

def bind (s : System) (target : ℕ) : ℤ × System :=
  if (s.objects target).type ≠ kobjectEvent ∧ (s.objects target).type ≠ kobjectEndpoint then (-1, s)
  else if s.active = false ∨ (s.objects target).active = false ∨ s.binding.isSome ∨
      s.masked = false then (-1, s)
  else
    match objectRetain s.objects target with
    | none => (-1, s)
    | some t => (0, { s with objects := t, binding := some target })

/-- Is there a backend to call? -/
def hasBackend (s : System) : Prop := s.controller < controllerMax ∧ s.backend s.controller = true
  deriving Decidable

def unbind (s : System) (answer : ℤ) : ℤ × System :=
  if s.active = false then (-1, s)
  else
    match s.binding with
    | none => (-1, s)
    | some target =>
      let unmaskNeeded := s.masked = false
      let s := { s with masked := true, binding := none }
      let masked := if unmaskNeeded ∧ s.hasBackend then answer else 0
      if masked ≠ 0 then (-1, { s with masked := false })
      else (0, { s with objects := objectRelease s.objects target })

def setMask (s : System) (masked : Bool) (answer : ℤ) : ℤ × System :=
  if s.active = false ∨ masked = false ∧ s.binding = none ∨ ¬ s.hasBackend then (-1, s)
  else (answer, { s with masked := masked })

def destroy (s : System) : System :=
  { s with
    objects := s.binding.elim s.objects (objectRelease s.objects)
    controller := 0, masked := true, binding := none, active := false }

def perform (s : System) : Op → ℤ × System
  | .bind target => s.bind target
  | .unbind answer => s.unbind answer
  | .setMask masked answer => s.setMask masked answer
  | .destroy => (0, s.destroy)

def run (s : System) (ops : List Op) : System := ops.foldl (fun s op => (s.perform op).2) s

/-- The unbind that drops the binding without the reference: the backend refuses to mask. -/
def Loses (s : System) : Op → Prop
  | .unbind answer => s.active = true ∧ s.binding ≠ none ∧ s.masked = false ∧ s.hasBackend ∧
    answer ≠ 0
  | _ => False

/-- Every reference beyond those in `t` is the one of the binding. -/
structure Coherent (t : ObjectTable) (s : System) : Prop where
  references : ∀ o, (s.objects o).references =
    (t o).references + if s.binding = some o then 1 else 0
  held : ∀ o, s.binding = some o → (s.objects o).active = true ∧ 0 < (t o).references
  bound : s.masked = false → s.binding ≠ none
  released : s.active = false → s.binding = none

/-- A failed unbind of a bound resource leaves it bound. -/
def Keeps (s : System) : Op → Prop
  | .unbind answer => s.active = true → s.binding ≠ none → (s.unbind answer).1 ≠ 0 →
      (s.unbind answer).2.binding = s.binding
  | _ => True

variable {t : ObjectTable} {s : System}

theorem references_update (t : ObjectTable) (o n p : ℕ) :
    (update t o { t o with references := n } p).references =
      if p = o then n else (t p).references := by
  rw [update_apply]
  split <;> rfl

theorem Coherent.release (h : Coherent t s) {o : ℕ} (ho : s.binding = some o) (p : ℕ) :
    (objectRelease s.objects o p).references = (t p).references := by
  obtain ⟨hac, hpos⟩ := h.held o ho
  have hcount := h.references o
  rw [if_pos ho] at hcount
  rcases dropReference_cases s.objects o with ⟨hg, -⟩ | ⟨-, -, heq⟩ | ⟨-, hone, -⟩
  · rcases hg with hg | hg
    · exact absurd hg (by simp [hac])
    · omega
  · rw [objectRelease, heq]
    refine (references_update ..).trans ?_
    split
    · next hp =>
      rw [hp]
      exact Nat.sub_eq_of_eq_add hcount
    · next hp => simp [h.references, ho, Ne.symm hp]
  · omega

theorem Coherent.bind (h : Coherent t s) (target : ℕ) : Coherent t (s.bind target).2 := by
  unfold System.bind
  split
  · exact h
  split
  · exact h
  next hf =>
  simp only [not_or, Bool.not_eq_false, Option.not_isSome_iff_eq_none] at hf
  have hb : ∀ o, (s.objects o).references = (t o).references := by simp [h.references, hf]
  cases hr : objectRetain s.objects target with
  | none => exact h
  | some t' =>
    obtain ⟨hac, hpos, rfl⟩ := objectRetain_some hr
    refine ⟨fun o => (references_update ..).trans ?_, ?_, nofun, by simp [hf]⟩
    · simp only [hb, Option.some.injEq, eq_comm (a := target)]
      split <;> simp [*]
    · rintro o ⟨⟩
      simp [hac, ← hb, hpos]

theorem unbind_cases {o : ℕ} (hac : s.active = true) (ho : s.binding = some o) (answer : ℤ) :
    (s.Loses (.unbind answer) ∧ s.unbind answer =
      (-1, { s with masked := false, binding := none })) ∨
      ¬ s.Loses (.unbind answer) ∧ s.unbind answer =
        (0, { s with objects := objectRelease s.objects o, masked := true, binding := none }) := by
  have hl : s.Loses (.unbind answer) ↔
      (if s.masked = false ∧ s.hasBackend then answer else 0) ≠ 0 := by
    simp [Loses, hac, ho]
  have hnot : ¬ s.active = false := by simp [hac]
  rw [unbind, if_neg hnot, ho]
  by_cases h : s.Loses (.unbind answer)
  · exact .inl ⟨h, if_pos (hl.mp h)⟩
  · exact .inr ⟨h, if_neg (mt hl.mpr h)⟩

theorem keeps_iff (s : System) (op : Op) : s.Keeps op ↔ ¬ s.Loses op := by
  cases op with
  | unbind answer =>
    by_cases hb : s.active = true ∧ s.binding ≠ none
    · obtain ⟨o, ho⟩ := Option.ne_none_iff_exists'.mp hb.2
      rcases unbind_cases hb.1 ho answer with ⟨hl, heq⟩ | ⟨hk, heq⟩
      · simp [Keeps, heq, hb.1, ho, hl]
      · simp [Keeps, heq, hk]
    · exact iff_of_true (fun h₁ h₂ => absurd ⟨h₁, h₂⟩ hb) fun h => hb ⟨h.1, h.2.1⟩
  | _ => exact iff_of_true trivial id

theorem Coherent.perform (h : Coherent t s) {op : Op} (hop : ¬ s.Loses op) :
    Coherent t (s.perform op).2 := by
  cases op with
  | bind target => exact h.bind target
  | unbind answer =>
    cases hac : s.active with
    | false => simpa [System.perform, System.unbind, hac] using h
    | true =>
      cases ho : s.binding with
      | none => simpa [System.perform, System.unbind, ho] using h
      | some o =>
        rw [System.perform, (unbind_cases hac ho answer).resolve_left (hop ·.1) |>.2]
        exact ⟨h.release ho, nofun, nofun, fun _ => rfl⟩
  | setMask masked answer =>
    simp only [System.perform, System.setMask]
    split
    · exact h
    next hm =>
    exact ⟨h.references, h.held, fun hf hn => hm (.inr (.inl ⟨hf, hn⟩)),
      h.released⟩
  | destroy =>
    refine ⟨fun p => ?_, nofun, nofun, fun _ => rfl⟩
    simp only [System.perform, System.destroy]
    cases ho : s.binding with
    | none =>
      have := h.references p
      rwa [ho] at this
    | some o => exact h.release ho p

/-- The exact condition: no unbind of an unmasked resource meets a backend that refuses. -/
theorem run_coherent_iff (t : ObjectTable) (backend : ℕ → Bool) (controller : ℕ) (ops : List Op) :
    ((∀ pre, pre <+: ops → Coherent t ((created t backend controller).run pre)) ∧
      ∀ pre op, pre ++ [op] <+: ops → ((created t backend controller).run pre).Keeps op) ↔
    ∀ pre op, pre ++ [op] <+: ops → ¬ ((created t backend controller).run pre).Loses op := by
  simp only [keeps_iff]
  refine and_iff_right_of_imp fun h pre => ?_
  induction pre using List.reverseRecOn with
  | nil => exact fun _ => ⟨fun o => rfl, nofun, nofun, nofun⟩
  | append_singleton pre op ih =>
    intro hpre
    rw [run, List.foldl_append]
    exact (ih ((List.prefix_append pre [op]).trans hpre)).perform (h pre op hpre)

/-- An event that keeps a second reference behind the end of the resource it was bound to. -/
theorem run_leaks : ((created (fun _ => ⟨kobjectEvent, 1, 0, false, true⟩) (fun _ => true) 0).run
    [.bind 0, .setMask false 0, .unbind (-1), .destroy]).objects 0 =
      ⟨kobjectEvent, 2, 0, false, true⟩ := by
  decide

end System
end MichCore.Irq
