import Mathlib.Tactic

/-!
# The table of kernel objects

`object_create`, `object_retain` and the two locked halves of `object_release` of
`objects/object.c`, between which the destroy callback runs. Objects are named by their slot.
-/
namespace MichCore.Objects

open Function

def objectMax : ℕ := 128
def taskMax : ℕ := 32

def kobjectNone : ℕ := 0
def kobjectEvent : ℕ := 1

/-- `kernel_object`; of the destroy callback only its presence. -/
structure KObject where
  type : ℕ
  references : ℕ
  value : ℕ
  destroy : Bool
  active : Bool
  deriving DecidableEq, Repr

def KObject.none : KObject := ⟨kobjectNone, 0, 0, false, false⟩

abbrev ObjectTable := ℕ → KObject

def objectCreate (t : ObjectTable) (type value : ℕ) (destroy : Bool) :
    Option (ObjectTable × ℕ) :=
  if type = kobjectNone then none
  else
    match (List.range objectMax).find? fun index => (t index).active = false with
    | none => none
    | some index => some (update t index ⟨type, 1, value, destroy, true⟩, index)

def objectRetain (t : ObjectTable) (object : ℕ) : Option ObjectTable :=
  if (t object).active = false ∨ (t object).references = 0 ∨
      (t object).references = 0xFFFFFFFF then
    none
  else
    some (update t object { t object with references := (t object).references + 1 })

/-- What the first half of `object_release` found. -/
inductive Dropped where
  /-- The object is not there, or its last reference is gone already. -/
  | ignored
  | kept
  /-- The last reference is gone; is there a callback to run? -/
  | last (destroy : Bool)
  deriving DecidableEq, Repr

/-- `object_release` in front of the callback. -/
def dropReference (t : ObjectTable) (object : ℕ) : ObjectTable × Dropped :=
  if (t object).active = false ∨ (t object).references = 0 then (t, .ignored)
  else if (t object).references - 1 ≠ 0 then
    (update t object { t object with references := (t object).references - 1 }, .kept)
  else
    (update t object { t object with references := 0, destroy := false }, .last (t object).destroy)

/-- `object_release` behind the callback. -/
def finishRelease (t : ObjectTable) (object : ℕ) : ObjectTable :=
  update t object { t object with type := kobjectNone, value := 0, active := false }

theorem objectCreate_some {t t' : ObjectTable} {type value object : ℕ} {destroy : Bool}
    (h : objectCreate t type value destroy = some (t', object)) :
    type ≠ kobjectNone ∧ object < objectMax ∧ (t object).active = false ∧
      t' = update t object ⟨type, 1, value, destroy, true⟩ := by
  unfold objectCreate at h
  split at h
  · cases h
  · next ht =>
    split at h
    · cases h
    · next index hfi =>
      cases h
      have hmem := List.mem_of_find?_eq_some hfi
      have hfr := List.find?_some hfi
      exact ⟨ht, List.mem_range.mp hmem, of_decide_eq_true hfr, rfl⟩

theorem objectRetain_some {t t' : ObjectTable} {object : ℕ} (h : objectRetain t object = some t') :
    (t object).active = true ∧ 0 < (t object).references ∧
      t' = update t object { t object with references := (t object).references + 1 } := by
  unfold objectRetain at h
  split at h
  · cases h
  · next hr =>
    cases h
    simp only [not_or, Bool.not_eq_false] at hr
    exact ⟨hr.1, Nat.pos_of_ne_zero hr.2.1, rfl⟩

theorem dropReference_cases (t : ObjectTable) (object : ℕ) :
    (((t object).active = false ∨ (t object).references = 0) ∧
      dropReference t object = (t, .ignored)) ∨
    ((t object).active = true ∧ 1 < (t object).references ∧
      dropReference t object = (update t object
        { t object with references := (t object).references - 1 }, .kept)) ∨
    ((t object).active = true ∧ (t object).references = 1 ∧
      dropReference t object = (update t object
        { t object with references := 0, destroy := false }, .last (t object).destroy)) := by
  unfold dropReference
  split
  · next hi =>
    exact .inl ⟨hi, rfl⟩
  next hi =>
  obtain ⟨ha, hr⟩ := not_or.mp hi
  rw [Bool.not_eq_false] at ha
  split
  · exact .inr (.inl ⟨ha, by omega, rfl⟩)
  · exact .inr (.inr ⟨ha, by omega, rfl⟩)

end MichCore.Objects
