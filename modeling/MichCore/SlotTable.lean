import Mathlib.Tactic

/-!
# Tables with a fixed number of slots

A table is a function on `Fin n`, and a search takes the first slot that will do.
-/
namespace MichCore.SlotTable

open List

variable {n : ℕ} {P : Fin n → Prop} [DecidablePred P] {x : Fin n}

theorem find_some (h : (finRange n).find? (fun i => P i) = some x) : P x := by
  simpa using find?_some h

theorem find_none (h : (finRange n).find? (fun i => P i) = none) (x : Fin n) : ¬ P x := by
  simpa using find?_eq_none.mp h x (mem_finRange x)

-- The sizes the tables have. A numeral for a slot then carries the same proof in every module.
instance neZero_eight : NeZero 8 := ⟨by decide⟩
instance neZero_sixteen : NeZero 16 := ⟨by decide⟩
instance neZero_thirtyTwo : NeZero 32 := ⟨by decide⟩
instance neZero_sixtyFour : NeZero 64 := ⟨by decide⟩

end MichCore.SlotTable
