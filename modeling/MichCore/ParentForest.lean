import Mathlib.Data.Fintype.Card
import Mathlib.Tactic

/-!
# Forests given by parent pointers

A function `parent : α → Option α` is a set of trees that point at their roots. `Rooted parent a`
says that the climb from `a` ends. Moving a node keeps every climb finite when the new parent
does not lie below the node.
-/
namespace MichCore.ParentForest

open Function Option

variable {α : Type*}

/-- `k` steps up from `a`; `none` once a root was passed. -/
def climb (parent : α → Option α) : ℕ → α → Option α
  | 0, a => some a
  | k + 1, a => (parent a).bind (climb parent k)

/-- The climb from a node reaches a root. -/
inductive Rooted (parent : α → Option α) : α → Prop where
  | root {a : α} (h : parent a = none) : Rooted parent a
  | step {a b : α} (h : parent a = some b) (hb : Rooted parent b) : Rooted parent a

variable {parent : α → Option α}

theorem climb_add (j k : ℕ) (a : α) :
    climb parent (j + k) a = (climb parent j a).bind (climb parent k) := by
  induction j generalizing a with
  | zero => simp [climb]
  | succ j ih =>
    rw [Nat.succ_add]
    simp only [climb]
    cases parent a with
    | none => rfl
    | some b => exact ih b

variable {a : α} {x p : α}

theorem Rooted.exists_climb (h : Rooted parent a) : ∃ k, climb parent k a = none := by
  induction h with
  | root h => exact ⟨1, by simp [climb, h]⟩
  | step h _ ih =>
    obtain ⟨k, hk⟩ := ih
    exact ⟨k + 1, by simp [climb, h, hk]⟩

theorem exists_climb_step : (∃ k, climb parent k a = some x) ↔
    a = x ∨ ∃ b, parent a = some b ∧ ∃ k, climb parent k b = some x := by
  constructor
  · rintro ⟨k, hk⟩
    cases k with
    | zero => exact .inl (some_inj.mp hk)
    | succ k =>
      obtain ⟨b, hb, hk⟩ := Option.bind_eq_some_iff.mp hk
      exact .inr ⟨b, hb, k, hk⟩
  · rintro (rfl | ⟨b, hb, k, hk⟩)
    · exact ⟨0, rfl⟩
    · exact ⟨k + 1, by rw [climb, hb, bind_some, hk]⟩

theorem climb_none_of_le {j k : ℕ} (hjk : j ≤ k) (h : climb parent j a = none) :
    climb parent k a = none := by
  obtain ⟨d, rfl⟩ := Nat.exists_eq_add_of_le hjk
  rw [climb_add, h]
  rfl

theorem climb_periodic {d : ℕ} (hd : 0 < d) (h : climb parent d a = some a) (k : ℕ) :
    climb parent k a ≠ none := by
  intro hn
  have hall : ∀ n, climb parent (n * d) a = some a := by
    intro n
    induction n with
    | zero => simp [climb]
    | succ n ih => rw [Nat.succ_mul, climb_add, ih, bind_some, h]
  have hle : k ≤ k * d := Nat.le_mul_of_pos_right k hd
  have := climb_none_of_le hle hn
  rw [hall k] at this
  cases this

theorem Rooted.ne_self (h : Rooted parent a) : parent a ≠ some a := by
  intro hl
  obtain ⟨k, hk⟩ := h.exists_climb
  exact climb_periodic Nat.one_pos (by simp [climb, hl]) k hk

theorem Rooted.climb_card [Fintype α] {a : α} (h : Rooted parent a) :
    climb parent (Fintype.card α) a = none := by
  by_contra hlon
  have hs : ∀ k : Fin (Fintype.card α + 1), ∃ b, climb parent k a = some b := by
    intro k
    apply ne_none_iff_exists'.mp
    intro hn
    exact hlon (climb_none_of_le (by omega) hn)
  choose f hf using hs
  obtain ⟨i, j, hij, heq⟩ := Fintype.exists_ne_map_eq_of_card_lt f (by simp)
  -- Two equal nodes on the climb make it periodic.
  have hc : ∀ i j : Fin (Fintype.card α + 1), i < j → f i = f j → False := by
    intro i j hlt heq
    obtain ⟨d, hd⟩ := Nat.exists_eq_add_of_le (show i.val ≤ j.val from Nat.le_of_lt hlt)
    have hpos : 0 < d := by
      have : i.val < j.val := hlt
      omega
    have hloo : climb parent d (f i) = some (f i) := by
      have := hf j
      rw [hd, climb_add, hf i, bind_some] at this
      rw [this, heq]
    obtain ⟨k, hk⟩ := h.exists_climb
    have hend : climb parent (i.val + k) a = none := climb_none_of_le (by omega) hk
    rw [climb_add, hf i, bind_some] at hend
    exact climb_periodic hpos hloo k hend
  rcases lt_or_gt_of_ne hij with hlt | hgt
  · exact hc i j hlt heq
  · exact hc j i hgt heq.symm

theorem Rooted.congr {parent' : α → Option α} {P : α → Prop}
    (hag : ∀ a, P a → parent' a = parent a) (hc : ∀ a b, P a → parent a = some b → P b)
    (ha : P a) (h : Rooted parent a) : Rooted parent' a := by
  induction h with
  | root h => exact .root (by rw [hag _ ha, h])
  | step h _ ih => exact .step (by rw [hag _ ha, h]) (ih (hc _ _ ha h))

theorem Rooted.mono {parent' : α → Option α}
    (hsub : ∀ a b, parent' a = some b → parent a = some b) (h : Rooted parent a) :
    Rooted parent' a := by
  induction h with
  | @root a h =>
    cases ha : parent' a with
    | none => exact .root ha
    | some b => exact absurd (hsub a b ha) (by simp [h])
  | @step a b h _ ih =>
    cases ha : parent' a with
    | none => exact .root ha
    | some c =>
      have hcb : c = b := some_inj.mp ((hsub a c ha).symm.trans h)
      exact .step (hcb ▸ ha) ih

theorem Rooted.no_return (h : Rooted parent a) {k : ℕ} (hk : 0 < k) :
    climb parent k a ≠ some a := by
  intro hl
  obtain ⟨n, hn⟩ := h.exists_climb
  exact climb_periodic hk hl n hn

theorem exists_climb_iff {a b : α} : (∃ k, climb parent k a = some b) ↔
    Relation.ReflTransGen (fun x y => parent x = some y) a b := by
  constructor
  · rintro ⟨k, hk⟩
    induction k generalizing a with
    | zero => exact some_inj.mp hk ▸ .refl
    | succ k ih =>
      obtain ⟨c, hac, hcb⟩ := bind_eq_some_iff.mp hk
      exact .head hac (ih hcb)
  · intro h
    induction h using Relation.ReflTransGen.head_induction_on with
    | refl => exact ⟨0, rfl⟩
    | head hac _ ih =>
      obtain ⟨k, hk⟩ := ih
      exact ⟨k + 1, by rw [climb, hac, bind_some, hk]⟩

theorem exists_climb_succ_iff {a b : α} : (∃ k, climb parent (k + 1) a = some b) ↔
    Relation.TransGen (fun x y => parent x = some y) a b := by
  rw [Relation.TransGen.head'_iff]
  simp only [climb, bind_eq_some_iff, ← exists_climb_iff]
  exact ⟨fun ⟨k, c, hac, hk⟩ => ⟨c, hac, k, hk⟩, fun ⟨c, hac, k, hk⟩ => ⟨k, c, hac, hk⟩⟩

theorem Rooted.not_transGen (h : Rooted parent a) :
    ¬ Relation.TransGen (fun x y => parent x = some y) a a := by
  intro hl
  obtain ⟨k, hk⟩ := exists_climb_succ_iff.mpr hl
  exact h.no_return (Nat.succ_pos k) hk

theorem transGen_root {a b c : α} (hr : parent b = none) (hb : ∃ k, climb parent k a = some b)
    (hc : ∃ k, climb parent k a = some c) (hcb : c ≠ b) :
    Relation.TransGen (fun x y => parent x = some y) c b := by
  obtain ⟨k, hk⟩ := hb
  obtain ⟨j, hj⟩ := hc
  rcases Nat.lt_or_ge k j with hlt | hge
  · obtain ⟨d, rfl⟩ := Nat.exists_eq_add_of_lt hlt
    rw [Nat.add_assoc, climb_add, hk, bind_some, climb, hr] at hj
    cases hj
  obtain ⟨d, rfl⟩ := Nat.exists_eq_add_of_le hge
  rw [climb_add, hj, bind_some] at hk
  cases d with
  | zero => exact absurd (some_inj.mp hk) hcb
  | succ d => exact exists_climb_succ_iff.mp ⟨d, hk⟩

/-- `x` is not met on the way up from `p`. -/
def Avoids (parent : α → Option α) (x p : α) : Prop := ∀ k, climb parent k p ≠ some x

theorem Avoids.ne (h : Avoids parent x p) : p ≠ x := by
  rintro rfl
  exact h 0 rfl

theorem Avoids.step {x p q : α} (h : Avoids parent x p) (hpq : parent p = some q) :
    Avoids parent x q := by
  intro k hk
  exact h (k + 1) (by simp [climb, hpq, hk])

section Update

variable [DecidableEq α]

theorem Rooted.update_none (x : α) (h : Rooted parent a) : Rooted (update parent x none) a := by
  induction h with
  | @root a h =>
    apply Rooted.root
    by_cases hax : a = x
    · rw [hax, update_self]
    · rw [update_of_ne hax, h]
  | @step a b h _ ih =>
    by_cases hax : a = x
    · exact .root (by rw [hax, update_self])
    · exact .step (by rw [update_of_ne hax, h]) ih

theorem climb_of_update_none {a b x : α} {k : ℕ}
    (h : climb (update parent x none) k a = some b) : climb parent k a = some b := by
  induction k generalizing a with
  | zero => exact h
  | succ k ih =>
    simp only [climb] at h ⊢
    by_cases hax : a = x
    · rw [hax, update_self] at h
      cases h
    rw [update_of_ne hax] at h
    cases hpa : parent a with
    | none =>
      rw [hpa] at h
      cases h
    | some c =>
      rw [hpa] at h
      exact ih h

theorem Avoids.update_none (y : α) (h : Avoids parent x p) : Avoids (update parent y none) x p :=
  fun k hk => h k (climb_of_update_none hk)

/-- A climb does not see the pointer of a node it never meets. -/
theorem climb_update_of_avoids (h : Avoids parent x p) (v : Option α) (k : ℕ) :
    climb (update parent x v) k p = climb parent k p := by
  induction k generalizing p with
  | zero => rfl
  | succ k ih =>
    rw [climb, climb, update_of_ne h.ne]
    cases hp : parent p with
    | none => rfl
    | some q => exact ih (h.step hp)

theorem Rooted.update_some {a x p : α} (h : Rooted parent a) (hp : Rooted parent p)
    (havo : Avoids parent x p) : Rooted (update parent x (some p)) a := by
  -- The climb from `p` never uses the pointer that changes.
  have hp' : Rooted (update parent x (some p)) p := by
    apply Rooted.congr (P := Avoids parent x) _ _ havo hp
    · exact fun b hb => update_of_ne hb.ne _ _
    · exact fun b c hb hbc => hb.step hbc
  induction h with
  | @root a h =>
    by_cases hax : a = x
    · exact .step (by rw [hax, update_self]) hp'
    · exact .root (by rw [update_of_ne hax, h])
  | @step a b h _ ih =>
    by_cases hax : a = x
    · exact .step (by rw [hax, update_self]) hp'
    · exact .step (by rw [update_of_ne hax, h]) ih

end Update

end MichCore.ParentForest
