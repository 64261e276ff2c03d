import Mathlib.Tactic

/-!
# Binary heaps in a list

The children of position `i` are `2 * i + 1` and `2 * i + 2`. The list is `Ordered` when no
element has a smaller key than its parent; then the first has the smallest. `push` keeps the
order, and the elements up to their places.
-/
namespace MichCore.BinaryHeap

open List Option

variable {α : Type*} (key : α → ℕ)

def parent (i : ℕ) : ℕ := (i - 1) / 2

variable {xs : List α} {i : ℕ}

theorem parent_lt (h : 0 < i) : parent i < i := by
  unfold parent
  omega

def swap (xs : List α) (i j : ℕ) : List α :=
  match xs[i]?, xs[j]? with
  | some a, some b => (xs.set i b).set j a
  | _, _ => xs

/-- Move the element at `i` up while its parent has a larger key. -/
def siftUp : ℕ → List α → ℕ → List α
  | 0, xs, _ => xs
  | fuel + 1, xs, i =>
    if i = 0 then xs
    else
      match xs[parent i]?, xs[i]? with
      | some p, some x =>
        if key p ≤ key x then xs else siftUp fuel (swap xs (parent i) i) (parent i)
      | _, _ => xs

def push (xs : List α) (x : α) : List α := siftUp key xs.length (xs ++ [x]) xs.length

theorem swap_some {i j : ℕ} {a b : α} (ha : xs[i]? = some a) (hb : xs[j]? = some b) :
    swap xs i j = (xs.set i b).set j a := by
  simp only [swap, ha, hb]

theorem swap_perm (xs : List α) (i j : ℕ) : (swap xs i j).Perm xs := by
  unfold swap
  split
  · next a b ha hb =>
    obtain ⟨hi, rfl⟩ := List.getElem?_eq_some_iff.mp ha
    obtain ⟨hj, rfl⟩ := List.getElem?_eq_some_iff.mp hb
    exact set_set_perm hi hj
  · exact List.Perm.refl xs

theorem siftUp_perm (fuel : ℕ) (xs : List α) (i : ℕ) : (siftUp key fuel xs i).Perm xs := by
  induction fuel generalizing xs i with
  | zero => exact List.Perm.refl xs
  | succ fuel ih =>
    rw [siftUp]
    split
    · exact List.Perm.refl xs
    split
    · split
      · exact List.Perm.refl xs
      · exact (ih _ _).trans (swap_perm xs _ _)
    · exact List.Perm.refl xs

theorem push_perm (xs : List α) (x : α) : (push key xs x).Perm (x :: xs) :=
  (siftUp_perm key _ _ _).trans (perm_append_singleton x xs)

def Ordered (xs : List α) : Prop :=
  ∀ i p x, 0 < i → xs[parent i]? = some p → xs[i]? = some x → key p ≤ key x

instance (xs : List α) : Decidable (Ordered key xs) :=
  decidable_of_iff (∀ i < xs.length, 0 < i → ∀ p ∈ xs[parent i]?, ∀ x ∈ xs[i]?, key p ≤ key x)
    ⟨fun h i p x hi hp hx => h i (List.getElem?_eq_some_iff.mp hx).1 hi p hp x hx,
      fun h i _ hi p hp x hx => h i p x hi hp hx⟩

/-- In order but for the element at `i`, which may be smaller than its parent. -/
structure OrderedBelow (xs : List α) (i : ℕ) : Prop where
  others : ∀ k p x, 0 < k → k ≠ i → xs[parent k]? = some p → xs[k]? = some x → key p ≤ key x
  children : ∀ k p x, 0 < i → 0 < k → parent k = i → xs[parent i]? = some p → xs[k]? = some x →
    key p ≤ key x

variable {key}

theorem OrderedBelow.ordered (h : OrderedBelow key xs i)
    (hi : ∀ p x, 0 < i → xs[parent i]? = some p → xs[i]? = some x → key p ≤ key x) :
    Ordered key xs := by
  intro k p x hk hp hx
  by_cases hki : k = i
  · subst hki
    exact hi p x hk hp hx
  · exact h.others k p x hk hki hp hx

theorem OrderedBelow.swap (h : OrderedBelow key xs i) (hi : 0 < i) {p x : α}
    (hp : xs[parent i]? = some p) (hx : xs[i]? = some x) (hlt : key x < key p) :
    OrderedBelow key (swap xs (parent i) i) (parent i) := by
  have hpa := parent_lt hi
  obtain ⟨hilt, -⟩ := List.getElem?_eq_some_iff.mp hx
  have hget : ∀ k, (BinaryHeap.swap xs (parent i) i)[k]? =
      if k = i then some p else if k = parent i then some x else xs[k]? := by
    intro k
    rw [swap_some hp hx, getElem?_set, getElem?_set, length_set]
    by_cases hk : k = i
    · simp [hk, hilt]
    by_cases hk' : k = parent i
    · subst hk'
      simp [hk, Ne.symm hk, hpa.trans hilt]
    · simp [Ne.symm hk, Ne.symm hk', hk, hk']
  constructor
  · intro k q y hk hne hq hy
    rw [hget] at hq hy
    by_cases hki : k = i
    · subst hki
      rw [if_neg (by omega), if_pos rfl, some.injEq] at hq
      rw [if_pos rfl, some.injEq] at hy
      rw [← hq, ← hy]
      omega
    · rw [if_neg hki, if_neg hne] at hy
      by_cases hki' : parent k = i
      · rw [if_pos hki', some.injEq] at hq
        rw [← hq]
        exact h.children k p y hi hk hki' hp hy
      rw [if_neg hki'] at hq
      by_cases hs : parent k = parent i
      · rw [if_pos hs, some.injEq] at hq
        rw [← hs] at hp
        have := h.others k p y hk hki hp hy
        rw [← hq]
        omega
      · rw [if_neg hs] at hq
        exact h.others k q y hk hki hq hy
  · intro k q y hpos hk hkp hq hy
    have hgr := parent_lt hpos
    rw [hget, if_neg (by omega), if_neg (by omega)] at hq
    have hup := h.others (parent i) q p hpos (by omega) hq hp
    rw [hget] at hy
    by_cases hki : k = i
    · rw [if_pos hki, some.injEq] at hy
      rw [← hy]
      exact hup
    have hkgt := parent_lt hk
    rw [if_neg hki, if_neg (by omega)] at hy
    rw [← hkp] at hp
    exact hup.trans (h.others k p y hk hki hp hy)

theorem siftUp_ordered (fuel : ℕ) (xs : List α) (i : ℕ) (hf : i ≤ fuel)
    (h : OrderedBelow key xs i) : Ordered key (siftUp key fuel xs i) := by
  induction fuel generalizing xs i with
  | zero =>
    obtain rfl : i = 0 := by omega
    exact h.ordered fun p x hi => absurd hi (Nat.lt_irrefl 0)
  | succ fuel ih =>
    rw [siftUp]
    split
    · next hi =>
      subst hi
      exact h.ordered fun p x hi => absurd hi (Nat.lt_irrefl 0)
    · next hi =>
      have hpos : 0 < i := Nat.pos_of_ne_zero hi
      split
      · next p x hp hx =>
        split
        · next hle =>
          refine h.ordered fun p' x' _ hp' hx' => ?_
          rw [hp, some.injEq] at hp'
          rw [hx, some.injEq] at hx'
          rwa [← hp', ← hx']
        · next hgt =>
          have := parent_lt hpos
          exact ih _ _ (by omega) (h.swap hpos hp hx (by omega))
      · next hn => exact h.ordered fun p x _ hp hx => absurd hx (hn p x hp)

theorem push_ordered (h : Ordered key xs) (x : α) : Ordered key (push key xs x) := by
  refine siftUp_ordered _ _ _ (Nat.le_refl _) ⟨?_, ?_⟩
  · intro k p y hk hne hp hy
    have hlt : k < (xs ++ [x]).length := (List.getElem?_eq_some_iff.mp hy).1
    rw [length_append, length_singleton] at hlt
    have := parent_lt hk
    rw [getElem?_append_left (by omega)] at hp hy
    exact h k p y hk hp hy
  · intro k p y _ hk hpa _ hy
    have hlt : k < (xs ++ [x]).length := (List.getElem?_eq_some_iff.mp hy).1
    rw [length_append, length_singleton] at hlt
    have := parent_lt hk
    omega

theorem Ordered.root_le (h : Ordered key xs) {root : α} (hr : xs[0]? = some root)
    (i : ℕ) (x : α) (hx : xs[i]? = some x) : key root ≤ key x := by
  induction i using Nat.strongRecOn generalizing x with
  | ind i ih =>
    by_cases hi : i = 0
    · subst hi
      rw [hr, some.injEq] at hx
      rw [hx]
    have hpa := parent_lt (Nat.pos_of_ne_zero hi)
    obtain ⟨hlt, -⟩ := List.getElem?_eq_some_iff.mp hx
    have hp := getElem?_eq_getElem (hpa.trans hlt)
    exact (ih _ hpa _ hp).trans (h i _ x (Nat.pos_of_ne_zero hi) hp hx)

theorem Ordered.head_le {root : α} (h : Ordered key (root :: xs)) {x : α}
    (hx : x ∈ root :: xs) : key root ≤ key x := by
  obtain ⟨i, hi⟩ := mem_iff_getElem?.mp hx
  exact h.root_le rfl i x hi

end MichCore.BinaryHeap
