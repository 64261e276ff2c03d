import Mathlib.Data.List.Range
import Mathlib.Tactic

/-!
# Ring buffers

A ring of `n` cells holds a queue: `count` cells from `tail` on, going round. `put` and `take`
are the loops that store and fetch; `contents` is the queue.
-/
namespace MichCore

open List

structure RingBuffer (α : Type*) (n : ℕ) where
  cells : ℕ → α
  tail : ℕ
  count : ℕ

namespace RingBuffer

variable {α : Type*} {n : ℕ}

/-- Store a list cell by cell, from `head` on. -/
def store (n : ℕ) (cells : ℕ → α) (head : ℕ) : List α → ℕ → α
  | [] => cells
  | a :: rest => store n (Function.update cells head a) ((head + 1) % n) rest

/-- Fetch cells one by one, and the index after the last. -/
def fetch (n : ℕ) (cells : ℕ → α) (tail : ℕ) : ℕ → List α × ℕ
  | 0 => ([], tail)
  | k + 1 =>
    let rest := fetch n cells ((tail + 1) % n) k
    (cells tail :: rest.1, rest.2)

def put (r : RingBuffer α n) (source : List α) : RingBuffer α n :=
  { r with
    cells := store n r.cells ((r.tail + r.count) % n) source
    count := r.count + source.length }

def take (r : RingBuffer α n) (k : ℕ) : List α × RingBuffer α n :=
  ((fetch n r.cells r.tail k).1,
    { r with tail := (fetch n r.cells r.tail k).2, count := r.count - k })

/-- What the ring holds, oldest first. -/
def contents (r : RingBuffer α n) : List α :=
  (List.range r.count).map (fun i => r.cells ((r.tail + i) % n))

/-- The indices are in range. -/
structure Bounded (r : RingBuffer α n) : Prop where
  tail : r.tail < n
  count : r.count ≤ n

variable {r : RingBuffer α n} (cells : ℕ → α)

theorem fetch_eq {tail : ℕ} (ht : tail < n) (k : ℕ) :
    fetch n cells tail k =
      ((List.range k).map (fun i => cells ((tail + i) % n)), (tail + k) % n) := by
  induction k generalizing tail with
  | zero => simp [fetch, Nat.mod_eq_of_lt ht]
  | succ k ih =>
    have hs : ∀ i, ((tail + 1) % n + i) % n = (tail + (i + 1)) % n := by
      intro i
      rw [Nat.mod_add_mod, Nat.add_assoc, Nat.add_comm 1 i]
    rw [fetch, ih (Nat.mod_lt _ (Nat.zero_lt_of_lt ht))]
    simp only [hs, range_succ_eq_map, map_cons, map_map, Nat.add_zero, Nat.mod_eq_of_lt ht]
    rfl

theorem length_fetch (tail k : ℕ) : (fetch n cells tail k).1.length = k := by
  induction k generalizing tail with
  | zero => rfl
  | succ k ih => rw [fetch, length_cons, ih]

theorem store_of_ne {head j : ℕ} (source : List α)
    (hj : ∀ i < source.length, j ≠ (head + i) % n) (hh : head < n) :
    store n cells head source j = cells j := by
  induction source generalizing cells head with
  | nil => rfl
  | cons a rest ih =>
    have hne : j ≠ head := by
      have h := hj 0 (by simp)
      rwa [Nat.add_zero, Nat.mod_eq_of_lt hh] at h
    rw [store, ih, Function.update_of_ne hne]
    · intro i hi
      have h := hj (i + 1) (by simpa using hi)
      rwa [Nat.mod_add_mod, Nat.add_assoc, Nat.add_comm 1 i]
    · exact Nat.mod_lt _ (Nat.zero_lt_of_lt hh)

theorem add_mod_ne {head i j : ℕ} (hi : i < n) (hj : j < n) (hij : i ≠ j) :
    (head + i) % n ≠ (head + j) % n := by
  intro h
  have h' : i % n = j % n := Nat.ModEq.add_left_cancel' head h
  rw [Nat.mod_eq_of_lt hi, Nat.mod_eq_of_lt hj] at h'
  exact hij h'

theorem store_get {head : ℕ} (source : List α) (hh : head < n)
    (hl : source.length ≤ n) {i : ℕ} (hi : i < source.length) :
    store n cells head source ((head + i) % n) = source[i] := by
  induction source generalizing cells head i with
  | nil => cases hi
  | cons a rest ih =>
    have hl' : rest.length < n := by simpa using hl
    have hn : (head + 1) % n < n := Nat.mod_lt _ (Nat.zero_lt_of_lt hh)
    rw [store]
    cases i with
    | zero =>
      rw [store_of_ne _ _ _ hn]
      · simp [Nat.mod_eq_of_lt hh]
      · intro j hj
        rw [Nat.mod_add_mod, Nat.add_assoc]
        exact add_mod_ne (Nat.zero_lt_of_lt hh) (by omega) (by omega)
    | succ i =>
      have hs : (head + (i + 1)) % n = ((head + 1) % n + i) % n := by
        rw [Nat.mod_add_mod, Nat.add_assoc, Nat.add_comm 1 i]
      rw [hs, ih _ hn hl'.le (by simpa using hi)]
      rfl

theorem Bounded.put (h : r.Bounded) {source : List α}
    (hfit : source.length ≤ n - r.count) : (r.put source).Bounded := by
  refine ⟨h.tail, ?_⟩
  have hcount := h.count
  show r.count + source.length ≤ n
  omega

theorem Bounded.take (h : r.Bounded) (k : ℕ) : (r.take k).2.Bounded := by
  constructor
  · show (fetch n r.cells r.tail k).2 < n
    rw [fetch_eq _ h.tail]
    exact Nat.mod_lt _ (Nat.zero_lt_of_lt h.tail)
  · exact (Nat.sub_le _ _).trans h.count

theorem Bounded.contents_put (h : r.Bounded) {source : List α}
    (hfit : source.length ≤ n - r.count) : (r.put source).contents = r.contents ++ source := by
  have hn : 0 < n := Nat.zero_lt_of_lt h.tail
  have hh : (r.tail + r.count) % n < n := Nat.mod_lt _ hn
  have hcount := h.count
  apply ext_getElem
  · simp [contents, RingBuffer.put]
  intro i hi _
  simp only [contents, RingBuffer.put, length_map, length_range] at hi
  simp only [contents, RingBuffer.put, getElem_map, getElem_range]
  by_cases hold : i < r.count
  · rw [getElem_append_left (by simpa using hold), store_of_ne _ _ _ hh]
    · simp
    · intro j hj
      rw [Nat.mod_add_mod, Nat.add_assoc]
      exact add_mod_ne (by omega) (by omega) (by omega)
  · rw [getElem_append_right (by simpa using Nat.le_of_not_lt hold)]
    have hin : (r.tail + i) % n = ((r.tail + r.count) % n + (i - r.count)) % n := by
      rw [Nat.mod_add_mod, Nat.add_assoc, Nat.add_sub_cancel' (Nat.le_of_not_lt hold)]
    rw [hin, store_get _ _ hh (by omega) (by omega)]
    simp

theorem Bounded.contents_take (h : r.Bounded) {k : ℕ} (hk : k ≤ r.count) :
    (r.take k).1 ++ (r.take k).2.contents = r.contents := by
  simp only [RingBuffer.take, contents, fetch_eq _ h.tail]
  have hs : r.count = k + (r.count - k) := (Nat.add_sub_cancel' hk).symm
  conv_rhs => rw [hs, range_add, map_append, map_map]
  congr 1
  apply map_congr_left
  intro i _
  simp only [Function.comp, Nat.mod_add_mod, Nat.add_assoc]

end RingBuffer

end MichCore
