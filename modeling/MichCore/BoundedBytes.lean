import Mathlib.Tactic

/-!
# Bytes behind a pointer and a length

A parser may read the bytes below its length, and a writer may write below its limit. An access
elsewhere is a fault, and a program is in bounds when it never faults, whatever the bytes are. A
loop with too little fuel faults as well, so a run without a fault ends.
-/
namespace MichCore.BoundedBytes

open List Function

inductive Fault where
  | read
  | write
  | fuel
  deriving DecidableEq, Repr

/-- The program ends without a fault, and what it returns has the property. -/
def Yields {α : Type} (x : Except Fault α) (Q : α → Prop) : Prop := ∃ a, x = .ok a ∧ Q a

section Yields

variable {α β : Type} {Q : β → Prop}

theorem Yields.ok {b : β} (h : Q b) : Yields (.ok b) Q := ⟨b, rfl, h⟩

theorem Yields.bind {x : Except Fault α} {f : α → Except Fault β} {P : α → Prop}
    (h : Yields x P) (hf : ∀ a, P a → Yields (f a) Q) : Yields (x >>= f) Q := by
  obtain ⟨a, rfl, ha⟩ := h
  exact hf a ha

theorem Yields.ite {p : Prop} [Decidable p] {x y : Except Fault β} (hx : p → Yields x Q)
    (hy : ¬ p → Yields y Q) : Yields (if p then x else y) Q := by
  by_cases hp : p
  · rw [if_pos hp]
    exact hx hp
  · rw [if_neg hp]
    exact hy hp

theorem Yields.unless {p : Prop} [Decidable p] {y : Except Fault β} {b : β} (hb : Q b)
    (hy : ¬ p → Yields y Q) : Yields (if p then .ok b else y) Q :=
  .ite (fun _ => .ok hb) hy

theorem Yields.of_eq {x : Except Fault β} (h : Yields x Q) {b : β} (hx : x = .ok b) : Q b := by
  obtain ⟨a, ha, hQ⟩ := h
  rw [hx] at ha
  cases ha
  exact hQ

end Yields

/-- The bytes at a pointer; those from `length` on belong to somebody else. -/
structure Buffer where
  byte : ℕ → UInt8
  length : ℕ

namespace Buffer

def ofList (bytes : List UInt8) : Buffer := ⟨fun i => bytes.getD i 0, bytes.length⟩

def read (b : Buffer) (i : ℕ) : Except Fault UInt8 :=
  if i < b.length then .ok (b.byte i) else .error .read

/-- A big-endian 16-bit word. -/
def be16 (b : Buffer) (i : ℕ) : Except Fault ℕ := do
  let high ← b.read i
  let low ← b.read (i + 1)
  return high.toNat * 256 + low.toNat

/-- A big-endian 32-bit word. -/
def be32 (b : Buffer) (i : ℕ) : Except Fault ℕ := do
  let high ← b.be16 i
  let low ← b.be16 (i + 2)
  return high * 65536 + low

/-- `n` bytes from `i` on. -/
def slice (b : Buffer) (i n : ℕ) : List UInt8 := (List.range n).map (fun k => b.byte (i + k))

/-- `n` reads, one after the other. -/
def readMany (b : Buffer) (i : ℕ) : ℕ → Except Fault (List UInt8)
  | 0 => .ok []
  | n + 1 => do
    let bytes ← b.readMany i n
    let last ← b.read (i + n)
    return bytes ++ [last]

/-- The bytes at a pointer into the buffer. -/
def sub (b : Buffer) (i n : ℕ) : Buffer := ⟨fun k => b.byte (i + k), n⟩

/-- The word that `be16` reads. -/
def word16 (b : Buffer) (i : ℕ) : ℕ := (b.byte i).toNat * 256 + (b.byte (i + 1)).toNat

/-- The word that `be32` reads. -/
def word32 (b : Buffer) (i : ℕ) : ℕ := b.word16 i * 65536 + b.word16 (i + 2)

variable {b : Buffer} {i : ℕ} {bytes : List UInt8} {value : UInt8}

theorem read_of_lt (h : i < b.length) : b.read i = .ok (b.byte i) :=
  if_pos h

theorem be16_of_lt (h : i + 1 < b.length) : b.be16 i = .ok (b.word16 i) := by
  rw [be16, read_of_lt (Nat.lt_of_succ_lt h), read_of_lt h]
  rfl

theorem be32_of_lt (h : i + 3 < b.length) : b.be32 i = .ok (b.word32 i) := by
  rw [be32, be16_of_lt (by omega), be16_of_lt h]
  rfl

theorem yields_read (h : i < b.length := by omega) :
    Yields (b.read i) (fun v => v = b.byte i) := ⟨_, read_of_lt h, rfl⟩

theorem yields_be16 (h : i + 1 < b.length := by omega) :
    Yields (b.be16 i) (fun v => v = b.word16 i) := ⟨_, be16_of_lt h, rfl⟩

theorem yields_be32 (h : i + 3 < b.length := by omega) :
    Yields (b.be32 i) (fun v => v = b.word32 i) := ⟨_, be32_of_lt h, rfl⟩

@[simp] theorem slice_length (b : Buffer) (i n : ℕ) : (b.slice i n).length = n := by
  simp [slice]

@[simp] theorem slice_zero (b : Buffer) (i : ℕ) : b.slice i 0 = [] := rfl

theorem slice_succ (b : Buffer) (i n : ℕ) :
    b.slice i (n + 1) = b.slice i n ++ [b.byte (i + n)] := by
  simp [slice, range_succ]

theorem slice_add (b : Buffer) (i n k : ℕ) :
    b.slice i (n + k) = b.slice i n ++ b.slice (i + n) k := by
  simp [slice, range_add, Nat.add_assoc]

theorem readMany_of_le : ∀ {n : ℕ}, i + n ≤ b.length → b.readMany i n = .ok (b.slice i n)
  | 0, _ => rfl
  | n + 1, h => by
    rw [readMany, readMany_of_le (by omega), read_of_lt (by omega), slice_succ]
    rfl 

theorem slice_getElem (b : Buffer) (i n k : ℕ) (h : k < (b.slice i n).length) :
    (b.slice i n)[k] = b.byte (i + k) := by
  simp [slice]

/-- A loop that takes `step` bytes at a time: what every turn keeps holds where it stops, with
fewer than `step` bytes left. -/
theorem loop_stops {σ : Type*} {step : ℕ} (hst : 0 < step)
    {f : σ → ℕ → ℕ → Except Fault (σ × ℕ × ℕ)} (next : σ → ℕ → σ) (P : σ → ℕ → ℕ → Prop)
    (ht : ∀ s i n, i + (step + n) ≤ b.length → P s i (step + n) →
      f s i (step + n) = f (next s i) (i + step) n ∧ P (next s i) (i + step) n)
    (hend : ∀ s i length, length < step → f s i length = .ok (s, i, length)) (s : σ) (i length : ℕ)
    (hi : i + length ≤ b.length) (h : P s i length) :
    ∃ s' i' length', f s i length = .ok (s', i', length') ∧ i' + length' = i + length ∧
      length' < step ∧ P s' i' length' := by
  induction length using Nat.strong_induction_on generalizing s i with
  | _ length ih =>
    by_cases hl : length < step
    · exact ⟨s, i, length, hend s i length hl, rfl, hl, h⟩
    obtain ⟨n, rfl⟩ := Nat.exists_eq_add_of_le (Nat.le_of_not_lt hl)
    obtain ⟨hrun, hn⟩ := ht s i n hi h
    obtain ⟨s', i', length', hre, hp, hsm, hP⟩ :=
      ih n (by omega) (next s i) (i + step) (by omega) hn
    exact ⟨s', i', length', hrun.trans hre, by omega, hsm, hP⟩

/-- These bytes are in the buffer from `i` on. -/
def HasAt (b : Buffer) (i : ℕ) (bytes : List UInt8) : Prop :=
  i + bytes.length ≤ b.length ∧ ∀ k (h : k < bytes.length), b.byte (i + k) = bytes[k]

theorem ofList_hasAt (front bytes back : List UInt8) :
    (ofList (front ++ bytes ++ back)).HasAt front.length bytes := by
  refine ⟨by simp [ofList], fun k hk => ?_⟩
  change (front ++ bytes ++ back).getD (front.length + k) 0 = bytes[k]
  rw [append_assoc, getD_eq_getElem?_getD, getElem?_append_right (Nat.le_add_right _ _),
    Nat.add_sub_cancel_left, getElem?_append_left hk, getElem?_eq_getElem hk, Option.getD_some]

theorem HasAt.left {front back : List UInt8} (h : b.HasAt i (front ++ back)) : b.HasAt i front := by
  obtain ⟨hi, hb⟩ := h
  rw [length_append] at hi
  refine ⟨by omega, fun k hk => ?_⟩
  rw [hb k (by rw [length_append]; omega), getElem_append_left hk]

theorem HasAt.right {front back : List UInt8} (h : b.HasAt i (front ++ back)) :
    b.HasAt (i + front.length) back := by
  obtain ⟨hi, hb⟩ := h
  rw [length_append] at hi
  refine ⟨by omega, fun k hk => ?_⟩
  have hk' := hb (front.length + k) (by rw [length_append]; omega)
  rw [← Nat.add_assoc, getElem_append_right (Nat.le_add_right _ _)] at hk'
  simpa using hk'

section

variable (h : b.HasAt i (value :: bytes))
include h

theorem HasAt.head : i < b.length ∧ b.byte i = value := by
  have hh := h.2 0 (by simp)
  have hi := h.1
  rw [length_cons] at hi
  exact ⟨by omega, hh⟩

theorem HasAt.read : b.read i = .ok value := by
  rw [read_of_lt h.head.1, h.head.2]

theorem HasAt.tail : b.HasAt (i + 1) bytes :=
  HasAt.right (show b.HasAt i ([value] ++ bytes) from h)

end

theorem HasAt.slice (h : b.HasAt i bytes) : b.slice i bytes.length = bytes := by
  refine ext_getElem (by simp) fun k hk hk' => ?_
  rw [slice_getElem]
  exact h.2 k hk'

theorem HasAt.word16 {high low : UInt8} (h : b.HasAt i (high :: low :: bytes)) :
    b.word16 i = high.toNat * 256 + low.toNat := by
  rw [Buffer.word16, h.head.2, h.tail.head.2]

end Buffer

/-- Memory that a program writes to. -/
abbrev Memory := ℕ → UInt8

namespace Memory

/-- A write below the limit. -/
def write (t : Memory) (limit i : ℕ) (value : UInt8) : Except Fault Memory :=
  if i < limit then .ok (update t i value) else .error .write

variable {i limit : ℕ} {t : Memory} {bytes front : List UInt8}

theorem write_of_lt {value : UInt8} (h : i < limit) :
    t.write limit i value = .ok (update t i value) := if_pos h

/-- The bytes at `i`, in one piece. -/
def put (t : Memory) (i : ℕ) (bytes : List UInt8) : Memory :=
  fun k => if i ≤ k ∧ k < i + bytes.length then bytes.getD (k - i) 0 else t k

/-- The bytes at `i`, one write after the other. -/
def writeMany (t : Memory) (limit i : ℕ) : List UInt8 → Except Fault Memory
  | [] => .ok t
  | value :: bytes => do
    let t ← t.write limit i value
    t.writeMany limit (i + 1) bytes

@[simp] theorem put_nil (t : Memory) (i : ℕ) : t.put i [] = t := by
  funext k
  simp [put, show ¬ (i ≤ k ∧ k < i) by omega]

theorem put_cons (t : Memory) (i : ℕ) (value : UInt8) (bytes : List UInt8) :
    t.put i (value :: bytes) = put (update t i value) (i + 1) bytes := by
  funext k
  by_cases hk : k = i
  · simp [put, hk]
  by_cases hl : i + 1 ≤ k ∧ k < i + 1 + bytes.length
  · obtain ⟨n, rfl⟩ : ∃ n, k = i + 1 + n := ⟨k - (i + 1), by omega⟩
    have hn : i + 1 + n - i = n + 1 := by omega
    simp [put, hl, hn, show i ≤ i + 1 + n ∧ i + 1 + n < i + (bytes.length + 1) by omega]
  · rw [put, put, length_cons, if_neg (by omega), if_neg hl, update_of_ne hk]

theorem put_append (t : Memory) (i : ℕ) (front back : List UInt8) :
    t.put i (front ++ back) = (t.put i front).put (i + front.length) back := by
  induction front generalizing t i with
  | nil => simp
  | cons value front ih =>
    rw [cons_append, put_cons, ih, put_cons, length_cons, Nat.add_assoc, Nat.add_comm 1]

theorem writeMany_of_le (h : i + bytes.length ≤ limit) :
    t.writeMany limit i bytes = .ok (t.put i bytes) := by
  induction bytes generalizing t i with
  | nil => rw [writeMany, put_nil]
  | cons value bytes ih =>
    rw [length_cons] at h
    rw [writeMany, write_of_lt (by omega), put_cons]
    exact ih (by omega)

/-- The memory starts with these bytes. -/
def Holds (t : Memory) (bytes : List UInt8) : Prop :=
  ∀ i (h : i < bytes.length), t i = bytes[i]

theorem holds_nil (t : Memory) : Holds t [] := fun i h => absurd h (Nat.not_lt_zero i)

theorem Holds.update (h : Holds t bytes) (value : UInt8) :
    Holds (update t bytes.length value) (bytes ++ [value]) := by
  intro i hi
  rw [length_append, length_singleton] at hi
  by_cases hla : i = bytes.length
  · subst hla
    simp
  · have hlt : i < bytes.length := by omega
    rw [update_of_ne hla, h i hlt, getElem_append_left hlt]

theorem Holds.put {old back : List UInt8} (h : Holds t (front ++ (old ++ back)))
    (hl : bytes.length = old.length) :
    Holds (t.put front.length bytes) (front ++ (bytes ++ back)) := by
  intro i hi
  simp only [length_append] at hi
  have hold := h i (by simp only [length_append]; omega)
  unfold Memory.put
  split
  · next hin =>
    obtain ⟨n, rfl⟩ := Nat.exists_eq_add_of_le hin.1
    rw [Nat.add_sub_cancel_left, getD_eq_getElem?_getD, getElem?_eq_getElem (by omega),
      Option.getD_some, getElem_append_right (Nat.le_add_right _ _), getElem_append_left (by omega)]
    simp only [Nat.add_sub_cancel_left]
  · next hou =>
    rw [hold]
    by_cases hf : i < front.length
    · rw [getElem_append_left hf, getElem_append_left hf]
    · rw [getElem_append_right (by omega), getElem_append_right (by omega),
        getElem_append_right (by omega), getElem_append_right (by omega)]
      simp only [hl]

theorem Holds.put_behind (h : Holds t front) (bytes : List UInt8) :
    Holds (t.put front.length bytes) (front ++ bytes) := by
  set old := (List.range bytes.length).map (fun k => t (front.length + k)) with hold
  have hl : bytes.length = old.length := by simp [hold]
  have hall : Holds t (front ++ (old ++ [])) := by
    intro i hi
    by_cases hf : i < front.length
    · rw [getElem_append_left hf]
      exact h i hf
    · obtain ⟨n, rfl⟩ := Nat.exists_eq_add_of_le (Nat.le_of_not_lt hf)
      simp [getElem_append_right, hold]
  have hput := hall.put hl
  rwa [append_nil] at hput

theorem holds_put_zero (t : Memory) (bytes : List UInt8) : Holds (t.put 0 bytes) bytes := by
  intro i hi
  rw [Memory.put, if_pos (by omega), Nat.sub_zero, getD_eq_getElem?_getD,
    getElem?_eq_getElem hi, Option.getD_some]

theorem yields_writeMany (front old back : List UInt8) (h : Holds t (front ++ (old ++ back)))
    (hl : bytes.length = old.length) (hr : front.length + bytes.length ≤ limit) :
    Yields (t.writeMany limit front.length bytes) (fun t' => Holds t' (front ++ (bytes ++ back))) :=
  ⟨_, writeMany_of_le hr, h.put hl⟩

theorem yields_field {n : ℕ} (h : Holds t (front ++ List.replicate (bytes.length + n) 0))
    (hi : i = front.length) (hr : i + bytes.length ≤ limit) : Yields (t.writeMany limit i bytes)
      (fun t' => Holds t' (front ++ bytes ++ List.replicate n 0)) := by
  subst hi
  rw [← replicate_append_replicate] at h
  rw [append_assoc]
  exact yields_writeMany front _ _ h (by rw [length_replicate]) hr

theorem Holds.hasAt (h : Holds t bytes) {length : ℕ} (hl : bytes.length ≤ length) :
    Buffer.HasAt ⟨t, length⟩ 0 bytes :=
  ⟨by simpa using hl, fun k hk => by rw [Nat.zero_add]; exact h k hk⟩

theorem Holds.left {back : List UInt8} (h : Holds t (front ++ back)) : Holds t front := by
  intro i hi
  rw [h i (by rw [length_append]; omega), getElem_append_left hi]

end Memory

end MichCore.BoundedBytes
