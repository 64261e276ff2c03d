import Mathlib.Tactic

/-!
# Fixed-size byte images and their little-endian fields

Reads past the end of an image give zero and writes past it are dropped. A record is a table of
fields, each with offset, width and value; pairwise disjoint fields read back.
-/
namespace MichCore

def Image (n : ℕ) := Fin n → UInt8

/-- Little-endian number of `width` bytes of `p` from offset `at`. -/
def readLe (p : ℕ → UInt8) : ℕ → ℕ → ℕ
  | _, 0 => 0
  | offset, width + 1 => (p offset).toNat + 256 * readLe p (offset + 1) width

theorem readLe_congr {p q : ℕ → UInt8} (offset width : ℕ)
    (h : ∀ j, offset ≤ j → j < offset + width → p j = q j) :
    readLe p offset width = readLe q offset width := by
  induction width generalizing offset with
  | zero => rfl
  | succ w ih =>
    rw [readLe, readLe, h offset le_rfl (by omega),
      ih (offset + 1) (fun j hj hlt => h j (by omega) (by omega))]

theorem readLe_bytes (v offset width : ℕ) :
    readLe (fun j => UInt8.ofNat (v / 256 ^ (j - offset))) offset width = v % 256 ^ width := by
  induction width generalizing v offset with
  | zero => simp [readLe, Nat.mod_one]
  | succ w ih =>
    have hs : readLe (fun j => UInt8.ofNat (v / 256 ^ (j - offset))) (offset + 1) w =
        readLe (fun j => UInt8.ofNat (v / 256 / 256 ^ (j - (offset + 1)))) (offset + 1) w := by
      apply readLe_congr
      intro j hj _
      rw [Nat.div_div_eq_div_mul, ← pow_succ', show j - (offset + 1) + 1 = j - offset by omega]
    rw [readLe, hs, ih, pow_succ, Nat.mul_comm (256 ^ w), Nat.mod_mul]
    simp

/-- Offset, width in bytes and value of one field of a record. -/
structure Field where
  offset : ℕ
  width : ℕ
  value : ℕ

namespace Field

def Covers (f : Field) (base j : ℕ) : Prop := base + f.offset ≤ j ∧ j < base + f.offset + f.width

def Disjoint (f g : Field) : Prop :=
  f.offset + f.width ≤ g.offset ∨ g.offset + g.width ≤ f.offset

/-- Place of a field, without its value. -/
def span (f : Field) : ℕ × ℕ := (f.offset, f.width)

theorem pairwise_disjoint {fields : List Field} (layout : List (ℕ × ℕ))
    (h : fields.map span = layout)
    (hd : layout.Pairwise (fun a b => a.1 + a.2 ≤ b.1 ∨ b.1 + b.2 ≤ a.1)) :
    fields.Pairwise Field.Disjoint := by
  subst h
  exact (List.pairwise_map (f := span)).mp hd

end Field

namespace Image
variable {n : ℕ}

def byte (b : Image n) (i : ℕ) : UInt8 := if h : i < n then b ⟨i, h⟩ else 0

def zero : Image n := fun _ => 0

/-- Replace the bytes of `[offset, offset + width)` by those of `src`. -/
def patch (b : Image n) (offset width : ℕ) (src : ℕ → UInt8) : Image n := fun j =>
  if offset ≤ j.val ∧ j.val < offset + width then src (j.val - offset) else b j

def setByte (b : Image n) (i : ℕ) (v : UInt8) : Image n := b.patch i 1 (fun _ => v)

def writeLe (b : Image n) (offset width v : ℕ) : Image n :=
  b.patch offset width (fun k => UInt8.ofNat (v / 256 ^ k))

/-- Write the fields of a record one after the other, relative to `base`. -/
def writeFields (b : Image n) (base : ℕ) (fields : List Field) : Image n :=
  fields.foldl (fun b f => b.writeLe (base + f.offset) f.width f.value) b

theorem ext_byte {a b : Image n} (h : ∀ i, i < n → a.byte i = b.byte i) : a = b := by
  funext i
  have hi := h i.val i.isLt
  simpa [byte, i.isLt] using hi

@[simp] theorem byte_zero (i : ℕ) : (zero : Image n).byte i = 0 := by
  unfold byte zero
  split <;> rfl

variable (b : Image n) (src : ℕ → UInt8)

theorem byte_patch (offset width : ℕ) (src : ℕ → UInt8) (j : ℕ) :
    (b.patch offset width src).byte j =
      if offset ≤ j ∧ j < offset + width ∧ j < n then src (j - offset) else b.byte j := by
  by_cases hj : j < n
  · simp only [byte, patch, hj, dif_pos, and_true]
  · simp only [byte, hj, dif_neg, not_false_iff, and_false, if_false]

variable {offset width i : ℕ}

theorem byte_patch_of_mem {j : ℕ} (h1 : offset ≤ j)
    (h2 : j < offset + width) (hn : offset + width ≤ n) :
    (b.patch offset width src).byte j = src (j - offset) := by
  rw [byte_patch, if_pos (by omega)]

theorem byte_patch_of_not_mem {j : ℕ}
    (h : j < offset ∨ offset + width ≤ j) : (b.patch offset width src).byte j = b.byte j := by
  rw [byte_patch, if_neg (by omega)]

theorem readLe_patch_of_disjoint {o w : ℕ} (h : o + w ≤ offset ∨ offset + width ≤ o) :
    readLe (b.patch offset width src).byte o w = readLe b.byte o w := by
  apply readLe_congr
  intro j hj hlt
  exact byte_patch_of_not_mem b src (by omega)

theorem readLe_writeLe (v : ℕ) (hn : offset + width ≤ n) :
    readLe (b.writeLe offset width v).byte offset width = v % 256 ^ width := by
  rw [← readLe_bytes v offset width]
  apply readLe_congr
  intro j hj hlt
  exact byte_patch_of_mem b _ hj hlt hn

theorem readLe_writeLe_of_disjoint (v : ℕ) {o w : ℕ} (h : o + w ≤ offset ∨ offset + width ≤ o) :
    readLe (b.writeLe offset width v).byte o w = readLe b.byte o w :=
  readLe_patch_of_disjoint b _ h

variable (base : ℕ)

theorem byte_writeFields_of_not_covered (fields : List Field) (j : ℕ)
    (h : ∀ f ∈ fields, ¬ f.Covers base j) : (b.writeFields base fields).byte j = b.byte j := by
  induction fields generalizing b with
  | nil => rfl
  | cons f fs ih =>
    have hf := h f List.mem_cons_self
    change ((b.writeLe (base + f.offset) f.width f.value).writeFields base fs).byte j = _
    rw [ih _ (fun g hg => h g (List.mem_cons_of_mem f hg))]
    apply byte_patch_of_not_mem
    simp only [Field.Covers] at hf
    omega

theorem readLe_writeFields_of_disjoint (fields : List Field) (g : Field)
    (h : ∀ f ∈ fields, g.Disjoint f) :
    readLe (b.writeFields base fields).byte (base + g.offset) g.width =
      readLe b.byte (base + g.offset) g.width := by
  apply readLe_congr
  intro j hj hlt
  apply byte_writeFields_of_not_covered
  intro f hf hc
  have hd := h f hf
  simp only [Field.Disjoint, Field.Covers] at hd hc
  omega

theorem readLe_writeFields (fields : List Field) (hd : fields.Pairwise Field.Disjoint) {g : Field}
    (hg : g ∈ fields) (hn : base + g.offset + g.width ≤ n) :
    readLe (b.writeFields base fields).byte (base + g.offset) g.width =
      g.value % 256 ^ g.width := by
  induction fields generalizing b with
  | nil => simp at hg
  | cons f fs ih =>
    rw [List.pairwise_cons] at hd
    change readLe ((b.writeLe (base + f.offset) f.width f.value).writeFields base fs).byte _ _ = _
    rcases List.mem_cons.mp hg with rfl | hmem
    · rw [readLe_writeFields_of_disjoint _ _ _ _ hd.1]
      exact readLe_writeLe b g.value hn
    · exact ih _ hd.2 hmem

/-! Single bits, counted from the low bit of byte 0. -/

def testBit (b : Image n) (i : ℕ) : Bool := (b.byte (i / 8)).toNat.testBit (i % 8)

def setBit (b : Image n) (i : ℕ) : Image n :=
  b.setByte (i / 8) (UInt8.ofNat ((b.byte (i / 8)).toNat ||| 2 ^ (i % 8)))

def clearBit (b : Image n) (i : ℕ) : Image n :=
  b.setByte (i / 8) (UInt8.ofNat ((b.byte (i / 8)).toNat &&& (2 ^ 8 - 1 ^^^ 2 ^ (i % 8))))

theorem byte_setByte (i : ℕ) (v : UInt8) (hi : i < n) (j : ℕ) :
    (b.setByte i v).byte j = if j = i then v else b.byte j := by
  by_cases h : j = i
  · rw [if_pos h, setByte, byte_patch_of_mem _ _ (by omega) (by omega) (by omega)]
  · rw [if_neg h, setByte, byte_patch_of_not_mem _ _ (by omega)]

theorem testBit_setByte (hi : i < 8 * n) (v : ℕ) (x : Bool)
    (hv : ∀ k < 8, v.testBit k = if k = i % 8 then x else (b.byte (i / 8)).toNat.testBit k)
    (j : ℕ) :
    (b.setByte (i / 8) (UInt8.ofNat v)).testBit j = if j = i then x else b.testBit j := by
  rw [testBit, byte_setByte _ _ _ (by omega)]
  split
  · next hj =>
    rw [UInt8.toNat_ofNat', Nat.testBit_mod_two_pow, hv _ (by omega), testBit, hj]
    by_cases h : j = i
    · simp [h]
      omega
    · rw [if_neg h, if_neg (by omega)]
      simp
      omega
  · next hj =>
    rw [if_neg (by rintro rfl; exact hj rfl), testBit]

theorem testBit_setBit (hi : i < 8 * n) (j : ℕ) :
    (b.setBit i).testBit j = if j = i then true else b.testBit j := by
  apply testBit_setByte b hi
  intro k _
  rw [Nat.testBit_or, Nat.testBit_two_pow]
  by_cases h : k = i % 8
  · simp [h]
  · simp [h, Ne.symm h]

theorem testBit_clearBit (hi : i < 8 * n) (j : ℕ) :
    (b.clearBit i).testBit j = if j = i then false else b.testBit j := by
  apply testBit_setByte b hi
  intro k hk
  rw [Nat.testBit_and, Nat.testBit_xor, Nat.testBit_two_pow, Nat.testBit_two_pow_sub_one]
  by_cases h : k = i % 8
  · subst h
    simp [hk]
  · simp [h, hk, Ne.symm h]

@[simp] theorem testBit_zero (i : ℕ) : (zero : Image n).testBit i = false := by
  simp [testBit]

end Image

/-! Reads of the widths that occur in records, and the values that read back. -/

def readLe16 (p : ℕ → UInt8) (offset : ℕ) : UInt16 := UInt16.ofNat (readLe p offset 2)
def readLe32 (p : ℕ → UInt8) (offset : ℕ) : UInt32 := UInt32.ofNat (readLe p offset 4)
def readLe64 (p : ℕ → UInt8) (offset : ℕ) : UInt64 := UInt64.ofNat (readLe p offset 8)

@[simp] theorem ofNat_toNat_mod16 (v : UInt16) : UInt16.ofNat (v.toNat % 256 ^ 2) = v := by
  rw [Nat.mod_eq_of_lt (by have := v.toNat_lt; omega)]; simp

@[simp] theorem ofNat_toNat_mod32 (v : UInt32) : UInt32.ofNat (v.toNat % 256 ^ 4) = v := by
  rw [Nat.mod_eq_of_lt (by have := v.toNat_lt; omega)]; simp

@[simp] theorem ofNat_toNat_mod64 (v : UInt64) : UInt64.ofNat (v.toNat % 256 ^ 8) = v := by
  rw [Nat.mod_eq_of_lt (by have := v.toNat_lt; omega)]; simp

end MichCore
