import Mathlib.Tactic

/-!
# 32-bit serial numbers

`wordAt base n` is the word of the `n`-th count from `base`; two counts share a word when they
differ by a multiple of `2^32`.
-/
namespace MichCore.SerialNumber

def wordAt (base : UInt32) (n : ℤ) : UInt32 := base + UInt32.ofInt n

theorem toNat_ofInt (n : ℤ) : ((UInt32.ofInt n).toNat : ℤ) = n % 2 ^ 32 := by
  simp only [UInt32.ofInt, UInt32.toNat_ofNat']
  omega

theorem ofNat_eq_ofInt (n : ℕ) : UInt32.ofNat n = UInt32.ofInt n := by
  have h := toNat_ofInt n
  rw [← UInt32.toNat_inj]
  simp only [UInt32.toNat_ofNat']
  omega

section

variable (base : UInt32)

theorem wordAt_zero : wordAt base 0 = base := by
  change base + 0 = base
  exact UInt32.add_zero base

theorem wordAt_add (n : ℤ) (k : ℕ) : wordAt base n + UInt32.ofNat k = wordAt base (n + k) := by
  rw [ofNat_eq_ofInt, wordAt, wordAt, UInt32.ofInt_add, UInt32.add_assoc]

theorem wordAt_sub_ofNat (n : ℤ) (k : ℕ) :
    wordAt base (n + k) - UInt32.ofNat k = wordAt base n := by
  rw [← wordAt_add]
  grind

theorem wordAt_sub (n m : ℤ) : ((wordAt base n - wordAt base m).toNat : ℤ) = (n - m) % 2 ^ 32 := by
  have hsp : UInt32.ofInt n = UInt32.ofInt (n - m) + UInt32.ofInt m := by
    rw [← UInt32.ofInt_add, sub_add_cancel]
  have hsub : wordAt base n - wordAt base m = UInt32.ofInt (n - m) := by
    unfold wordAt
    rw [hsp]
    grind
  rw [hsub, toNat_ofInt]

theorem wordAt_eq_iff (n m : ℤ) : wordAt base n = wordAt base m ↔ (n - m) % 2 ^ 32 = 0 := by
  have hsub := wordAt_sub base n m
  constructor
  · intro h
    rw [h, UInt32.sub_self] at hsub
    simpa using hsub.symm
  · intro h
    have hz : wordAt base n - wordAt base m = 0 := by
      rw [← UInt32.toNat_inj]
      simp only [UInt32.toNat_zero]
      omega
    grind

end

theorem sub_via (base a b : UInt32) :
    (a - b).toNat = ((a - base).toNat + 2 ^ 32 - (b - base).toNat) % 2 ^ 32 := by
  have hs : a - b = (a - base) - (b - base) := by grind
  have hlt := (b - base).toNat_lt
  rw [hs, UInt32.toNat_sub]
  omega

end MichCore.SerialNumber
