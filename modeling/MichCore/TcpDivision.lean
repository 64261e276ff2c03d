import MichCore.TcpCc

/-!
# The division of the bandwidth samples

`div64_by_32` against the quotient. Its remainder has 32 bits, so the low-word loop loses the bit
that a divisor above `2 ^ 31` shifts out, and the loop for a large quotient compares the remainder
with the divisor instead of with what it subtracts.
-/
namespace MichCore.Tcp.Bbr

open Nat (findGreatest)

/-- The remainder of the high-word loop when the bits from `i` on are all taken. -/
def remAt (n : UInt64) (d : UInt32) (i : ℕ) : ℕ := (n.toNat / 2 ^ 32 + d.toNat * 2 ^ i) % 2 ^ 32

variable {n : UInt64} {d rem : UInt32}

theorem divideHigh_of_lt (h : rem < d) (shift : ℕ) (res : UInt32) :
    divideHigh d shift rem res = res := by
  induction shift with
  | zero => rfl
  | succ shift ih => rw [divideHigh, if_neg (UInt32.not_le.mpr h), ih]

/-- A bit that is not taken ends the loop, as the remainder then stays below the divisor. -/
theorem divideHigh_eq {shift : ℕ} (hs : shift ≤ 32) (hrem : rem.toNat = remAt n d shift) :
    divideHigh d shift rem (.ofNat (2 ^ 32 - 2 ^ shift)) =
      .ofNat (2 ^ 32 - 2 ^ findGreatest (fun i => remAt n d i < d.toNat) shift) := by
  induction shift generalizing rem with
  | zero => rfl
  | succ shift ih =>
    rw [Nat.findGreatest_succ, ← hrem]
    split
    · next h => exact divideHigh_of_lt h _ _
    next h =>
    have hbit : ∀ s < 32, UInt32.ofNat (2 ^ 32 - 2 ^ (s + 1)) ||| 1 <<< UInt32.ofNat s =
        .ofNat (2 ^ 32 - 2 ^ s) := by decide
    rw [divideHigh, if_pos (UInt32.not_lt.mp h), hbit shift hs]
    apply ih (by omega)
    have hw : shift % 2 ^ 32 % 32 = shift := by omega
    have ht : d.toNat * 2 ^ (shift + 1) = 2 * (d.toNat * 2 ^ shift) := by ring
    simp only [UInt32.toNat_sub, UInt32.toNat_shiftLeft, UInt32.toNat_ofNat', hw,
      Nat.shiftLeft_eq, hrem, remAt, ht]
    omega

theorem shiftIn_toNat (w : UInt32) {b : UInt32} (hb : b.toNat < 2) :
    (w <<< 1 ||| b).toNat = (2 * w.toNat + b.toNat) % 2 ^ 32 := by
  have h : (w <<< 1).toNat = 2 ^ 1 * (w.toNat % 2 ^ 31) := by
    rw [UInt32.toNat_shiftLeft, Nat.shiftLeft_eq]
    change w.toNat * 2 ^ 1 % 2 ^ 32 = _
    omega
  rw [UInt32.toNat_or, h, ← Nat.two_pow_add_eq_or_of_lt hb]
  omega

theorem divideLow_succ {bits : ℕ} (h : bits < 32) (rem res : UInt32) :
    ∃ rem' res' q, divideLow n d (bits + 1) rem res = divideLow n d bits rem' res' ∧
      rem'.toNat + q * d.toNat = (2 * rem.toNat + n.toNat / 2 ^ bits % 2) % 2 ^ 32 ∧
      res'.toNat ≡ 2 * res.toNat + q [MOD 2 ^ 32] ∧ (q = 1 ∨ q = 0 ∧ rem' < d) := by
  have hbit : (n >>> UInt64.ofNat bits &&& 1).toUInt32.toNat = n.toNat / 2 ^ bits % 2 := by
    have hw : bits % 2 ^ 64 % 64 = bits := by omega
    simp only [UInt64.toNat_toUInt32, UInt64.toNat_and, UInt64.toNat_shiftRight,
      UInt64.toNat_ofNat', hw, Nat.shiftRight_eq_div_pow, UInt64.toNat_one, Nat.and_one_is_mod]
    omega
  have hrem := shiftIn_toNat rem (hbit.trans_lt (Nat.mod_lt _ two_pos))
  rw [hbit] at hrem
  rw [divideLow]
  split
  · next hle =>
    have hle' := UInt32.le_iff_toNat_le.mp hle
    refine ⟨_, _, 1, rfl, ?_, ?_, .inl rfl⟩
    · rw [UInt32.toNat_sub_of_le _ _ hle, hrem]
      omega
    · rw [shiftIn_toNat res (by decide)]
      exact Nat.mod_modEq _ _
  · next hlt =>
    refine ⟨_, _, 0, rfl, ?_, ?_, .inr ⟨rfl, UInt32.not_le.mp hlt⟩⟩
    · rw [hrem, zero_mul, add_zero]
    · rw [← UInt32.or_zero (a := res <<< 1), shiftIn_toNat res (by decide)]
      exact Nat.mod_modEq _ _

/-- The bits found before stay in front of the ones still to come. -/
theorem divideLow_modEq {bits : ℕ} (h : bits ≤ 32) (rem res : UInt32) :
    ∃ low < 2 ^ bits, (divideLow n d bits rem res).toNat ≡
      res.toNat * 2 ^ bits + low [MOD 2 ^ 32] := by
  induction bits generalizing rem res with
  | zero => exact ⟨0, one_pos, by rw [divideLow, pow_zero, mul_one, add_zero]⟩
  | succ bits ih =>
    obtain ⟨rem', res', q, hrun, -, hres, hq⟩ := divideLow_succ (n := n) (d := d) h rem res
    obtain ⟨low, hlow, hmod⟩ := ih (by omega) rem' res'
    refine ⟨q * 2 ^ bits + low, ?_, ?_⟩
    · have : q * 2 ^ bits ≤ 1 * 2 ^ bits := Nat.mul_le_mul_right _ (by omega)
      omega
    · rw [hrun]
      convert hmod.trans ((hres.mul_right _).add_right low) using 1
      ring

theorem divideLow_iff {bits : ℕ} (rem res : UInt32) (h : bits ≤ 32) (hd : 0 < d.toNat)
    (hrem : rem.toNat = n.toNat / 2 ^ bits % d.toNat)
    (hres : res.toNat ≡ n.toNat / 2 ^ bits / d.toNat [MOD 2 ^ 32]) :
    (divideLow n d bits rem res).toNat ≡ n.toNat / d.toNat [MOD 2 ^ 32] ↔
      ∀ k, 1 ≤ k → k ≤ bits → n.toNat / 2 ^ k % d.toNat < 2 ^ 31 := by
  induction bits generalizing rem res with
  | zero =>
    rw [pow_zero, Nat.div_one] at hres
    exact iff_of_true hres fun k hk h₀ => absurd hk (by omega)
  | succ bits ih =>
    obtain ⟨rem', res', q, hrun, hrem', hres', hq⟩ := divideLow_succ (n := n) (d := d) h rem res
    have htop : n.toNat / 2 ^ bits = 2 * (n.toNat / 2 ^ (bits + 1)) + n.toNat / 2 ^ bits % 2 := by
      rw [pow_succ, ← Nat.div_div_eq_div_mul, Nat.div_add_mod]
    have hsum := Nat.mod_add_div (n.toNat / 2 ^ (bits + 1)) d.toNat
    have hlt := Nat.mod_lt (n.toNat / 2 ^ (bits + 1)) hd
    generalize n.toNat / 2 ^ (bits + 1) / d.toNat = a at hres hsum
    have hdig : ∀ q r, r + q * d.toNat = 2 * rem.toNat + n.toNat / 2 ^ bits % 2 → r < d.toNat →
        n.toNat / 2 ^ bits / d.toNat = 2 * a + q ∧ n.toNat / 2 ^ bits % d.toNat = r :=
      fun q r hr hlt => (Nat.div_mod_unique hd).mpr ⟨by linarith, hlt⟩
    have hn := hres'.trans ((hres.mul_left 2).add_right q)
    rw [hrun]
    by_cases hlos : rem.toNat < 2 ^ 31
    · -- no bit is shifted out of the remainder
      rw [Nat.mod_eq_of_lt (by omega)] at hrem'
      have hles : rem'.toNat < d.toNat := by
        rcases hq with rfl | ⟨-, hq⟩
        · omega
        · exact hq
      obtain ⟨hdiv, hmod⟩ := hdig q _ hrem' hles
      rw [ih rem' res' (by omega) hmod.symm (hdiv ▸ hn)]
      refine ⟨fun hall k hk hle => ?_, fun hall k hk hle => hall k hk (by omega)⟩
      rcases Nat.le_succ_iff.mp hle with hle | rfl
      · exact hall k hk hle
      · exact hrem ▸ hlos
    · -- the bit shifted out leaves a small remainder, and the quotient misses this bit
      have hw := d.toNat_lt
      obtain rfl : q = 0 := by
        rcases hq with rfl | ⟨hq, -⟩
        · omega
        · exact hq
      have hone := (hdig 1 (2 * rem.toNat + n.toNat / 2 ^ bits % 2 - d.toNat) (by omega)
        (by omega)).1
      have hqu : n.toNat / d.toNat =
          (2 * a + 0) * 2 ^ bits + (2 ^ bits + n.toNat / d.toNat % 2 ^ bits) := by
        rw [← Nat.div_add_mod (n.toNat / d.toNat) (2 ^ bits), Nat.div_div_eq_div_mul,
          mul_comm d.toNat, ← Nat.div_div_eq_div_mul, hone, Nat.mul_add_mod, Nat.mod_mod]
        ring
      obtain ⟨low, hlow, hmod⟩ := divideLow_modEq (n := n) (d := d) (by omega : bits ≤ 32) rem' res'
      refine iff_of_false (fun heq => ?_) fun hall => hlos (hrem ▸ hall _ (by omega) le_rfl)
      have hb := (heq.symm.trans hmod).trans ((hn.mul_right _).add_right low)
      rw [hqu] at hb
      have hle : (2 : ℕ) ^ (bits + 1) ≤ 2 ^ 32 := Nat.pow_le_pow_right two_pos h
      have := Nat.mod_lt (n.toNat / d.toNat) (Nat.two_pow_pos bits)
      have := (Nat.ModEq.add_left_cancel' _ hb).eq_of_lt_of_lt (by omega) (by omega)
      omega

/-- The quotient, exactly when the high word is below the divisor and no partial remainder has a
bit to lose, or when it ends in ones and `j` zeros and the remainder first falls below the divisor
at bit `j`. -/
theorem div64By32_eq_iff (n : UInt64) (d : UInt32) :
    ((div64By32 n d).toNat = n.toNat / d.toNat % 2 ^ 32 ∧
      (n.toNat / d.toNat < 2 ^ 32 → (div64By32 n d).toNat = n.toNat / d.toNat)) ↔
    if n.toNat / 2 ^ 32 < d.toNat then ∀ k, 1 ≤ k → k ≤ 32 → n.toNat / 2 ^ k % d.toNat < 2 ^ 31
    else ∃ j < 32, 2 ^ 32 ∣ n.toNat / d.toNat + 2 ^ j ∧ (j ≠ 0 → remAt n d j < d.toNat) ∧
      ∀ i, j < i → i < 32 → d.toNat ≤ remAt n d i := by
  have hh : (n >>> 32).toUInt32.toNat = n.toNat / 2 ^ 32 := by
    have := n.toNat_lt
    simp only [UInt64.toNat_toUInt32, UInt64.toNat_shiftRight, Nat.shiftRight_eq_div_pow]
    change n.toNat / 2 ^ 32 % 2 ^ 32 = _
    omega
  have hfits : (div64By32 n d).toNat = n.toNat / d.toNat % 2 ^ 32 →
      n.toNat / d.toNat < 2 ^ 32 → (div64By32 n d).toNat = n.toNat / d.toNat :=
    fun heq hlt => heq.trans (Nat.mod_eq_of_lt hlt)
  rw [and_iff_left_of_imp hfits, div64By32]
  simp only [UInt32.le_iff_toNat_le, hh]
  by_cases hlt : n.toNat / 2 ^ 32 < d.toNat
  · rw [if_pos hlt, if_neg (Nat.not_le.mpr hlt),
      ← divideLow_iff (n >>> 32).toUInt32 0 le_rfl (by omega)
      (by rw [hh, Nat.mod_eq_of_lt hlt]) (by rw [Nat.div_eq_of_lt hlt]; rfl), Nat.ModEq,
      Nat.mod_eq_of_lt (UInt32.toNat_lt _)]
  · have hs : (n >>> 32).toUInt32.toNat = remAt n d 32 := by
      have := n.toNat_lt
      rw [hh, remAt, Nat.add_mul_mod_self_right, Nat.mod_eq_of_lt (by omega)]
    have hw : (0 : UInt32) = .ofNat (2 ^ 32 - 2 ^ 32) := by decide
    rw [if_neg hlt, if_pos (Nat.not_lt.mp hlt), hw, divideHigh_eq le_rfl hs,
      UInt32.toNat_ofNat', Nat.mod_eq_of_lt (Nat.sub_lt (by positivity) (pow_pos two_pos _))]
    -- The first remainder is the high word itself.
    have hfir : ¬ remAt n d 32 < d.toNat := by rwa [← hs, hh]
    have hd {j : ℕ} (hj : j < 32) : 2 ^ 32 - 2 ^ j = n.toNat / d.toNat % 2 ^ 32 ↔
        2 ^ 32 ∣ n.toNat / d.toNat + 2 ^ j := by
      have hle : (2 : ℕ) ^ j < 2 ^ 32 := Nat.pow_lt_pow_right one_lt_two hj
      have hpos := Nat.two_pow_pos j
      omega
    constructor
    · intro heq
      obtain ⟨hle, hb, hab⟩ := Nat.findGreatest_eq_iff.mp
        (rfl : findGreatest (fun i => remAt n d i < d.toNat) 32 = _)
      generalize findGreatest (fun i => remAt n d i < d.toNat) 32 = j at heq hle hb hab
      have hj : j < 32 := lt_of_le_of_ne hle fun h => hfir (h ▸ hb (by omega))
      exact ⟨j, hj, (hd hj).mp heq, hb,
        fun i hi hla => Nat.not_lt.mp (hab hi hla.le)⟩
    · rintro ⟨j, hj, hq, hb, hab⟩
      rw [Nat.findGreatest_eq_iff.mpr ⟨hj.le, hb, fun i hi hla => ?_⟩]
      · exact (hd hj).mpr hq
      · rcases Nat.lt_or_eq_of_le hla with hla | rfl
        · exact Nat.not_lt.mpr (hab i hi hla)
        · exact hfir

/-- The quotient is `2 ^ 32`, the result `2 ^ 32 - 1`. -/
theorem div64By32_wrong : (div64By32 0x100000000 1).toNat ≠ 2 ^ 32 / 1 % 2 ^ 32 := by
  decide

end MichCore.Tcp.Bbr
