import Mathlib.Tactic

/-!
# CRC-32C

`crc32c_software` of `fs/crc32c.c`. The hardware path uses the instruction that
computes the same reflected Castagnoli polynomial.
-/
namespace MichCore

def crcBit (crc : UInt32) : UInt32 :=
  if crc &&& 1 ≠ 0 then (crc >>> 1) ^^^ 0x82F63B78 else crc >>> 1

def crcByte (crc : UInt32) (byte : UInt8) : UInt32 :=
  crcBit (crcBit (crcBit (crcBit (crcBit (crcBit (crcBit (crcBit (crc ^^^ byte.toUInt32))))))))

def crcFrom (p : ℕ → UInt8) : ℕ → ℕ → UInt32 → UInt32
  | _, 0, crc => crc
  | index, n + 1, crc => crcFrom p (index + 1) n (crcByte crc (p index))

/-- Checksum of the first `length` bytes of `p`. -/
def crc32c (p : ℕ → UInt8) (length : ℕ) : UInt32 := crcFrom p 0 length 0xFFFFFFFF ^^^ 0xFFFFFFFF

theorem crcFrom_congr {p q : ℕ → UInt8} (index n : ℕ) (crc : UInt32)
    (h : ∀ j, index ≤ j → j < index + n → p j = q j) :
    crcFrom p index n crc = crcFrom q index n crc := by
  induction n generalizing index crc with
  | zero => rfl
  | succ n ih =>
    rw [crcFrom, crcFrom, h index le_rfl (by omega)]
    exact ih (index + 1) _ (fun j hj hlt => h j (by omega) (by omega))

theorem crc32c_congr {p q : ℕ → UInt8} (length : ℕ) (h : ∀ j < length, p j = q j) :
    crc32c p length = crc32c q length := by
  rw [crc32c, crc32c, crcFrom_congr 0 length _ (fun j _ hj => h j (by omega))]

end MichCore
