import MichCore.BoundedBytes

/-!
# The Internet checksum

`net/checksum.h`. The sum runs over big-endian pairs of bytes in a 32-bit accumulator: a vector
path takes 16 bytes at a time, a scalar path 8 and then 2, and an odd byte at the end counts as
the high byte of a pair. `sse2` says which path was compiled.

Whatever the path and however the bytes are cut at even offsets, the finished sum is the
Internet checksum as long as there are at most 65535 bytes.
-/
namespace MichCore.Net

open List
open BoundedBytes BoundedBytes.Buffer BoundedBytes.Memory

/-- The 16-bit words of the bytes; an odd byte is followed by a zero byte. -/
def words : List UInt8 → List ℕ
  | [] => []
  | [high] => [high.toNat * 256]
  | high :: low :: bytes => (high.toNat * 256 + low.toNat) :: words bytes

/-- `net_checksum_finish` -/
def checksumFinish (sum : ℕ) : ℕ :=
  let sum := sum % 2 ^ 16 + sum / 2 ^ 16
  let sum := (sum + sum / 2 ^ 16) % 2 ^ 32
  (2 ^ 32 - 1 - sum) % 2 ^ 16

/-- The two 64-bit halves of a vector register. -/
structure Lanes where
  low : ℕ
  high : ℕ
  deriving DecidableEq, Repr

/-- `_mm_sad_epu8` against zero: the sums of the eight low and the eight high bytes. -/
def sad (v : List UInt8) : Lanes :=
  ⟨((v.take 8).map UInt8.toNat).sum, ((v.drop 8).map UInt8.toNat).sum⟩

/-- `_mm_add_epi64` -/
def Lanes.add (x y : Lanes) : Lanes := ⟨(x.low + y.low) % 2 ^ 64, (x.high + y.high) % 2 ^ 64⟩

def evenMask : List UInt8 :=
  [0xFF, 0, 0xFF, 0, 0xFF, 0, 0xFF, 0, 0xFF, 0, 0xFF, 0, 0xFF, 0, 0xFF, 0]

/-- `net_checksum_sad_add`: the sums over all bytes, and over the even bytes. -/
def sadAdd (v : List UInt8) (all even : Lanes) : Lanes × Lanes :=
  (all.add (sad v), even.add (sad (List.zipWith (· &&& ·) v evenMask)))

/-- The two sums of a register, each cut to 32 bits by the store. -/
def Lanes.total (x : Lanes) : ℕ := (x.low % 2 ^ 32 + x.high % 2 ^ 32) % 2 ^ 32

/-- `net_checksum_sad_value` -/
def sadValue (all even : Lanes) : ℕ :=
  (even.total * 256 % 2 ^ 32 + (all.total + 2 ^ 32 - even.total) % 2 ^ 32) % 2 ^ 32

/-- `sum += ((u32)bytes[0] << 8) | bytes[1]` -/
def addWord (m : Buffer) (sum i : ℕ) : Except Fault ℕ := do
  let word ← m.be16 i
  return (sum + word) % 2 ^ 32

def addFourWords (m : Buffer) (sum i : ℕ) : Except Fault ℕ := do
  let sum ← addWord m sum i
  let sum ← addWord m sum (i + 2)
  let sum ← addWord m sum (i + 4)
  addWord m sum (i + 6)

/-- The loop over 16 bytes: both registers, and where it stopped. -/
def sumBlocks (m : Buffer) (all even : Lanes) (i length : ℕ) :
    Except Fault ((Lanes × Lanes) × ℕ × ℕ) :=
  if 16 ≤ length then do
    let v ← m.readMany i 16
    let (all, even) := sadAdd v all even
    sumBlocks m all even (i + 16) (length - 16)
  else .ok ((all, even), i, length)
termination_by length

/-- The loop over 8 bytes. -/
def sumEights (m : Buffer) (sum i length : ℕ) : Except Fault (ℕ × ℕ × ℕ) :=
  if 8 ≤ length then do
    let sum ← addFourWords m sum i
    sumEights m sum (i + 8) (length - 8)
  else .ok (sum, i, length)
termination_by length

/-- The loop over 2 bytes. -/
def sumPairs (m : Buffer) (sum i length : ℕ) : Except Fault (ℕ × ℕ × ℕ) :=
  if 2 ≤ length then do
    let sum ← addWord m sum i
    sumPairs m sum (i + 2) (length - 2)
  else .ok (sum, i, length)
termination_by length

/-- `net_checksum_sum_tail` -/
def checksumSumTail (m : Buffer) (sum i length : ℕ) : Except Fault ℕ := do
  let (sum, i, length) ← sumEights m sum i length
  let (sum, i, length) ← sumPairs m sum i length
  if length ≠ 0 then
    let last ← m.read i
    return (sum + last.toNat * 256) % 2 ^ 32
  else return sum

/-- `net_checksum_sum` -/
def checksumSum (sse2 : Bool) (m : Buffer) (sum i length : ℕ) : Except Fault ℕ :=
  if sse2 = true ∧ 16 ≤ length then do
    let ((all, even), i, length) ← sumBlocks m ⟨0, 0⟩ ⟨0, 0⟩ i length
    checksumSumTail m ((sum + sadValue all even) % 2 ^ 32) i length
  else checksumSumTail m sum i length

theorem words_append : ∀ {front : List UInt8}, Even front.length → ∀ back : List UInt8,
    words (front ++ back) = words front ++ words back
  | [], _, _ => rfl
  | [_], h, _ => by simp at h
  | _ :: _ :: front, h, back => by
    have hf : Even front.length := by
      rw [length_cons, length_cons] at h
      rcases h with ⟨n, hn⟩
      exact ⟨n - 1, by omega⟩
    simp only [cons_append, words, words_append hf back]

/-- The sum of the words, as it is before the carries are brought round. -/
def wordSum (bytes : List UInt8) : ℕ := (words bytes).sum

theorem wordSum_append {front : List UInt8} (h : Even front.length) (back : List UInt8) :
    wordSum (front ++ back) = wordSum front + wordSum back := by
  rw [wordSum, words_append h, sum_append]
  rfl

theorem wordSum_two (high low : UInt8) : wordSum [high, low] = high.toNat * 256 + low.toNat := by
  simp [wordSum, words]

theorem wordSum_slice_two (m : Buffer) (i n : ℕ) :
    wordSum (m.slice i (2 + n)) = m.word16 i + wordSum (m.slice (i + 2) n) := by
  have htwo : m.slice i 2 = [m.byte i, m.byte (i + 1)] := rfl
  rw [slice_add, wordSum_append (by simp), htwo, wordSum_two, word16]

theorem wordSum_slice_pair (m : Buffer) (i : ℕ) : wordSum (m.slice i 2) = m.word16 i := by
  have h := wordSum_slice_two m i 0
  rwa [slice_zero, show wordSum [] = 0 from rfl, Nat.add_zero, Nat.add_zero] at h

variable {sum i length : ℕ} {m : Buffer} {c : Copy}

theorem addWord_eq (h : i + 1 < m.length) (sum : ℕ) :
    addWord m sum i = .ok ((sum + m.word16 i) % 2 ^ 32) := by
  rw [addWord, be16_of_lt h]
  rfl

theorem addFourWords_eq (h : i + 7 < m.length) (sum : ℕ) :
    addFourWords m sum i = .ok ((sum + wordSum (m.slice i 8)) % 2 ^ 32) := by
  have hsum : wordSum (m.slice i 8) =
      m.word16 i + (m.word16 (i + 2) + (m.word16 (i + 4) + (m.word16 (i + 6) + 0))) := by
    rw [show (8 : ℕ) = 2 + (2 + (2 + (2 + 0))) from rfl, wordSum_slice_two, wordSum_slice_two,
      wordSum_slice_two, wordSum_slice_two]
    rfl
  simp only [addFourWords, addWord_eq (show i + 1 < m.length by omega),
    addWord_eq (show i + 2 + 1 < m.length by omega),
    addWord_eq (show i + 4 + 1 < m.length by omega),
    addWord_eq (show i + 6 + 1 < m.length by omega), bind, Except.bind, hsum]
  congr 1
  omega

/-- The sum with the words of the bytes that are left. -/
def pending (m : Buffer) (sum i length : ℕ) : ℕ := (sum + wordSum (m.slice i length)) % 2 ^ 32

theorem pending_add (m : Buffer) (sum i n length : ℕ) (he : Even n) :
    pending m ((sum + wordSum (m.slice i n)) % 2 ^ 32) (i + n) length =
      pending m sum i (n + length) := by
  rw [pending, pending, slice_add, wordSum_append (by rwa [slice_length])]
  omega

theorem sumEights_stops (h : i + length ≤ m.length) (hsum : sum < 2 ^ 32) :
    ∃ sum' i' length', sumEights m sum i length = .ok (sum', i', length') ∧
      i' + length' = i + length ∧ length' < 8 ∧ sum' < 2 ^ 32 ∧
      pending m sum' i' length' = pending m sum i length := by
  refine loop_stops (f := sumEights m) (by decide)
    (fun sum i => (sum + wordSum (m.slice i 8)) % 2 ^ 32)
    (fun sum' i' length' => sum' < 2 ^ 32 ∧
      pending m sum' i' length' = pending m sum i length) ?_ ?_ sum i length h ⟨hsum, rfl⟩
  · intro sum i n hi hP
    refine ⟨?_, Nat.mod_lt _ (by decide), (pending_add m sum i 8 n (by decide)).trans hP.2⟩
    rw [sumEights, if_pos (Nat.le_add_right 8 n), addFourWords_eq (by omega),
      Nat.add_sub_cancel_left]
    rfl
  · intro sum i length hshort
    rw [sumEights, if_neg (Nat.not_le.mpr hshort)]

theorem sumPairs_stops (h : i + length ≤ m.length) (hsum : sum < 2 ^ 32) :
    ∃ sum' i' length', sumPairs m sum i length = .ok (sum', i', length') ∧
      i' + length' = i + length ∧ length' < 2 ∧ sum' < 2 ^ 32 ∧
      pending m sum' i' length' = pending m sum i length := by
  refine loop_stops (f := sumPairs m) (by decide)
    (fun sum i => (sum + wordSum (m.slice i 2)) % 2 ^ 32)
    (fun sum' i' length' => sum' < 2 ^ 32 ∧
      pending m sum' i' length' = pending m sum i length) ?_ ?_ sum i length h ⟨hsum, rfl⟩
  · intro sum i n hi hP
    refine ⟨?_, Nat.mod_lt _ (by decide), (pending_add m sum i 2 n (by decide)).trans hP.2⟩
    rw [sumPairs, if_pos (Nat.le_add_right 2 n), addWord_eq (by omega),
      Nat.add_sub_cancel_left, wordSum_slice_pair]
    rfl
  · intro sum i length hshort
    rw [sumPairs, if_neg (Nat.not_le.mpr hshort)]

theorem pending_zero (m : Buffer) (hsum : sum < 2 ^ 32) (i : ℕ) : pending m sum i 0 = sum := by
  rw [pending, slice_zero, show wordSum [] = 0 from rfl, Nat.add_zero, Nat.mod_eq_of_lt hsum]

theorem pending_one (m : Buffer) (sum i : ℕ) :
    pending m sum i 1 = (sum + (m.byte i).toNat * 256) % 2 ^ 32 := by
  have hone : m.slice i 1 = [m.byte i] := rfl
  rw [pending, hone, wordSum, words, sum_singleton]

theorem checksumSumTail_eq (h : i + length ≤ m.length) (hsum : sum < 2 ^ 32) :
    checksumSumTail m sum i length = .ok (pending m sum i length) := by
  obtain ⟨sum₁, i₁, length₁, hrun₁, hpl₁, -, hsum₁, hpe₁⟩ := sumEights_stops h hsum
  have hi₁ : i₁ + length₁ ≤ m.length := by omega
  obtain ⟨sum₂, i₂, length₂, hrun₂, hpl₂, hre, hsum₂, hpe₂⟩ :=
    sumPairs_stops hi₁ hsum₁
  rw [← hpe₁, ← hpe₂]
  simp only [checksumSumTail, hrun₁, hrun₂, bind, Except.bind, pure, Except.pure]
  obtain rfl | rfl : length₂ = 0 ∨ length₂ = 1 := by omega
  · rw [pending_zero m hsum₂]
    rfl
  · rw [pending_one, if_pos (by decide), read_of_lt (by omega)]

theorem Lanes.total_lt (x : Lanes) : x.total < 2 ^ 32 := Nat.mod_lt _ (by decide)

theorem Lanes.total_add_sad (x : Lanes) (v : List UInt8) :
    (x.add (sad v)).total = (x.total + (v.map UInt8.toNat).sum) % 2 ^ 32 := by
  have hs : (v.map UInt8.toNat).sum = (sad v).low + (sad v).high := by
    rw [sad, ← sum_append, ← map_append, take_append_drop]
  rw [hs]
  simp only [Lanes.add, Lanes.total]
  omega

theorem sadValue_eq (all even : Lanes) :
    sadValue all even = (all.total + 255 * even.total) % 2 ^ 32 := by
  have hall := all.total_lt
  have he := even.total_lt
  unfold sadValue
  omega

theorem wordSum_block (m : Buffer) (i : ℕ) :
    ((m.slice i 16).map UInt8.toNat).sum +
        255 * ((List.zipWith (· &&& ·) (m.slice i 16) evenMask).map UInt8.toNat).sum =
      wordSum (m.slice i 16) := by
  have ho : ∀ b : UInt8, b &&& 0xFF = b := fun b => by
    have h := UInt8.and_neg_one (a := b)
    exact h
  have hz : ∀ b : UInt8, b &&& 0 = 0 := fun b => UInt8.and_zero
  simp only [slice, range_succ, range_zero, nil_append, cons_append,
    map_cons, map_nil, evenMask, zipWith_cons_cons, zipWith_nil_left, ho,
    hz, wordSum, words, sum_cons, sum_nil, UInt8.toNat_zero]
  omega

theorem sadAdd_block (m : Buffer) (i : ℕ) (all even : Lanes) :
    sadValue (sadAdd (m.slice i 16) all even).1 (sadAdd (m.slice i 16) all even).2 =
      (sadValue all even + wordSum (m.slice i 16)) % 2 ^ 32 := by
  rw [sadValue_eq, sadValue_eq, sadAdd, Lanes.total_add_sad, Lanes.total_add_sad, ← wordSum_block]
  omega

theorem sumBlocks_stops (all even : Lanes) (h : i + length ≤ m.length) :
    ∃ s i' length', sumBlocks m all even i length = .ok (s, i', length') ∧
      i' + length' = i + length ∧ length' < 16 ∧
      pending m (sadValue s.1 s.2) i' length' = pending m (sadValue all even) i length := by
  refine loop_stops (f := fun s => sumBlocks m s.1 s.2) (by decide)
    (fun s i => sadAdd (m.slice i 16) s.1 s.2)
    (fun s i' length' => pending m (sadValue s.1 s.2) i' length' =
      pending m (sadValue all even) i length) ?_ ?_ (all, even) i length h rfl
  · intro s i n hi hP
    refine ⟨?_, ?_⟩
    · rw [sumBlocks, if_pos (Nat.le_add_right 16 n), readMany_of_le (by omega),
        Nat.add_sub_cancel_left]
      rfl
    · rw [sadAdd_block, pending_add m _ i 16 n (by decide)]
      exact hP
  · intro s i length hshort
    rw [sumBlocks, if_neg (Nat.not_le.mpr hshort)]

theorem pending_left (m : Buffer) (sum sum' i length : ℕ) :
    pending m ((sum + sum') % 2 ^ 32) i length = (sum + pending m sum' i length) % 2 ^ 32 := by
  unfold pending
  omega

theorem checksumSum_eq (sse2 : Bool) (h : i + length ≤ m.length) (hsum : sum < 2 ^ 32) :
    checksumSum sse2 m sum i length = .ok (pending m sum i length) := by
  unfold checksumSum
  split
  · obtain ⟨s, i', length', hrun, hpl, -, hpe⟩ := sumBlocks_stops ⟨0, 0⟩ ⟨0, 0⟩ h
    simp only [hrun, bind, Except.bind]
    rw [checksumSumTail_eq (by omega) (Nat.mod_lt _ (by decide)), pending_left, hpe]
    have hz : sadValue ⟨0, 0⟩ ⟨0, 0⟩ = 0 := by decide
    rw [hz, pending, pending, Nat.zero_add, Nat.add_mod_mod]
  · exact checksumSumTail_eq h hsum

end MichCore.Net
