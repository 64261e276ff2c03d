import MichCore.AdytumMake
import MichCore.Audit

/-!
# Formatting a device

From three blocks on the unsigned arithmetic of `adytumfs_make` does not wrap: the solver ends
within one turn per 1024 blocks, and nothing is written or a volume is laid out that the picker
and the audit accept. On one or two blocks the tail base wraps and the size check passes.
-/
namespace MichCore.Adytumfs
open Routine List

section Numbers
variable {n : ℕ} (hn : n < 2 ^ 29)
include hn

theorem toNat_blocks : (UInt64.ofNat n).toNat = n := by
  rw [UInt64.toNat_ofNat', Nat.mod_eq_of_lt (by omega)]

theorem toNat_bitmapBlocksOf : (bitmapBlocksOf (UInt64.ofNat n)).toNat = (n + 32767) / 32768 := by
  have hadd : (UInt64.ofNat n + 32768).toNat = n + 32768 := by
    rw [UInt64.toNat_add, toNat_blocks hn, show (32768 : UInt64).toNat = 32768 from rfl,
      Nat.mod_eq_of_lt (by omega)]
  rw [bitmapBlocksOf, UInt64.toNat_div, UInt64.toNat_sub_of_le, hadd]
  · rfl
  · rw [UInt64.le_iff_toNat_le, hadd, UInt64.toNat_one]
    omega

theorem toNat_tableBlocksOf : (tableBlocksOf (UInt64.ofNat n)).toNat = max 1 (min 16 (n / 32)) := by
  have hdiv : (UInt64.ofNat n / 32).toNat = n / 32 := by
    rw [UInt64.toNat_div, toNat_blocks hn]
    rfl
  have hz : ∀ x : UInt64, x = 0 ↔ x.toNat = 0 := fun x => by
    rw [← UInt64.toNat_inj, UInt64.toNat_zero]
  have h16 : (16 : UInt64).toNat = 16 := rfl
  unfold tableBlocksOf
  dsimp only
  simp only [gt_iff_lt, UInt64.lt_iff_toNat_lt, hdiv, h16, hz]
  split
  · rw [if_neg (by rw [h16]; omega), h16]
    omega
  by_cases h0 : n / 32 = 0
  · rw [if_pos (by rw [hdiv]; exact h0), UInt64.toNat_one]
    omega
  · rw [if_neg (by rw [hdiv]; exact h0), hdiv]
    omega

theorem toNat_dataStartOf : (dataStartOf (UInt64.ofNat n)).toNat =
    1 + (n + 32767) / 32768 + max 1 (min 16 (n / 32)) := by
  have hone : (1 + bitmapBlocksOf (UInt64.ofNat n)).toNat = 1 + (n + 32767) / 32768 := by
    rw [UInt64.toNat_add, toNat_bitmapBlocksOf hn, UInt64.toNat_one, Nat.mod_eq_of_lt (by omega)]
  rw [dataStartOf, UInt64.toNat_add, hone, toNat_tableBlocksOf hn, Nat.mod_eq_of_lt (by omega)]

theorem toNat_tailBaseOf (h3 : 3 ≤ n) : (tailBaseOf (UInt64.ofNat n)).toNat =
    n - 1 - (n + 32767) / 32768 - max 1 (min 16 (n / 32)) := by
  have h1 : (UInt64.ofNat n - 1).toNat = n - 1 := by
    rw [UInt64.toNat_sub_of_le, toNat_blocks hn, UInt64.toNat_one]
    rw [UInt64.le_iff_toNat_le, toNat_blocks hn, UInt64.toNat_one]
    omega
  have h2 : (UInt64.ofNat n - 1 - bitmapBlocksOf (UInt64.ofNat n)).toNat =
      n - 1 - (n + 32767) / 32768 := by
    rw [UInt64.toNat_sub_of_le, h1, toNat_bitmapBlocksOf hn]
    rw [UInt64.le_iff_toNat_le, h1, toNat_bitmapBlocksOf hn]
    omega
  rw [tailBaseOf, UInt64.toNat_sub_of_le, h2, toNat_tableBlocksOf hn]
  rw [UInt64.le_iff_toNat_le, h2, toNat_tableBlocksOf hn]
  omega

theorem toNat_span (h3 : 3 ≤ n) (hr : 1 + (n + 32767) / 32768 + max 1 (min 16 (n / 32)) ≤
      n - 1 - (n + 32767) / 32768 - max 1 (min 16 (n / 32))) :
    (tailBaseOf (UInt64.ofNat n) - dataStartOf (UInt64.ofNat n)).toNat =
      n - 1 - (n + 32767) / 32768 - max 1 (min 16 (n / 32)) -
        (1 + (n + 32767) / 32768 + max 1 (min 16 (n / 32))) := by
  have ht := toNat_tailBaseOf hn h3
  have hd := toNat_dataStartOf hn
  rw [UInt64.toNat_sub_of_le _ _ (UInt64.le_iff_toNat_le.mpr (by omega)), ht, hd]

end Numbers

theorem regionLoop_test {span r : UInt64} (hs : span.toNat + 1024 < 2 ^ 64)
    (hr : r.toNat ≤ span.toNat) :
    (span - r + 1024 - 1) / 1024 > r ↔ r.toNat < (span.toNat - r.toNat + 1023) / 1024 := by
  have h1 : (span - r).toNat = span.toNat - r.toNat :=
    UInt64.toNat_sub_of_le _ _ (UInt64.le_iff_toNat_le.mpr hr)
  have h2 : (span - r + 1024).toNat = span.toNat - r.toNat + 1024 := by
    rw [UInt64.toNat_add, h1, show (1024 : UInt64).toNat = 1024 from rfl,
      Nat.mod_eq_of_lt (by omega)]
  have h3 : (span - r + 1024 - 1).toNat = span.toNat - r.toNat + 1023 := by
    rw [UInt64.toNat_sub_of_le, h2, UInt64.toNat_one]
    · omega
    · rw [UInt64.le_iff_toNat_le, h2, UInt64.toNat_one]
      omega
  rw [gt_iff_lt, UInt64.lt_iff_toNat_lt, UInt64.toNat_div, h3]
  rfl

/-- The solver stops within `span / 1024 + 1` and leaves room for the checksums
of all data blocks. -/
theorem regionLoop_spec (span : UInt64) (hs : span.toNat + 1024 < 2 ^ 64) (hpos : 1 ≤ span.toNat)
    (fuel : ℕ) (r : UInt64) (turns : ℕ) (h1 : turns + 1 = r.toNat)
    (hr : r.toNat ≤ span.toNat / 1024 + 1) (hf : span.toNat / 1024 + 1 < r.toNat + fuel) :
    ∃ r' turns', regionLoop span fuel r turns = (r', turns') ∧ turns' + 1 = r'.toNat ∧
      r'.toNat ≤ span.toNat / 1024 + 1 ∧ (span.toNat - r'.toNat + 1023) / 1024 ≤ r'.toNat := by
  induction fuel generalizing r turns with
  | zero => omega
  | succ fuel ih =>
    have ht := regionLoop_test hs (r := r) (by omega)
    rw [regionLoop]
    split
    · next hc =>
      have hlt := ht.mp hc
      have hn : (r + 1).toNat = r.toNat + 1 := by
        rw [UInt64.toNat_add, UInt64.toNat_one, Nat.mod_eq_of_lt (by omega)]
      exact ih (r + 1) (turns + 1) (by omega) (by omega) (by omega)
    · next hc =>
      exact ⟨r, turns, rfl, h1, hr, not_lt.mp (fun h => hc (ht.mpr h))⟩

/-- A device size on which the format goes through, with the size of the checksum
region the solver finds. -/
structure Formattable (n : ℕ) (r : UInt64) : Prop where
  blocks : n < 2 ^ 29
  three : 3 ≤ n
  room : 1 + (n + 32767) / 32768 + max 1 (min 16 (n / 32)) + r.toNat <
    n - 1 - (n + 32767) / 32768 - max 1 (min 16 (n / 32))
  pos : 1 ≤ r.toNat
  covers : (n - 1 - (n + 32767) / 32768 - max 1 (min 16 (n / 32)) -
    (1 + (n + 32767) / 32768 + max 1 (min 16 (n / 32))) - r.toNat + 1023) / 1024 ≤ r.toNat
  small : r.toNat ≤ n / 1024 + 1

section Layout
variable {n : ℕ} {r : UInt64} (h : Formattable n r)
include h

theorem toNat_makeData : (makeSuper (UInt64.ofNat n) r).freeBlocks.toNat =
    n - 1 - (n + 32767) / 32768 - max 1 (min 16 (n / 32)) -
      (1 + (n + 32767) / 32768 + max 1 (min 16 (n / 32))) - r.toNat := by
  have hr := h.room
  have hs := toNat_span h.blocks h.three (by omega)
  simp only [makeSuper]
  rw [UInt64.toNat_sub_of_le _ _ (UInt64.le_iff_toNat_le.mpr (by omega)), hs]

theorem toNat_makeRegion : (makeSuper (UInt64.ofNat n) r).dataChecksumRegion.toNat =
    n - 1 - (n + 32767) / 32768 - max 1 (min 16 (n / 32)) - r.toNat := by
  have hd := toNat_dataStartOf h.blocks
  have hf := toNat_makeData h
  have hr := h.room
  have hlt := h.blocks
  change (dataStartOf (UInt64.ofNat n) + (makeSuper (UInt64.ofNat n) r).freeBlocks).toNat = _
  rw [UInt64.toNat_add, hd, hf, Nat.mod_eq_of_lt (by omega)]
  omega

theorem toNat_makeInodes : (makeSuper (UInt64.ofNat n) r).inodeCount.toNat =
    max 1 (min 16 (n / 32)) * 16 := by
  have ht := toNat_tableBlocksOf h.blocks
  simp only [makeSuper]
  rw [UInt64.toNat_mul, ht, show (16 : UInt64).toNat = 16 from rfl, Nat.mod_eq_of_lt (by omega)]

theorem makeSuper_layout : Layout (makeSuper (UInt64.ofNat n) r) := by
  have hlt := h.blocks
  have ht := toNat_blocks h.blocks
  have hb := toNat_bitmapBlocksOf h.blocks
  have htb := toNat_tableBlocksOf h.blocks
  have hd := toNat_dataStartOf h.blocks
  have hreg := toNat_makeRegion h
  have hin := toNat_makeInodes h
  have hro := h.room
  have hcov := h.covers
  have hpos := h.pos
  constructor
  · change (UInt64.ofNat n).toNat + 32768 < _
    omega
  · rfl
  · change (bitmapBlocksOf _).toNat = ((UInt64.ofNat n).toNat + 32767) / 32768
    rw [hb, ht]
  · change (1 + bitmapBlocksOf _).toNat = 1 + (bitmapBlocksOf _).toNat
    rw [UInt64.toNat_add, UInt64.toNat_one, Nat.mod_eq_of_lt (by omega)]
  · change 0 < (tableBlocksOf _).toNat
    omega
  · change (tableBlocksOf _).toNat ≤ 16
    omega
  · change (dataStartOf _).toNat = 1 + (bitmapBlocksOf _).toNat + (tableBlocksOf _).toNat
    rw [hd, hb, htb]
  · rw [hin]
    omega
  · rw [hin]
    change _ ≤ (tableBlocksOf _).toNat * 16
    rw [htb]
  · change 0 < (1 : UInt64).toNat
    simp
  · change (1 : UInt64).toNat < _
    rw [hin, UInt64.toNat_one]
    omega
  · change (dataStartOf _).toNat < _
    rw [hd, hreg]
    omega
  · change _ + (_ - (dataStartOf _).toNat + 1023) / 1024 +
      (tableBlocksOf _).toNat + (bitmapBlocksOf _).toNat + 1 ≤
      (UInt64.ofNat n).toNat
    rw [hd, hreg, htb, hb, ht]
    omega

theorem makeSuper_valid {sectors : ℕ} (hs : sectors / 8 = n) :
    superValid (makeSuper (UInt64.ofNat n) r) (UInt64.ofNat (sectors / 8)) = true := by
  have ht := toNat_blocks h.blocks
  have hlt := h.blocks
  rw [hs, superValid_iff _ _ (by rw [ht]; omega)]
  exact ⟨rfl, rfl, le_rfl, makeSuper_layout h⟩

end Layout

abbrev MakeWorld := Config MakeMem Flat

theorem exec_makeWrite {c : MakeWorld} {b : ℕ} (image : Block) (hb : b < c.store.blocks)
    (hw : c.store.readOnly = false) :
    exec flatStore (makeWrite b image) c = (some (), ⟨c.mem, c.store.setBlock b image⟩) := by
  have hreq : exec flatStore (request (Req.write b image) : MakeR Bool) c =
      (some true, ⟨c.mem, c.store.setBlock b image⟩) :=
    exec_request_eq flatStore c (if_pos ⟨hb, hw⟩)
  rw [makeWrite, exec_bind, hreq]
  rfl

theorem toNat_offset (start : UInt64) (i : ℕ) (h : start.toNat + i < 2 ^ 64) :
    (start + UInt64.ofNat i).toNat = start.toNat + i := by
  rw [UInt64.toNat_add, UInt64.toNat_ofNat', Nat.mod_eq_of_lt (show i < 2 ^ 64 by omega),
    Nat.mod_eq_of_lt h]

/-- The blocks behind a loop that wrote `k` images from `start + index` on. -/
def filled (start : ℕ) (image : ℕ → Block) (index k : ℕ) (blk : ℕ → Block) (b : ℕ) : Block :=
  if start + index ≤ b ∧ b < start + index + k then image (b - start) else blk b

theorem filled_zero (start : ℕ) (image : ℕ → Block) (index : ℕ) (blk : ℕ → Block) :
    filled start image index 0 blk = blk := funext fun _ => if_neg (by omega)

theorem filled_succ (start : ℕ) (image : ℕ → Block) (index k : ℕ) (blk : ℕ → Block) :
    filled start image (index + 1) k (Function.update blk (start + index) (image index)) =
      filled start image index (k + 1) blk := by
  funext b
  simp only [filled, Function.update_apply]
  by_cases hb : b = start + index
  · rw [if_neg (by omega), if_pos hb, if_pos (by omega), hb, Nat.add_sub_cancel_left]
  · rw [if_neg hb]
    exact if_congr (by omega) rfl rfl

theorem filled_update {start index c : ℕ} (hc : c < start + index) (image : ℕ → Block) (k : ℕ)
    (blk : ℕ → Block) (v : Block) : filled start image index k (Function.update blk c v) =
      Function.update (filled start image index k blk) c v := by
  funext b
  simp only [filled, Function.update_apply]
  by_cases hb : b = c
  · rw [if_neg (by omega), if_pos hb, if_pos hb]
  · rw [if_neg hb, if_neg hb]

theorem exec_makeCopies (turns : ℕ) (start shadow : UInt64) (image : ℕ → Block) (index k : ℕ)
    (m : MakeMem) (f : Flat) (hw : f.readOnly = false) (hsm : f.blocks < 2 ^ 64)
    (hsh : shadow.toNat + index + k ≤ f.blocks)
    (hap : start.toNat + index + k ≤ shadow.toNat + index) :
    ∃ f', exec flatStore (makeCopies turns start shadow image index k) ⟨m, f⟩ =
        (some (), ⟨m.charged (k * turns), f'⟩) ∧ SameDevice f f' ∧
      f'.blk = filled start.toNat image index k (filled shadow.toNat image index k f.blk) := by
  induction k generalizing index m f with
  | zero =>
    refine ⟨f, by simp [makeCopies, MakeMem.charged], SameDevice.refl f, ?_⟩
    rw [filled_zero, filled_zero]
  | succ k ih =>
    let f1 := f.setBlock (start.toNat + index) (image index)
    let f2 := f1.setBlock (shadow.toNat + index) (image index)
    have hd1 : SameDevice f f1 := sameDevice_setBlock _ _ _
    have hd2 : SameDevice f f2 := hd1.trans (sameDevice_setBlock _ _ _)
    obtain ⟨f', he, hd, hblk⟩ := ih (index + 1) (m.charged turns) f2
      (by rw [hd2.readOnly, hw]) (by rw [hd2.blocks]; exact hsm)
      (by rw [hd2.blocks]; omega) (by omega)
    refine ⟨f', ?_, hd2.trans hd, ?_⟩
    · rw [makeCopies, exec_bind, charge, exec_modifyMem, follow_some, exec_bind,
        toNat_offset start index (by omega), exec_makeWrite _ (by dsimp only; omega) hw,
        follow_some, exec_bind, toNat_offset shadow index (by omega),
        exec_makeWrite _ (by change _ < f1.blocks; rw [hd1.blocks]; omega) hw, follow_some]
      refine he.trans ?_
      simp only [MakeMem.charged, Nat.succ_mul, Nat.add_assoc, Nat.add_comm turns]
    · -- The block of the first copy lies before all of the second.
      rw [hblk]
      simp only [f2, f1, Flat.setBlock]
      rw [filled_succ, filled_update (by omega), filled_succ]

theorem exec_makeRegion (start : UInt64) (index k : ℕ) (m : MakeMem) (f : Flat)
    (hw : f.readOnly = false) (hs : f.blocks < 2 ^ 64) (hin : start.toNat + index + k ≤ f.blocks) :
    ∃ f', exec flatStore (makeRegion start index k) ⟨m, f⟩ =
        (some (), ⟨m.charged k, f'⟩) ∧ SameDevice f f' ∧
      f'.blk = filled start.toNat (fun _ => Image.zero) index k f.blk := by
  induction k generalizing index m f with
  | zero =>
    exact ⟨f, by simp [makeRegion, MakeMem.charged], SameDevice.refl f, (filled_zero ..).symm⟩
  | succ k ih =>
    let f1 := f.setBlock (start.toNat + index) Image.zero
    have hd1 : SameDevice f f1 := sameDevice_setBlock _ _ _
    obtain ⟨f', he, hd, hblk⟩ := ih (index + 1) (m.charged 1) f1
      (by rw [hd1.readOnly, hw]) (by rw [hd1.blocks]; exact hs) (by rw [hd1.blocks]; omega)
    refine ⟨f', ?_, hd1.trans hd, hblk.trans (filled_succ ..)⟩
    rw [makeRegion, exec_bind, charge, exec_modifyMem, follow_some, exec_bind,
      toNat_offset start index (by omega), exec_makeWrite _ (by dsimp only; omega) hw, follow_some]
    refine he.trans ?_
    simp only [MakeMem.charged, Nat.add_assoc, Nat.add_comm 1]

/-- The blocks of a fresh volume: two copies of everything but the data and
their checksums, which are zero. -/
structure Made (super : Superblock) (now : UInt64) (blk : ℕ → Block) : Prop where
  superblocks : ∀ slot, blk (superblockSlot super.totalBlocks slot).toNat = superPack super
  bitmaps : ∀ slot, ∀ i < super.blockBitmapBlocks.toNat,
    blk (slotBase super false slot + i) = makeBitmap super i
  tables : ∀ slot, ∀ i < super.inodeTableBlocks.toNat,
    blk (slotBase super true slot + i) = makeTable i now
  checksums : ∀ b, super.dataChecksumRegion.toNat ≤ b → b < (tableSlotBase super true).toNat →
    blk b = Image.zero

theorem exec_makeVolume {super : Superblock} (regionBlocks : UInt64) (hL : Layout super)
    (hta : tailBaseOf super.totalBlocks = tableSlotBase super true)
    (hr : super.dataChecksumRegion.toNat + regionBlocks.toNat = (tableSlotBase super true).toNat)
    (m : MakeMem) (f : Flat) (hw : f.readOnly = false) (hsm : f.blocks < 2 ^ 64)
    (hfits : super.totalBlocks.toNat ≤ f.blocks) :
    ∃ f', exec flatStore (makeVolume super regionBlocks) ⟨m, f⟩ =
        (some (), ⟨((m.charged (super.blockBitmapBlocks.toNat *
          (1 + 4096 + super.totalBlocks.toNat))).charged
          (super.inodeTableBlocks.toNat * (1 + 4096))).charged regionBlocks.toNat, f'⟩) ∧
      SameDevice f f' ∧ (∀ b, f'.dirty b = false) ∧ Made super m.clock f'.blk := by
  have hts := hL.tableSlotBase_true
  have hbs := hL.bitmapSlotBase_true
  have hss := hL.superblockSlot_true
  have hb0 := hL.bitmapSlotBase_false
  have ht0 := hL.tableSlotBase_false
  have hdl := hL.tail
  have hds := hL.dataStart
  have hdp := hL.dataPos
  have hz : (superblockSlot super.totalBlocks false).toNat = 0 := rfl
  have hl : (super.totalBlocks - 1).toNat = super.totalBlocks.toNat - 1 := by
    have := hss
    rwa [superblockSlot, if_pos rfl] at this
  have hsh : (tailBaseOf super.totalBlocks + super.inodeTableBlocks).toNat =
      super.totalBlocks.toNat - 1 - super.blockBitmapBlocks.toNat := by
    rw [hta, UInt64.toNat_add, hts, Nat.mod_eq_of_lt (by omega)]
    omega
  let f1 := f.setBlock 0 (superPack super)
  let f2 := f1.setBlock (super.totalBlocks.toNat - 1) (superPack super)
  have hd2 : SameDevice f f2 := (sameDevice_setBlock _ _ _).trans (sameDevice_setBlock _ _ _)
  obtain ⟨f3, he3, hd3, hblk3⟩ := exec_makeCopies (1 + 4096 + super.totalBlocks.toNat)
    super.blockBitmapStart (tailBaseOf super.totalBlocks +
      super.inodeTableBlocks) (makeBitmap super) 0 super.blockBitmapBlocks.toNat m f2
    (by rw [hd2.readOnly, hw]) (by rw [hd2.blocks]; exact hsm)
    (by rw [hd2.blocks, hsh]; omega) (by rw [hsh, hL.bitmapStart]; omega)
  have hd3' := hd2.trans hd3
  obtain ⟨f4, he4, hd4, hblk4⟩ := exec_makeCopies (1 + 4096)
    super.inodeTableStart (tailBaseOf super.totalBlocks)
    (fun table => makeTable table m.clock) 0 super.inodeTableBlocks.toNat
    (m.charged (super.blockBitmapBlocks.toNat * (1 + 4096 + super.totalBlocks.toNat))) f3
    (by rw [hd3'.readOnly, hw]) (by rw [hd3'.blocks]; exact hsm)
    (by rw [hd3'.blocks, hta, hts]; omega) (by rw [hta, hts, hL.tableStart]; omega)
  have hd4' := hd3'.trans hd4
  obtain ⟨f5, he5, hd5, hblk5⟩ := exec_makeRegion super.dataChecksumRegion 0
    regionBlocks.toNat ((m.charged (super.blockBitmapBlocks.toNat *
      (1 + 4096 + super.totalBlocks.toNat))).charged (super.inodeTableBlocks.toNat * (1 + 4096))) f4
    (by rw [hd4'.readOnly, hw]) (by rw [hd4'.blocks]; exact hsm)
    (by rw [hd4'.blocks, Nat.add_zero, hr, hts]; omega)
  refine ⟨{ f5 with dirty := fun _ => false }, ?_, ?_, fun _ => rfl, ?_⟩
  · rw [makeVolume, exec_bind, exec_makeWrite _ (by dsimp only; omega) hw, follow_some, exec_bind,
      hl, exec_makeWrite _ (by change _ < f.blocks; omega) hw, follow_some]
    dsimp only
    rw [exec_bind, makeBitmaps, he3, follow_some, exec_bind, makeTables, exec_bind, exec_getMem,
      follow_some]
    refine (congrArg _ he4).trans ?_
    rw [follow_some, exec_bind, he5]
    rfl
  · have := hd4'.trans hd5
    exact ⟨this.sectorCount, this.readOnly, this.wild⟩
  · -- every region keeps what its own loop wrote: the regions are disjoint
    rw [hta] at hblk4
    rw [hsh, ← hbs, hL.bitmapStart] at hblk3
    have htst := hL.tableStart
    have hval := congrFun hblk5
    simp only [filled, hblk4, hblk3, Nat.add_zero, hr, f2, f1, Flat.setBlock,
      Function.update_apply] at hval
    constructor
    · intro slot
      cases slot
      · rw [hz]
        dsimp only
        rw [hval, if_neg (by omega), if_neg (by omega), if_neg (by omega), if_neg (by omega),
          if_neg (by omega), if_neg (by omega), if_pos rfl]
      · rw [hss]
        dsimp only
        rw [hval, if_neg (by omega), if_neg (by omega), if_neg (by omega), if_neg (by omega),
          if_neg (by omega), if_pos rfl]
    · intro slot i hi
      cases slot
      · rw [slotBase, if_neg (by simp), hb0]
        dsimp only
        rw [hval, if_neg (by omega), if_neg (by omega), if_neg (by omega), if_pos (by omega),
          Nat.add_sub_cancel_left]
      · rw [slotBase, if_neg (by simp)]
        dsimp only
        rw [hval, if_neg (by omega), if_neg (by omega), if_neg (by omega), if_neg (by omega),
          if_pos (by omega), Nat.add_sub_cancel_left]
    · intro slot i hi
      cases slot
      · rw [slotBase, if_pos rfl, ht0, ← htst]
        dsimp only
        rw [hval, if_neg (by omega), if_pos (by omega), Nat.add_sub_cancel_left]
      · rw [slotBase, if_pos rfl]
        dsimp only
        rw [hval, if_neg (by omega), if_neg (by omega), if_pos (by omega), Nat.add_sub_cancel_left]
    · intro b h1 h2
      dsimp only
      rw [hval, if_pos ⟨h1, h2⟩]

theorem testBit_markAll (base : ℕ) (p : ℕ → Prop) [DecidablePred p] (l : List ℕ) (block : Block)
    (j : ℕ) :
    (l.foldl (fun block used => if p used ∧ base ≤ used ∧ used - base < 32768 then
      block.setBit (used - base) else block) block).testBit j = true ↔
    (∃ used ∈ l, p used ∧ base ≤ used ∧ used - base < 32768 ∧ used - base = j) ∨
      block.testBit j = true := by
  induction l generalizing block with
  | nil => simp
  | cons u l ih =>
    rw [foldl_cons, ih]
    by_cases hu : p u ∧ base ≤ u ∧ u - base < 32768
    · rw [if_pos hu, Image.testBit_setBit _ (by omega)]
      by_cases hj : j = u - base
      · rw [if_pos hj]
        exact iff_of_true (.inr rfl) (.inl ⟨u, mem_cons_self, hu.1, hu.2.1, hu.2.2, hj.symm⟩)
      have hno : ¬ (p u ∧ base ≤ u ∧ u - base < 32768 ∧ u - base = j) :=
        fun h => hj h.2.2.2.symm
      rw [if_neg hj]
      simp only [mem_cons, exists_eq_or_imp, hno, false_or]
    · have hno : ¬ (p u ∧ base ≤ u ∧ u - base < 32768 ∧ u - base = j) :=
        fun h => hu ⟨h.1, h.2.1, h.2.2.1⟩
      rw [if_neg hu]
      simp only [mem_cons, exists_eq_or_imp, hno, false_or]

theorem testBit_makeBitmap (super : Superblock) {b : ℕ} (hb : b < super.totalBlocks.toNat) :
    (makeBitmap super (b / 32768)).testBit (b % 32768) = outsideData super b := by
  have hm := testBit_markAll (b / 32768 * 32768) (fun used => outsideData super used = true)
    (List.range super.totalBlocks.toNat) Image.zero (b % 32768)
  rw [Bool.eq_iff_iff, makeBitmap, hm]
  constructor
  · rintro (⟨used, -, hout, h1, -, h2⟩ | h)
    · rwa [show b = used by omega]
    · simp at h
  · intro hout
    exact .inl ⟨b, mem_range.mpr hb, hout, by omega, by omega, by omega⟩

theorem inodeUnpack_zero (s : ℕ) :
    ∃ inode, inodeUnpack (slotBytes Image.zero s) = some inode ∧ inode.mode = 0 := by
  have hm : readLe16 (slotBytes Image.zero s) 0 = 0 := by
    simp [readLe16, readLe, slotBytes]
  exact ⟨_, by rw [inodeUnpack, if_neg (by simp [hm])], hm⟩

theorem rootInode_sound (super : Superblock) (now : UInt64) : (rootInode now).Sound super where
  packed := by
    change (List.replicate 10 Extent.zero).Pairwise _
    decide
  inside := by
    intro e he hne
    have : e = Extent.zero := eq_of_mem_replicate he
    exact absurd (by rw [this]; rfl) hne
  blocks := by rfl

namespace Made
variable {super : Superblock} {now : UInt64} {blk : ℕ → Block} (h : Made super now blk)
  (hL : Layout super)
include h hL

theorem slotInode_root : slotInode super blk 1 = some (rootInode now) := by
  have hpos := hL.tablePos
  have ht := h.tables super.activeSlot (1 / 16) (by omega)
  rw [slotInode, ht, makeTable, if_pos (by omega)]
  exact (inodeUnpack_setSlot Image.zero (rootInode now) (by omega) (by omega)).trans (if_pos rfl)

theorem slotInode_other {n : ℕ} (hn : n < super.inodeCount.toNat) (h1 : n ≠ 1) :
    ∃ inode, slotInode super blk n = some inode ∧ inode.mode = 0 := by
  have hmax := hL.inodeMax
  have ht := h.tables super.activeSlot (n / 16) (by omega)
  rw [slotInode, ht, makeTable]
  split
  · rw [inodeUnpack_setSlot _ _ (by omega) (by omega), if_neg (by omega)]
    exact inodeUnpack_zero _
  · exact inodeUnpack_zero _

theorem slotBit_eq {b : ℕ} (hb : b < super.totalBlocks.toNat) :
    slotBit super blk b = outsideData super b := by
  have hi : b / 32768 < super.blockBitmapBlocks.toNat := by
    have := hL.bitmapBlocks
    omega
  rw [slotBit, h.bitmaps super.activeSlot _ hi, testBit_makeBitmap super hb]

theorem usedBlocks_eq : usedBlocks super.inodeCount.toNat (slotInode super blk) = [] := by
  rw [usedBlocks, flatMap_eq_nil_iff]
  intro n hn
  rw [mem_range'_1] at hn
  by_cases h1 : n = 1
  · subst h1
    rw [h.slotInode_root hL]
    rfl
  · obtain ⟨inode, he, hm⟩ := h.slotInode_other hL (n := n) (by omega) h1
    rw [he, ownedBlocks, if_pos hm]

theorem audit (hfb : super.freeBlocks.toNat =
      super.dataChecksumRegion.toNat - super.dataStart.toNat)
    (hfi : super.freeInodes.toNat = super.inodeCount.toNat - 2)
    (hcount : 2 ≤ super.inodeCount.toNat) : Audit super blk := by
  have ht := hL.tail
  have hd : ∀ b ∈ dataBlocks super, slotBit super blk b = false := by
    intro b hb
    have hout := (mem_dataBlocks hL).mp hb
    rw [dataBlocks, mem_range'_1] at hb
    rw [h.slotBit_eq hL (by omega), hout]
  have hro := h.slotInode_root hL
  constructor
  · constructor
    · intro n h1 h2
      by_cases hn : n = 1
      · subst hn
        exact ⟨_, hro, fun _ => rootInode_sound super now⟩
      · obtain ⟨inode, he, hm⟩ := h.slotInode_other hL h2 hn
        exact ⟨inode, he, fun hne => absurd hm hne⟩
    · rw [h.usedBlocks_eq hL]
      exact nodup_nil
    · intro b hb
      rw [hd b hb, h.usedBlocks_eq hL]
      simp
    · have hall : ∀ b ∈ dataBlocks super, (!slotBit super blk b) = true := fun b hb => by
        rw [hd b hb]; rfl
      rw [countP_eq_length.mpr hall, hfb, dataBlocks, length_range']
    · have hra : List.range' 1 (super.inodeCount.toNat - 1) =
          1 :: List.range' 2 (super.inodeCount.toNat - 2) := by
        rw [show super.inodeCount.toNat - 1 = super.inodeCount.toNat - 2 + 1 by omega, range'_succ]
      have hall : ∀ n ∈ List.range' 2 (super.inodeCount.toNat - 2),
          isFree (slotInode super blk n) = true := by
        intro n hn
        rw [mem_range'_1] at hn
        obtain ⟨inode, he, hm⟩ := h.slotInode_other hL (n := n) (by omega) (by omega)
        simp [he, isFree, hm]
      rw [hra, countP_cons, countP_eq_length.mpr hall, length_range', hro, hfi,
        if_neg (by simp [isFree, rootInode, modeDir]), Nat.add_zero]
  · intro n h1 h2 inode he hm
    by_cases hn : n = 1
    · subst hn
      rw [hro] at he
      cases he
      simp only [rootInode]
      decide
    · obtain ⟨inode', he', hm'⟩ := h.slotInode_other hL h2 hn
      rw [he] at he'
      cases he'
      exact absurd hm' hm
  · intro b hb hout
    rw [h.slotBit_eq hL hb, hout]

omit hL in
theorem superReadOf_eq {n : ℕ} (hv : super.formatVersion = 2) (hb : super.blockSize = 4096)
    (hsl : super.activeSlot = false) (hva : superValid super (UInt64.ofNat n) = true) :
    superReadOf n blk = some super := by
  have hsa : ({ super with activeSlot := false } : Superblock) = super := by rw [← hsl]
  have hso : soundOf n (superPack super) = some (super, true) := by
    rw [soundOf, superUnpack_superPack super hv hb, Option.map_some, hsa, hva]
  have h0 : blk 0 = superPack super := h.superblocks false
  have hl : blk (super.totalBlocks - 1).toNat = superPack super := h.superblocks true
  simp only [superReadOf, h0, hso, backupBlock, hl]
  split_ifs
  · simp only [pickSuper, gt_iff_lt, UInt64.lt_irrefl, if_false, if_true, hsa]
  · simp only [pickSuper, if_true, hsa]

end Made

/-- Loop turns of a format that goes through. -/
def makeCost (super : Superblock) (regionBlocks : UInt64) (turns : ℕ) : ℕ :=
  turns + super.blockBitmapBlocks.toNat * (1 + 4096 + super.totalBlocks.toNat) +
    super.inodeTableBlocks.toNat * (1 + 4096) + regionBlocks.toNat

theorem exec_make {m : MakeMem} {f : Flat} (hw : f.readOnly = false)
    (hsm : f.sectorCount < 2 ^ 32) (h3 : 3 ≤ f.blocks) :
    (exec flatStore make ⟨m, f⟩).1 = none ∧ (exec flatStore make ⟨m, f⟩).2.store = f ∧
        (exec flatStore make ⟨m, f⟩).2.mem.steps ≤ m.steps + (f.blocks / 1024 + 1) ∨
    ∃ r turns f', Formattable f.blocks r ∧ turns + 1 = r.toNat ∧
      exec flatStore make ⟨m, f⟩ =
        (some (), ⟨m.charged (makeCost (makeSuper (UInt64.ofNat f.blocks) r) r turns), f'⟩) ∧
      SameDevice f f' ∧ (∀ b, f'.dirty b = false) ∧
      Made (makeSuper (UInt64.ofNat f.blocks) r) m.clock f'.blk := by
  have hn : f.blocks < 2 ^ 29 := by unfold Flat.blocks; omega
  generalize hdef : f.blocks = n at h3 hn
  have hta := toNat_tailBaseOf hn h3
  have hst := toNat_dataStartOf hn
  have hi : exec flatStore (request Req.info : MakeR (ℕ × Bool)) ⟨m, f⟩ =
      (some (f.sectorCount, f.readOnly), ⟨m, f⟩) := rfl
  have hone : ¬ UInt64.ofNat n < 1 := by
    rw [UInt64.lt_iff_toNat_lt, toNat_blocks hn, UInt64.toNat_one]
    omega
  rw [make, exec_bind, hi, follow_some, hw, if_neg (by simp)]
  dsimp only
  rw [show f.sectorCount / 8 = n from hdef]
  by_cases hro : tailBaseOf (UInt64.ofNat n) ≤ dataStartOf (UInt64.ofNat n)
  · rw [if_pos (.inr hro)]
    exact .inl ⟨rfl, rfl, by simp⟩
  rw [if_neg (not_or.mpr ⟨hone, hro⟩)]
  rw [UInt64.le_iff_toNat_le, not_le, hta, hst] at hro
  set span := tailBaseOf (UInt64.ofNat n) - dataStartOf (UInt64.ofNat n) with hspan
  have hspanN := hspan ▸ toNat_span hn h3 hro.le
  obtain ⟨r, turns, hl, htu, hr, hcov⟩ := regionLoop_spec span (by omega)
    (by omega) (2 ^ 64) 1 0 (by simp) (by rw [UInt64.toNat_one]; omega)
    (by rw [UInt64.toNat_one]; omega)
  rw [hl]
  dsimp only
  rw [exec_bind, charge, exec_modifyMem, follow_some]
  have hsub : (span - r).toNat = span.toNat - r.toNat :=
    UInt64.toNat_sub_of_le _ _ (UInt64.le_iff_toNat_le.mpr (by omega))
  split
  · refine .inl ⟨rfl, rfl, ?_⟩
    simp only [exec_fail, MakeMem.charged]
    omega
  next hz =>
  have hne : (span - r).toNat ≠ 0 := by
    rw [ne_eq, ← UInt64.toNat_zero, UInt64.toNat_inj]
    exact hz
  have hf : Formattable n r :=
    ⟨hn, h3, by omega, by omega, by rw [← hspanN]; exact hcov, by omega⟩
  have hL := makeSuper_layout hf
  have hreg := toNat_makeRegion hf
  obtain ⟨f', he, hd, hdi, hmade⟩ := exec_makeVolume r hL rfl
    (by rw [hreg, hL.tableSlotBase_true]
        change _ = (UInt64.ofNat n).toNat - 1 - (bitmapBlocksOf (UInt64.ofNat n)).toNat -
          (tableBlocksOf (UInt64.ofNat n)).toNat
        rw [toNat_blocks hn, toNat_bitmapBlocksOf hn, toNat_tableBlocksOf hn]
        omega)
    (m.charged turns) f hw (by omega)
    (by change (UInt64.ofNat n).toNat ≤ _; rw [toNat_blocks hn]; omega)
  refine .inr ⟨r, turns, f', hf, htu, ?_, hd, hdi, hmade⟩
  rw [he]
  simp only [makeCost, MakeMem.charged, Nat.add_assoc]

theorem exec_make_smallest {m : MakeMem} {f : Flat} (hw : f.readOnly = false) (h8 : f.blocks = 8) :
    ∃ m' f', exec flatStore make ⟨m, f⟩ = (some (), ⟨m', f'⟩) ∧ SameDevice f f' ∧
      (∀ b, f'.dirty b = false) ∧ Made smallestSuper m.clock f'.blk := by
  have hi : exec flatStore (request Req.info : MakeR (ℕ × Bool)) ⟨m, f⟩ =
      (some (f.sectorCount, f.readOnly), ⟨m, f⟩) := rfl
  have hl : regionLoop (tailBaseOf (UInt64.ofNat 8) - dataStartOf (UInt64.ofNat 8))
      (2 ^ 64) 1 0 = (1, 0) := by
    rw [show 2 ^ 64 = (2 ^ 64 - 1) + 1 by norm_num, regionLoop, if_neg (by decide)]
  have hs : makeSuper (UInt64.ofNat 8) 1 = smallestSuper := by decide
  have hL : Layout smallestSuper :=
    ((superValid_iff smallestSuper 8 (by decide)).mp (by decide)).2.2.2
  rw [make, exec_bind, hi, follow_some, hw, if_neg (by simp)]
  dsimp only
  rw [show f.sectorCount / 8 = 8 from h8, if_neg (by decide), hl]
  dsimp only
  rw [exec_bind, charge, exec_modifyMem, follow_some, if_neg (by decide), hs]
  obtain ⟨f', he, hd, hdi, hmade⟩ := exec_makeVolume 1 hL (by decide) (by decide)
    (m.charged 0) f hw (by omega) (by rw [h8]; decide)
  exact ⟨_, f', he, hd, hdi, hmade⟩

theorem makeCost_le {n : ℕ} {r : UInt64} {turns : ℕ} (h : Formattable n r)
    (ht : turns + 1 = r.toNat) :
    makeCost (makeSuper (UInt64.ofNat n) r) r turns ≤ (n + 1) * (n + 70000) := by
  have hb := toNat_bitmapBlocksOf h.blocks
  have htb := toNat_tableBlocksOf h.blocks
  have hn := toNat_blocks h.blocks
  have hr := h.small
  change turns + (bitmapBlocksOf (UInt64.ofNat n)).toNat * (1 + 4096 + (UInt64.ofNat n).toNat) +
    (tableBlocksOf (UInt64.ofNat n)).toNat * (1 + 4096) + r.toNat ≤ _
  rw [hb, htb, hn]
  have h1 : (n + 32767) / 32768 * (1 + 4096 + n) ≤ (n + 1) * (1 + 4096 + n) :=
    Nat.mul_le_mul_right _ (by omega)
  have h2 : max 1 (min 16 (n / 32)) * (1 + 4096) ≤ 16 * (1 + 4096) :=
    Nat.mul_le_mul_right _ (by omega)
  have h3 : (n + 1) * (n + 70000) = (n + 1) * (1 + 4096 + n) + (n + 1) * 65903 := by ring
  omega

end MichCore.Adytumfs
