import MichCore.AdytumFormat

/-!
# Geometry of a volume

What `adytumfs_super_valid` establishes by comparisons on 64-bit numbers is a layout over the
natural numbers: eight regions follow each other without gap or overlap.
-/
namespace MichCore.Adytumfs

/-- `adytumfs_super_valid`. -/
def superValid (super : Superblock) (deviceBlocks : UInt64) : Bool :=
  if super.featureIncompat ≠ 1 then false
  else if super.blockSize ≠ 4096 then false
  else if super.totalBlocks > deviceBlocks then false
  else if super.blockBitmapStart ≠ 1 then false
  else if super.blockBitmapBlocks ≠ (super.totalBlocks + 32768 - 1) / 32768 then false
  else if super.inodeTableStart ≠ super.blockBitmapStart + super.blockBitmapBlocks then false
  else if super.inodeTableBlocks = 0 ∨ super.inodeTableStart > super.totalBlocks ∨
      super.inodeTableBlocks > super.totalBlocks - super.inodeTableStart then false
  else if super.inodeTableBlocks > 16 then false
  else if super.dataStart ≠ super.inodeTableStart + super.inodeTableBlocks then false
  else if super.dataStart ≥ super.totalBlocks then false
  else if super.inodeCount = 0 ∨ super.inodeCount > super.inodeTableBlocks * 16 then false
  else if super.rootInode = 0 ∨ super.rootInode ≥ super.inodeCount then false
  else
    let tailBase := super.totalBlocks - 1 - super.blockBitmapBlocks - super.inodeTableBlocks
    if super.dataChecksumRegion < super.dataStart + 1 ∨ super.dataChecksumRegion > tailBase then
      false
    else
      let dataBlocks := super.dataChecksumRegion - super.dataStart
      let regionBlocks := tailBase - super.dataChecksumRegion
      if regionBlocks < (dataBlocks + 1024 - 1) / 1024 then false else true

def superblockSlot (totalBlocks : UInt64) (slot : Bool) : UInt64 :=
  if slot then totalBlocks - 1 else 0

def bitmapSlotBase (super : Superblock) (slot : Bool) : UInt64 :=
  if slot then super.totalBlocks - 1 - super.blockBitmapBlocks else super.blockBitmapStart

def tableSlotBase (super : Superblock) (slot : Bool) : UInt64 :=
  if slot then super.totalBlocks - 1 - super.blockBitmapBlocks - super.inodeTableBlocks
  else super.inodeTableStart

/-- The order of the regions, as numbers. -/
structure Layout (super : Superblock) : Prop where
  bound : super.totalBlocks.toNat + 32768 < 2 ^ 64
  bitmapStart : super.blockBitmapStart.toNat = 1
  bitmapBlocks : super.blockBitmapBlocks.toNat = (super.totalBlocks.toNat + 32767) / 32768
  tableStart : super.inodeTableStart.toNat = 1 + super.blockBitmapBlocks.toNat
  tablePos : 0 < super.inodeTableBlocks.toNat
  tableMax : super.inodeTableBlocks.toNat ≤ 16
  dataStart : super.dataStart.toNat =
    1 + super.blockBitmapBlocks.toNat + super.inodeTableBlocks.toNat
  inodePos : 0 < super.inodeCount.toNat
  inodeMax : super.inodeCount.toNat ≤ super.inodeTableBlocks.toNat * 16
  rootPos : 0 < super.rootInode.toNat
  rootMax : super.rootInode.toNat < super.inodeCount.toNat
  dataPos : super.dataStart.toNat < super.dataChecksumRegion.toNat
  /-- The checksum region ends before the shadow table, which ends the volume
  together with the shadow bitmap and superblock. -/
  tail : super.dataChecksumRegion.toNat +
      (super.dataChecksumRegion.toNat - super.dataStart.toNat + 1023) / 1024 +
      super.inodeTableBlocks.toNat + super.blockBitmapBlocks.toNat + 1 ≤ super.totalBlocks.toNat

/-- A superblock without the fields that change while the volume is in use. -/
def geometry (super : Superblock) : Superblock :=
  { super with freeBlocks := 0, freeInodes := 0, generation := 0, activeSlot := false }

theorem Layout.of_geometry {super super' : Superblock} (h : Layout super)
    (he : geometry super' = geometry super) : Layout super' := by
  have h0 : Layout (geometry super) := ⟨h.bound, h.bitmapStart, h.bitmapBlocks, h.tableStart,
    h.tablePos, h.tableMax, h.dataStart, h.inodePos, h.inodeMax, h.rootPos, h.rootMax, h.dataPos,
    h.tail⟩
  rw [← he] at h0
  exact ⟨h0.bound, h0.bitmapStart, h0.bitmapBlocks, h0.tableStart, h0.tablePos, h0.tableMax,
    h0.dataStart, h0.inodePos, h0.inodeMax, h0.rootPos, h0.rootMax, h0.dataPos, h0.tail⟩

/-! The unsigned expressions of `superValid` where they do not wrap. -/

theorem wrapSub {a b : ℕ} (h : b ≤ a) (ha : a < 2 ^ 64) : (2 ^ 64 - b + a) % 2 ^ 64 = a - b := by
  rw [show 2 ^ 64 - b + a = 2 ^ 64 + (a - b) by omega, Nat.add_mod_left,
    Nat.mod_eq_of_lt (by omega)]

theorem bitmapExpr {t : ℕ} (ht : t + 32768 < 2 ^ 64) :
    (2 ^ 64 - 1 + (t + 32768) % 2 ^ 64) % 2 ^ 64 / 32768 = (t + 32767) / 32768 := by
  rw [Nat.mod_eq_of_lt ht, wrapSub (by omega) ht]
  rfl

theorem tailExpr {t b n : ℕ} (ht : t + 32768 < 2 ^ 64) (h : 1 + b + n < t) :
    (2 ^ 64 - n + (2 ^ 64 - b + (2 ^ 64 - 1 + t) % 2 ^ 64) % 2 ^ 64) % 2 ^ 64 = t - 1 - b - n := by
  rw [wrapSub (show 1 ≤ t by omega) (by omega), wrapSub (show b ≤ t - 1 by omega) (by omega),
    wrapSub (show n ≤ t - 1 - b by omega) (by omega)]

theorem spanExpr {t ds r : ℕ} (ht : t + 32768 < 2 ^ 64) (h : ds ≤ r) (hr : r < t) :
    (2 ^ 64 - 1 + ((2 ^ 64 - ds + r) % 2 ^ 64 + 1024) % 2 ^ 64) % 2 ^ 64 = r - ds + 1023 := by
  rw [wrapSub h (by omega), Nat.mod_eq_of_lt (show r - ds + 1024 < 2 ^ 64 by omega),
    wrapSub (by omega) (by omega)]
  rfl

/-- What acceptance means when the size of the device leaves the bitmap size
computable without wrapping. -/
theorem superValid_iff (super : Superblock) (deviceBlocks : UInt64)
    (hd : deviceBlocks.toNat + 32768 < 2 ^ 64) :
    superValid super deviceBlocks = true ↔ super.featureIncompat = 1 ∧ super.blockSize = 4096 ∧
      super.totalBlocks.toNat ≤ deviceBlocks.toNat ∧ Layout super := by
  have hfe : super.featureIncompat = 1 ↔ super.featureIncompat.toNat = 1 := by
    rw [← UInt64.toNat_inj]; rfl
  simp only [superValid, Bool.if_false_left, Bool.and_true, Bool.and_eq_true, Bool.not_eq_true',
    decide_eq_false_iff_not, not_or, not_not, ← UInt64.toNat_inj, UInt64.lt_iff_toNat_lt,
    UInt64.le_iff_toNat_le, UInt64.toNat_add, UInt64.toNat_sub, UInt64.toNat_div, UInt64.toNat_mul,
    UInt64.reduceToNat, gt_iff_lt, ge_iff_le, ne_eq, hfe, not_lt, not_le]
  constructor
  · rintro ⟨hf, hb, ht, h⟩
    have hbo : super.totalBlocks.toNat + 32768 < 2 ^ 64 := by clear h; omega
    rw [bitmapExpr hbo] at h
    obtain ⟨hs, hbm, h⟩ := h
    rw [hs, Nat.mod_eq_of_lt (by clear h; omega)] at h
    obtain ⟨hts, ⟨hT, htst, hTt⟩, hT16, h⟩ := h
    rw [wrapSub htst (by clear h; omega)] at hTt
    rw [Nat.mod_eq_of_lt (by clear h; omega), Nat.mod_eq_of_lt (by clear h; omega)] at h
    obtain ⟨hds, hdt, ⟨hn, hnT⟩, ⟨hr, hrn⟩, h⟩ := h
    rw [Nat.mod_eq_of_lt (by clear h; omega), tailExpr hbo (by clear h; omega)] at h
    obtain ⟨⟨hreg, hta⟩, h⟩ := h
    rw [spanExpr hbo (by clear h; omega) (by clear h; omega), wrapSub hta (by clear h; omega)] at h
    refine ⟨hf, hb, ht, ⟨hbo, hs, hbm, hts, by omega, hT16, by omega, by omega, hnT,
      by omega, hrn, by omega, by omega⟩⟩
  · rintro ⟨hf, hb, ht, hL⟩
    obtain ⟨hbo, hs, hbm, hts, hT, hT16, hds, hn, hnT, hr, hrn, hreg, hta⟩ := hL
    refine ⟨hf, hb, ht, hs, ?_, ?_, ⟨by omega, by omega, ?_⟩, hT16, ?_, by omega,
      ⟨by omega, ?_⟩, ⟨by omega, hrn⟩, ⟨?_, ?_⟩, ?_⟩
    · rw [bitmapExpr hbo, hbm]
    · rw [hs, Nat.mod_eq_of_lt (by omega), hts]
    · rw [wrapSub (by omega) (by omega)]
      omega
    · rw [Nat.mod_eq_of_lt (by omega)]
      omega
    · rw [Nat.mod_eq_of_lt (by omega)]
      exact hnT
    · rw [Nat.mod_eq_of_lt (by omega)]
      exact hreg
    · rw [tailExpr hbo (by omega)]
      omega
    · rw [tailExpr hbo (by omega), spanExpr hbo (by omega) (by omega),
        wrapSub (by omega) (by omega)]
      omega

namespace Layout
variable {super : Superblock}

section

variable (h : Layout super)
include h

theorem superblockSlot_true :
    (superblockSlot super.totalBlocks true).toNat = super.totalBlocks.toNat - 1 := by
  have := h.tail
  rw [superblockSlot, if_pos rfl,
    UInt64.toNat_sub_of_le _ _ (UInt64.le_iff_toNat_le.mpr (by rw [UInt64.toNat_one]; omega))]
  rfl

theorem bitmapSlotBase_true : (bitmapSlotBase super true).toNat =
    super.totalBlocks.toNat - 1 - super.blockBitmapBlocks.toNat := by
  have ht := h.tail
  have hone := h.superblockSlot_true
  simp only [superblockSlot, if_true] at hone
  rw [bitmapSlotBase, if_pos rfl, UInt64.toNat_sub_of_le _ _
    (UInt64.le_iff_toNat_le.mpr (by rw [hone]; omega)), hone]

theorem tableSlotBase_true : (tableSlotBase super true).toNat =
    super.totalBlocks.toNat - 1 - super.blockBitmapBlocks.toNat - super.inodeTableBlocks.toNat := by
  have ht := h.tail
  have hbm := h.bitmapSlotBase_true
  simp only [bitmapSlotBase, if_true] at hbm
  rw [tableSlotBase, if_pos rfl, UInt64.toNat_sub_of_le _ _
    (UInt64.le_iff_toNat_le.mpr (by rw [hbm]; omega)), hbm]

theorem bitmapSlotBase_false : (bitmapSlotBase super false).toNat = 1 :=
  h.bitmapStart

theorem tableSlotBase_false :
    (tableSlotBase super false).toNat = 1 + super.blockBitmapBlocks.toNat := h.tableStart

theorem toNat_data : (super.dataChecksumRegion - super.dataStart).toNat =
    super.dataChecksumRegion.toNat - super.dataStart.toNat :=
  UInt64.toNat_sub_of_le _ _ (UInt64.le_iff_toNat_le.mpr h.dataPos.le)

theorem order (slot : Bool) :
    1 ≤ (bitmapSlotBase super slot).toNat ∧ 1 ≤ (tableSlotBase super slot).toNat ∧
    (superblockSlot super.totalBlocks slot).toNat < super.totalBlocks.toNat ∧
    (bitmapSlotBase super slot).toNat + super.blockBitmapBlocks.toNat ≤ super.totalBlocks.toNat ∧
    (tableSlotBase super slot).toNat + super.inodeTableBlocks.toNat ≤ super.totalBlocks.toNat := by
  have hta := h.tail
  have hts := h.tableStart
  have hds := h.dataStart
  have hdp := h.dataPos
  cases slot
  · rw [h.bitmapSlotBase_false, h.tableSlotBase_false]
    refine ⟨by omega, by omega, ?_, by omega, by omega⟩
    change (0 : UInt64).toNat < _
    rw [UInt64.toNat_zero]
    omega
  · rw [h.bitmapSlotBase_true, h.tableSlotBase_true, h.superblockSlot_true]
    omega

end

end Layout

/-- Blocks `[start, stop)`. -/
structure Span where
  start : ℕ
  stop : ℕ

def Span.Disjoint (a b : Span) : Prop := a.stop ≤ b.start ∨ b.stop ≤ a.start

def superblockSpan (super : Superblock) (slot : Bool) : Span :=
  ⟨(superblockSlot super.totalBlocks slot).toNat, (superblockSlot super.totalBlocks slot).toNat + 1⟩

def bitmapSpan (super : Superblock) (slot : Bool) : Span :=
  ⟨(bitmapSlotBase super slot).toNat,
    (bitmapSlotBase super slot).toNat + super.blockBitmapBlocks.toNat⟩

def tableSpan (super : Superblock) (slot : Bool) : Span :=
  ⟨(tableSlotBase super slot).toNat,
    (tableSlotBase super slot).toNat + super.inodeTableBlocks.toNat⟩

def dataSpan (super : Superblock) : Span :=
  ⟨super.dataStart.toNat, super.dataChecksumRegion.toNat⟩

/-- The checksum region runs up to the shadow table. -/
def checksumSpan (super : Superblock) : Span :=
  ⟨super.dataChecksumRegion.toNat, (tableSlotBase super true).toNat⟩

def regions (super : Superblock) : List Span :=
  [superblockSpan super false, bitmapSpan super false, tableSpan super false, dataSpan super,
    checksumSpan super, tableSpan super true, bitmapSpan super true, superblockSpan super true]

/-- Every addition, product and subtraction that `superValid` makes on its way to
acceptance stays within 64 bits. -/
structure NoWrap (super : Superblock) : Prop where
  bitmapAdd : super.totalBlocks.toNat + 32768 < 2 ^ 64
  bitmapSub : 1 ≤ (super.totalBlocks + 32768).toNat
  tableStart : super.blockBitmapStart.toNat + super.blockBitmapBlocks.toNat < 2 ^ 64
  tableRoom : super.inodeTableStart.toNat ≤ super.totalBlocks.toNat
  dataStart : super.inodeTableStart.toNat + super.inodeTableBlocks.toNat < 2 ^ 64
  inodeCount : super.inodeTableBlocks.toNat * 16 < 2 ^ 64
  tailSuper : 1 ≤ super.totalBlocks.toNat
  tailBitmap : super.blockBitmapBlocks.toNat ≤ (super.totalBlocks - 1).toNat
  tailTable : super.inodeTableBlocks.toNat ≤
    (super.totalBlocks - 1 - super.blockBitmapBlocks).toNat
  dataNext : super.dataStart.toNat + 1 < 2 ^ 64
  dataBlocks : super.dataStart.toNat ≤ super.dataChecksumRegion.toNat
  regionBlocks : super.dataChecksumRegion.toNat ≤
    (super.totalBlocks - 1 - super.blockBitmapBlocks - super.inodeTableBlocks).toNat
  regionAdd : (super.dataChecksumRegion - super.dataStart).toNat + 1024 < 2 ^ 64
  regionSub : 1 ≤ (super.dataChecksumRegion - super.dataStart + 1024).toNat

theorem Layout.noWrap {super : Superblock} (h : Layout super) : NoWrap super := by
  have hbo := h.bound
  have hta := h.tail
  have hts := h.tableStart
  have hds := h.dataStart
  have hdp := h.dataPos
  have hbs := h.bitmapStart
  have hmax := h.tableMax
  have hone := h.superblockSlot_true
  have hbm := h.bitmapSlotBase_true
  have htb := h.tableSlotBase_true
  simp only [superblockSlot, bitmapSlotBase, tableSlotBase, if_true] at hone hbm htb
  constructor
  · exact hbo
  · rw [UInt64.toNat_add, show (32768 : UInt64).toNat = 32768 from rfl, Nat.mod_eq_of_lt hbo]
    omega
  · omega
  · omega
  · omega
  · omega
  · omega
  · rw [hone]; omega
  · rw [hbm]; omega
  · omega
  · omega
  · rw [htb]; omega
  · rw [h.toNat_data]; omega
  · rw [UInt64.toNat_add, h.toNat_data, show (1024 : UInt64).toNat = 1024 from rfl,
      Nat.mod_eq_of_lt (by omega)]
    omega

theorem Layout.regions_disjoint {super : Superblock} (h : Layout super) :
    (regions super).Pairwise Span.Disjoint := by
  have hta := h.tail
  have hts := h.tableStart
  have hds := h.dataStart
  have hdp := h.dataPos
  have hz : (superblockSlot super.totalBlocks false).toNat = 0 := rfl
  simp only [regions, List.pairwise_cons, List.mem_cons, List.not_mem_nil, or_false,
    forall_eq_or_imp, forall_eq, Span.Disjoint, superblockSpan, bitmapSpan, tableSpan, dataSpan,
    checksumSpan, h.superblockSlot_true, h.bitmapSlotBase_true, h.tableSlotBase_true,
    h.bitmapSlotBase_false, h.tableSlotBase_false, hz, List.Pairwise.nil, and_true,
    false_imp_iff, implies_true]
  omega

theorem Layout.regions_inside {super : Superblock} (h : Layout super) {r : Span}
    (hr : r ∈ regions super) : r.start ≤ r.stop ∧ r.stop ≤ super.totalBlocks.toNat := by
  have hta := h.tail
  have hdp := h.dataPos
  have h0 := h.order false
  have h1 := h.order true
  have htb := h.tableSlotBase_true
  simp only [regions, List.mem_cons, List.not_mem_nil, or_false] at hr
  rcases hr with rfl | rfl | rfl | rfl | rfl | rfl | rfl | rfl <;>
    simp only [superblockSpan, bitmapSpan, tableSpan, dataSpan, checksumSpan] <;> omega

/-- `sector_count` is a `u32`, so a device has less than `2 ^ 29` blocks. The sizes at which the
bitmap expression wraps, from `2 ^ 64 - 32768` on, are no sizes of a device. -/
theorem deviceBlocks_lt (sectorCount : UInt32) :
    (sectorCount.toUInt64 / 8).toNat + 32768 < 2 ^ 64 := by
  have hlt := sectorCount.toNat_lt
  simp only [UInt64.toNat_div, UInt32.toNat_toUInt64, UInt64.reduceToNat]
  omega

/-- A volume that `adytumfs_super_valid` accepts has eight disjoint regions inside
the volume, and every index the format computes from a block or inode number
stays inside its region. -/
theorem accepted_geometry (super : Superblock) (deviceBlocks : UInt64)
    (hdevice : deviceBlocks.toNat + 32768 < 2 ^ 64) (h : superValid super deviceBlocks = true) :
    NoWrap super ∧ (regions super).Pairwise Span.Disjoint ∧
    (∀ r ∈ regions super, r.start ≤ r.stop ∧ r.stop ≤ super.totalBlocks.toNat) ∧
    super.totalBlocks.toNat ≤ deviceBlocks.toNat ∧
    (∀ block < super.totalBlocks.toNat, block / 32768 < super.blockBitmapBlocks.toNat) ∧
    (∀ inode < super.inodeCount.toNat, inode / 16 < super.inodeTableBlocks.toNat) ∧
    ∀ block, super.dataStart.toNat ≤ block → block < super.dataChecksumRegion.toNat →
      super.dataChecksumRegion.toNat + (block - super.dataStart.toNat) / 1024 <
          (tableSlotBase super true).toNat ∧
        (block - super.dataStart.toNat) % 1024 * 4 + 4 ≤ 4096 := by
  obtain ⟨-, -, hto, hL⟩ := (superValid_iff super _ hdevice).mp h
  have hbm := hL.bitmapBlocks
  have hin := hL.inodeMax
  have hta := hL.tail
  refine ⟨hL.noWrap, hL.regions_disjoint, fun r hr => hL.regions_inside hr, hto, ?_, ?_, ?_⟩
  · intro block hb
    omega
  · intro inode hi
    omega
  · intro block h1 h2
    rw [hL.tableSlotBase_true]
    omega

/-- The smallest volume: one data block. -/
def smallestSuper : Superblock where
  formatVersion := 2
  blockSize := 4096
  totalBlocks := 8
  blockBitmapStart := 1
  blockBitmapBlocks := 1
  inodeTableStart := 2
  inodeTableBlocks := 1
  inodeCount := 16
  rootInode := 1
  dataStart := 3
  freeBlocks := 1
  freeInodes := 14
  generation := 1
  featureCompat := 0
  featureIncompat := 1
  featureRoCompat := 0
  dataChecksumRegion := 4
  activeSlot := false

theorem accepted_geometry_smallest : superValid smallestSuper ((64 : UInt32).toUInt64 / 8) = true ∧
    (regions smallestSuper).Pairwise Span.Disjoint ∧
    ∀ block, 3 ≤ block → block < 4 → 4 + (block - 3) / 1024 < 5 := by
  have hv : superValid smallestSuper ((64 : UInt32).toUInt64 / 8) = true := by decide
  obtain ⟨-, hd, -, -, -, -, hc⟩ :=
    accepted_geometry smallestSuper _ (deviceBlocks_lt 64) hv
  exact ⟨hv, hd, fun block hlo hhi => (hc block hlo hhi).1⟩

end MichCore.Adytumfs
