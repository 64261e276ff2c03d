import MichCore.BlockStore
import MichCore.Crc32c

/-!
# On-disk records of AdytumFS

Superblock and inode of `adytumfs_format.h`, packed and parsed. Numbers keep the width they have
on the disk, so a packed record parses back to itself.
-/
namespace MichCore.Adytumfs

open List Image

/-- `struct adytumfs_superblock`; `activeSlot` is runtime state. -/
structure Superblock where
  formatVersion : UInt32
  blockSize : UInt32
  totalBlocks : UInt64
  blockBitmapStart : UInt64
  blockBitmapBlocks : UInt64
  inodeTableStart : UInt64
  inodeTableBlocks : UInt64
  inodeCount : UInt64
  rootInode : UInt64
  dataStart : UInt64
  freeBlocks : UInt64
  freeInodes : UInt64
  generation : UInt64
  featureCompat : UInt64
  featureIncompat : UInt64
  featureRoCompat : UInt64
  dataChecksumRegion : UInt64
  activeSlot : Bool
  deriving DecidableEq, Repr

/-- `ADYTUMFS_SIGNATURE`. -/
def signature : List UInt8 := [0x41, 0x64, 0x79, 0x74, 0x75, 0x6D, 0x46, 0x53]

def superFields (super : Superblock) : List Field :=
  [⟨8, 4, super.formatVersion.toNat⟩, ⟨12, 4, super.blockSize.toNat⟩,
    ⟨16, 8, super.totalBlocks.toNat⟩, ⟨24, 8, super.blockBitmapStart.toNat⟩,
    ⟨32, 8, super.blockBitmapBlocks.toNat⟩, ⟨40, 8, super.inodeTableStart.toNat⟩,
    ⟨48, 8, super.inodeTableBlocks.toNat⟩, ⟨56, 8, super.inodeCount.toNat⟩,
    ⟨64, 8, super.rootInode.toNat⟩, ⟨72, 8, super.dataStart.toNat⟩,
    ⟨80, 8, super.freeBlocks.toNat⟩, ⟨88, 8, super.freeInodes.toNat⟩,
    ⟨96, 8, super.generation.toNat⟩, ⟨104, 8, super.featureCompat.toNat⟩,
    ⟨112, 8, super.featureIncompat.toNat⟩, ⟨120, 8, super.featureRoCompat.toNat⟩,
    ⟨128, 8, super.dataChecksumRegion.toNat⟩]

/-- Signature and fields, before the checksum is set. -/
def superBody (super : Superblock) : Block :=
  ((Image.zero : Block).patch 0 8 (fun j => signature.getD j 0)).writeFields 0 (superFields super)

def superPack (super : Superblock) : Block :=
  (superBody super).writeLe 4092 4 (crc32c (superBody super).byte 4092).toNat

def superSigned (block : Block) : Bool :=
  (List.range 8).all (fun j => block.byte j == signature.getD j 0)

def superUnpack (block : Block) : Option Superblock :=
  if superSigned block = false then none
  else if readLe32 block.byte 4092 ≠ crc32c block.byte 4092 then none
  else if readLe32 block.byte 8 ≠ 2 ∨ readLe32 block.byte 12 ≠ 4096 then none
  else some {
    formatVersion := readLe32 block.byte 8
    blockSize := readLe32 block.byte 12
    totalBlocks := readLe64 block.byte 16
    blockBitmapStart := readLe64 block.byte 24
    blockBitmapBlocks := readLe64 block.byte 32
    inodeTableStart := readLe64 block.byte 40
    inodeTableBlocks := readLe64 block.byte 48
    inodeCount := readLe64 block.byte 56
    rootInode := readLe64 block.byte 64
    dataStart := readLe64 block.byte 72
    freeBlocks := readLe64 block.byte 80
    freeInodes := readLe64 block.byte 88
    generation := readLe64 block.byte 96
    featureCompat := readLe64 block.byte 104
    featureIncompat := readLe64 block.byte 112
    featureRoCompat := readLe64 block.byte 120
    dataChecksumRegion := readLe64 block.byte 128
    activeSlot := false }

variable (inode : Inode) (super : Superblock)

theorem superFields_disjoint : (superFields super).Pairwise Field.Disjoint :=
  Field.pairwise_disjoint [(8, 4), (12, 4), (16, 8), (24, 8), (32, 8), (40, 8), (48, 8), (56, 8),
    (64, 8), (72, 8), (80, 8), (88, 8), (96, 8), (104, 8), (112, 8), (120, 8), (128, 8)]
    rfl (by decide)

theorem readLe_superPack {g : Field} (hg : g ∈ superFields super) :
    readLe (superPack super).byte g.offset g.width = g.value % 256 ^ g.width := by
  have hend : g.offset + g.width ≤ 136 := by
    simp only [superFields, mem_cons, not_mem_nil, or_false] at hg
    rcases hg with rfl | rfl | rfl | rfl | rfl | rfl | rfl | rfl | rfl | rfl | rfl | rfl | rfl |
      rfl | rfl | rfl | rfl <;> simp
  have hr := readLe_writeFields ((Image.zero : Block).patch 0 8
    (fun j => signature.getD j 0)) 0 (superFields super) (superFields_disjoint super) hg (by omega)
  rw [Nat.zero_add] at hr
  rw [superPack, readLe_writeLe_of_disjoint _ _ (by omega)]
  exact hr

theorem byte_superPack_signature {j : ℕ} (hj : j < 8) :
    (superPack super).byte j = signature.getD j 0 := by
  have hnc : ∀ f ∈ superFields super, ¬ f.Covers 0 j := by
    intro f hf hc
    simp only [superFields, mem_cons, not_mem_nil, or_false] at hf
    simp only [Field.Covers] at hc
    rcases hf with rfl | rfl | rfl | rfl | rfl | rfl | rfl | rfl | rfl | rfl | rfl | rfl | rfl |
      rfl | rfl | rfl | rfl <;> simp only at hc <;> omega
  rw [superPack, Image.writeLe, byte_patch_of_not_mem _ _ (by omega), superBody,
    byte_writeFields_of_not_covered _ _ _ _ hnc, byte_patch_of_mem _ _ (by omega)
    (by omega) (by omega), Nat.sub_zero]

theorem superSigned_superPack : superSigned (superPack super) = true := by
  rw [superSigned, all_eq_true]
  intro j hj
  rw [byte_superPack_signature super (mem_range.mp hj)]
  simp

theorem crc_superPack :
    readLe32 (superPack super).byte 4092 = crc32c (superPack super).byte 4092 := by
  have hr : readLe (superPack super).byte 4092 4 =
      (crc32c (superBody super).byte 4092).toNat % 256 ^ 4 := readLe_writeLe _ _ (by omega)
  rw [readLe32, hr, ofNat_toNat_mod32]
  apply crc32c_congr
  intro j hj
  rw [superPack, Image.writeLe, byte_patch_of_not_mem _ _ (by omega)]

theorem superUnpack_superPack (hv : super.formatVersion = 2) (hb : super.blockSize = 4096) :
    superUnpack (superPack super) = some { super with activeSlot := false } := by
  have h32 : ∀ (o : ℕ) (v : UInt32), (⟨o, 4, v.toNat⟩ : Field) ∈ superFields super →
      readLe32 (superPack super).byte o = v := fun o v hm => by
    have := readLe_superPack super hm
    simp only at this
    rw [readLe32, this, ofNat_toNat_mod32]
  have h64 : ∀ (o : ℕ) (v : UInt64), (⟨o, 8, v.toNat⟩ : Field) ∈ superFields super →
      readLe64 (superPack super).byte o = v := fun o v hm => by
    have := readLe_superPack super hm
    simp only at this
    rw [readLe64, this, ofNat_toNat_mod64]
  have hver := h32 8 super.formatVersion (by simp [superFields])
  have hbs := h32 12 super.blockSize (by simp [superFields])
  rw [superUnpack, if_neg (by simp [superSigned_superPack]),
    if_neg (not_not.mpr (crc_superPack super)), if_neg (by rw [hver, hbs, hv, hb]; simp), hver, hbs,
    h64 16 super.totalBlocks, h64 24 super.blockBitmapStart, h64 32 super.blockBitmapBlocks,
    h64 40 super.inodeTableStart, h64 48 super.inodeTableBlocks, h64 56 super.inodeCount,
    h64 64 super.rootInode, h64 72 super.dataStart, h64 80 super.freeBlocks,
    h64 88 super.freeInodes, h64 96 super.generation, h64 104 super.featureCompat,
    h64 112 super.featureIncompat, h64 120 super.featureRoCompat, h64 128 super.dataChecksumRegion]
  all_goals simp [superFields]

/-- `struct adytumfs_extent`. -/
structure Extent where
  startBlock : UInt64
  length : UInt32
  flags : UInt32
  deriving DecidableEq, Repr

def Extent.zero : Extent := ⟨0, 0, 0⟩

/-- The `ADYTUMFS_DIRECT_EXTENTS` extent slots of an inode. -/
structure Direct where
  slots : List Extent
  size : slots.length = 10
  deriving DecidableEq, Repr

namespace Direct

theorem ext_slots {d d' : Direct} (h : d.slots = d'.slots) : d = d' := by
  cases d; cases d'; simp_all

def empty : Direct := ⟨List.replicate 10 .zero, by simp⟩

def get (d : Direct) (i : ℕ) : Extent := d.slots.getD i .zero

def ofFn (f : ℕ → Extent) : Direct := ⟨(List.range 10).map f, by simp⟩

theorem ofFn_get (d : Direct) : ofFn d.get = d := by
  apply ext_slots
  apply ext_getElem (by simp [ofFn, d.size])
  intro i h1 h2
  simp [ofFn, get, h2]

end Direct

/-- `struct adytumfs_inode`. -/
structure Inode where
  mode : UInt16
  links : UInt16
  uid : UInt32
  gid : UInt32
  flags : UInt32
  size : UInt64
  blocks : UInt64
  atime : UInt64
  mtime : UInt64
  ctime : UInt64
  generation : UInt64
  direct : Direct
  indirect1 : UInt64
  indirect2 : UInt64
  atimeNsec : UInt32
  mtimeNsec : UInt32
  ctimeNsec : UInt32
  deriving DecidableEq, Repr

/-- `struct adytumfs_inode inode = {0}`. -/
def Inode.zero : Inode :=
  ⟨0, 0, 0, 0, 0, 0, 0, 0, 0, 0, 0, .empty, 0, 0, 0, 0, 0⟩

def modeDir : UInt16 := 0x4000
def modeReg : UInt16 := 0x8000
def modeLnk : UInt16 := 0x2000

def extentFields (i : ℕ) (e : Extent) : List Field :=
  [⟨64 + i * 16, 8, e.startBlock.toNat⟩, ⟨64 + i * 16 + 8, 4, e.length.toNat⟩,
    ⟨64 + i * 16 + 12, 4, e.flags.toNat⟩]

def inodeFields (inode : Inode) : List Field :=
  [⟨0, 2, inode.mode.toNat⟩, ⟨2, 2, inode.links.toNat⟩, ⟨4, 4, inode.uid.toNat⟩,
    ⟨8, 4, inode.gid.toNat⟩, ⟨12, 4, inode.flags.toNat⟩, ⟨16, 8, inode.size.toNat⟩,
    ⟨24, 8, inode.blocks.toNat⟩, ⟨32, 8, inode.atime.toNat⟩, ⟨40, 8, inode.mtime.toNat⟩,
    ⟨48, 8, inode.ctime.toNat⟩, ⟨56, 8, inode.generation.toNat⟩] ++
  (List.range 10).flatMap (fun i => extentFields i (inode.direct.get i)) ++
  [⟨224, 8, inode.indirect1.toNat⟩, ⟨232, 8, inode.indirect2.toNat⟩,
    ⟨240, 4, inode.atimeNsec.toNat⟩, ⟨244, 4, inode.mtimeNsec.toNat⟩,
    ⟨248, 4, inode.ctimeNsec.toNat⟩]

def inodeBody (inode : Inode) : Image 256 := Image.zero.writeFields 0 (inodeFields inode)

def inodePack (inode : Inode) : Image 256 :=
  (inodeBody inode).writeLe 252 4 (crc32c (inodeBody inode).byte 252).toNat

def readExtent (slot : ℕ → UInt8) (i : ℕ) : Extent where
  startBlock := readLe64 slot (64 + i * 16)
  length := readLe32 slot (64 + i * 16 + 8)
  flags := readLe32 slot (64 + i * 16 + 12)

/-- The fields of a slot, whatever its checksum says. -/
def inodeParse (slot : ℕ → UInt8) : Inode where
  mode := readLe16 slot 0
  links := readLe16 slot 2
  uid := readLe32 slot 4
  gid := readLe32 slot 8
  flags := readLe32 slot 12
  size := readLe64 slot 16
  blocks := readLe64 slot 24
  atime := readLe64 slot 32
  mtime := readLe64 slot 40
  ctime := readLe64 slot 48
  generation := readLe64 slot 56
  direct := Direct.ofFn (readExtent slot)
  indirect1 := readLe64 slot 224
  indirect2 := readLe64 slot 232
  atimeNsec := readLe32 slot 240
  mtimeNsec := readLe32 slot 244
  ctimeNsec := readLe32 slot 248

/-- A free slot carries no checksum and always parses. -/
def inodeUnpack (slot : ℕ → UInt8) : Option Inode :=
  if readLe16 slot 0 ≠ 0 ∧ readLe32 slot 252 ≠ crc32c slot 252 then none
  else some (inodeParse slot)

/-- The bytes of inode slot `s` of a table block. -/
def slotBytes (block : Block) (s : ℕ) : ℕ → UInt8 := fun j => block.byte (s * 256 + j)

def setSlot (block : Block) (s : ℕ) (inode : Inode) : Block :=
  block.patch (s * 256) 256 (inodePack inode).byte

theorem inodeFields_disjoint : (inodeFields inode).Pairwise Field.Disjoint :=
  Field.pairwise_disjoint ([(0, 2), (2, 2), (4, 4), (8, 4), (12, 4), (16, 8), (24, 8), (32, 8),
    (40, 8), (48, 8), (56, 8)] ++ (List.range 10).flatMap (fun i => [(64 + i * 16, 8),
    (64 + i * 16 + 8, 4), (64 + i * 16 + 12, 4)]) ++ [(224, 8), (232, 8), (240, 4), (244, 4),
    (248, 4)]) rfl (by decide)

theorem inodeFields_end : ∀ g ∈ inodeFields inode, g.offset + g.width ≤ 252 := by
  intro g hg
  simp only [inodeFields, mem_append, mem_flatMap, mem_range, extentFields,
    mem_cons, not_mem_nil, or_false] at hg
  rcases hg with (hg | ⟨i, hi, hg⟩) | hg
  · rcases hg with rfl | rfl | rfl | rfl | rfl | rfl | rfl | rfl | rfl | rfl | rfl <;> simp
  · rcases hg with rfl | rfl | rfl <;> simp only <;> omega
  · rcases hg with rfl | rfl | rfl | rfl | rfl <;> simp

theorem readLe_inodePack {g : Field} (hg : g ∈ inodeFields inode) :
    readLe (inodePack inode).byte g.offset g.width = g.value % 256 ^ g.width := by
  have hend := inodeFields_end inode g hg
  have hr := readLe_writeFields (Image.zero : Image 256) 0 (inodeFields inode)
    (inodeFields_disjoint inode) hg (by omega)
  rw [Nat.zero_add] at hr
  rw [inodePack, readLe_writeLe_of_disjoint _ _ (by omega)]
  exact hr

theorem crc_inodePack :
    readLe32 (inodePack inode).byte 252 = crc32c (inodePack inode).byte 252 := by
  have hr : readLe (inodePack inode).byte 252 4 =
      (crc32c (inodeBody inode).byte 252).toNat % 256 ^ 4 := readLe_writeLe _ _ (by omega)
  rw [readLe32, hr, ofNat_toNat_mod32]
  apply crc32c_congr
  intro j hj
  rw [inodePack, Image.writeLe, byte_patch_of_not_mem _ _ (by omega)]

theorem readLe16_inodePack {o : ℕ} {v : UInt16}
    (hm : (⟨o, 2, v.toNat⟩ : Field) ∈ inodeFields inode) :
    readLe16 (inodePack inode).byte o = v := by
  have := readLe_inodePack inode hm
  simp only at this
  rw [readLe16, this, ofNat_toNat_mod16]

theorem readLe32_inodePack {o : ℕ} {v : UInt32}
    (hm : (⟨o, 4, v.toNat⟩ : Field) ∈ inodeFields inode) :
    readLe32 (inodePack inode).byte o = v := by
  have := readLe_inodePack inode hm
  simp only at this
  rw [readLe32, this, ofNat_toNat_mod32]

theorem readLe64_inodePack {o : ℕ} {v : UInt64}
    (hm : (⟨o, 8, v.toNat⟩ : Field) ∈ inodeFields inode) :
    readLe64 (inodePack inode).byte o = v := by
  have := readLe_inodePack inode hm
  simp only at this
  rw [readLe64, this, ofNat_toNat_mod64]

theorem readExtent_inodePack {i : ℕ} (hi : i < 10) :
    readExtent (inodePack inode).byte i = inode.direct.get i := by
  have hmem : ∀ g ∈ extentFields i (inode.direct.get i), g ∈ inodeFields inode := by
    intro g hg
    rw [inodeFields, mem_append, mem_append, mem_flatMap]
    exact .inl (.inr ⟨i, mem_range.mpr hi, hg⟩)
  rw [readExtent, readLe64_inodePack inode (v := (inode.direct.get i).startBlock)
      (hmem _ (by simp [extentFields])),
    readLe32_inodePack inode (v := (inode.direct.get i).length) (hmem _ (by simp [extentFields])),
    readLe32_inodePack inode (v := (inode.direct.get i).flags) (hmem _ (by simp [extentFields]))]

theorem inodeParse_inodePack : inodeParse (inodePack inode).byte = inode := by
  have hd : Direct.ofFn (readExtent (inodePack inode).byte) = inode.direct := by
    rw [← inode.direct.ofFn_get]
    apply Direct.ext_slots
    apply map_congr_left
    intro i hi
    exact readExtent_inodePack inode (mem_range.mp hi)
  rw [inodeParse, hd, readLe16_inodePack inode (o := 0) (v := inode.mode),
    readLe16_inodePack inode (o := 2) (v := inode.links),
    readLe32_inodePack inode (o := 4) (v := inode.uid),
    readLe32_inodePack inode (o := 8) (v := inode.gid),
    readLe32_inodePack inode (o := 12) (v := inode.flags),
    readLe64_inodePack inode (o := 16) (v := inode.size),
    readLe64_inodePack inode (o := 24) (v := inode.blocks),
    readLe64_inodePack inode (o := 32) (v := inode.atime),
    readLe64_inodePack inode (o := 40) (v := inode.mtime),
    readLe64_inodePack inode (o := 48) (v := inode.ctime),
    readLe64_inodePack inode (o := 56) (v := inode.generation),
    readLe64_inodePack inode (o := 224) (v := inode.indirect1),
    readLe64_inodePack inode (o := 232) (v := inode.indirect2),
    readLe32_inodePack inode (o := 240) (v := inode.atimeNsec),
    readLe32_inodePack inode (o := 244) (v := inode.mtimeNsec),
    readLe32_inodePack inode (o := 248) (v := inode.ctimeNsec)]
  all_goals simp [inodeFields]

theorem inodeUnpack_inodePack : inodeUnpack (inodePack inode).byte = some inode := by
  rw [inodeUnpack, if_neg (fun h => h.2 (crc_inodePack inode)), inodeParse_inodePack]

theorem inodeUnpack_congr {p q : ℕ → UInt8} (h : ∀ j < 256, p j = q j) :
    inodeUnpack p = inodeUnpack q := by
  have hle : ∀ o w, o + w ≤ 256 → readLe p o w = readLe q o w :=
    fun o w hw => readLe_congr o w (fun j h1 h2 => h j (by omega))
  have hext : Direct.ofFn (readExtent p) = Direct.ofFn (readExtent q) := by
    apply Direct.ext_slots
    apply map_congr_left
    intro i hi
    have := mem_range.mp hi
    simp only [readExtent, readLe32, readLe64]
    rw [hle _ _ (by omega), hle _ _ (by omega), hle _ _ (by omega)]
  have hp : inodeParse p = inodeParse q := by
    simp only [inodeParse, hext, readLe16, readLe32, readLe64, hle, Nat.reduceAdd, Nat.reduceLeDiff]
  rw [inodeUnpack, inodeUnpack, hp, readLe16, readLe16, hle 0 2 (by omega), readLe32, readLe32,
    hle 252 4 (by omega), crc32c_congr 252 (fun j hj => h j (by omega))]

theorem inodeUnpack_setSlot (block : Block) (inode : Inode) {s t : ℕ} (hs : s < 16) (ht : t < 16) :
    inodeUnpack (slotBytes (setSlot block s inode) t) =
      if t = s then some inode else inodeUnpack (slotBytes block t) := by
  by_cases hts : t = s
  · subst hts
    rw [if_pos rfl, ← inodeUnpack_inodePack inode]
    apply inodeUnpack_congr
    intro j hj
    rw [slotBytes, setSlot, byte_patch_of_mem _ _ (by omega) (by omega) (by omega),
      Nat.add_sub_cancel_left]
  · rw [if_neg hts]
    apply inodeUnpack_congr
    intro j hj
    rw [slotBytes, setSlot, byte_patch_of_not_mem _ _ (by omega)]
    rfl

/-- A block of the inode table is an array of 16 inodes: after any writes of slots, a slot holds
the last inode written to it, or what it held before. -/
theorem slots_hold_last (block : Block) (writes : List (Fin 16 × Inode)) (t : Fin 16) :
    inodeUnpack (slotBytes (writes.foldl (fun b w => setSlot b w.1 w.2) block) t) =
      ((writes.reverse.find? (fun w => w.1 = t)).map Prod.snd).or
        (inodeUnpack (slotBytes block t)) := by
  induction writes using List.reverseRecOn with
  | nil => rfl
  | append_singleton writes w ih =>
    rw [List.foldl_concat, List.reverse_concat, List.find?_cons,
      inodeUnpack_setSlot _ _ w.1.isLt t.isLt, ih]
    by_cases hw : w.1 = t
    · simp [hw]
    · simp [hw, Fin.val_inj, Ne.symm hw]

end MichCore.Adytumfs
