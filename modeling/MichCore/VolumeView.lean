import MichCore.AdytumInode

/-!
# What a window shows

A metadata block answers from the staging when the window has touched it and from the active set
otherwise. Reads through the format layer return this view and leave the world as it is.
-/
namespace MichCore.Adytumfs
open Routine

/-- Memory of the format layer over a flat device. -/
abbrev World := Config Mem Flat

/-- The volume of the in-memory superblock lies on the device and nothing out of
bounds has happened. -/
structure Mounted (c : World) : Prop where
  layout : Layout c.mem.super
  fits : c.mem.super.totalBlocks.toNat ≤ c.store.blocks
  small : c.store.sectorCount < 2 ^ 32
  tame : c.store.wild = false

/-- Number of table or bitmap blocks of a metadata set. -/
def metaBlocks (super : Superblock) (isTable : Bool) : ℕ :=
  if isTable then super.inodeTableBlocks.toNat else super.blockBitmapBlocks.toNat

/-- Staging entry of a metadata block, by its full index. -/
def stagedAt (m : Mem) (isTable : Bool) (index : ℕ) : Option (Fin 32) :=
  (List.finRange 32).find? (fun e => (m.staging e).device = some m.device ∧
    (m.staging e).isTable = isTable ∧ (m.staging e).index.toNat = index)

variable {index : ℕ} {b : ℕ}

/-- Below 256 the byte comparison of `staging_find` is exact. -/
theorem stagingFind_eq (m : Mem) (isTable : Bool) (h : index < 256) :
    stagingFind m isTable index = stagedAt m isTable index := by
  have hkey : ∀ x : UInt8, x = UInt8.ofNat index ↔ x.toNat = index := by
    intro x
    rw [← UInt8.toNat_inj, UInt8.toNat_ofNat', Nat.mod_eq_of_lt (by omega)]
  simp only [stagingFind, stagedAt, Staged.Is, hkey]

/-- Block `index` of the active metadata set on the device. -/
def committedBlock (c : World) (isTable : Bool) (index : ℕ) : Block :=
  c.store.blk (slotBase c.mem.super isTable c.mem.super.activeSlot + index)

/-- The same block as the open window sees it. -/
def viewBlock (c : World) (isTable : Bool) (index : ℕ) : Block :=
  match stagedAt c.mem isTable index with
  | some e => (c.mem.staging e).image
  | none => committedBlock c isTable index

/-- Allocation bit of a block in the committed generation. -/
def committedBit (c : World) (block : ℕ) : Bool :=
  (committedBlock c false (block / 32768)).testBit (block % 32768)

/-- Inode of a slot in the window; `none` when a used slot has a bad checksum. -/
def inodeAt (c : World) (inodeNum : ℕ) : Option Inode :=
  inodeUnpack (slotBytes (viewBlock c true (inodeNum / 16)) (inodeNum % 16))

section Requests
variable {c : World}

theorem exec_getSuper : exec flatStore getSuper c = (some c.mem.super, c) := rfl

theorem exec_blockRead (hb : b < c.store.blocks) :
    exec flatStore (blockRead b) c = (some (c.store.blk b), c) := by
  have hreq : exec flatStore (request (Req.read b) : Fs (Option Block)) c =
      (some (some (c.store.blk b)), c) :=
    exec_request_eq flatStore c (if_pos hb)
  rw [blockRead, exec_bind, hreq]
  rfl

theorem exec_blockWrite (image : Block) (hb : b < c.store.blocks) (hw : c.store.readOnly = false) :
    exec flatStore (blockWrite b image) c = (some (), ⟨c.mem, c.store.setBlock b image⟩) := by
  have hreq : exec flatStore (request (Req.write b image) : Fs Bool) c =
      (some true, ⟨c.mem, c.store.setBlock b image⟩) :=
    exec_request_eq flatStore c (if_pos ⟨hb, hw⟩)
  rw [blockWrite, exec_bind, hreq]
  rfl

theorem exec_cacheFlush : exec flatStore cacheFlush c =
    (some (), ⟨c.mem, { c.store with dirty := fun _ => false }⟩) := rfl

end Requests

namespace Mounted
variable {c : World} (h : Mounted c)
include h

theorem slotBase_lt (isTable slot : Bool) (hi : index < metaBlocks c.mem.super isTable) :
    slotBase c.mem.super isTable slot + index < c.store.blocks := by
  have ho := h.layout.order slot
  have hf := h.fits
  cases isTable <;>
    simp only [metaBlocks, slotBase, if_true, Bool.false_eq_true, if_false] at hi ⊢ <;> omega

theorem bitmap_index {block : ℕ} (hb : block < c.mem.super.totalBlocks.toNat) :
    block / 32768 < metaBlocks c.mem.super false := by
  have := h.layout.bitmapBlocks
  change _ < c.mem.super.blockBitmapBlocks.toNat
  omega

theorem table_index {inodeNum : ℕ} (hn : inodeNum < c.mem.super.inodeCount.toNat) :
    inodeNum / 16 < metaBlocks c.mem.super true := by
  have := h.layout.inodeMax
  change _ < c.mem.super.inodeTableBlocks.toNat
  omega

theorem total_lt : c.mem.super.totalBlocks.toNat < 2 ^ 29 := by
  have h1 := h.fits
  have h2 := h.small
  unfold Flat.blocks at h1
  omega

end Mounted

section Reads
variable {c : World} (h : Mounted c)
include h

theorem exec_readCommitted (isTable : Bool) (hi : index < metaBlocks c.mem.super isTable) :
    exec flatStore (blockRead (slotBase c.mem.super isTable c.mem.super.activeSlot + index)) c =
      (some (committedBlock c isTable index), c) :=
  exec_blockRead (h.slotBase_lt isTable _ hi)

theorem exec_tableRead (hi : index < metaBlocks c.mem.super true) :
    exec flatStore (tableRead index) c = (some (viewBlock c true index), c) := by
  have hmax := h.layout.tableMax
  have hs : index < 256 := by
    change _ < c.mem.super.inodeTableBlocks.toNat at hi
    omega
  rw [tableRead, exec_bind, exec_getMem, follow_some, viewBlock, stagingFind_eq _ _ hs]
  cases stagedAt c.mem true index with
  | some e => rfl
  | none => exact exec_readCommitted h true hi

theorem exec_inodeRead (inodeNum : ℕ) : exec flatStore (inodeRead inodeNum) c =
    (if inodeNum = 0 ∨ c.mem.super.inodeCount.toNat ≤ inodeNum then none
      else inodeAt c inodeNum, c) := by
  rw [inodeRead, exec_bind, exec_getSuper, follow_some]
  by_cases hr : inodeNum = 0 ∨ c.mem.super.inodeCount.toNat ≤ inodeNum
  · rw [if_pos hr, if_pos hr, exec_fail]
  · rw [if_neg hr, if_neg hr, exec_bind, exec_tableRead h (h.table_index (by omega)), follow_some,
      inodeAt]
    cases inodeUnpack (slotBytes (viewBlock c true (inodeNum / 16)) (inodeNum % 16)) <;> rfl

end Reads

/-- What a block says when it is read as a superblock on `n` device blocks. -/
def soundOf (n : ℕ) (image : Block) : Option (Superblock × Bool) :=
  (superUnpack image).map (fun super => (super, superValid super (UInt64.ofNat n)))

/-- The superblock `adytumfs_super_read` picks from the contents of a device. -/
def superReadOf (n : ℕ) (blk : ℕ → Block) : Option Superblock :=
  let primary := soundOf n (blk 0)
  let backup := backupBlock primary n
  pickSuper primary (if 0 < backup then soundOf n (blk backup) else none)

theorem toNat_deviceBlocks {n : ℕ} (hn : n < 2 ^ 32) : (UInt64.ofNat n).toNat = n := by
  rw [UInt64.toNat_ofNat', Nat.mod_eq_of_lt (by omega)]

theorem backupBlock_lt {n : ℕ} (hn : n < 2 ^ 32) (hpos : 1 ≤ n) (image : Block) :
    backupBlock (soundOf n image) n < n := by
  rw [soundOf]
  cases superUnpack image with
  | none => simp only [Option.map_none, backupBlock]; omega
  | some super =>
    simp only [Option.map_some]
    cases hv : superValid super (UInt64.ofNat n) with
    | false => simp only [backupBlock]; omega
    | true =>
      have hdev := toNat_deviceBlocks hn
      obtain ⟨-, -, hto, hL⟩ := (superValid_iff super _ (by rw [hdev]; omega)).mp hv
      have hl := hL.superblockSlot_true
      have hta := hL.tail
      rw [superblockSlot, if_pos rfl] at hl
      simp only [backupBlock]
      omega

theorem exec_soundSuper {c : World} (n : ℕ) (hb : b < c.store.blocks) :
    exec flatStore (soundSuper n b) c = (some (soundOf n (c.store.blk b)), c) := by
  rw [soundSuper, exec_bind, exec_attempt, exec_blockRead hb]
  rfl

theorem exec_superRead {c : World} (hsm : c.store.sectorCount < 2 ^ 32)
    (hpos : 1 ≤ c.store.blocks) :
    exec flatStore superRead c = (superReadOf c.store.blocks c.store.blk, c) := by
  have hi : exec flatStore blockInfo c = (some (c.store.sectorCount, c.store.readOnly), c) := rfl
  have hn : c.store.blocks < 2 ^ 32 := by unfold Flat.blocks; omega
  have hba := backupBlock_lt hn hpos (c.store.blk 0)
  rw [superRead, exec_bind, hi, follow_some]
  change exec flatStore (if c.store.blocks < 1 then fail else _) c = _
  rw [if_neg (by omega), exec_bind]
  change follow flatStore _ (exec flatStore (soundSuper c.store.blocks 0) c) = _
  rw [exec_soundSuper _ (by omega), follow_some, exec_bind]
  have hse : ∀ b < c.store.blocks, exec flatStore (backupSuper c.store.blocks b) c =
      (some (if 0 < b then soundOf c.store.blocks (c.store.blk b) else none), c) := by
    intro b hb
    rw [backupSuper]
    split_ifs
    · exact exec_soundSuper _ hb
    · rfl
  change follow flatStore _ (exec flatStore (backupSuper c.store.blocks
    (backupBlock (soundOf c.store.blocks (c.store.blk 0)) c.store.blocks)) c) = _
  rw [hse _ hba, follow_some, superReadOf]
  cases pickSuper (soundOf c.store.blocks (c.store.blk 0)) _ <;> rfl

theorem stagedAt_of_closed {m : Mem} (h : windowOpen m = false) (isTable : Bool) (index : ℕ) :
    stagedAt m isTable index = none := by
  rw [stagedAt, List.find?_eq_none]
  intro e he
  rw [windowOpen, List.any_eq_false] at h
  have hdev := h e he
  simp only [decide_eq_true_eq] at hdev ⊢
  exact fun his => hdev his.1

theorem viewBlock_of_closed {c : World} (h : windowOpen c.mem = false) (isTable : Bool)
    (index : ℕ) : viewBlock c isTable index = committedBlock c isTable index := by
  rw [viewBlock, stagedAt_of_closed h]

end MichCore.Adytumfs
