import MichCore.AdytumInode

/-!
# The mount audit

`adytumfs_verify`: one claim per live extent of the inode table, a pass over the bitmap, and the
comparison of the two and of the superblock's counters. The bitmap block read last is kept
between bit tests, as `verify_bitmap_window` does.
-/
namespace MichCore.Adytumfs
open Routine

/-- `struct verify_claim`. -/
structure Claim where
  start : ℕ
  length : ℕ
  deriving DecidableEq, Repr

/-- The bitmap block of the current window; no window before the first test. -/
def Window := Option (ℕ × Block)

/-- The kept image when the window already shows bitmap block `index`. -/
def Window.shows (window : Window) (index : ℕ) : Option Block :=
  match window with
  | some (index', image) => if index' = index then some image else none
  | none => none

def verifyBit (window : Window) (block : ℕ) : Fs (Bool × Window) := do
  let super ← getSuper
  let index := block / 32768
  if super.blockBitmapBlocks.toNat ≤ index then fail
  else match window.shows index with
    | some image => pure (image.testBit (block % 32768), some (index, image))
    | none => do
      let image ← blockRead (slotBase super false super.activeSlot + index % 2 ^ 32)
      pure (image.testBit (block % 32768), some (index, image))

/-- The extent loop for one inode: claims so far, and the blocks they map. -/
def verifyExtents (super : Superblock) : List Extent → Bool → List Claim → ℕ →
    Option (List Claim × ℕ)
  | [], _, claims, mapped => some (claims, mapped)
  | e :: rest, terminated, claims, mapped =>
    if e.length = 0 then verifyExtents super rest true claims mapped
    else if terminated then none
    else if outsideData super e.startBlock.toNat ∨
        super.dataChecksumRegion.toNat - e.startBlock.toNat < e.length.toNat then none
    else if 2560 ≤ claims.length then none
    else verifyExtents super rest false (claims ++ [⟨e.startBlock.toNat, e.length.toNat⟩])
      (mapped + e.length.toNat)

/-- Exactly one of the three type bits. -/
def plainType (mode : UInt16) : Bool :=
  let bits := mode &&& (modeDir ||| modeReg ||| modeLnk)
  bits = modeDir || bits = modeReg || bits = modeLnk

/-- The table pass over the `n` inodes from `inode` on. -/
def verifyInodes : ℕ → ℕ → List Claim → ℕ → Fs (List Claim × ℕ)
  | _, 0, claims, freeInodes => pure (claims, freeInodes)
  | inodeNum, n + 1, claims, freeInodes => do
    let inode ← inodeRead inodeNum
    if inode.mode = 0 then verifyInodes (inodeNum + 1) n claims (freeInodes + 1)
    else if plainType inode.mode = false then fail
    else do
      let super ← getSuper
      match verifyExtents super inode.direct.slots false claims 0 with
      | none => fail
      | some (claims', mapped) =>
        if inode.blocks.toNat ≠ mapped then fail
        else verifyInodes (inodeNum + 1) n claims' freeInodes

/-- The bitmap pass over the `n` blocks from `block` on: number of data blocks
whose bit is set. -/
def verifyBitmap : ℕ → ℕ → ℕ → Window → Fs (ℕ × Window)
  | _, 0, allocated, window => pure (allocated, window)
  | block, n + 1, allocated, window => do
    let super ← getSuper
    let (bit, window) ← verifyBit window block
    if outsideData super block then
      if bit = false then fail else verifyBitmap (block + 1) n allocated window
    else verifyBitmap (block + 1) n (if bit then allocated + 1 else allocated) window

/-- Every block of one claim has its bit set. -/
def verifyRun : ℕ → ℕ → Window → Fs Window
  | _, 0, window => pure window
  | block, n + 1, window => do
    let (bit, window) ← verifyBit window block
    if bit = false then fail else verifyRun (block + 1) n window

/-- The bit pass over the claims: number of claimed blocks. -/
def verifyClaims : List Claim → ℕ → Window → Fs ℕ
  | [], claimed, _ => pure claimed
  | c :: rest, claimed, window => do
    let window ← verifyRun c.start c.length window
    verifyClaims rest (claimed + c.length) window

def Claim.overlaps (a b : Claim) : Bool :=
  a.start < b.start + b.length && b.start < a.start + a.length

/-- The double loop over pairs of claims. -/
def overlapFree : List Claim → Bool
  | [] => true
  | c :: rest => rest.all (fun c' => !c.overlaps c') && overlapFree rest

/-- `adytumfs_verify`. -/
def verify : Fs Unit := do
  let super ← getSuper
  let (claims, freeInodes) ← verifyInodes 1 (super.inodeCount.toNat - 1) [] 0
  let (allocated, window) ← verifyBitmap 0 super.totalBlocks.toNat 0 none
  let claimed ← verifyClaims claims 0 window
  if overlapFree claims = false then fail
  else if claimed ≠ allocated then fail
  else if super.freeInodes.toNat ≠ freeInodes then fail
  else if super.freeBlocks ≠
      super.dataChecksumRegion - super.dataStart - UInt64.ofNat allocated then fail
  else pure ()

end MichCore.Adytumfs
