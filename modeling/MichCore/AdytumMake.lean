import MichCore.AdytumInode

/-!
# Formatting

`adytumfs_make`, in 64-bit unsigned arithmetic. Every turn of a loop is counted, so the work can
be compared with the size of the device.
-/
namespace MichCore.Adytumfs
open Routine

/-- Memory of a format: the loop turns made so far. -/
structure MakeMem where
  clock : UInt64
  steps : ℕ

abbrev MakeR := Routine Req Ans MakeMem

def MakeMem.charged (m : MakeMem) (n : ℕ) : MakeMem := { m with steps := m.steps + n }

def charge (n : ℕ) : MakeR Unit := modifyMem (·.charged n)

def makeWrite (block : ℕ) (image : Block) : MakeR Unit := do
  let answer : Bool ← request (Req.write block image)
  if answer then pure () else fail

/-- The solver loop for the size of the checksum region: final size and turns.
The counter is a u64, so `2 ^ 64` turns are never used up. -/
def regionLoop (dataSpan : UInt64) : ℕ → UInt64 → ℕ → UInt64 × ℕ
  | 0, regionBlocks, turns => (regionBlocks, turns)
  | fuel + 1, regionBlocks, turns =>
    if (dataSpan - regionBlocks + 1024 - 1) / 1024 > regionBlocks then
      regionLoop dataSpan fuel (regionBlocks + 1) (turns + 1)
    else (regionBlocks, turns)

def bitmapBlocksOf (totalBlocks : UInt64) : UInt64 := (totalBlocks + 32768 - 1) / 32768

def tableBlocksOf (totalBlocks : UInt64) : UInt64 :=
  let blocks := if totalBlocks / 32 > 16 then 16 else totalBlocks / 32
  if blocks = 0 then 1 else blocks

def tailBaseOf (totalBlocks : UInt64) : UInt64 :=
  totalBlocks - 1 - bitmapBlocksOf totalBlocks - tableBlocksOf totalBlocks

def dataStartOf (totalBlocks : UInt64) : UInt64 :=
  1 + bitmapBlocksOf totalBlocks + tableBlocksOf totalBlocks

/-- The superblock of a fresh volume with a checksum region of the given size. -/
def makeSuper (totalBlocks regionBlocks : UInt64) : Superblock :=
  let dataBlocks := tailBaseOf totalBlocks - dataStartOf totalBlocks - regionBlocks
  { formatVersion := 2
    blockSize := 4096
    totalBlocks := totalBlocks
    blockBitmapStart := 1
    blockBitmapBlocks := bitmapBlocksOf totalBlocks
    inodeTableStart := 1 + bitmapBlocksOf totalBlocks
    inodeTableBlocks := tableBlocksOf totalBlocks
    inodeCount := tableBlocksOf totalBlocks * 16
    rootInode := 1
    dataStart := dataStartOf totalBlocks
    freeBlocks := dataBlocks
    freeInodes := tableBlocksOf totalBlocks * 16 - 2
    generation := 1
    featureCompat := 0
    featureIncompat := 1
    featureRoCompat := 0
    dataChecksumRegion := dataStartOf totalBlocks + dataBlocks
    activeSlot := false }

/-- Bitmap block number `bitmap` of a fresh volume: one turn per block of the
volume. -/
def makeBitmap (super : Superblock) (bitmap : ℕ) : Block :=
  (List.range super.totalBlocks.toNat).foldl (fun block used =>
    if outsideData super used ∧ bitmap * 32768 ≤ used ∧ used - bitmap * 32768 < 32768 then
      block.setBit (used - bitmap * 32768)
    else block) Image.zero

/-- The inode of an empty root directory. -/
def rootInode (now : UInt64) : Inode :=
  { Inode.zero with
    mode := modeDir ||| 0o755
    links := 2
    generation := 1
    atime := now
    mtime := now
    ctime := now }

def makeTable (table : ℕ) (now : UInt64) : Block :=
  if table = 0 then setSlot Image.zero 1 (rootInode now) else Image.zero

/-- Write both copies of a run of metadata blocks; a block costs `turns` turns. -/
def makeCopies (turns : ℕ) (start shadow : UInt64) (image : ℕ → Block) : ℕ → ℕ → MakeR Unit
  | _, 0 => pure ()
  | index, n + 1 => do
    charge turns
    makeWrite (start + UInt64.ofNat index).toNat (image index)
    makeWrite (shadow + UInt64.ofNat index).toNat (image index)
    makeCopies turns start shadow image (index + 1) n

/-- `for (bitmap = 0; …)`: a turn clears the block and runs over the volume. -/
def makeBitmaps (super : Superblock) (shadow : UInt64) : MakeR Unit :=
  makeCopies (1 + 4096 + super.totalBlocks.toNat) super.blockBitmapStart shadow
    (makeBitmap super) 0 super.blockBitmapBlocks.toNat

/-- `for (table = 0; …)`: a turn clears the block. -/
def makeTables (super : Superblock) (shadow : UInt64) : MakeR Unit := do
  let now := (← getMem).clock
  makeCopies (1 + 4096) super.inodeTableStart shadow
    (fun table => makeTable table now) 0 super.inodeTableBlocks.toNat

/-- `for (region = 0; …)`: an unowned block carries checksum zero. -/
def makeRegion (start : UInt64) : ℕ → ℕ → MakeR Unit
  | _, 0 => pure ()
  | region, n + 1 => do
    charge 1
    makeWrite (start + UInt64.ofNat region).toNat Image.zero
    makeRegion start (region + 1) n

/-- The writes of a format, once the layout is solved. -/
def makeVolume (super : Superblock) (regionBlocks : UInt64) : MakeR Unit := do
  makeWrite 0 (superPack super)
  makeWrite (super.totalBlocks - 1).toNat (superPack super)
  let tail := tailBaseOf super.totalBlocks
  makeBitmaps super (tail + super.inodeTableBlocks)
  makeTables super tail
  makeRegion super.dataChecksumRegion 0 regionBlocks.toNat
  let answer : Bool ← request Req.flush
  if answer then pure () else fail

/-- `adytumfs_make`. -/
def make : MakeR Unit := do
  let info : ℕ × Bool ← request Req.info
  if info.2 then fail
  else
    let totalBlocks := UInt64.ofNat (info.1 / 8)
    if totalBlocks < 1 ∨ tailBaseOf totalBlocks ≤ dataStartOf totalBlocks then fail
    else do
      let span := tailBaseOf totalBlocks - dataStartOf totalBlocks
      let solved := regionLoop span (2 ^ 64) 1 0
      charge solved.2
      if span - solved.1 = 0 then fail
      else makeVolume (makeSuper totalBlocks solved.1) solved.1

end MichCore.Adytumfs
