import MichCore.Geometry

/-!
# The volume layer of AdytumFS

`adytumfs_volume.c` and `adytumfs_super_read`: block access, data checksums, the staging pool of
an open window, the allocation bits, and the commit to the inactive metadata set. Block numbers
are natural numbers; the cache interface takes them modulo 2 to the 32.
-/
namespace MichCore.Adytumfs
open Routine

/-- `struct adytumfs_staged`. -/
structure Staged where
  device : Option ℕ
  isTable : Bool
  index : UInt8
  image : Block

/-- What the format layer keeps in memory. -/
structure Mem where
  device : ℕ
  super : Superblock
  /-- The pool of `ADYTUMFS_STAGING_POOL` entries, shared by all volumes. -/
  staging : Fin 32 → Staged

abbrev Fs := Routine Req Ans Mem

def getSuper : Fs Superblock := do pure (← getMem).super

def setSuper (super : Superblock) : Fs Unit := modifyMem (fun m => { m with super := super })

def blockRead (block : ℕ) : Fs Block := do
  let answer : Option Block ← request (Req.read block)
  match answer with
  | some image => pure image
  | none => fail

def blockWrite (block : ℕ) (image : Block) : Fs Unit := do
  let answer : Bool ← request (Req.write block image)
  if answer then pure () else fail

def cacheFlush : Fs Unit := do
  let answer : Bool ← request Req.flush
  if answer then pure () else fail

def cacheInvalidate (block : ℕ) : Fs Unit := request (Req.invalidate block)

def blockInfo : Fs (ℕ × Bool) := request Req.info

/-- `block < data_start || block >= data_checksum_region`. -/
def outsideData (super : Superblock) (block : ℕ) : Bool :=
  block < super.dataStart.toNat || super.dataChecksumRegion.toNat ≤ block

/-- Region block of a data block and the place of its checksum there. -/
def checksumBlock (super : Superblock) (block : ℕ) : ℕ :=
  super.dataChecksumRegion.toNat + (block - super.dataStart.toNat) / 1024

def checksumOffset (super : Superblock) (block : ℕ) : ℕ :=
  (block - super.dataStart.toNat) % 1024 * 4

def dataCheck (block : ℕ) (bytes : Block) : Fs Unit := do
  let super ← getSuper
  if outsideData super block then fail
  else do
    let region ← blockRead (checksumBlock super block)
    if readLe32 region.byte (checksumOffset super block) = crc32c bytes.byte 4096 then pure ()
    else fail

def dataRead (block : ℕ) : Fs Block := do
  let bytes ← blockRead block
  dataCheck block bytes
  pure bytes

/-- A copy of the superblock whose checksum verifies, and whether it is valid. -/
def soundSuper (deviceBlocks block : ℕ) : Fs (Option (Superblock × Bool)) := do
  match (← attempt (blockRead block)) with
  | none => pure none
  | some image => pure ((superUnpack image).map
      (fun super => (super, superValid super (UInt64.ofNat deviceBlocks))))

/-- Position of the backup copy: the last block of a readable primary's volume,
the last block of the device otherwise. -/
def backupBlock (primary : Option (Superblock × Bool)) (deviceBlocks : ℕ) : ℕ :=
  match primary with
  | some (super, true) => (super.totalBlocks - 1).toNat
  | _ => deviceBlocks - 1

/-- The newest sound copy, provided it is valid. -/
def pickSuper (primary backup : Option (Superblock × Bool)) : Option Superblock :=
  match primary, backup with
  | none, none => none
  | some (super, valid), none => if valid then some { super with activeSlot := false } else none
  | none, some (super, valid) => if valid then some { super with activeSlot := true } else none
  | some (super, valid), some (super', valid') =>
    if super'.generation > super.generation then
      if valid' then some { super' with activeSlot := true } else none
    else if valid then some { super with activeSlot := false } else none

def backupSuper (deviceBlocks backup : ℕ) : Fs (Option (Superblock × Bool)) :=
  if 0 < backup then soundSuper deviceBlocks backup else pure none

/-- `adytumfs_super_read`. -/
def superRead : Fs Superblock := do
  let info ← blockInfo
  let deviceBlocks := info.1 / 8
  if deviceBlocks < 1 then fail
  else do
    let primary ← soundSuper deviceBlocks 0
    let second ← backupSuper deviceBlocks (backupBlock primary deviceBlocks)
    match pickSuper primary second with
    | some super => pure super
    | none => fail

def Staged.Is (e : Staged) (device : ℕ) (isTable : Bool) (index : ℕ) : Prop :=
  e.device = some device ∧ e.isTable = isTable ∧ e.index = UInt8.ofNat index

instance (e : Staged) (device : ℕ) (isTable : Bool) (index : ℕ) :
    Decidable (e.Is device isTable index) := by
  unfold Staged.Is; infer_instance

/-- `staging_find`: the index is compared as the byte it travels in. -/
def stagingFind (m : Mem) (isTable : Bool) (index : ℕ) : Option (Fin 32) :=
  (List.finRange 32).find? (fun e => (m.staging e).Is m.device isTable index)

def setStaged (m : Mem) (e : Fin 32) (s : Staged) : Mem :=
  { m with staging := Function.update m.staging e s }

/-- First block of a metadata set. -/
def slotBase (super : Superblock) (isTable slot : Bool) : ℕ :=
  if isTable then (tableSlotBase super slot).toNat else (bitmapSlotBase super slot).toNat

def stagingClaim (isTable : Bool) (index : ℕ) : Fs (Fin 32) := do
  if 255 < index then fail
  else do
    let m ← getMem
    match stagingFind m isTable index with
    | some e => pure e
    | none =>
      match (List.finRange 32).find? (fun e => (m.staging e).device = none) with
      | none => fail
      | some e => do
        let image ← blockRead (slotBase m.super isTable m.super.activeSlot + index)
        modifyMem (setStaged · e ⟨some m.device, isTable, UInt8.ofNat index, image⟩)
        pure e

/-- `adytumfs_window_discard`. -/
def windowDiscard : Fs Unit := modifyMem (fun m => { m with
  staging := fun e => if (m.staging e).device = some m.device then
    { m.staging e with device := none } else m.staging e })

def tableRead (index : ℕ) : Fs Block := do
  let m ← getMem
  match stagingFind m true index with
  | some e => pure (m.staging e).image
  | none => blockRead (slotBase m.super true m.super.activeSlot + index)

def tableStage (index : ℕ) (image : Block) : Fs Unit := do
  let e ← stagingClaim true index
  modifyMem (fun m => setStaged m e { m.staging e with image := image })

/-- `adytumfs_bit_write`. -/
def bitWrite (block : ℕ) (used : Bool) : Fs Unit := do
  let super ← getSuper
  if super.blockBitmapBlocks.toNat ≤ block / 32768 then fail
  else do
    let e ← stagingClaim false (block / 32768 % 2 ^ 32)
    modifyMem (fun m => setStaged m e { m.staging e with
      image := if used then (m.staging e).image.setBit (block % 32768)
        else (m.staging e).image.clearBit (block % 32768) })

/-- Land one staged block in a metadata set. -/
def landEntry (super : Superblock) (slot : Bool) (s : Staged) : Fs Unit :=
  blockWrite (slotBase super s.isTable slot + s.index.toNat) s.image

def landEntries (slot : Bool) : List (Fin 32) → Fs Unit
  | [] => pure ()
  | e :: rest => do
    let m ← getMem
    if (m.staging e).device = some m.device then do
      landEntry m.super slot (m.staging e)
      landEntries slot rest
    else landEntries slot rest

/-- Does the volume have an open window? -/
def windowOpen (m : Mem) : Bool :=
  (List.finRange 32).any (fun e => (m.staging e).device = some m.device)

/-- The superblock of the next generation. -/
def nextSuper (super : Superblock) : Superblock :=
  { super with generation := super.generation + 1, activeSlot := !super.activeSlot }

/-- `adytumfs_commit`. -/
def commit : Fs Unit := do
  let m ← getMem
  if windowOpen m = false then pure ()
  else do
    let inactive := !m.super.activeSlot
    landEntries inactive (List.finRange 32)
    cacheFlush
    let flip := (superblockSlot m.super.totalBlocks inactive).toNat
    blockWrite flip (superPack (nextSuper m.super))
    match (← attempt cacheFlush) with
    | none => do
      cacheInvalidate flip
      fail
    | some _ => do
      setSuper (nextSuper m.super)
      windowDiscard

end MichCore.Adytumfs
