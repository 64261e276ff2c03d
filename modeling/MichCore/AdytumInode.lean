import MichCore.AdytumVolume

/-!
# Inodes and directories

`adytumfs_inode.c` and `adytumfs_dir.c`, as far as the audit and the listing of a directory use
them. The records of a directory block follow each other by their lengths; a malformed record ends
the walk.
-/
namespace MichCore.Adytumfs
open Routine

def inodeRead (inodeNum : ℕ) : Fs Inode := do
  let super ← getSuper
  if inodeNum = 0 ∨ super.inodeCount.toNat ≤ inodeNum then fail
  else do
    let block ← tableRead (inodeNum / 16)
    match inodeUnpack (slotBytes block (inodeNum % 16)) with
    | some inode => pure inode
    | none => fail

/-- `adytumfs_inode_map` over the slots from logical block `base` on. -/
def mapFrom : List Extent → ℕ → ℕ → Option UInt64
  | [], _, _ => none
  | e :: rest, base, logical =>
    if e.length = 0 then none
    else if logical < base + e.length.toNat then
      some (e.startBlock + UInt64.ofNat (logical - base))
    else mapFrom rest (base + e.length.toNat) logical

def inodeMap (inode : Inode) (logical : ℕ) : Option UInt64 := mapFrom inode.direct.slots 0 logical

/-- `adytumfs_inode_map` with its result code. -/
def mapBlock (inode : Inode) (logical : ℕ) : Fs ℕ :=
  match inodeMap inode logical with
  | some physical => pure physical.toNat
  | none => fail

/-- Header of a record, with its offset in the block. -/
structure Record where
  offset : ℕ
  inode : UInt64
  recLen : ℕ
  nameLen : ℕ
  type : UInt8
  deriving DecidableEq, Repr

def recordAt (block : Block) (offset : ℕ) : Record where
  offset := offset
  inode := readLe64 block.byte offset
  recLen := (readLe16 block.byte (offset + 8)).toNat
  nameLen := (block.byte (offset + 10)).toNat
  type := block.byte (offset + 11)

/-- `rec_len < ADYTUMFS_DIR_HEADER || offset + rec_len > ADYTUMFS_BLOCK_SIZE`. -/
def Record.malformed (r : Record) : Bool := r.recLen < 12 || 4096 < r.offset + r.recLen

/-- The inode of a directory. -/
def dirInode (inodeNum : ℕ) : Fs Inode := do
  let dir ← inodeRead inodeNum
  if dir.mode &&& modeDir = 0 then fail else pure dir

/-- What `adytumfs_dir_iter` hands out for a record in use. -/
structure DirEntry where
  name : List UInt8
  inode : UInt64
  type : UInt8
  deriving DecidableEq, Repr

/-- The loop of `adytumfs_dir_iter`: the next entry at or after `cursor` with the
cursor behind it, `none` at the end. Every turn advances the cursor, so `turns`
beyond the size of the directory are enough. -/
def dirIterFrom (dir : Inode) (total : ℕ) : ℕ → ℕ → Fs (Option (ℕ × DirEntry))
  | 0, _ => pure none
  | turns + 1, cursor =>
    if total < cursor + 12 then pure none
    else do
      let physical ← mapBlock dir (cursor / 4096)
      let block ← dataRead physical
      let r := recordAt block (cursor % 4096)
      if r.malformed then fail
      else if r.inode = 0 then dirIterFrom dir total turns (cursor + r.recLen)
      else if r.recLen < 12 + r.nameLen then fail
      else pure (some (cursor + r.recLen,
        ⟨(List.range r.nameLen).map (fun j => block.byte (cursor % 4096 + 12 + j)), r.inode,
          r.type⟩))

/-- `adytumfs_dir_iter`. -/
def dirIter (inodeNum cursor : ℕ) : Fs (Option (ℕ × DirEntry)) := do
  let dir ← dirInode inodeNum
  let total := (dir.blocks * 4096).toNat
  dirIterFrom dir total (total + 1) cursor

end MichCore.Adytumfs
