import MichCore.Vfs

/-!
# Mounting and unmounting

`vfs_mount_bootfs`, `vfs_mount_adytumfs` and `vfs_unmount`. A mount fills free node slots and
gives them all up again when a step fails. What the volume reports is an argument.
-/
namespace MichCore.Vfs.Tables

/-- One node of a mount: its slot, its fields, and whether its symlink target was read. -/
structure Plan where
  slot : Fin 64
  node : Node
  ready : Bool

/-- Create the nodes in turn; the answer is the number of kernel objects still free. A failure
gives up the slot at hand and the nodes created so far. -/
def install : List Plan → ℕ → List (Fin 64) → Tables → Option ℕ × Tables
  | [], spare, _, s => (some spare, s)
  | plan :: plans, spare, created, s =>
    if plan.ready = false ∨ spare = 0 then
      (none, (s.setNode plan.slot { plan.node with active := false }).releaseAll created)
    else
      install plans (spare - 1) (created ++ [plan.slot])
        (s.setNode plan.slot { plan.node with references := 1 })

/-- The end of a mount: a reference to the root and one to the mountpoint, and the mount
object. -/
def finishMount (s : Tables) (k : Fin 8) (root directory : Fin 64) (filesystem : Filesystem)
    (created : List (Fin 64)) (spare : ℕ) : Bool × Tables :=
  match s.retain root with
  | none =>
    let s := if 1 < (s.nodes root).references then s.release root else s
    (false, s.releaseAll created)
  | some s =>
    match s.retain directory with
    | none =>
      let s := if 1 < (s.nodes root).references then s.release root else s
      (false, s.releaseAll created)
    | some s =>
      if spare = 0 then
        let s := s.setMount k ⟨false, none, none, (s.mounts k).generation, .none⟩
        (false, ((s.release directory).release root).releaseAll created)
      else
        (true, s.setMount k ⟨true, some root, some directory, (s.mounts k).generation, filesystem⟩)

def freeMount (s : Tables) : Option (Fin 8) :=
  (List.finRange 8).find? (fun k => k ≠ 0 ∧ (s.mounts k).active = false)

def freeNodes (s : Tables) : List (Fin 64) :=
  (List.finRange 64).filter (fun i => i ≠ 0 ∧ (s.nodes i).active = false)

structure BootEntry where
  name : Name
  hasData : Bool
  size : UInt32
  deriving DecidableEq, Repr

/-- At most `VFS_BOOTFS_ENTRY_MAX` = 16 entries with distinct valid names and some data. -/
def BootEntriesOk (entries : List BootEntry) : Prop :=
  entries ≠ [] ∧ entries.length ≤ 16 ∧
    (∀ e ∈ entries, validName e.name ∧ e.hasData ∧ e.size ≠ 0 ∧ e.size ≤ 0x100000) ∧
    (entries.map BootEntry.name).Nodup
  deriving Decidable

/-- A node of the boot filesystem; `parent` is `none` for its root. -/
def bootNode (s : Tables) (k : Fin 8) (slot : Fin 64) (parent : Option (Fin 64)) (name : Name)
    (size : UInt32) : Node :=
  { s.nodes slot with
    active := true, linked := true, name := name, parent := parent,
    type := if parent = none then .directory else .regular, size := size,
    filesystem := .bootfs, mount := some k, mountGeneration := (s.mounts k).generation,
    readonly := true, mode := 0o555, fsId := 0 }

def bootPlans (s : Tables) (k : Fin 8) (pointName : Name) (root : Fin 64)
    (slots : List (Fin 64)) (entries : List BootEntry) : List Plan :=
  ⟨root, s.bootNode k root none pointName 0, true⟩ ::
    (slots.zip entries).map
      (fun pair => ⟨pair.1, s.bootNode k pair.1 (some root) pair.2.name pair.2.size, true⟩)

/-- `vfs_mount_bootfs` -/
def mountBootfs (s : Tables) (directory : Option (Fin 64)) (entries : List BootEntry)
    (spare : ℕ) : Bool × Tables :=
  match s.nodeFor directory with
  | none => (false, s)
  | some d =>
    let point := s.nodes d
    if point.type ≠ .directory ∨ point.linked = false ∨ point.readonly ∨
        ¬ BootEntriesOk entries ∨ s.childCount d ≠ 0 ∨ s.mountForPoint d ≠ none then
      (false, s)
    else
      match s.freeMount, s.freeNodes.take (entries.length + 1) with
      | some k, root :: slots =>
        if slots.length ≠ entries.length then (false, s)
        else
          match install (s.bootPlans k point.name root slots entries) spare [] s with
          | (none, s) => (false, s)
          | (some spare, s) => s.finishMount k root d .bootfs (root :: slots) spare
      | _, _ => (false, s)

/-- What `adytumfs_inode_get` reports of one inode, and the target of a symlink. -/
structure InodeReport where
  used : Bool
  type : NodeType
  size : UInt32
  parent : ℕ
  mode : UInt32
  name : Name
  generation : UInt64
  target : Option Name
  deriving DecidableEq, Repr

/-- A second name that the walk of the volume hands to the alias sink. -/
structure AliasReport where
  parent : ℕ
  inode : ℕ
  name : Name
  deriving DecidableEq, Repr

/-- The answers of `adytumfs_attach` and the inode reads; `none` is a failed read. There
are `ADYTUMFS_INODE_MAX` = 16 inodes, and the sink takes at most 16 names. -/
structure VolumeReport where
  inodes : Fin 16 → Option InodeReport
  aliases : List AliasReport
  aliases_le : aliases.length ≤ 16

def InodeReport.unused : InodeReport := ⟨false, .none, 0, 0, 0, [], 0, none⟩

/-- The report of an inode number, unused outside the table. -/
def VolumeReport.at (v : VolumeReport) (inode : ℕ) : InodeReport :=
  if h : inode < 16 then (v.inodes ⟨inode, h⟩).getD .unused else .unused

/-- The climb from an inode: up to 16 steps, each to a used inode, and the root must be
reached before the last one. -/
def VolumeReport.reachesRoot (v : VolumeReport) : ℕ → ℕ → Bool
  | 0, _ => false
  | fuel + 1, inode =>
    inode = 0 || ((v.at (v.at inode).parent).used && (v.at inode).parent < 16 &&
      reachesRoot v fuel (v.at inode).parent)

/-- The checks of the mount on the inodes. -/
def VolumeReport.InodesOk (v : VolumeReport) : Prop :=
  (∀ n : Fin 16, v.inodes n ≠ none) ∧
    (∀ n : Fin 16, (v.at n).used → (v.at n).mode ≤ 0o777 ∧
      (n ≠ 0 → (v.at n).type ≠ .none ∧ validName (v.at n).name ∧ (v.at n).parent < 16)) ∧
    (v.at 0).used ∧ (v.at 0).type = .directory ∧ (v.at 0).parent = 0 ∧
    ∀ n : Fin 16, n ≠ 0 → (v.at n).used →
      (v.at (v.at n).parent).used ∧ (v.at (v.at n).parent).type = .directory ∧
        v.reachesRoot 16 n
  deriving Decidable

/-- The checks of the mount on the second names. -/
def VolumeReport.AliasesOk (v : VolumeReport) : Prop :=
  ∀ a ∈ v.aliases, a.inode < 16 ∧ a.parent < 16 ∧ (v.at a.inode).used ∧ (v.at a.parent).used ∧
    (v.at a.inode).type = .regular ∧ (v.at a.parent).type = .directory
  deriving Decidable

def VolumeReport.usedInodes (v : VolumeReport) : List (Fin 16) :=
  (List.finRange 16).filter (fun n => (v.at n).used)

/-- The slot of an inode: the used inodes take the slots in order. -/
def VolumeReport.slotOf (v : VolumeReport) (slots : List (Fin 64)) (inode : ℕ) : Fin 64 :=
  (slots[(v.usedInodes.map Fin.val).idxOf inode]?).getD 0

/-- A mode of 0 stands for the default. -/
def mountMode (type : NodeType) (mode : UInt32) : UInt32 :=
  if mode ≠ 0 then mode else if type = .directory then 0o777 else 0o666

def volumeNode (s : Tables) (k : Fin 8) (v : VolumeReport) (slots : List (Fin 64))
    (pointName : Name) (n : Fin 16) : Node :=
  let report := v.at n
  { s.nodes (v.slotOf slots n) with
    active := true, linked := true, name := if n = 0 then pointName else report.name,
    target := if report.type = .symlink then report.target.getD []
      else (s.nodes (v.slotOf slots n)).target,
    parent := if n = 0 then none else some (v.slotOf slots report.parent),
    type := report.type, size := report.size, filesystem := .adytumfs, mount := some k,
    mountGeneration := (s.mounts k).generation, readonly := false,
    mode := mountMode report.type report.mode, fsId := UInt32.ofNat n,
    fsGeneration := report.generation }

def volumePlans (s : Tables) (k : Fin 8) (v : VolumeReport) (slots : List (Fin 64))
    (pointName : Name) : List Plan :=
  v.usedInodes.map (fun n : Fin 16 =>
    ⟨v.slotOf slots n, s.volumeNode k v slots pointName n,
      (v.at n).type ≠ .symlink || (v.at n).target.isSome⟩)

/-- One second name goes to the first free alias slot. -/
def placeAlias (v : VolumeReport) (slots : List (Fin 64)) (s : Tables) (report : AliasReport) :
    Tables :=
  match (List.finRange 16).find? (fun a => (s.aliases a).active = false) with
  | none => s
  | some a => s.setAlias a
      ⟨true, v.slotOf slots report.inode, v.slotOf slots report.parent, report.name⟩

def freeAliases (s : Tables) : ℕ :=
  (List.finRange 16).countP (fun a => (s.aliases a).active = false)

/-- `vfs_mount_adytumfs`; `volume` is `none` when the attach fails. -/
def mountAdytumfs (s : Tables) (directory : Option (Fin 64)) (volume : Option VolumeReport)
    (spare : ℕ) : Bool × Tables :=
  match s.nodeFor directory with
  | none => (false, s)
  | some d =>
    let point := s.nodes d
    if point.type ≠ .directory ∨ point.linked = false ∨ s.childCount d ≠ 0 ∨
        s.mountForPoint d ≠ none then
      (false, s)
    else
      match s.freeMount, volume with
      | some k, some v =>
        let slots := s.freeNodes.take v.usedInodes.length
        if ¬ v.InodesOk ∨ slots.length ≠ v.usedInodes.length then (false, s)
        else
          match install (s.volumePlans k v slots point.name) spare [] s with
          | (none, s) => (false, s)
          | (some spare, s) =>
            if ¬ v.AliasesOk ∨ s.freeAliases < v.aliases.length then
              (false, s.releaseAll slots)
            else
              (v.aliases.foldl (placeAlias v slots) s).finishMount k (v.slotOf slots 0) d .adytumfs
                slots spare
      | _, _ => (false, s)

/-- `mount_has_open_file_locked` -/
def MountBusy (s : Tables) (k : Fin 8) : Prop :=
  ∃ f i, (s.files f).active ∧ (s.files f).node = some i ∧ (s.nodes i).active ∧
    (s.nodes i).filesystem = .adytumfs ∧ (s.nodes i).mount = some k ∧
    (s.nodes i).mountGeneration = (s.mounts k).generation
  deriving Decidable

/-- A linked node of the mount. -/
def OnMount (s : Tables) (k : Fin 8) (i : Fin 64) : Prop :=
  i ≠ 0 ∧ (s.nodes i).active ∧ (s.nodes i).mount = some k ∧ (s.nodes i).linked
  deriving Decidable

/-- The tables with every node of the mount unlinked and the mount slot free. -/
def detach (s : Tables) (k : Fin 8) : Tables :=
  { s with
    nodes := fun i =>
      if s.OnMount k i then { s.nodes i with linked := false, parent := none } else s.nodes i
    mounts := Function.update s.mounts k
      ⟨false, none, none, nextGeneration (s.mounts k).generation, .none⟩ }

/-- The references `mount_destroy` drops, in its order. -/
def pending (s : Tables) (k : Fin 8) : List (Fin 64) :=
  (List.finRange 64).filter (fun i => s.OnMount k i) ++
    (s.mounts k).root.toList ++ (s.mounts k).mountpoint.toList

def mountDestroy (s : Tables) (k : Fin 8) : Tables := (s.detach k).releaseAll (s.pending k)

/-- `vfs_unmount` on the object of a mountpoint. Giving up the one reference of the mount object
destroys it. -/
def unmount (s : Tables) (directory : Option (Fin 64)) : Bool × Tables :=
  match directory.bind s.mountForPoint with
  | none => (false, s)
  | some k =>
    if (s.mounts k).filesystem = .adytumfs ∧ s.MountBusy k then (false, s)
    else (true, s.mountDestroy k)

end MichCore.Vfs.Tables
