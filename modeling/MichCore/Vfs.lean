import MichCore.SlotTable

/-!
# The node, alias, mount and file tables of the VFS

`fs/vfs.c` on its four tables. A node object is named by the slot of its node, which holds the
object's reference count; an argument that is no live node object is `none`.

Calls of the adytumfs backend and of `object_create` are answered from outside (`disk`, `written`,
and `spare`, the number of free kernel objects). Clock times, page backing and file contents are
left out.
-/
namespace MichCore.Vfs

open Function

abbrev Name := List UInt8

def slash : UInt8 := 47
def dot : UInt8 := 46

/-- At most `VFS_NAME_MAX` = 255 bytes, no slash, and neither `.` nor `..`. -/
def validName (name : Name) : Prop :=
  0 < name.length ∧ name.length ≤ 255 ∧ slash ∉ name ∧ name ≠ [dot] ∧ name ≠ [dot, dot]
  deriving Decidable

inductive NodeType where
  | none
  | regular
  | directory
  | symlink
  deriving DecidableEq, Repr

inductive Filesystem where
  | none
  | ramfs
  | bootfs
  | adytumfs
  deriving DecidableEq, Repr

/-- `parent` is `none` for `VFS_NODE_MAX` and `mount` for `VFS_MOUNT_MAX`. -/
structure Node where
  active : Bool
  linked : Bool
  references : ℕ
  name : Name
  target : Name
  parent : Option (Fin 64)
  type : NodeType
  generation : UInt32
  size : UInt32
  filesystem : Filesystem
  mount : Option (Fin 8)
  mountGeneration : UInt32
  readonly : Bool
  mode : UInt32
  uid : UInt32
  gid : UInt32
  fsId : UInt32
  fsGeneration : UInt64
  deriving DecidableEq, Repr

structure Alias where
  active : Bool
  node : Fin 64
  parent : Fin 64
  name : Name
  deriving DecidableEq, Repr

structure Mount where
  active : Bool
  root : Option (Fin 64)
  mountpoint : Option (Fin 64)
  generation : UInt32
  filesystem : Filesystem
  deriving DecidableEq, Repr

structure File where
  active : Bool
  node : Option (Fin 64)
  deriving DecidableEq, Repr

structure Tables where
  nodes : Fin 64 → Node
  aliases : Fin 16 → Alias
  mounts : Fin 8 → Mount
  files : Fin 32 → File

namespace Tables

def setNode (s : Tables) (i : Fin 64) (node : Node) : Tables :=
  { s with nodes := update s.nodes i node }

def setAlias (s : Tables) (a : Fin 16) (entry : Alias) : Tables :=
  { s with aliases := update s.aliases a entry }

def setMount (s : Tables) (k : Fin 8) (mount : Mount) : Tables :=
  { s with mounts := update s.mounts k mount }

def setFile (s : Tables) (f : Fin 32) (file : File) : Tables :=
  { s with files := update s.files f file }

/-- `node_for`: the slot behind a live node object. -/
def nodeFor (s : Tables) (object : Option (Fin 64)) : Option (Fin 64) :=
  object.filter (fun i => (s.nodes i).active)

def nextGeneration (generation : UInt32) : UInt32 :=
  if generation + 1 = 0 then 1 else generation + 1

/-- `object_retain` on a node object; `none` is a failure. -/
def retain (s : Tables) (i : Fin 64) : Option Tables :=
  if (s.nodes i).active = false ∨ (s.nodes i).references = 0 ∨
      (s.nodes i).references = 0xFFFFFFFF then
    none
  else some (s.setNode i { s.nodes i with references := (s.nodes i).references + 1 })

/-- A node slot after `node_destroy`. -/
def cleared (node : Node) : Node :=
  { node with
    active := false, linked := false, references := 0, name := [], parent := .none,
    type := .none, size := 0, filesystem := .none, mount := .none, mountGeneration := 0,
    readonly := false, mode := 0, uid := 0, gid := 0, fsId := 0, fsGeneration := 0,
    generation := nextGeneration node.generation }

/-- The names of a node die with it. -/
def nodeDestroy (s : Tables) (i : Fin 64) : Tables :=
  { s with
    nodes := update s.nodes i (cleared (s.nodes i))
    aliases := fun a =>
      if (s.aliases a).active ∧ (s.aliases a).node = i then
        { s.aliases a with active := false }
      else s.aliases a }

/-- `object_release` on a node object. -/
def release (s : Tables) (i : Fin 64) : Tables :=
  if (s.nodes i).active = false ∨ (s.nodes i).references = 0 then s
  else if (s.nodes i).references = 1 then s.nodeDestroy i
  else s.setNode i { s.nodes i with references := (s.nodes i).references - 1 }

def releaseAll (s : Tables) (slots : List (Fin 64)) : Tables := slots.foldl release s

/-- A linked node with this parent and name. -/
def Named (s : Tables) (p : Fin 64) (name : Name) (i : Fin 64) : Prop :=
  (s.nodes i).active ∧ (s.nodes i).linked ∧ (s.nodes i).parent = some p ∧ (s.nodes i).name = name
  deriving Decidable

/-- An active alias with this parent and name. -/
def AliasNamed (s : Tables) (p : Fin 64) (name : Name) (a : Fin 16) : Prop :=
  (s.aliases a).active ∧ (s.aliases a).parent = p ∧ (s.aliases a).name = name
  deriving Decidable

/-- `mount_for_point`; slot 0 is the root mount. -/
def mountForPoint (s : Tables) (i : Fin 64) : Option (Fin 8) :=
  (List.finRange 8).find?
    (fun k => k ≠ 0 ∧ (s.mounts k).active ∧ (s.mounts k).mountpoint = some i)

def mountForRoot (s : Tables) (i : Fin 64) : Option (Fin 8) :=
  (List.finRange 8).find? (fun k => k ≠ 0 ∧ (s.mounts k).active ∧ (s.mounts k).root = some i)

/-- `node_backing_live` -/
def BackingLive (s : Tables) (node : Node) : Prop :=
  node.filesystem ≠ .adytumfs ∨ ∃ k, node.mount = some k ∧ k ≠ 0 ∧ (s.mounts k).active ∧
    (s.mounts k).filesystem = .adytumfs ∧ (s.mounts k).generation = node.mountGeneration
  deriving Decidable

def childCount (s : Tables) (p : Fin 64) : ℕ :=
  (List.finRange 64).countP
      (fun i => (s.nodes i).active ∧ (s.nodes i).linked ∧ (s.nodes i).parent = some p) +
    (List.finRange 16).countP (fun a => (s.aliases a).active ∧ (s.aliases a).parent = p)

def aliasCount (s : Tables) (i : Fin 64) : ℕ :=
  (List.finRange 16).countP (fun a => (s.aliases a).active ∧ (s.aliases a).node = i)

def aliasForNode (s : Tables) (i : Fin 64) : Option (Fin 16) :=
  (List.finRange 16).find? (fun a => (s.aliases a).active ∧ (s.aliases a).node = i)

/-- The fields `vfs_create_mode` writes into a free slot. -/
def createdNode (old parent : Node) (p : Fin 64) (name : Name) (type : NodeType) (mode : UInt32) :
    Node :=
  { old with
    active := true, linked := true, references := 0, name := name, target := [],
    parent := some p, type := type, size := 0, filesystem := parent.filesystem,
    mount := parent.mount, mountGeneration := parent.mountGeneration, readonly := false,
    mode := mode, uid := 0, gid := 0, fsId := 0, fsGeneration := 0 }

/-- The slot given up again by a create that fails. -/
def abandon (s : Tables) (i : Fin 64) (node : Node) : Tables :=
  s.setNode i { node with linked := false, active := false }

/-- `vfs_create_mode`. The new object has one reference for the link and one for the caller.
`disk` is the answer of `adytumfs_inode_create`. -/
def createMode (s : Tables) (directory : Option (Fin 64)) (name : Name) (type : NodeType)
    (mode : UInt32) (disk : Option (UInt32 × UInt64)) (spare : ℕ) : Option (Fin 64) × Tables :=
  match s.nodeFor directory with
  | none => (none, s)
  | some p =>
    let parent := s.nodes p
    if parent.type ≠ .directory ∨ parent.linked = false ∨ parent.readonly ∨ ¬ validName name ∨
        type = .none ∨ 0o777 < mode then
      (none, s)
    else if (List.finRange 64).any (fun i => s.Named p name i) then (none, s)
    else
      match (List.finRange 64).find? (fun i => i ≠ 0 ∧ (s.nodes i).active = false) with
      | none => (none, s)
      | some i =>
        let node := createdNode (s.nodes i) parent p name type mode
        if parent.filesystem = .adytumfs ∧ disk = none then (none, s.abandon i node)
        else
          let node := if parent.filesystem = .adytumfs then
              { node with
                fsId := (disk.map Prod.fst).getD 0
                fsGeneration := (disk.map Prod.snd).getD 0 }
            else node
          if spare = 0 then (none, s.abandon i node)
          else (some i, s.setNode i { node with references := 2 })

/-- `vfs_symlink`; `written` is the answer of `adytumfs_symlink_write`. -/
def symlink (s : Tables) (directory : Option (Fin 64)) (name target : Name)
    (disk : Option (UInt32 × UInt64)) (written : Bool) (spare : ℕ) : Option (Fin 64) × Tables :=
  if target = [] ∨ 256 ≤ target.length then (none, s)
  else
    match s.createMode directory name .symlink 0o777 disk spare with
    | (none, s) => (none, s)
    | (some i, s) =>
      if (s.nodes i).filesystem = .adytumfs ∧ written = false then
        (none, (s.setNode i { s.nodes i with linked := false }).release i)
      else
        (some i, s.setNode i
          { s.nodes i with target := target, size := UInt32.ofNat target.length })

/-- `vfs_lookup`: primary names first, through to the root mounted there, then aliases. -/
def lookup (s : Tables) (directory : Option (Fin 64)) (name : Name) : Option (Fin 64) × Tables :=
  match s.nodeFor directory with
  | none => (none, s)
  | some p =>
    if (s.nodes p).type ≠ .directory ∨ ¬ validName name then (none, s)
    else
      let found : Option (Fin 64) :=
        match (List.finRange 64).find? (fun i => s.Named p name i) with
        | some i =>
          match s.mountForPoint i with
          | some k => (s.mounts k).root
          | none => some i
        | none =>
          ((List.finRange 16).find? (fun a => s.AliasNamed p name a)).map
            (fun a => (s.aliases a).node)
      match found with
      | none => (none, s)
      | some i =>
        match s.retain i with
        | none => (none, s)
        | some s => (some i, s)

/-- `vfs_link`; `disk` tells whether `adytumfs_inode_link` succeeds. -/
def link (s : Tables) (object directory : Option (Fin 64)) (name : Name) (disk : Bool) :
    Bool × Tables :=
  match s.nodeFor object, s.nodeFor directory with
  | some i, some p =>
    let node := s.nodes i
    let parent := s.nodes p
    if ¬ s.BackingLive node ∨ node.linked = false ∨ node.type ≠ .regular ∨
        parent.type ≠ .directory ∨ parent.linked = false ∨ parent.readonly ∨ ¬ validName name ∨
        parent.filesystem ≠ node.filesystem ∨
        (node.filesystem ≠ .ramfs ∧ node.filesystem ≠ .adytumfs) then
      (false, s)
    else
      match s.lookup directory name with
      | (some existing, s) => (false, s.release existing)
      | (none, s) =>
        if 16 ≤ s.aliasCount i + 1 then (false, s)
        else if node.filesystem = .adytumfs ∧ (node.mount ≠ parent.mount ∨
            node.mountGeneration ≠ parent.mountGeneration ∨ disk = false) then
          (false, s)
        else
          match (List.finRange 16).find? (fun a => (s.aliases a).active = false) with
          | none => (false, s)
          | some a => (true, s.setAlias a ⟨true, i, p, name⟩)
  | _, _ => (false, s)

/-- What `vfs_unlink_locked` leaves: the return code, the object to release, the tables. -/
structure Unlinked where
  ok : Bool
  dropped : Option (Fin 64)
  after : Tables

/-- The primary name of `i` is gone: its first alias takes its place, or the node loses
its link. -/
def dropName (s : Tables) (i : Fin 64) : Unlinked :=
  match s.aliasForNode i with
  | some a =>
    let promoted := { s.nodes i with
      parent := some (s.aliases a).parent, name := (s.aliases a).name }
    ⟨true, none, (s.setNode i promoted).setAlias a { s.aliases a with active := false }⟩
  | none => ⟨true, some i, s.setNode i { s.nodes i with linked := false, parent := none }⟩

/-- `vfs_unlink_locked`; `disk` tells whether `adytumfs_unlink` succeeds. -/
def unlinkLocked (s : Tables) (directory : Option (Fin 64)) (name : Name) (disk : Bool) :
    Unlinked :=
  match s.nodeFor directory with
  | none => ⟨false, none, s⟩
  | some p =>
    if (s.nodes p).type ≠ .directory ∨ (s.nodes p).readonly ∨ ¬ validName name then
      ⟨false, none, s⟩
    else
      match (List.finRange 64).find? (fun i => i ≠ 0 ∧ s.Named p name i) with
      | some i =>
        let node := s.nodes i
        if node.readonly ∨ s.mountForPoint i ≠ none ∨
            (node.type = .directory ∧ s.childCount i ≠ 0) then
          ⟨false, none, s⟩
        else if node.filesystem = .adytumfs ∧ node.fsId ≠ 0 ∧ disk = false then
          ⟨false, none, s⟩
        else s.dropName i
      | none =>
        match (List.finRange 16).find? (fun a => s.AliasNamed p name a) with
        | none => ⟨false, none, s⟩
        | some a =>
          let node := s.nodes (s.aliases a).node
          if node.filesystem = .adytumfs ∧ node.fsId ≠ 0 ∧ disk = false then ⟨false, none, s⟩
          else ⟨true, none, s.setAlias a { s.aliases a with active := false }⟩

/-- The release of a dropped object, after the lock is given up. -/
def Unlinked.finish (out : Unlinked) : Bool × Tables :=
  (out.ok, out.dropped.elim out.after out.after.release)

/-- `vfs_unlink` -/
def unlink (s : Tables) (directory : Option (Fin 64)) (name : Name) (disk : Bool) : Bool × Tables :=
  (s.unlinkLocked directory name disk).finish

/-- The loop that looks for `x` on the way up from `a` by the raw parent fields; in a tree of 64
nodes 64 steps see all of them. -/
def hasAncestor (s : Tables) (x : Fin 64) : ℕ → Fin 64 → Bool
  | 0, a => a = x
  | fuel + 1, a =>
    a = x || match (s.nodes a).parent with
      | none => false
      | some b => hasAncestor s x fuel b

/-- An entry is a primary name or an alias. -/
inductive Entry where
  | primary (i : Fin 64)
  | extra (a : Fin 16)
  deriving DecidableEq, Repr

/-- The scan of `vfs_rename_locked` for a name: nodes from slot 1 on, then aliases. -/
def findEntry (s : Tables) (p : Fin 64) (name : Name) : Option Entry :=
  match (List.finRange 64).find? (fun i => i ≠ 0 ∧ s.Named p name i) with
  | some i => some (.primary i)
  | none => ((List.finRange 16).find? (fun a => s.AliasNamed p name a)).map .extra

def entryNode (s : Tables) : Entry → Fin 64
  | .primary i => i
  | .extra a => (s.aliases a).node

/-- The move itself. -/
def moveEntry (s : Tables) (entry : Entry) (p : Fin 64) (name : Name) : Tables :=
  match entry with
  | .primary i => s.setNode i { s.nodes i with parent := some p, name := name }
  | .extra a => s.setAlias a { s.aliases a with parent := p, name := name }

/-- The checks of `vfs_rename_locked` between finding the entries and the first change. -/
def RenameRefused (s : Tables) (i q : Fin 64) (target : Option (Fin 64)) : Prop :=
  s.mountForPoint i ≠ none ∨
    ((s.nodes i).type = .directory ∧ ((s.nodes i).parent = none ∨ s.hasAncestor i 64 q)) ∨
    (∃ t, target = some t ∧ (s.mountForPoint t ≠ none ∨ (s.nodes t).type ≠ (s.nodes i).type)) ∨
    (s.nodes i).filesystem ≠ (s.nodes q).filesystem ∨
    ((s.nodes i).filesystem = .adytumfs ∧ ((s.nodes i).mount ≠ (s.nodes q).mount ∨
      (s.nodes i).mountGeneration ≠ (s.nodes q).mountGeneration))
  deriving Decidable

/-- `vfs_rename_locked`; `disk` answers the removal of a replaced name and `moved` the
call of `adytumfs_rename`. -/
def renameLocked (s : Tables) (oldDirectory : Option (Fin 64)) (name : Name)
    (newDirectory : Option (Fin 64)) (newName : Name) (disk moved : Bool) : Unlinked :=
  match s.nodeFor oldDirectory, s.nodeFor newDirectory with
  | some p, some q =>
    if (s.nodes p).type ≠ .directory ∨ (s.nodes p).linked = false ∨ ¬ validName name ∨
        (s.nodes q).type ≠ .directory ∨ (s.nodes q).linked = false ∨ ¬ validName newName ∨
        (s.nodes p).readonly ∨ (s.nodes q).readonly then
      ⟨false, none, s⟩
    else
      match s.findEntry p name with
      | none => ⟨false, none, s⟩
      | some entry =>
        let i := s.entryNode entry
        if (s.nodes i).active = false then ⟨false, none, s⟩
        else
          let target := (s.findEntry q newName).map s.entryNode
          if target = some i then ⟨true, none, s⟩
          else if p = q ∧ name = newName then ⟨true, none, s⟩
          else if s.RenameRefused i q target then ⟨false, none, s⟩
          else
            -- The replaced name leaves first.
            let cut := if target = none then ⟨true, none, s⟩
              else s.unlinkLocked newDirectory newName disk
            if cut.ok = false then { cut with ok := false }
            else if (s.nodes i).filesystem = .adytumfs ∧ moved = false then
              { cut with ok := false }
            else { cut with after := cut.after.moveEntry entry q newName }
  | _, _ => ⟨false, none, s⟩

/-- `vfs_rename` -/
def rename (s : Tables) (oldDirectory : Option (Fin 64)) (name : Name)
    (newDirectory : Option (Fin 64)) (newName : Name) (disk moved : Bool) : Bool × Tables :=
  (s.renameLocked oldDirectory name newDirectory newName disk moved).finish

/-- `vfs_open` -/
def openFile (s : Tables) (object : Option (Fin 64)) (spare : ℕ) : Option (Fin 32) × Tables :=
  match s.nodeFor object with
  | none => (none, s)
  | some i =>
    if ¬ s.BackingLive (s.nodes i) ∨
        ((s.nodes i).type ≠ .regular ∧ (s.nodes i).type ≠ .directory) then
      (none, s)
    else
      match (List.finRange 32).find? (fun f => (s.files f).active = false) with
      | none => (none, s)
      | some f =>
        match s.retain i with
        | none => (none, s)
        | some held =>
          if spare = 0 then (none, (held.setFile f ⟨false, none⟩).release i)
          else (some f, held.setFile f ⟨true, some i⟩)

/-- The last reference to an open file is gone: `file_destroy`. -/
def closeFile (s : Tables) (f : Fin 32) : Tables :=
  if (s.files f).active = false then s
  else
    let closed := s.setFile f ⟨false, none⟩
    (s.files f).node.elim closed closed.release

end Tables

end MichCore.Vfs
