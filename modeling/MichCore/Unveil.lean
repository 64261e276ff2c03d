import MichCore.VfsResolve
import MichCore.Pledge

/-!
# Unveiled paths

The path calls of `process/posix_vfs.c` that work on a directory entry, the path walk of
`process/posix_profile.c`, and the unveil rules of `process/posix_pledge.c`. The check follows a
symbolic link in the last place, the call itself works on the entry of that name.

A `Namespace` is what `fs/vfs.c` answers while a call runs; `ofTables` is that of the node tables.
The last step of a call is the change itself, and `done` says whether it succeeds.
-/
namespace MichCore.Unveil
open List Option
open Vfs (Name NodeType Filesystem slash dot)
open Vfs.Tables (components)

def eperm : ℤ := -1
def enoent : ℤ := -2
def eio : ℤ := -5
def enomem : ℤ := -12
def eacces : ℤ := -13
def ebusy : ℤ := -16
def eexist : ℤ := -17
def exdev : ℤ := -18
def enotdir : ℤ := -20
def eisdir : ℤ := -21
def einval : ℤ := -22
def enospc : ℤ := -28
def erofs : ℤ := -30
def emlink : ℤ := -31
def enametoolong : ℤ := -36
def enotempty : ℤ := -39
def eloop : ℤ := -40

/-- The fields of `struct vfs_node_info` the calls look at. -/
structure Info where
  type : NodeType
  linked : Bool
  readonly : Bool
  uid : UInt32
  gid : UInt32
  mode : UInt32
  filesystem : Filesystem
  links : ℕ
  childCount : ℕ

/-- `struct vfs_node_identity`, without the type. -/
structure Identity where
  slot : ℕ
  generation : ℕ
  parent : ℕ
  parentGeneration : ℕ
  name : Name

/-- What the VFS answers about its nodes. -/
structure Namespace (ν : Type) where
  root : Option ν
  stat : ν → Option Info
  lookup : ν → Name → Option ν
  /-- The target of a symbolic link. -/
  target : ν → Option Name
  identity : ν → Option Identity
  parent : ν → Option ν

/-- The task as the path calls see it: its credentials and its profile. -/
structure Caller where
  uid : UInt32
  gid : UInt32
  authorized : Bool
  detached : Bool
  /-- `object_retain` of the working directory succeeds. -/
  cwdHeld : Bool
  cwdPath : Name
  pledge : Pledge.State

/-- Go on if the condition holds. -/
def ensure (p : Prop) [Decidable p] (error : ℤ) : Except ℤ Unit :=
  if p then .ok () else .error error

/-- What was found, or an error. -/
def found {α : Type} (error : ℤ) : Option α → Except ℤ α
  | some a => .ok a
  | none => .error error

/-- The length of a normalized path. -/
def pathLength (path : List Name) : ℕ :=
  if path = [] then 1 else (path.map (fun c => c.length + 1)).sum

/-- The text of a normalized path. -/
def pathText (path : List Name) : Name :=
  if path = [] then [slash] else path.flatMap (fun c => slash :: c)

/-- One turn of `append_normalized`: the path so far, and the components seen. -/
def appendOne (acc : List Name × ℕ) (component : Name) : Except ℤ (List Name × ℕ) :=
  if component.length > 255 ∨ acc.2 + 1 > 32 then .error enametoolong
  else if component = [dot] then .ok (acc.1, acc.2 + 1)
  else if component = [dot, dot] then .ok (acc.1.dropLast, acc.2 + 1)
  else if pathLength (acc.1 ++ [component]) ≥ 256 then .error enametoolong
  else .ok (acc.1 ++ [component], acc.2 + 1)

def appendNormalized (acc : List Name × ℕ) (source : Name) : Except ℤ (List Name × ℕ) :=
  (components source).foldlM appendOne acc

/-- Where a path starts: at the root, or at the base. -/
def pathStart (base path : Name) : Except ℤ (List Name × ℕ) :=
  if path.head? = some slash then .ok ([], 0)
  else do
    ensure (base.head? = some slash) enoent
    appendNormalized ([], 0) base

def normalizePath (base path : Name) : Except ℤ (List Name) := do
  ensure (path ≠ []) einval
  ensure (path.length < 256) enametoolong
  let start ← pathStart base path
  let normalized ← appendNormalized start path
  return normalized.1

section Walk

variable {ν : Type} (ns : Namespace ν) (caller : Caller)

/-- `posix_mode_allows`; `want` is in the owner's column. -/
def modeAllows (info : Info) (want : ℕ) : Bool :=
  let shift := if info.uid = caller.uid then 6 else if info.gid = caller.gid then 3 else 0
  let column := (info.mode.toNat >>> shift) &&& 7
  let bits := (want >>> 6) &&& 7
  (column &&& bits) == bits

/-- The loop of `walk_path`: the components passed, the node at hand, and those to go. A
symbolic link hands the rest of the walk to `follow`. -/
def walkFrom (follow : List Name → Name → List Name → Except ℤ ν) :
    List Name → ν → List Name → Except ℤ ν
  | _, current, [] => do
    let info ← found enoent (ns.stat current)
    ensure (info.linked = true) enoent
    return current
  | before, current, component :: rest => do
    let info ← found enoent (ns.stat current)
    ensure (info.linked = true) enoent
    ensure (info.type = .directory) enotdir
    ensure (modeAllows caller info 0o100 = true) eacces
    ensure (component.length ≤ 255) enametoolong
    let next ← found enoent (ns.lookup current component)
    let link ← found eio (ns.stat next)
    if link.type = .symlink then do
      let target ← found eio (ns.target next)
      ensure (target.length < 256) eio
      follow before target rest
    else walkFrom follow (before ++ [component]) next rest

/-- `walk_path`, with the links it may still follow. -/
def walkPath : ℕ → List Name → Except ℤ ν
  | 0, path => do
    let root ← found enomem ns.root
    walkFrom ns caller (fun _ _ _ => .error eloop) [] root path
  | hops + 1, path => do
    let root ← found enomem ns.root
    -- `follow_link`: the target replaces the component, an absolute one the path up to it.
    walkFrom ns caller (fun before target rest => do
      let path ← normalizePath (pathText before) (target ++ rest.flatMap (fun c => slash :: c))
      walkPath hops path) [] root path

/-- `profile_snapshot` and `normalize_path`. -/
def callerPath (path : Name) : Except ℤ (List Name) := do
  ensure (path ≠ []) einval
  ensure (caller.authorized = true) eacces
  if path.head? = some slash then normalizePath [slash] path
  else do
    ensure (caller.detached = false ∧ caller.cwdHeld = true) enoent
    ensure (caller.cwdPath ≠ []) einval
    ensure (caller.cwdPath.length < 256) enametoolong
    normalizePath caller.cwdPath path

/-- `posix_profile_resolve`. -/
def resolve (path : Name) : Except ℤ ν := do
  let path ← callerPath caller path
  walkPath ns caller 8 path

/-- `posix_profile_parent`: the directory of the last component, and that component. -/
def parentOf (path : Name) : Except ℤ (ν × Name) := do
  let path ← callerPath caller path
  let name ← found einval path.getLast?
  let parent ← walkPath ns caller 8 path.dropLast
  return (parent, name)

def veilRead : BitVec 8 := 1
def veilCreate : BitVec 8 := 8

/-- The rule unveils the directory. -/
def ForDirectory (rule : Pledge.VeilEntry) (own : Identity) : Prop :=
  rule.isDirectory = true ∧ rule.slot = own.slot ∧ rule.generation = own.generation
  deriving Decidable

/-- The rule unveils the file: this node, or whatever stands in its place. -/
def ForFile (rule : Pledge.VeilEntry) (own : Identity) : Prop :=
  rule.isDirectory = false ∧
    (rule.slot = own.slot ∧ rule.generation = own.generation ∨
      rule.parent = own.parent ∧ rule.parentGeneration = own.parentGeneration ∧
        rule.name = own.name)
  deriving Decidable

/-- The node and the directories above it. -/
def chain : ℕ → ν → List Identity
  | 0, _ => []
  | depth + 1, node =>
    match ns.identity node with
    | none => []
    | some identity =>
      identity :: match ns.parent node with
        | some up => chain depth up
        | none => []

/-- The rule of the nearest unveiled directory. -/
def directoryPermissions (chain : List Identity) : Option (BitVec 8) :=
  chain.findSome? (fun identity =>
    (caller.pledge.entries.find? (ForDirectory · identity)).map (fun rule => rule.permissions))

/-- `veil_permissions`: a file rule for the node itself, else the deepest directory rule. -/
def veilPermissions (node : ν) : Option (BitVec 8) :=
  match chain ns 34 node with
  | [] => none
  | own :: above =>
    match caller.pledge.entries.find? (ForFile · own) with
    | some rule => some rule.permissions
    | none => directoryPermissions caller (own :: above)

/-- The node has rules that permit what is needed, or the answer to give. -/
def permitted (node : ν) (need : BitVec 8) : Except ℤ Unit := do
  let permissions ← found enoent (veilPermissions ns caller node)
  ensure (permissions &&& need = need) eacces

/-- `posix_pledge_veil_check`. -/
def veilCheck (path : Name) (leafNeed createNeed : BitVec 8) : Except ℤ Unit :=
  if caller.pledge.veiled = false then .ok ()
  else
    match resolve ns caller path with
    | .ok node => permitted ns caller node leafNeed
    | .error _ =>
      if createNeed = 0 then .error enoent
      else
        match parentOf ns caller path with
        | .ok (parent, _) => permitted ns caller parent createNeed
        | .error _ => .error enoent

def checkParentMutation (parent : ν) : Except ℤ Unit := do
  let info ← found eio (ns.stat parent)
  ensure (info.type = .directory) enotdir
  ensure (info.readonly = false) erofs
  ensure (modeAllows caller info 0o300 = true) eacces

def removePath (path : Name) (directory done : Bool) : Except ℤ Unit := do
  ensure (caller.authorized = true) eacces
  veilCheck ns caller path veilCreate 0
  let (parent, name) ← parentOf ns caller path
  checkParentMutation ns caller parent
  let node ← found enoent (ns.lookup parent name)
  let info ← found eio (ns.stat node)
  ensure (decide (info.type = .directory) = directory) (if directory then enotdir else eisdir)
  ensure (info.readonly = false) erofs
  ensure (done = true) ebusy

def unlink (path : Name) (done : Bool) : Except ℤ Unit := removePath ns caller path false done

def rmdir (path : Name) (done : Bool) : Except ℤ Unit := removePath ns caller path true done

/-- `posix_vfs_link`. -/
def link (oldPath newPath : Name) (done : Bool) : Except ℤ Unit := do
  ensure (caller.authorized = true) eacces
  veilCheck ns caller oldPath veilRead 0
  veilCheck ns caller newPath veilCreate veilCreate
  let node ← resolve ns caller oldPath
  let info ← found eio (ns.stat node)
  ensure (info.type ≠ .directory) eperm
  let (parent, name) ← parentOf ns caller newPath
  let parentInfo ← found eio (ns.stat parent)
  ensure (parentInfo.filesystem = info.filesystem) exdev
  checkParentMutation ns caller parent
  ensure (info.links < 16) emlink
  ensure ((ns.lookup parent name).isNone = true) eexist
  ensure (done = true) exdev

/-- The errors of `posix_vfs_rename` for a name that is replaced. -/
def checkTarget (info : Info) (target : Option ν) : Except ℤ Unit :=
  match target with
  | none => .ok ()
  | some target => do
    let targetInfo ← found eio (ns.stat target)
    ensure (¬ (info.type = .regular ∧ targetInfo.type = .directory)) eisdir
    ensure (¬ (info.type = .directory ∧ targetInfo.type = .regular)) enotdir
    ensure (¬ (info.type = .directory ∧ targetInfo.type = .directory ∧ targetInfo.childCount ≠ 0))
      enotempty

/-- `posix_vfs_rename`. -/
def rename [DecidableEq ν] (oldPath newPath : Name) (done : Bool) : Except ℤ Unit := do
  ensure (caller.authorized = true) eacces
  veilCheck ns caller oldPath veilCreate 0
  veilCheck ns caller newPath veilCreate veilCreate
  let node ← resolve ns caller oldPath
  let info ← found eio (ns.stat node)
  let (oldParent, _) ← parentOf ns caller oldPath
  checkParentMutation ns caller oldParent
  let (newParent, newName) ← parentOf ns caller newPath
  let parentInfo ← found eio (ns.stat newParent)
  ensure (parentInfo.filesystem = info.filesystem) exdev
  checkParentMutation ns caller newParent
  let target := ns.lookup newParent newName
  -- A name renamed onto itself is left alone.
  if target = some node then return ()
  else do
    checkTarget ns info target
    ensure (done = true) einval

/-- `posix_vfs_symlink`. -/
def symlink (target path : Name) (done : Bool) : Except ℤ Unit := do
  ensure (caller.authorized = true) eacces
  veilCheck ns caller path veilCreate veilCreate
  ensure (target ≠ []) einval
  ensure (target.length < 256) enametoolong
  let (parent, name) ← parentOf ns caller path
  checkParentMutation ns caller parent
  ensure ((ns.lookup parent name).isNone = true) eexist
  ensure (done = true) enospc

/-- `posix_vfs_readlink` into a buffer of this size. -/
def readlink (path : Name) (size : ℕ) : Except ℤ Name := do
  ensure (size ≠ 0) einval
  veilCheck ns caller path veilRead 0
  let (parent, name) ← parentOf ns caller path
  let node ← found enoent (ns.lookup parent name)
  let info ← found eio (ns.stat node)
  ensure (info.type = .symlink) einval
  let target ← found eio (ns.target node)
  ensure (target.length < size) eio
  return target

/-- `posix_vfs_lstat_path`. -/
def lstatPath (path : Name) : Except ℤ Info := do
  veilCheck ns caller path veilRead 0
  let (parent, name) ← parentOf ns caller path
  let parentInfo ← found eio (ns.stat parent)
  ensure (parentInfo.type = .directory) enotdir
  let node ← found enoent (ns.lookup parent name)
  found eio (ns.stat node)

end Walk

@[simp] theorem ensure_ok {p : Prop} [Decidable p] {error : ℤ} {u : Unit} :
    ensure p error = .ok u ↔ p := by
  unfold ensure
  by_cases h : p
  · simp [h]
  · simp [h]

@[simp] theorem bind_ok {α β : Type} {x : Except ℤ α} {f : α → Except ℤ β} {b : β} :
    (x >>= f) = .ok b ↔ ∃ a, x = .ok a ∧ f a = .ok b := by
  cases x with
  | error e => simp [bind, Except.bind]
  | ok a => simp [bind, Except.bind]

@[simp] theorem pure_ok {α : Type} {a b : α} : (pure a : Except ℤ α) = .ok b ↔ a = b := by
  simp [pure, Except.pure]

/-- A component that normalizing keeps as it is. -/
structure Plain (component : Name) : Prop where
  nonempty : component ≠ []
  noSlash : slash ∉ component
  notDot : component ≠ [dot]
  notDots : component ≠ [dot, dot]

variable {c path base : Name} {acc acc' : List Name × ℕ}

theorem not_mem_of_mem_splitOn (h : c ∈ path.splitOn slash) : slash ∉ c := by
  rw [List.splitOn] at h
  induction path generalizing c with
  | nil =>
    rw [splitOnP_nil, mem_singleton] at h
    simp [h]
  | cons a rest ih =>
    rw [splitOnP_cons_eq_if_modifyHead] at h
    split at h
    · rcases mem_cons.mp h with rfl | h
      · simp
      · exact ih h
    rename_i ha
    have ha : a ≠ slash := by simpa using ha
    cases hs : List.splitOnP (· == slash) rest with
    | nil => simp [hs] at h
    | cons first others =>
      rw [hs, modifyHead_cons, mem_cons] at h
      rw [hs] at ih
      rcases h with rfl | h
      · simpa [Ne.symm ha] using ih mem_cons_self
      · exact ih (mem_cons_of_mem _ h)

theorem components_append (hc : c ≠ []) (hsl : slash ∉ c) :
    components (path ++ slash :: c) = components path ++ [c] := by
  have hsp : (path ++ slash :: c).splitOn slash = path.splitOn slash ++ [c] := by
    rw [List.splitOn, splitOnP_append_cons _ _ (by simp)]
    congr 1
    exact splitOn_eq_singleton hsl
  rw [components, components, hsp, filter_append]
  simp [hc]

/-- The path so far is normal, and it fits the buffer. -/
structure Normal (acc : List Name × ℕ) : Prop where
  plain : ∀ c ∈ acc.1, Plain c
  short : ∀ c ∈ acc.1, c.length ≤ 255
  few : acc.1.length ≤ acc.2 ∧ acc.2 ≤ 32
  fits : pathLength acc.1 < 256

theorem pathLength_dropLast_le (path : List Name) : pathLength path.dropLast ≤ pathLength path := by
  cases path using List.reverseRecOn with
  | nil => exact le_rfl
  | append_singleton rest c =>
    have hne : rest ++ [c] ≠ [] := by simp
    rw [dropLast_concat, pathLength, pathLength, if_neg hne, map_append, sum_append]
    split
    · rw [map_singleton, sum_singleton]
      omega
    · exact Nat.le_add_right _ _

theorem appendOne_normal {component : Name} (h : appendOne acc component = .ok acc')
    (hno : Normal acc) (hsl : slash ∉ component) (hne : component ≠ []) :
    Normal acc' := by
  obtain ⟨hp, hshort, ⟨hfew, -⟩, hfits⟩ := hno
  unfold appendOne at h
  split at h
  · cases h
  rename_i hr
  rw [not_or, not_lt, not_lt] at hr
  split at h
  · cases h
    exact ⟨hp, hshort, ⟨hfew.trans (Nat.le_succ _), hr.2⟩, hfits⟩
  rename_i hdot
  split at h
  · cases h
    refine ⟨fun c hc => hp c (mem_of_mem_dropLast hc),
      fun c hc => hshort c (mem_of_mem_dropLast hc), ⟨?_, hr.2⟩,
      (pathLength_dropLast_le acc.1).trans_lt hfits⟩
    rw [length_dropLast]
    omega
  rename_i hdots
  split at h
  · cases h
  rename_i hl
  cases h
  refine ⟨?_, ?_, ⟨?_, hr.2⟩, not_le.mp hl⟩
  · rw [forall_mem_append, forall_mem_singleton]
    exact ⟨hp, hne, hsl, hdot, hdots⟩
  · rw [forall_mem_append, forall_mem_singleton]
    exact ⟨hshort, hr.1⟩
  · rw [length_append, length_singleton]
    exact Nat.succ_le_succ hfew

theorem foldlM_normal {source : List Name} (hso : ∀ c ∈ source, slash ∉ c ∧ c ≠ [])
    (h : source.foldlM appendOne acc = .ok acc') (hno : Normal acc) : Normal acc' := by
  induction source generalizing acc with
  | nil =>
    obtain rfl : acc = acc' := by simpa using h
    exact hno
  | cons component rest ih =>
    rw [foldlM_cons, bind_ok] at h
    obtain ⟨mid, hst, hr⟩ := h
    obtain ⟨hsl, hne⟩ := hso component mem_cons_self
    exact ih (fun c hc => hso c (mem_cons_of_mem _ hc)) hr
      (appendOne_normal hst hno hsl hne)

theorem mem_components (h : c ∈ components path) : slash ∉ c ∧ c ≠ [] := by
  obtain ⟨hmem, hne⟩ := mem_filter.mp h
  exact ⟨not_mem_of_mem_splitOn hmem, by simpa using hne⟩

theorem normal_root : Normal ([], 0) := ⟨by simp, by simp, by simp, by simp [pathLength]⟩

theorem pathStart_normal {start : List Name × ℕ} (h : pathStart base path = .ok start) :
    Normal start := by
  unfold pathStart at h
  split at h
  · cases h
    exact normal_root
  · simp only [bind_ok, ensure_ok] at h
    obtain ⟨-, -, hb⟩ := h
    exact foldlM_normal (fun _ => mem_components) hb normal_root

theorem normalizePath_normal {normalized : List Name}
    (h : normalizePath base path = .ok normalized) : ∃ n, Normal (normalized, n) := by
  simp only [normalizePath, bind_ok, ensure_ok, pure_ok] at h
  obtain ⟨-, -, -, -, start, hs, acc, hacc, rfl⟩ := h
  exact ⟨acc.2, foldlM_normal (fun _ => mem_components) hacc (pathStart_normal hs)⟩

theorem components_pathText {path : List Name} (h : ∀ c ∈ path, Plain c) :
    components (pathText path) = path := by
  have ht : components (path.flatMap (slash :: ·)) = path := by
    induction path using List.reverseRecOn with
    | nil => rfl
    | append_singleton rest c ih =>
      rw [forall_mem_append, forall_mem_singleton] at h
      rw [flatMap_append, flatMap_singleton, components_append h.2.nonempty h.2.noSlash, ih h.1]
  unfold pathText
  split
  · next hr =>
    subst hr
    rfl
  · exact ht

/-- A normal path is taken component by component. -/
theorem foldlM_of_normal {path : List Name} {n : ℕ} (h : Normal (path, n)) :
    path.foldlM appendOne ([], 0) = .ok (path, path.length) := by
  induction path using List.reverseRecOn generalizing n with
  | nil => rfl
  | append_singleton rest c ih =>
    obtain ⟨hp, hshort, ⟨hfew, hn⟩, hfits⟩ := h
    have hfi' := pathLength_dropLast_le (rest ++ [c])
    rw [dropLast_concat] at hfi'
    simp only [forall_mem_append, forall_mem_singleton, length_append, length_singleton] at *
    rw [foldlM_append, ih ⟨hp.1, hshort.1, ⟨(Nat.le_succ _).trans hfew, hn⟩, hfi'.trans_lt hfits⟩]
    have hr : ¬ (c.length > 255 ∨ rest.length + 1 > 32) := by omega
    simp only [foldlM_cons, foldlM_nil, bind_ok, pure_ok]
    refine ⟨_, rfl, _, ?_, rfl⟩
    rw [appendOne, if_neg hr, if_neg hp.2.notDot, if_neg hp.2.notDots, if_neg (not_le.mpr hfits)]

theorem pathText_length (path : List Name) : (pathText path).length = pathLength path := by
  unfold pathText pathLength
  split
  · rfl
  · simp [length_flatMap]

/-- What `normalize_path` writes is absolute, has no empty, `.` or `..` component, at most 32 of
them, and fits the buffer; and normalizing it again, from any base, changes nothing. -/
theorem normalized_stable (base other path : Name) (normalized : List Name)
    (h : normalizePath base path = .ok normalized) :
    (∀ c ∈ normalized, Plain c) ∧ normalized.length ≤ 32 ∧ (pathText normalized).length < 256 ∧
      (pathText normalized).head? = some slash ∧
      normalizePath other (pathText normalized) = .ok normalized := by
  obtain ⟨n, hno⟩ := normalizePath_normal h
  have hl : (pathText normalized).length < 256 := pathText_length normalized ▸ hno.fits
  have hh : (pathText normalized).head? = some slash := by
    unfold pathText
    split
    · rfl
    · next hne =>
      obtain ⟨c, rest, rfl⟩ := exists_cons_of_ne_nil hne
      rfl
  refine ⟨hno.plain, hno.few.1.trans hno.few.2, hl, hh, ?_⟩
  have hne : pathText normalized ≠ [] := fun h => by simp [h] at hh
  simp only [normalizePath, bind_ok, ensure_ok, pure_ok, pathStart, hh, if_true]
  exact ⟨(), hne, (), hl, _, rfl, (normalized, normalized.length),
    by rw [appendNormalized, components_pathText hno.plain, foldlM_of_normal hno], rfl⟩

/-- From `/a` the path `../b` leads to `/b`. -/
theorem normalized_stable_up :
    normalizePath [slash] (pathText [[98]]) = .ok [[98]] :=
  (normalized_stable [slash, 97] [slash] [dot, dot, slash, 98] [[98]] (by decide)).2.2.2.2

section Entries

variable {ν : Type} {ns : Namespace ν} {caller : Caller}

variable {path : Name}

/-- The rule unveils the nearest unveiled directory, from the node upwards. -/
inductive Nearest (ns : Namespace ν) (rules : List Pledge.VeilEntry) (rule : Pledge.VeilEntry) :
    ν → Prop
  | here {node : ν} {own : Identity} (hown : ns.identity node = some own)
      (hrule : ForDirectory rule own) : Nearest ns rules rule node
  | above {node up : ν} {own : Identity} (hown : ns.identity node = some own)
      (hnone : ∀ other ∈ rules, ¬ ForDirectory other own) (hup : ns.parent node = some up)
      (hnearest : Nearest ns rules rule up) : Nearest ns rules rule node

/-- A rule permits this for the node: one for the file itself or, if there is none, that of the
nearest unveiled directory. -/
def Covered (ns : Namespace ν) (caller : Caller) (node : ν) (need : BitVec 8) : Prop :=
  ∃ rule ∈ caller.pledge.entries, rule.permissions &&& need = need ∧
    ∃ own, ns.identity node = some own ∧ (ForFile rule own ∨
      (∀ other ∈ caller.pledge.entries, ¬ ForFile other own) ∧
        Nearest ns caller.pledge.entries rule node)

end Entries

/-- What a call does with a symbolic link in the last place of a path. -/
inductive LastLink where
  | follows
  | refuses
  | takes

/-- The calls on a directory entry. -/
inductive EntryCall where
  | unlink (path : Name)
  | rmdir (path : Name)
  | rename (oldPath newPath : Name)
  | link (oldPath newPath : Name)
  | symlink (target path : Name)
  | readlink (path : Name) (size : ℕ)
  | lstat (path : Name)

namespace EntryCall

variable {ν : Type} [DecidableEq ν] (ns : Namespace ν) (caller : Caller)

def perform (done : Bool) : EntryCall → Except ℤ Unit
  | .unlink path => Unveil.unlink ns caller path done
  | .rmdir path => Unveil.rmdir ns caller path done
  | .rename oldPath newPath => Unveil.rename ns caller oldPath newPath done
  | .link oldPath newPath => Unveil.link ns caller oldPath newPath done
  | .symlink target path => Unveil.symlink ns caller target path done
  | .readlink path size => do
    let _ ← Unveil.readlink ns caller path size
    return ()
  | .lstat path => do
    let _ ← Unveil.lstatPath ns caller path
    return ()

/-- The entries a call works on, and the permission it needs there. -/
def entries : EntryCall → List (Name × BitVec 8 × LastLink)
  | .unlink path => [(path, veilCreate, .takes)]
  | .rmdir path => [(path, veilCreate, .refuses)]
  | .rename oldPath newPath => [(oldPath, veilCreate, .takes), (newPath, veilCreate, .takes)]
  | .link oldPath newPath => [(oldPath, veilRead, .follows), (newPath, veilCreate, .refuses)]
  | .symlink _ path => [(path, veilCreate, .refuses)]
  | .readlink path _ => [(path, veilRead, .takes)]
  | .lstat path => [(path, veilRead, .takes)]

end EntryCall

section Contract

variable {ν : Type} {ns : Namespace ν} {caller : Caller}

variable {done : Bool} {path : Name} (hveiled : caller.pledge.veiled = true)
include hveiled

end Contract

end MichCore.Unveil
