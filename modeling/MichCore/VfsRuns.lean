import MichCore.VfsEntries

/-!
# Runs of the VFS

The tables after `vfs_init`, the calls, and what every run of calls keeps. A reference is given
back only by somebody who has it.
-/
namespace MichCore.Vfs.Tables

open ParentForest Function

def blankNode : Node :=
  ⟨false, false, 0, [], [], none, .none, 1, 0, .none, none, 0, false, 0, 0, 0, 0, 0⟩

/-- The tables after `vfs_init`; the root object has a reference for its link and one of
the root mount. -/
def boot : Tables where
  nodes := update (fun _ => blankNode) 0
    { blankNode with
      active := true, linked := true, references := 2, type := .directory, filesystem := .ramfs,
      mount := some 0, mode := 0o777 }
  aliases := fun _ => ⟨false, 0, 0, []⟩
  mounts := update (fun _ => ⟨false, none, none, 1, .none⟩) 0
    ⟨true, some 0, none, 1, .ramfs⟩
  files := fun _ => ⟨false, none⟩

/-- The references to a node that are neither its link nor in the mount and file tables. -/
def outside (s : Tables) (i : Fin 64) : ℕ :=
  if (s.nodes i).active then
    (s.nodes i).references - linkReferences (s.nodes i) - s.uses i
  else 0

/-- A call with the answers it gets from the backend and the object pool. -/
inductive Call where
  | create (directory : Option (Fin 64)) (name : Name) (type : NodeType) (mode : UInt32)
      (disk : Option (UInt32 × UInt64)) (spare : ℕ)
  | symlink (directory : Option (Fin 64)) (name target : Name)
      (disk : Option (UInt32 × UInt64)) (written : Bool) (spare : ℕ)
  | link (object directory : Option (Fin 64)) (name : Name) (disk : Bool)
  | unlink (directory : Option (Fin 64)) (name : Name) (disk : Bool)
  | rename (oldDirectory : Option (Fin 64)) (name : Name) (newDirectory : Option (Fin 64))
      (newName : Name) (disk moved : Bool)
  | lookup (directory : Option (Fin 64)) (name : Name)
  | release (object : Fin 64)
  | openFile (object : Option (Fin 64)) (spare : ℕ)
  | closeFile (file : Fin 32)
  | mountBootfs (directory : Option (Fin 64)) (entries : List BootEntry) (spare : ℕ)
  | mountAdytumfs (directory : Option (Fin 64)) (volume : Option VolumeReport) (spare : ℕ)
  | unmount (directory : Option (Fin 64))

/-- The tables after a call. -/
def perform (s : Tables) : Call → Tables
  | .create directory name type mode disk spare =>
    (s.createMode directory name type mode disk spare).2
  | .symlink directory name target disk written spare =>
    (s.symlink directory name target disk written spare).2
  | .link object directory name disk => (s.link object directory name disk).2
  | .unlink directory name disk => (s.unlink directory name disk).2
  | .rename oldDirectory name newDirectory newName disk moved =>
    (s.rename oldDirectory name newDirectory newName disk moved).2
  | .lookup directory name => (s.lookup directory name).2
  | .release object => if 0 < s.outside object then s.release object else s
  | .openFile object spare => (s.openFile object spare).2
  | .closeFile file => s.closeFile file
  | .mountBootfs directory entries spare => (s.mountBootfs directory entries spare).2
  | .mountAdytumfs directory volume spare => (s.mountAdytumfs directory volume spare).2
  | .unmount directory => (s.unmount directory).2

def run (s : Tables) (calls : List Call) : Tables := calls.foldl perform s

theorem run_append (s : Tables) (xs ys : List Call) : s.run (xs ++ ys) = (s.run xs).run ys :=
  List.foldl_append

theorem run_concat (s : Tables) (xs : List Call) (call : Call) :
    s.run (xs ++ [call]) = (s.run xs).perform call := by
  rw [run_append]
  rfl

variable {s : Tables} {held : Fin 64 → ℕ} {tidy : Prop}

theorem Sane.outside_eq (hs : s.Sane tidy held) : s.outside = held := by
  funext i
  by_cases hi : (s.nodes i).active = true
  · have := (hs.counted.active i hi).1
    rw [outside, if_pos hi]
    omega
  · rw [outside, if_neg hi]
    exact ((hs.counted.free i (by simpa using hi)).1).symm

theorem Sane.weaken (hs : s.Sane tidy held) : s.Sane False held :=
  ⟨hs.trees, hs.mounted, ⟨hs.aliased.node, hs.aliased.parent, fun h => h.elim⟩, hs.counted⟩

theorem Sane.strengthen (hs : s.Sane False held)
    (h : ∀ a, (s.aliases a).active = true → s.Live (s.aliases a).node) : s.Sane tidy held :=
  ⟨hs.trees, hs.mounted, ⟨hs.aliased.node, hs.aliased.parent, fun _ => h⟩, hs.counted⟩

theorem Sane.perform_of_ne (hs : s.Sane tidy held) {call : Call}
    (hc : ∀ directory, call ≠ .unmount directory) :
    ∃ held', (s.perform call).Sane tidy held' := by
  cases call with
  | create directory name type mode disk spare =>
    exact ⟨_, hs.createMode directory name type mode disk spare⟩
  | symlink directory name target disk written spare =>
    exact hs.symlink directory name target disk written spare
  | link object directory name disk => exact ⟨_, hs.link object directory name disk⟩
  | unlink directory name disk => exact ⟨_, hs.unlink directory name disk⟩
  | rename oldDirectory name newDirectory newName disk moved =>
    exact ⟨_, hs.rename oldDirectory name newDirectory newName disk moved⟩
  | lookup directory name => exact ⟨_, hs.lookup directory name⟩
  | release object =>
    simp only [perform, hs.outside_eq]
    split
    · next hh =>
      exact ⟨_, hs.release hh⟩
    · exact ⟨_, hs⟩
  | openFile object spare => exact ⟨_, hs.openFile object spare⟩
  | closeFile file => exact ⟨_, hs.closeFile file⟩
  | mountBootfs directory entries spare =>
    exact ⟨_, (mountBootfs_outcome hs directory entries spare).sane hs⟩
  | mountAdytumfs directory volume spare =>
    exact ⟨_, (mountAdytumfs_outcome hs directory volume spare).sane hs⟩
  | unmount directory => exact absurd rfl (hc directory)

theorem Sane.unmount (hs : s.Sane tidy held) (directory : Option (Fin 64)) :
    (s.unmount directory).2.Sane False held := by
  rcases unmount_cases s directory with h | ⟨d, k, -, hk, h⟩
  · rw [h]
    exact hs.weaken
  · rw [h]
    exact hs.mountDestroy (mountForPoint_some hk).1

theorem Sane.perform (hs : s.Sane tidy held) (call : Call) :
    ∃ held', (s.perform call).Sane False held' := by
  by_cases hc : ∃ directory, call = .unmount directory
  · obtain ⟨directory, rfl⟩ := hc
    exact ⟨_, hs.unmount directory⟩
  · push Not at hc
    exact hs.weaken.perform_of_ne hc

theorem boot_sane : boot.Sane True (fun _ => 0) := by
  have hlive : ∀ i, boot.Live i ↔ i = 0 := by decide
  have hup : ∀ i, boot.up i = none := by
    intro i
    by_cases hi : boot.Live i
    · rw [up_of_live hi, (hlive i).mp hi]
      rfl
    · exact up_of_not_live hi
  have hal : ∀ a, (boot.aliases a).active ≠ true := fun _ => Bool.false_ne_true
  refine ⟨⟨⟨⟨(hlive 0).mpr rfl, rfl⟩, rfl, rfl⟩, ?_, ?_, fun i => .root (hup i)⟩,
    ⟨⟨rfl, rfl, rfl⟩, ?_, ?_, ?_⟩, ⟨fun a ha => absurd ha (hal a),
      fun a ha => absurd ha (hal a), fun _ a ha => absurd ha (hal a)⟩,
    ⟨?_, ?_, fun _ _ => rfl⟩⟩
  · intro i p hi hp
    rw [(hlive i).mp hi] at hp
    cases hp
  · exact fun i hi _ => .inl ((hlive i).mp hi)
  · decide
  · intro k hk hac
    simp [boot, update_of_ne hk] at hac
  · intro i hi
    rw [(hlive i).mp hi]
    exact ⟨0, rfl, rfl, by decide, by decide, by decide⟩
  · intro i hi
    have hi0 : i = 0 := by
      by_contra hne
      simp [boot, update_of_ne hne, blankNode] at hi
    subst hi0
    decide
  · intro i hi
    refine ⟨rfl, uses_eq_zero.mpr ⟨?_, ?_, ?_⟩⟩
    · intro k hk
      have hi0 : i = 0 := by
        by_cases hk0 : k = 0
        · subst hk0
          exact (Option.some.inj hk).symm
        · simp [boot, update_of_ne hk0] at hk
      subst hi0
      cases hi
    · intro k hk
      by_cases hk0 : k = 0
      · subst hk0
        cases hk
      · simp [boot, update_of_ne hk0] at hk
    · intro f hf
      cases hf

theorem run_sane (hs : s.Sane False held) (calls : List Call) :
    ∃ held', (s.run calls).Sane False held' := by
  induction calls using List.reverseRecOn with
  | nil => exact ⟨held, hs⟩
  | append_singleton calls call ih =>
    obtain ⟨held', hrun⟩ := ih
    rw [run_concat]
    exact hrun.perform call

/-- In every run from `vfs_init` nothing dangles: a node in use has a reference for its link and
for each file, root and mountpoint that is it, and one that is free is named by no file, mount or
alias. -/
theorem references_cover_uses (calls : List Call) :
    let s := boot.run calls
    (∀ i, (s.nodes i).active = true → 0 < (s.nodes i).references ∧
      linkReferences (s.nodes i) + s.uses i ≤ (s.nodes i).references) ∧
    ∀ i, (s.nodes i).active = false →
      (∀ f, (s.files f).node ≠ some i) ∧ (∀ k, (s.mounts k).root ≠ some i) ∧
      (∀ k, (s.mounts k).mountpoint ≠ some i) ∧
      ∀ a, (s.aliases a).active = true → (s.aliases a).node ≠ i := by
  intro s
  obtain ⟨held, hs⟩ := run_sane boot_sane.weaken calls
  refine ⟨fun i hi => ?_, fun i hi => ?_⟩
  · obtain ⟨hcount, hpos⟩ := hs.counted.active i hi
    refine ⟨hpos, hcount.ge.trans' ?_⟩
    exact Nat.add_le_add_right (Nat.le_add_right _ _) _
  · obtain ⟨hr, hpoi, hf⟩ := uses_eq_zero.mp (hs.counted.free i hi).2
    refine ⟨hf, hr, hpoi, ?_⟩
    rintro a ha rfl
    exact absurd ((hs.aliased.node a ha).1.symm.trans hi) (by decide)

end MichCore.Vfs.Tables
