import MichCore.ParentForest
import MichCore.VfsMount

/-!
# What holds of the VFS tables at all times

Linked nodes form trees that end at the global root or at the root of a mount, mounts and nodes
agree about who owns what, aliases name regular nodes, and every reference to a node is accounted
for; `held` counts those of callers. A reference that a call is about to drop counts as held.
-/
namespace MichCore.Vfs.Tables

open ParentForest

def Live (s : Tables) (i : Fin 64) : Prop := (s.nodes i).active ∧ (s.nodes i).linked
  deriving Decidable

/-- The parent pointers of linked nodes. -/
def up (s : Tables) (i : Fin 64) : Option (Fin 64) :=
  if s.Live i then (s.nodes i).parent else none

def IsDirectory (s : Tables) (i : Fin 64) : Prop := s.Live i ∧ (s.nodes i).type = .directory

structure Trees (s : Tables) : Prop where
  root : s.IsDirectory 0 ∧ (s.nodes 0).parent = none ∧ (s.nodes 0).mount = some 0
  parent : ∀ i p, s.Live i → (s.nodes i).parent = some p →
    s.IsDirectory p ∧ (s.nodes p).mount = (s.nodes i).mount
  top : ∀ i, s.Live i → (s.nodes i).parent = none →
    i = 0 ∨ ∃ k, k ≠ 0 ∧ (s.mounts k).root = some i
  rooted : ∀ i, Rooted s.up i

/-- A linked node belongs to an active mount, and the kind of filesystem fits. -/
def Owned (s : Tables) (node : Node) : Prop :=
  ∃ k, node.mount = some k ∧ (s.mounts k).active = true ∧ (node.filesystem = .ramfs ↔ k = 0) ∧
    node.filesystem ≠ .none ∧ (node.filesystem = .bootfs → node.readonly = true)

/-- The root of a mount and the directory it covers. -/
structure Attached (s : Tables) (k : Fin 8) (r p : Fin 64) : Prop where
  root : (s.mounts k).root = some r
  point : (s.mounts k).mountpoint = some p
  directory : s.IsDirectory r
  top : (s.nodes r).parent = none
  mount : (s.nodes r).mount = some k
  covered : (s.nodes p).active = true ∧ (s.nodes p).type = .directory

structure Mounted (s : Tables) : Prop where
  zero : (s.mounts 0).active = true ∧ (s.mounts 0).root = some 0 ∧ (s.mounts 0).mountpoint = none
  idle : ∀ k, (s.mounts k).active = false →
    (s.mounts k).root = none ∧ (s.mounts k).mountpoint = none
  busy : ∀ k, k ≠ 0 → (s.mounts k).active = true → ∃ r p, s.Attached k r p
  owned : ∀ i, s.Live i → s.Owned (s.nodes i)

/-- An alias may outlive the link of its node, but not the node; in `tidy` tables it does
neither. -/
structure Aliased (tidy : Prop) (s : Tables) : Prop where
  node : ∀ a, (s.aliases a).active = true → (s.nodes (s.aliases a).node).active = true ∧
    (s.nodes (s.aliases a).node).type = .regular
  parent : ∀ a, (s.aliases a).active = true → s.Live (s.aliases a).node →
    s.IsDirectory (s.aliases a).parent ∧
      (s.nodes (s.aliases a).parent).mount = (s.nodes (s.aliases a).node).mount
  live : tidy → ∀ a, (s.aliases a).active = true → s.Live (s.aliases a).node

def rootUses (mounts : Fin 8 → Mount) (i : Fin 64) : ℕ :=
  (Finset.univ.filter (fun k => (mounts k).root = some i)).card

def pointUses (mounts : Fin 8 → Mount) (i : Fin 64) : ℕ :=
  (Finset.univ.filter (fun k => (mounts k).mountpoint = some i)).card

def fileUses (files : Fin 32 → File) (i : Fin 64) : ℕ :=
  (Finset.univ.filter (fun f => (files f).node = some i)).card

/-- References to a node from the mount and file tables. -/
def uses (s : Tables) (i : Fin 64) : ℕ :=
  rootUses s.mounts i + pointUses s.mounts i + fileUses s.files i

def linkReferences (node : Node) : ℕ := if node.linked then 1 else 0

structure Counted (s : Tables) (held : Fin 64 → ℕ) : Prop where
  active : ∀ i, (s.nodes i).active = true →
    (s.nodes i).references = linkReferences (s.nodes i) + held i + s.uses i ∧
      0 < (s.nodes i).references
  free : ∀ i, (s.nodes i).active = false → held i = 0 ∧ s.uses i = 0
  files : ∀ f, (s.files f).active = false → (s.files f).node = none

structure Sane (tidy : Prop) (s : Tables) (held : Fin 64 → ℕ) : Prop where
  trees : s.Trees
  mounted : s.Mounted
  aliased : s.Aliased tidy
  counted : s.Counted held

theorem up_of_live {s : Tables} {i : Fin 64} (h : s.Live i) : s.up i = (s.nodes i).parent :=
  if_pos h

theorem up_of_not_live {s : Tables} {i : Fin 64} (h : ¬ s.Live i) : s.up i = none := if_neg h

theorem not_live_of_inactive {s : Tables} {i : Fin 64} (h : (s.nodes i).active = false) :
    ¬ s.Live i := by
  simp [Live, h]

theorem uses_eq_zero {s : Tables} {i : Fin 64} :
    s.uses i = 0 ↔ (∀ k, (s.mounts k).root ≠ some i) ∧ (∀ k, (s.mounts k).mountpoint ≠ some i) ∧
      ∀ f, (s.files f).node ≠ some i := by
  simp [uses, rootUses, pointUses, fileUses, Finset.filter_eq_empty_iff, and_assoc]

section Climb

variable {s : Tables} (hs : s.Trees)
include hs

theorem Trees.climb_directory {i j : Fin 64} {n : ℕ} (hi : s.IsDirectory i)
    (h : climb s.up n i = some j) : s.IsDirectory j := by
  induction n generalizing i with
  | zero =>
    cases h
    exact hi
  | succ n ih =>
    rw [climb, up_of_live hi.1] at h
    cases hp : (s.nodes i).parent with
    | none =>
      rw [hp] at h
      cases h
    | some p =>
      rw [hp, Option.bind_some] at h
      exact ih (hs.parent i p hi.1 hp).1 h

theorem Trees.avoids {i q : Fin 64} (hq : s.IsDirectory q) (hi : ¬ s.IsDirectory i) :
    Avoids s.up i q := by
  intro n h
  exact hi (hs.climb_directory hq h)

theorem Trees.hasAncestor_of_climb {i q : Fin 64} {fuel n : ℕ} (hq : s.IsDirectory q)
    (hn : n ≤ fuel) (h : climb s.up n q = some i) : s.hasAncestor i fuel q = true := by
  induction fuel generalizing q n with
  | zero =>
    obtain rfl : n = 0 := by omega
    cases h
    simp [hasAncestor]
  | succ fuel ih =>
    cases n with
    | zero =>
      cases h
      simp [hasAncestor]
    | succ n =>
      rw [climb, up_of_live hq.1] at h
      cases hp : (s.nodes q).parent with
      | none =>
        rw [hp] at h
        cases h
      | some p =>
        rw [hp, Option.bind_some] at h
        have := ih (hs.parent q p hq.1 hp).1 (by omega) h
        simp [hasAncestor, hp, this]

theorem Trees.avoids_of_hasAncestor {i q : Fin 64} (hq : s.IsDirectory q)
    (h : s.hasAncestor i 64 q = false) : Avoids s.up i q := by
  intro n hn
  have hlt : n ≤ 64 := by
    by_contra hlt
    have hno := (hs.rooted q).climb_card
    rw [Fintype.card_fin] at hno
    rw [climb_none_of_le (by omega) hno] at hn
    cases hn
  rw [hs.hasAncestor_of_climb hq hlt hn] at h
  cases h

end Climb

section Slots

variable {s : Tables} {i j : Fin 64} {node : Node}

@[simp] theorem setNode_self : (s.setNode i node).nodes i = node := by simp [setNode]

@[simp] theorem setNode_of_ne (h : j ≠ i) : (s.setNode i node).nodes j = s.nodes j := by
  simp [setNode, Function.update_of_ne h]

@[simp] theorem setNode_aliases : (s.setNode i node).aliases = s.aliases := rfl

theorem setNode_live_self : (s.setNode i node).Live i ↔ node.active ∧ node.linked := by
  simp [Live]

theorem setNode_not_live (h : node.linked = false) : ¬ (s.setNode i node).Live i := by
  simp [setNode_live_self, h]

theorem setNode_live_of_ne (h : j ≠ i) : (s.setNode i node).Live j ↔ s.Live j := by
  simp only [Live, setNode_of_ne h]

theorem setNode_isDirectory_of_ne (h : j ≠ i) :
    (s.setNode i node).IsDirectory j ↔ s.IsDirectory j := by
  simp only [IsDirectory, setNode_live_of_ne h, setNode_of_ne h]

theorem setNode_owned {n : Node} : (s.setNode i node).Owned n ↔ s.Owned n := Iff.rfl

theorem setNode_up :
    (s.setNode i node).up =
      Function.update s.up i (if node.active ∧ node.linked then node.parent else none) := by
  funext j
  by_cases hji : j = i
  · subst hji
    simp [up, Live]
  · rw [Function.update_of_ne hji]
    by_cases hj : s.Live j
    · rw [up_of_live hj, up_of_live ((setNode_live_of_ne hji).mpr hj), setNode_of_ne hji]
    · rw [up_of_not_live hj, up_of_not_live (fun h => hj ((setNode_live_of_ne hji).mp h))]

end Slots

/-- The fields of a node that the trees are made of. -/
structure SameShape (n n' : Node) : Prop where
  active : n'.active = n.active
  linked : n'.linked = n.linked
  parent : n'.parent = n.parent
  type : n'.type = n.type
  filesystem : n'.filesystem = n.filesystem
  mount : n'.mount = n.mount
  readonly : n'.readonly = n.readonly

/-- Two nodes that differ only in data the trees do not look at; a free slot may hold
anything. -/
def Alike (n n' : Node) : Prop := (n.active = false ∧ n'.active = false) ∨ SameShape n n'

theorem Alike.refl (n : Node) : Alike n n := .inr ⟨rfl, rfl, rfl, rfl, rfl, rfl, rfl⟩

theorem setNode_alike (s : Tables) (i : Fin 64) (node : Node) (h : Alike (s.nodes i) node)
    (j : Fin 64) : Alike (s.nodes j) ((s.setNode i node).nodes j) := by
  by_cases hji : j = i
  · subst hji
    simpa using h
  · simpa [setNode_of_ne hji] using Alike.refl (s.nodes j)

variable {tidy : Prop}

section Alike

variable {s s' : Tables} (h : ∀ i, Alike (s.nodes i) (s'.nodes i))
include h

theorem live_alike (i : Fin 64) : s'.Live i ↔ s.Live i := by
  rcases h i with ⟨h1, h2⟩ | h
  · simp [Live, h1, h2]
  · simp [Live, h.active, h.linked]

theorem shape_of_active {i : Fin 64} (hi : (s.nodes i).active = true) :
    SameShape (s.nodes i) (s'.nodes i) := by
  rcases h i with ⟨h1, -⟩ | h
  · rw [h1] at hi
    cases hi
  · exact h

theorem up_alike : s'.up = s.up := by
  funext i
  by_cases hi : s.Live i
  · rw [up_of_live hi, up_of_live ((live_alike h i).mpr hi), (shape_of_active h hi.1).parent]
  · rw [up_of_not_live hi, up_of_not_live (fun h' => hi ((live_alike h i).mp h'))]

theorem isDirectory_alike (i : Fin 64) : s'.IsDirectory i ↔ s.IsDirectory i := by
  constructor
  · rintro ⟨hl, ht⟩
    have hi := (live_alike h i).mp hl
    exact ⟨hi, by rw [← (shape_of_active h hi.1).type]; exact ht⟩
  · rintro ⟨hi, ht⟩
    exact ⟨(live_alike h i).mpr hi, by rw [(shape_of_active h hi.1).type]; exact ht⟩

theorem Trees.alike (hm : ∀ k, (s'.mounts k).root = (s.mounts k).root) (ht : s.Trees) :
    s'.Trees := by
  obtain ⟨⟨hdir, hn, hmo⟩, hpa, htop, hr⟩ := ht
  have h0 := shape_of_active h hdir.1.1
  refine ⟨⟨(isDirectory_alike h 0).mpr hdir, by rw [h0.parent, hn], by rw [h0.mount, hmo]⟩,
    ?_, ?_, ?_⟩
  · intro i p hi hp
    have hi' := (live_alike h i).mp hi
    rw [(shape_of_active h hi'.1).parent] at hp
    obtain ⟨hpd, hpm⟩ := hpa i p hi' hp
    refine ⟨(isDirectory_alike h p).mpr hpd, ?_⟩
    rw [(shape_of_active h hpd.1.1).mount, (shape_of_active h hi'.1).mount, hpm]
  · intro i hi hp
    have hi' := (live_alike h i).mp hi
    rw [(shape_of_active h hi'.1).parent] at hp
    simp only [hm]
    exact htop i hi' hp
  · rw [up_alike h]
    exact hr

theorem Attached.alike {k : Fin 8} {r p : Fin 64} (hr : (s'.mounts k).root = (s.mounts k).root)
    (hp : (s'.mounts k).mountpoint = (s.mounts k).mountpoint) (ha : s.Attached k r p) :
    s'.Attached k r p := by
  have hro := shape_of_active h ha.directory.1.1
  have hpo := shape_of_active h ha.covered.1
  exact ⟨by rw [hr, ha.root], by rw [hp, ha.point], (isDirectory_alike h r).mpr ha.directory,
    by rw [hro.parent, ha.top], by rw [hro.mount, ha.mount],
    by rw [hpo.active, ha.covered.1], by rw [hpo.type, ha.covered.2]⟩

theorem Mounted.alike (hm : ∀ k, (s'.mounts k).active = (s.mounts k).active ∧
    (s'.mounts k).root = (s.mounts k).root ∧
    (s'.mounts k).mountpoint = (s.mounts k).mountpoint) (ht : s.Mounted) : s'.Mounted := by
  refine ⟨?_, ?_, ?_, ?_⟩
  · rw [(hm 0).1, (hm 0).2.1, (hm 0).2.2]
    exact ht.zero
  · intro k hk
    rw [(hm k).2.1, (hm k).2.2]
    exact ht.idle k ((hm k).1 ▸ hk)
  · intro k hk hac
    rw [(hm k).1] at hac
    obtain ⟨r, p, ha⟩ := ht.busy k hk hac
    exact ⟨r, p, ha.alike h (hm k).2.1 (hm k).2.2⟩
  · intro i hi
    have hi' := (live_alike h i).mp hi
    have hs := shape_of_active h hi'.1
    obtain ⟨k, hmo, hac, hfs, hn, hb⟩ := ht.owned i hi'
    exact ⟨k, by rw [hs.mount, hmo], by rw [(hm k).1, hac],
      by rw [hs.filesystem]; exact hfs, by rw [hs.filesystem]; exact hn,
      by rw [hs.filesystem, hs.readonly]; exact hb⟩

theorem Aliased.alike (ha : ∀ a, (s'.aliases a).active = true → s'.aliases a = s.aliases a)
    (ht : s.Aliased tidy) : s'.Aliased tidy := by
  constructor
  · intro a hac
    have heq := ha a hac
    rw [heq] at hac ⊢
    obtain ⟨hn, hty⟩ := ht.node a hac
    have hs := shape_of_active h hn
    exact ⟨by rw [hs.active, hn], by rw [hs.type, hty]⟩
  · intro a hac hlive
    have heq := ha a hac
    rw [heq] at hac hlive ⊢
    have hl' := (live_alike h _).mp hlive
    obtain ⟨hdir, hm⟩ := ht.parent a hac hl'
    refine ⟨(isDirectory_alike h _).mpr hdir, ?_⟩
    rw [(shape_of_active h hdir.1.1).mount, (shape_of_active h hl'.1).mount, hm]
  · intro hti a hac
    have heq := ha a hac
    rw [heq] at hac ⊢
    exact (live_alike h _).mpr (ht.live hti a hac)

theorem Sane.alike {held held' : Fin 64 → ℕ} (hs : s.Sane tidy held)
    (hm : ∀ k, (s'.mounts k).active = (s.mounts k).active ∧
      (s'.mounts k).root = (s.mounts k).root ∧
      (s'.mounts k).mountpoint = (s.mounts k).mountpoint)
    (ha : ∀ a, (s'.aliases a).active = true → s'.aliases a = s.aliases a)
    (hc : s'.Counted held') : s'.Sane tidy held' :=
  ⟨hs.trees.alike h fun k => (hm k).2.1, hs.mounted.alike h hm, hs.aliased.alike h ha, hc⟩

end Alike

/-- What makes `node` fit into slot `i` below the directory `q`: the slot is free, or its
node keeps its kind and mount and moves to a place that is not below it. -/
structure Fits (s : Tables) (i q : Fin 64) (node : Node) : Prop where
  ne_root : i ≠ 0
  notRoot : ∀ k, (s.mounts k).root ≠ some i
  live : node.active = true ∧ node.linked = true
  parent : node.parent = some q
  directory : s.IsDirectory q
  mount : node.mount = (s.nodes q).mount
  owned : s.Owned node
  avoids : Avoids s.up i q
  same : (s.nodes i).active = false ∨
    (s.Live i ∧ node.type = (s.nodes i).type ∧ node.mount = (s.nodes i).mount)

namespace Fits

variable {s : Tables} {i q : Fin 64} {node : Node} (hf : s.Fits i q node)
include hf

theorem kept (h : (s.nodes i).active = true) :
    s.Live i ∧ node.type = (s.nodes i).type ∧ node.mount = (s.nodes i).mount := by
  rcases hf.same with hfr | hs
  · rw [hfr] at h
    cases h
  · exact hs

theorem keeps {j : Fin 64} (h : (s.nodes j).active = true) :
    ((s.setNode i node).Live j ↔ s.Live j) ∧ ((s.setNode i node).nodes j).type = (s.nodes j).type ∧
      ((s.setNode i node).nodes j).mount = (s.nodes j).mount ∧
      ((s.setNode i node).nodes j).active = true := by
  by_cases hji : j = i
  · subst hji
    obtain ⟨hlive, ht, hm⟩ := hf.kept h
    rw [setNode_live_self, setNode_self]
    exact ⟨⟨fun _ => hlive, fun _ => hf.live⟩, ht, hm, hf.live.1⟩
  · rw [setNode_live_of_ne hji, setNode_of_ne hji]
    exact ⟨Iff.rfl, rfl, rfl, h⟩

theorem keeps_directory {j : Fin 64} (h : s.IsDirectory j) : (s.setNode i node).IsDirectory j := by
  obtain ⟨hlive, ht, -, -⟩ := hf.keeps h.1.1
  exact ⟨hlive.mpr h.1, by rw [ht, h.2]⟩

theorem trees (hs : s.Trees) : (s.setNode i node).Trees := by
  refine ⟨⟨hf.keeps_directory hs.root.1, ?_, ?_⟩, ?_, ?_, ?_⟩
  · rw [setNode_of_ne hf.ne_root.symm]
    exact hs.root.2.1
  · rw [setNode_of_ne hf.ne_root.symm]
    exact hs.root.2.2
  · intro j p hj hp
    by_cases hji : j = i
    · subst hji
      rw [setNode_self, hf.parent] at hp
      cases hp
      refine ⟨hf.keeps_directory hf.directory, ?_⟩
      rw [(hf.keeps hf.directory.1.1).2.2.1, setNode_self, hf.mount]
    · rw [setNode_live_of_ne hji] at hj
      rw [setNode_of_ne hji] at hp ⊢
      obtain ⟨hdir, hm⟩ := hs.parent j p hj hp
      exact ⟨hf.keeps_directory hdir, by rw [(hf.keeps hdir.1.1).2.2.1, hm]⟩
  · intro j hj hp
    by_cases hji : j = i
    · subst hji
      rw [setNode_self, hf.parent] at hp
      cases hp
    · rw [setNode_live_of_ne hji] at hj
      rw [setNode_of_ne hji] at hp
      exact hs.top j hj hp
  · intro j
    rw [setNode_up, if_pos ⟨hf.live.1, hf.live.2⟩, hf.parent]
    exact (hs.rooted j).update_some (hs.rooted q) hf.avoids

theorem attached {k : Fin 8} {r p : Fin 64} (ha : s.Attached k r p) :
    (s.setNode i node).Attached k r p := by
  have hri : r ≠ i := fun h => hf.notRoot k (h ▸ ha.root)
  obtain ⟨-, ht, -, hac⟩ := hf.keeps ha.covered.1
  exact ⟨ha.root, ha.point, hf.keeps_directory ha.directory, by rw [setNode_of_ne hri, ha.top],
    by rw [setNode_of_ne hri, ha.mount], hac, by rw [ht, ha.covered.2]⟩

theorem mounted (hs : s.Mounted) : (s.setNode i node).Mounted := by
  refine ⟨hs.zero, hs.idle, ?_, ?_⟩
  · intro k hk hac
    obtain ⟨r, p, ha⟩ := hs.busy k hk hac
    exact ⟨r, p, hf.attached ha⟩
  · intro j hj
    rw [setNode_owned]
    by_cases hji : j = i
    · subst hji
      rw [setNode_self]
      exact hf.owned
    · rw [setNode_live_of_ne hji] at hj
      rw [setNode_of_ne hji]
      exact hs.owned j hj

theorem aliased (hs : s.Aliased tidy) : (s.setNode i node).Aliased tidy := by
  refine ⟨?_, ?_, ?_⟩
  · intro a ha
    obtain ⟨hac, hty⟩ := hs.node a ha
    obtain ⟨-, hsa, -, hac'⟩ := hf.keeps hac
    exact ⟨hac', by rw [setNode_aliases, hsa, hty]⟩
  · intro a ha hlive
    obtain ⟨hiff, -, hm, -⟩ := hf.keeps (hs.node a ha).1
    obtain ⟨hdir, hsa⟩ := hs.parent a ha (hiff.mp hlive)
    refine ⟨hf.keeps_directory hdir, ?_⟩
    rw [setNode_aliases, hm, (hf.keeps hdir.1.1).2.2.1, hsa]
  · intro hti a ha
    exact (hf.keeps (hs.node a ha).1).1.mpr (hs.live hti a ha)

end Fits

/-- A linked node that nothing hangs on: it can lose its link. -/
structure Leaf (s : Tables) (i : Fin 64) : Prop where
  ne_root : i ≠ 0
  notRoot : ∀ k, (s.mounts k).root ≠ some i
  childless : ∀ j, s.Live j → (s.nodes j).parent ≠ some i
  nameless : ∀ a, (s.aliases a).active = true → (s.aliases a).node ≠ i
  empty : ∀ a, (s.aliases a).active = true → s.Live (s.aliases a).node →
    (s.aliases a).parent ≠ i

namespace Leaf

variable {s : Tables} {i : Fin 64} {node : Node} (hl : s.Leaf i)
include hl

theorem trees (hn : node.linked = false) (hs : s.Trees) : (s.setNode i node).Trees := by
  refine ⟨⟨(setNode_isDirectory_of_ne hl.ne_root.symm).mpr hs.root.1, ?_, ?_⟩, ?_, ?_, ?_⟩
  · rw [setNode_of_ne hl.ne_root.symm]
    exact hs.root.2.1
  · rw [setNode_of_ne hl.ne_root.symm]
    exact hs.root.2.2
  · intro j p hj hp
    have hji : j ≠ i := fun h => setNode_not_live hn (h ▸ hj)
    rw [setNode_live_of_ne hji] at hj
    rw [setNode_of_ne hji] at hp ⊢
    have hpi : p ≠ i := fun h => hl.childless j hj (h ▸ hp)
    obtain ⟨hdir, hm⟩ := hs.parent j p hj hp
    exact ⟨(setNode_isDirectory_of_ne hpi).mpr hdir, by rw [setNode_of_ne hpi, hm]⟩
  · intro j hj hp
    have hji : j ≠ i := fun h => setNode_not_live hn (h ▸ hj)
    rw [setNode_live_of_ne hji] at hj
    rw [setNode_of_ne hji] at hp
    exact hs.top j hj hp
  · intro j
    rw [setNode_up, if_neg (by simp [hn])]
    exact (hs.rooted j).update_none i

theorem mounted (hn : node.linked = false) (hs : s.Mounted)
    (hc : ∀ k, (s.mounts k).mountpoint = some i → (s.nodes i).active = true →
      node.active = true ∧ node.type = (s.nodes i).type) :
    (s.setNode i node).Mounted := by
  refine ⟨hs.zero, hs.idle, ?_, ?_⟩
  · intro k hk hac
    obtain ⟨r, p, ha⟩ := hs.busy k hk hac
    have hri : r ≠ i := fun h => hl.notRoot k (h ▸ ha.root)
    refine ⟨r, p, ha.root, ha.point, (setNode_isDirectory_of_ne hri).mpr ha.directory,
      by rw [setNode_of_ne hri, ha.top], by rw [setNode_of_ne hri, ha.mount], ?_⟩
    by_cases hpi : p = i
    · subst hpi
      obtain ⟨hac', ht⟩ := hc k ha.point ha.covered.1
      rw [setNode_self]
      exact ⟨hac', by rw [ht, ha.covered.2]⟩
    · rw [setNode_of_ne hpi]
      exact ha.covered
  · intro j hj
    have hji : j ≠ i := fun h => setNode_not_live hn (h ▸ hj)
    rw [setNode_live_of_ne hji] at hj
    rw [setNode_of_ne hji]
    exact hs.owned j hj

theorem aliased (hs : s.Aliased tidy) : (s.setNode i node).Aliased tidy := by
  refine ⟨?_, ?_, ?_⟩
  · intro a ha
    have hne := hl.nameless a ha
    rw [setNode_aliases, setNode_of_ne hne]
    exact hs.node a ha
  · intro a ha hlive
    have hne := hl.nameless a ha
    rw [setNode_aliases, setNode_live_of_ne hne] at hlive
    have hpe := hl.empty a ha hlive
    rw [setNode_aliases, setNode_of_ne hne, setNode_of_ne hpe, setNode_isDirectory_of_ne hpe]
    exact hs.parent a ha hlive
  · intro ht a ha
    rw [setNode_aliases, setNode_live_of_ne (hl.nameless a ha)]
    exact hs.live ht a ha

end Leaf

end MichCore.Vfs.Tables
