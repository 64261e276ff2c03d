import MichCore.VfsReferences

/-!
# The namespace calls keep the tables sane

For each call one lemma says all it can do to the tables, guards included, and one that sane
tables stay sane, with the callers' references brought up to date.
-/
namespace MichCore.Vfs.Tables

open ParentForest List

variable {s s' : Tables} {held : Fin 64 → ℕ} {tidy : Prop}

variable {i p : Fin 64} {node : Node} {name : Name}

theorem nodeFor_some {object : Option (Fin 64)} (h : s.nodeFor object = some i) :
    object = some i ∧ (s.nodes i).active = true := by
  simpa [nodeFor, Option.filter_eq_some_iff] using h

theorem nodeFor_of_active (h : (s.nodes i).active = true) : s.nodeFor (some i) = some i := by
  simp [nodeFor, h]

theorem mountForPoint_some {k : Fin 8} (h : s.mountForPoint i = some k) :
    k ≠ 0 ∧ (s.mounts k).active = true ∧ (s.mounts k).mountpoint = some i := SlotTable.find_some h

theorem childCount_eq_zero (h : s.childCount p = 0) :
    (∀ i, s.Live i → (s.nodes i).parent ≠ some p) ∧
      ∀ a, (s.aliases a).active = true → (s.aliases a).parent ≠ p := by
  simp only [childCount, Nat.add_eq_zero_iff, countP_eq_zero, mem_finRange,
    decide_eq_true_eq, not_and, true_implies] at h
  exact ⟨fun i hi => h.1 i hi.1 hi.2, fun a ha => h.2 a ha⟩

theorem childCount_ne_zero_of_live (hi : s.Live i) (hp : (s.nodes i).parent = some p) :
    s.childCount p ≠ 0 := by
  intro h
  exact (childCount_eq_zero h).1 i hi hp

/-- What a successful `vfs_create_mode` found and wrote. -/
structure Created (s : Tables) (p : Fin 64) (name : Name) (type : NodeType) (i : Fin 64)
    (node : Node) : Prop where
  directory : s.IsDirectory p
  writable : (s.nodes p).readonly = false
  valid : validName name
  fresh : ∀ j, ¬ s.Named p name j
  slot : i ≠ 0 ∧ (s.nodes i).active = false
  live : node.active = true ∧ node.linked = true
  references : node.references = 2
  parent : node.parent = some p
  name : node.name = name
  type : node.type = type
  filesystem : node.filesystem = (s.nodes p).filesystem
  mount : node.mount = (s.nodes p).mount
  target : node.target = []

theorem createMode_cases (s : Tables) (directory : Option (Fin 64)) (name : Name)
    (type : NodeType) (mode : UInt32) (disk : Option (UInt32 × UInt64)) (spare : ℕ) :
    s.createMode directory name type mode disk spare = (none, s) ∨
      (∃ i node, (s.nodes i).active = false ∧ node.active = false ∧
        s.createMode directory name type mode disk spare = (none, s.setNode i node)) ∨
      ∃ p i node, directory = some p ∧ s.Created p name type i node ∧
        s.createMode directory name type mode disk spare = (some i, s.setNode i node) := by
  unfold createMode
  cases hp : s.nodeFor directory with
  | none => exact .inl rfl
  | some p =>
    obtain ⟨rfl, hac⟩ := nodeFor_some hp
    simp only
    split
    · exact .inl rfl
    next href =>
    push Not at href
    obtain ⟨hty, hl, hrea, hv, hk, -⟩ := href
    split
    · exact .inl rfl
    next hta =>
    cases hfree : (finRange 64).find? (fun i => i ≠ 0 ∧ (s.nodes i).active = false) with
    | none => exact .inl rfl
    | some i =>
      have hs : i ≠ 0 ∧ (s.nodes i).active = false := SlotTable.find_some hfree
      simp only
      split
      · exact .inr (.inl ⟨i, _, hs.2, rfl, rfl⟩)
      split
      · exact .inr (.inl ⟨i, _, hs.2, rfl, rfl⟩)
      refine .inr (.inr ⟨p, i, _, rfl, ?_, rfl⟩)
      have hfres : ∀ j, ¬ s.Named p name j := by
        intro j hj
        exact hta (by simpa using ⟨j, hj⟩)
      constructor
      case directory => exact ⟨⟨hac, by simpa using hl⟩, hty⟩
      case writable => simpa using hrea
      case valid => exact hv
      case fresh => exact hfres
      case slot => exact hs
      case references => rfl
      all_goals
        by_cases hfs : (s.nodes p).filesystem = .adytumfs
        · simp [hfs, createdNode]
        · simp [hfs, createdNode]

variable {type : NodeType}

section

variable (hs : s.Sane tidy held)
include hs

theorem Sane.setNode_free (hi : (s.nodes i).active = false)
    (hn : node.active = false) : (s.setNode i node).Sane tidy held :=
  hs.setNode_alike node (.inl ⟨hi, hn⟩) (by simp [hn])

theorem Sane.writable_owned (hp : s.IsDirectory p)
    (hw : (s.nodes p).readonly = false) (hfs : node.filesystem = (s.nodes p).filesystem)
    (hm : node.mount = (s.nodes p).mount) : s.Owned node := by
  obtain ⟨k, hk, hac, hram, hn, hb⟩ := hs.mounted.owned p hp.1
  refine ⟨k, by rw [hm, hk], hac, by rw [hfs]; exact hram, by rw [hfs]; exact hn, ?_⟩
  intro h
  have := hb (hfs ▸ h)
  rw [hw] at this
  cases this

theorem Created.fits (h : s.Created p name type i node) :
    s.Fits i p node where
  ne_root := h.slot.1
  notRoot := (uses_eq_zero.mp (hs.counted.free i h.slot.2).2).1
  live := h.live
  parent := h.parent
  directory := h.directory
  mount := h.mount
  owned := hs.writable_owned h.directory h.writable h.filesystem h.mount
  avoids := hs.trees.avoids h.directory (fun hi => not_live_of_inactive h.slot.2 hi.1)
  same := .inl h.slot.2

theorem Created.sane (h : s.Created p name type i node) :
    (s.setNode i node).Sane tidy (more held i) := by
  have hfits := h.fits hs
  obtain ⟨hh, hu⟩ := hs.counted.free i h.slot.2
  refine ⟨hfits.trees hs.trees, hfits.mounted hs.mounted, hfits.aliased hs.aliased,
    hs.counted.setNode (fun j hj => more_of_ne held hj) ?_ ?_⟩
  · intro _
    simp [linkReferences, h.live.2, h.references, hh, hu]
  · intro hfr
    rw [h.live.1] at hfr
    cases hfr

/-- The callers' references after a call that hands out an object. -/
def handOut (held : Fin 64 → ℕ) (object : Option (Fin 64)) : Fin 64 → ℕ :=
  object.elim held (more held)

theorem Sane.createMode (directory : Option (Fin 64)) (name : Name)
    (type : NodeType) (mode : UInt32) (disk : Option (UInt32 × UInt64)) (spare : ℕ) :
    (s.createMode directory name type mode disk spare).2.Sane tidy
      (handOut held (s.createMode directory name type mode disk spare).1) := by
  rcases createMode_cases s directory name type mode disk spare with
    h | ⟨i, node, hi, hn, h⟩ | ⟨p, i, node, -, hc, h⟩ <;>
    rw [h]
  · exact hs
  · exact hs.setNode_free hi hn
  · exact hc.sane hs

theorem Sane.notRoot (hp : (s.nodes i).parent = some p) :
    i ≠ 0 ∧ ∀ k, (s.mounts k).root ≠ some i := by
  have hne : i ≠ 0 := by
    rintro rfl
    rw [hs.trees.root.2.1] at hp
    cases hp
  refine ⟨hne, ?_⟩
  intro k hk
  by_cases hk0 : k = 0
  · subst hk0
    rw [hs.mounted.zero.2.1] at hk
    exact hne (Option.some.inj hk).symm
  have hac : (s.mounts k).active = true := by
    by_contra hidle
    rw [(hs.mounted.idle k (by simpa using hidle)).1] at hk
    cases hk
  obtain ⟨r, q, ha⟩ := hs.mounted.busy k hk0 hac
  rw [ha.root] at hk
  cases hk
  rw [ha.top] at hp
  cases hp

theorem Sane.leaf (hpa : (s.nodes i).parent = some p)
    (hc : (s.nodes i).type = .directory → s.childCount i = 0)
    (hal : ∀ a, (s.aliases a).active = true → (s.aliases a).node ≠ i) : s.Leaf i where
  ne_root := (hs.notRoot hpa).1
  notRoot := (hs.notRoot hpa).2
  childless := by
    intro j hj hp
    exact childCount_ne_zero_of_live hj hp (hc (hs.trees.parent j i hj hp).1.2)
  nameless := hal
  empty := by
    intro a ha hlive hp
    have hdir := (hs.aliased.parent a ha hlive).1
    rw [hp] at hdir
    exact (childCount_eq_zero (hc hdir.2)).2 a ha hp

theorem Sane.leaf_of_free (hi : (s.nodes i).active = false) : s.Leaf i := by
  refine hs.leaf_of_not_live (not_live_of_inactive hi) (hs.counted.free i hi).2 ?_
  rintro a ha rfl
  rw [(hs.aliased.node a ha).1] at hi
  cases hi

theorem Leaf.sane (hl : s.Leaf i) (hi : s.Live i) (hn : node.active = true ∧ node.linked = false)
    (hsa : node.type = (s.nodes i).type ∧ node.references = (s.nodes i).references) :
    (s.setNode i node).Sane tidy (more held i) := by
  refine ⟨hl.trees hn.2 hs.trees, hl.mounted hn.2 hs.mounted fun _ _ _ => ⟨hn.1, hsa.1⟩,
    hl.aliased hs.aliased, hs.counted.setNode (fun j hj => more_of_ne held hj) ?_ ?_⟩
  · intro _
    obtain ⟨hcount, hpos⟩ := hs.counted.active i hi.1
    simp only [linkReferences, hi.2, if_true] at hcount
    simp only [linkReferences, hn.2, more_self, hsa.2]
    simp only [Bool.false_eq_true, if_false]
    omega
  · intro hf
    rw [hn.1] at hf
    cases hf

end

theorem setNode_setNode {node' : Node} :
    (s.setNode i node).setNode i node' = s.setNode i node' := by
  simp [setNode]

/-- A symlink whose target cannot be written gives up one of its two references, so its
node stays behind unlinked. -/
theorem symlink_cases (s : Tables) (directory : Option (Fin 64)) (name target : Name)
    (disk : Option (UInt32 × UInt64)) (written : Bool) (spare : ℕ) :
    s.symlink directory name target disk written spare = (none, s) ∨
      (∃ i node, (s.nodes i).active = false ∧ node.active = false ∧
        s.symlink directory name target disk written spare = (none, s.setNode i node)) ∨
      ∃ p i node, directory = some p ∧ s.Created p name .symlink i node ∧
        ((node.filesystem = .adytumfs ∧ written = false ∧
            s.symlink directory name target disk written spare =
              (none, s.setNode i { node with linked := false, references := 1 })) ∨
          (¬ (node.filesystem = .adytumfs ∧ written = false) ∧
            s.symlink directory name target disk written spare = (some i, s.setNode i
              { node with target := target, size := UInt32.ofNat target.length }))) := by
  unfold symlink
  split
  · exact .inl rfl
  rcases createMode_cases s directory name .symlink 0o777 disk spare with
    h | ⟨i, node, hi, hn, h⟩ | ⟨p, i, node, hp, hc, h⟩ <;>
    rw [h]
  · exact .inl rfl
  · exact .inr (.inl ⟨i, node, hi, hn, rfl⟩)
  · refine .inr (.inr ⟨p, i, node, hp, hc, ?_⟩)
    simp only [setNode_self, setNode_setNode]
    split
    · next hf =>
      refine .inl ⟨hf.1, hf.2, ?_⟩
      simp [release, hc.live.1, hc.references, setNode_setNode]
    · next hf =>
      exact .inr ⟨hf, rfl⟩

theorem Created.sane_leaked (hs : s.Sane tidy held) (h : s.Created p name type i node) :
    (s.setNode i { node with linked := false, references := 1 }).Sane tidy (more held i) := by
  have hl := hs.leaf_of_free h.slot.2
  obtain ⟨hh, hu⟩ := hs.counted.free i h.slot.2
  refine ⟨hl.trees rfl hs.trees, hl.mounted rfl hs.mounted ?_, hl.aliased hs.aliased,
    hs.counted.setNode (fun j hj => more_of_ne held hj) ?_ ?_⟩
  · intro _ _ hac
    rw [h.slot.2] at hac
    cases hac
  · intro _
    simp [linkReferences, hh, hu]
  · intro hf
    rw [show _ = node.active from rfl, h.live.1] at hf
    cases hf

theorem Sane.symlink (hs : s.Sane tidy held) (directory : Option (Fin 64)) (name target : Name)
    (disk : Option (UInt32 × UInt64)) (written : Bool) (spare : ℕ) :
    ∃ held', (s.symlink directory name target disk written spare).2.Sane tidy held' := by
  rcases symlink_cases s directory name target disk written spare with
    h | ⟨i, node, hi, hn, h⟩ | ⟨p, i, node, -, hc, ⟨-, -, h⟩ | ⟨-, h⟩⟩ <;>
    rw [h]
  · exact ⟨held, hs⟩
  · exact ⟨held, hs.setNode_free hi hn⟩
  · exact ⟨more held i, hc.sane_leaked hs⟩
  · have hset := (hc.sane hs).setNode_alike (i := i)
      { node with target := target, size := UInt32.ofNat target.length }
      (.inr (by rw [setNode_self]; exact ⟨rfl, rfl, rfl, rfl, rfl, rfl, rfl⟩))
      (fun _ => by rw [setNode_self])
    rw [setNode_setNode] at hset
    exact ⟨more held i, hset⟩

/-- What a lookup finds before it takes a reference. -/
def found (s : Tables) (p : Fin 64) (name : Name) : Option (Fin 64) :=
  match (finRange 64).find? (fun i => s.Named p name i) with
  | some i =>
    match s.mountForPoint i with
    | some k => (s.mounts k).root
    | none => some i
  | none =>
    ((finRange 16).find? (fun a => s.AliasNamed p name a)).map (fun a => (s.aliases a).node)

theorem lookup_eq {directory : Option (Fin 64)} (hp : s.nodeFor directory = some p)
    (ht : (s.nodes p).type = .directory) (hv : validName name) :
    s.lookup directory name = (s.found p name).elim (none, s)
      (fun i => (s.retain i).elim (none, s) (fun s' => (some i, s'))) := by
  have hok : ¬ ((s.nodes p).type ≠ .directory ∨ ¬ validName name) := by
    simp [ht, hv]
  simp only [lookup, hp]
  rw [if_neg hok]
  split
  · next hf =>
    rw [show s.found p name = none from hf]
    rfl
  · next i hf =>
    rw [show s.found p name = some i from hf, Option.elim_some]
    cases s.retain i with
    | none => rfl
    | some s' => rfl

theorem lookup_cases (s : Tables) (directory : Option (Fin 64)) (name : Name) :
    (s.lookup directory name = (none, s) ∧
        ∀ p, s.nodeFor directory = some p → (s.nodes p).type = .directory → validName name →
          ∀ i, s.found p name = some i → s.retain i = none) ∨
      ∃ p i s', s.nodeFor directory = some p ∧ (s.nodes p).type = .directory ∧ validName name ∧
        s.found p name = some i ∧ s.retain i = some s' ∧
          s.lookup directory name = (some i, s') := by
  cases hp : s.nodeFor directory with
  | none => exact .inl ⟨by simp [lookup, hp], by simp⟩
  | some p =>
    by_cases hok : (s.nodes p).type = .directory ∧ validName name
    · rw [lookup_eq hp hok.1 hok.2]
      cases hf : s.found p name with
      | none =>
        refine .inl ⟨rfl, ?_⟩
        rintro q hq - - i hi
        cases hq
        rw [hf] at hi
        cases hi
      | some i =>
        cases hr : s.retain i with
        | none =>
          refine .inl ⟨by simp [hr], ?_⟩
          rintro q hq - - j hj
          cases hq
          rw [hf] at hj
          cases hj
          exact hr
        | some s' =>
          exact .inr ⟨p, i, s', rfl, hok.1, hok.2, hf, hr, by simp [hr]⟩
    · have hbad : (s.nodes p).type ≠ .directory ∨ ¬ validName name := by
        by_cases ht : (s.nodes p).type = .directory
        · exact .inr fun hv => hok ⟨ht, hv⟩
        · exact .inl ht
      refine .inl ⟨?_, ?_⟩
      · simp only [lookup, hp]
        rw [if_pos hbad]
      · rintro q hq ht hv
        cases hq
        exact absurd ⟨ht, hv⟩ hok

theorem Sane.lookup (hs : s.Sane tidy held) (directory : Option (Fin 64)) (name : Name) :
    (s.lookup directory name).2.Sane tidy (handOut held (s.lookup directory name).1) := by
  rcases lookup_cases s directory name with ⟨h, -⟩ | ⟨p, i, s', -, -, -, -, hr, h⟩
  · rw [h]
    exact hs
  · rw [h]
    exact hs.retain hr

theorem openFile_cases (hfi : ∀ f, (s.files f).active = false → (s.files f).node = none)
    (object : Option (Fin 64)) (spare : ℕ) :
    s.openFile object spare = (none, s) ∨
      ∃ i f s', (s.files f).active = false ∧ s.retain i = some s' ∧
        s.openFile object spare = (some f, s'.setFile f ⟨true, some i⟩) := by
  unfold openFile
  cases s.nodeFor object with
  | none => exact .inl rfl
  | some i =>
    simp only
    split
    · exact .inl rfl
    cases hfr : (finRange 32).find? (fun f => (s.files f).active = false) with
    | none => exact .inl rfl
    | some f =>
      have hidle : (s.files f).active = false := SlotTable.find_some hfr
      cases hr : s.retain i with
      | none => exact .inl rfl
      | some s' =>
        simp only
        by_cases hsp : spare = 0
        · have hc : s'.setFile f ⟨false, none⟩ = s' := by
            have hsa : s'.files f = ⟨false, none⟩ := by
              obtain ⟨-, -, rfl⟩ := retain_some hr
              change s.files f = _
              rw [← hidle, ← hfi f hidle]
            simp [setFile, ← hsa]
          rw [if_pos hsp, hc, retain_release hr]
          exact .inl rfl
        · rw [if_neg hsp]
          exact .inr ⟨i, f, s', hidle, hr, rfl⟩

theorem Sane.openFile (hs : s.Sane tidy held) (object : Option (Fin 64)) (spare : ℕ) :
    (s.openFile object spare).2.Sane tidy held := by
  rcases openFile_cases hs.counted.files object spare with h | ⟨i, f, s', hfr, hr, h⟩
  · rw [h]
    exact hs
  rw [h]
  have hs' := hs.retain hr
  have hfi : s'.files = s.files := by
    obtain ⟨-, -, rfl⟩ := retain_some hr
    rfl
  have hn : (s'.files f).node = none := by
    rw [hfi]
    exact hs.counted.files f hfr
  apply hs'.setFile held f ⟨true, some i⟩ nofun
  intro j
  rw [hn]
  by_cases hj : j = i
  · subst hj
    simp
  · rw [more_of_ne _ hj]
    simp [Ne.symm hj]

theorem Sane.fileCleared (hs : s.Sane tidy held) {f : Fin 32} (hn : (s.files f).node = some i) :
    (s.setFile f ⟨false, none⟩).Sane tidy (more held i) := by
  apply hs.setFile (more held i) f ⟨false, none⟩ (fun _ => rfl)
  intro j
  rw [hn]
  by_cases hj : j = i
  · subst hj
    simp
  · rw [more_of_ne _ hj]
    simp [Ne.symm hj]

theorem Sane.closeFile (hs : s.Sane tidy held) (f : Fin 32) : (s.closeFile f).Sane tidy held := by
  unfold Tables.closeFile
  split_ifs with hf
  · exact hs
  cases hn : (s.files f).node with
  | none => exact hs.setFile held f ⟨false, none⟩ (fun _ => rfl) (by simp [hn])
  | some i =>
    have := (hs.fileCleared hn).release (i := i) (by simp)
    rwa [less_more] at this

end MichCore.Vfs.Tables
