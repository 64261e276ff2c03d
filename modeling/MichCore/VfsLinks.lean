import MichCore.VfsSteps

/-!
# Linking, unlinking and renaming

When the primary name of a node goes, its first alias takes its place; the last name takes the
link with it. A rename removes the name it replaces before it moves the entry.
-/
namespace MichCore.Vfs.Tables

open ParentForest List

variable {s s' : Tables} {held : Fin 64 → ℕ} {tidy : Prop}

section Slots

variable {a b : Fin 16} {entry : Alias}

@[simp] theorem setAlias_self : (s.setAlias a entry).aliases a = entry := by simp [setAlias]

theorem setAlias_of_ne (h : b ≠ a) : (s.setAlias a entry).aliases b = s.aliases b :=
  Function.update_of_ne h _ _

@[simp] theorem setAlias_nodes : (s.setAlias a entry).nodes = s.nodes := rfl

end Slots

/-- An alias of a linked regular node below a directory of the same mount. -/
def AliasFits (tidy : Prop) (s : Tables) (entry : Alias) : Prop :=
  entry.active = true → (s.nodes entry.node).active = true ∧
    (s.nodes entry.node).type = .regular ∧
    (s.Live entry.node → s.IsDirectory entry.parent ∧
      (s.nodes entry.parent).mount = (s.nodes entry.node).mount) ∧
    (tidy → s.Live entry.node)

theorem Sane.aliasFits (hs : s.Sane tidy held) (a : Fin 16) : s.AliasFits tidy (s.aliases a) := by
  intro ha
  obtain ⟨hac, hty⟩ := hs.aliased.node a ha
  exact ⟨hac, hty, hs.aliased.parent a ha, fun hti => hs.aliased.live hti a ha⟩

variable {a : Fin 16} {i p : Fin 64} {name : Name}

theorem Sane.setAlias {entry : Alias} (hs : s.Sane tidy held) (h : s.AliasFits tidy entry) :
    (s.setAlias a entry).Sane tidy held := by
  have hall : ∀ b, s.AliasFits tidy ((s.setAlias a entry).aliases b) := by
    intro b
    by_cases hb : b = a
    · subst hb
      rw [setAlias_self]
      exact h
    · rw [setAlias_of_ne hb]
      exact hs.aliasFits b
  have hali : ∀ j, Alike (s.nodes j) ((s.setAlias a entry).nodes j) := fun j => Alike.refl _
  exact ⟨hs.trees.alike hali fun _ => rfl, hs.mounted.alike hali fun _ => ⟨rfl, rfl, rfl⟩,
    ⟨fun b hb => ⟨(hall b hb).1, (hall b hb).2.1⟩, fun b hb => (hall b hb).2.2.1,
      fun ht b hb => (hall b hb).2.2.2 ht⟩,
    ⟨hs.counted.active, hs.counted.free, hs.counted.files⟩⟩

/-- What a successful `vfs_link` found. -/
structure Linkable (s : Tables) (i p : Fin 64) (name : Name) (a : Fin 16) : Prop where
  live : s.Live i
  regular : (s.nodes i).type = .regular
  directory : s.IsDirectory p
  writable : (s.nodes p).readonly = false
  valid : validName name
  filesystem : (s.nodes p).filesystem = (s.nodes i).filesystem
  kind : (s.nodes i).filesystem = .ramfs ∨ (s.nodes i).filesystem = .adytumfs
  mount : (s.nodes i).filesystem = .adytumfs → (s.nodes i).mount = (s.nodes p).mount
  fresh : ∀ j, s.found p name = some j → s.retain j = none
  slot : (s.aliases a).active = false

theorem link_cases (s : Tables) (object directory : Option (Fin 64)) (name : Name) (disk : Bool) :
    s.link object directory name disk = (false, s) ∨
      ∃ i p a, object = some i ∧ directory = some p ∧ s.Linkable i p name a ∧
        s.link object directory name disk = (true, s.setAlias a ⟨true, i, p, name⟩) := by
  unfold link
  cases hi : s.nodeFor object with
  | none => exact .inl rfl
  | some i =>
    cases hp : s.nodeFor directory with
    | none => exact .inl rfl
    | some p =>
      obtain ⟨rfl, ha⟩ := nodeFor_some hi
      simp only
      split
      · exact .inl rfl
      next hbad =>
      push Not at hbad
      obtain ⟨-, hl, hreg, hdir, hpl, hrea, hv, hfs, hk⟩ := hbad
      rcases lookup_cases s directory name with ⟨h, hfres⟩ | ⟨-, j, s', -, -, -, -, hret, h⟩
      · rw [h]
        simp only
        split
        · exact .inl rfl
        split
        · exact .inl rfl
        next hdis =>
        cases hfree : (finRange 16).find? (fun a => (s.aliases a).active = false) with
        | none => exact .inl rfl
        | some a =>
          obtain ⟨rfl, hpa⟩ := nodeFor_some hp
          refine .inr ⟨i, p, a, rfl, rfl, ?_, rfl⟩
          push Not at hdis
          exact {
            live := ⟨ha, by simpa using hl⟩
            regular := hreg
            directory := ⟨⟨hpa, by simpa using hpl⟩, hdir⟩
            writable := by simpa using hrea
            valid := hv
            filesystem := hfs
            kind := by
              by_cases hram : (s.nodes i).filesystem = .ramfs
              · exact .inl hram
              · exact .inr (hk hram)
            mount := fun h => (hdis h).1
            fresh := hfres p (nodeFor_of_active hpa) hdir hv
            slot := SlotTable.find_some hfree }
      · rw [h]
        exact .inl (by simp [retain_release hret])

/-- Two linked nodes of one filesystem kind that `vfs_link` or `vfs_rename` accepts
together are on one mount. -/
theorem Sane.same_mount {q : Fin 64} (hs : s.Sane tidy held) (hi : s.Live i) (hq : s.Live q)
    (hw : (s.nodes q).readonly = false) (hfs : (s.nodes i).filesystem = (s.nodes q).filesystem)
    (hm : (s.nodes i).filesystem = .adytumfs → (s.nodes i).mount = (s.nodes q).mount) :
    (s.nodes q).mount = (s.nodes i).mount := by
  obtain ⟨k, hk, -, hram, hn, -⟩ := hs.mounted.owned i hi
  obtain ⟨k', hk', -, hram', -, hb'⟩ := hs.mounted.owned q hq
  cases hki : (s.nodes i).filesystem with
  | none => exact absurd hki hn
  | ramfs => rw [hk, hk', hram.mp hki, hram'.mp (hfs ▸ hki)]
  | bootfs =>
    rw [hb' (hfs ▸ hki)] at hw
    cases hw
  | adytumfs => exact (hm hki).symm

theorem Sane.link (hs : s.Sane tidy held) (object directory : Option (Fin 64)) (name : Name)
    (disk : Bool) : (s.link object directory name disk).2.Sane tidy held := by
  rcases link_cases s object directory name disk with h | ⟨i, p, a, -, -, hl, h⟩
  · rw [h]
    exact hs
  rw [h]
  have hm := hs.same_mount hl.live hl.directory.1 hl.writable hl.filesystem.symm hl.mount
  exact hs.setAlias fun _ =>
    ⟨hl.live.1, hl.regular, fun _ => ⟨hl.directory, hm⟩, fun _ => hl.live⟩

theorem aliasForNode_some (h : s.aliasForNode i = some a) :
    (s.aliases a).active = true ∧ (s.aliases a).node = i := SlotTable.find_some h

theorem aliasForNode_none (h : s.aliasForNode i = none) (a : Fin 16)
    (ha : (s.aliases a).active = true) : (s.aliases a).node ≠ i :=
  fun hn => SlotTable.find_none h a ⟨ha, hn⟩

/-- The node with the name of its alias. -/
def promoted (s : Tables) (i : Fin 64) (a : Fin 16) : Node :=
  { s.nodes i with parent := some (s.aliases a).parent, name := (s.aliases a).name }

/-- The node without a name. -/
def cutOff (node : Node) : Node := { node with linked := false, parent := none }

/-- The alias slot given up. -/
def retired (s : Tables) (a : Fin 16) : Tables :=
  s.setAlias a { s.aliases a with active := false }

theorem dropName_cases (s : Tables) (i : Fin 64) :
    (∃ a, s.aliasForNode i = some a ∧
        s.dropName i = ⟨true, none, (s.setNode i (s.promoted i a)).retired a⟩) ∨
      (s.aliasForNode i = none ∧
        s.dropName i = ⟨true, some i, s.setNode i (cutOff (s.nodes i))⟩) := by
  unfold dropName
  cases h : s.aliasForNode i with
  | some a => exact .inl ⟨a, rfl, rfl⟩
  | none => exact .inr ⟨rfl, rfl⟩

/-- The primary entry that `vfs_unlink_locked` takes out. -/
structure Removable (s : Tables) (p : Fin 64) (name : Name) (i : Fin 64) : Prop where
  ne_root : i ≠ 0
  named : s.Named p name i
  uncovered : s.mountForPoint i = none
  childless : (s.nodes i).type = .directory → s.childCount i = 0

theorem unlinkLocked_cases (s : Tables) (directory : Option (Fin 64)) (name : Name) (disk : Bool) :
    s.unlinkLocked directory name disk = ⟨false, none, s⟩ ∨
      ∃ p, directory = some p ∧ (s.nodes p).active = true ∧ (s.nodes p).type = .directory ∧
        (s.nodes p).readonly = false ∧ validName name ∧
        ((∃ i, (finRange 64).find? (fun i => i ≠ 0 ∧ s.Named p name i) = some i ∧
            s.Removable p name i ∧ s.unlinkLocked directory name disk = s.dropName i) ∨
          ∃ a, (finRange 64).find? (fun i => i ≠ 0 ∧ s.Named p name i) = none ∧
            (finRange 16).find? (fun a => s.AliasNamed p name a) = some a ∧
            s.unlinkLocked directory name disk = ⟨true, none, s.retired a⟩) := by
  unfold unlinkLocked
  cases hp : s.nodeFor directory with
  | none => exact .inl rfl
  | some p =>
    obtain ⟨rfl, hac⟩ := nodeFor_some hp
    simp only
    split
    · exact .inl rfl
    next hbad =>
    push Not at hbad
    obtain ⟨ht, hr, hv⟩ := hbad
    have hw : (s.nodes p).readonly = false := by simpa using hr
    cases hf : (finRange 64).find? (fun i => i ≠ 0 ∧ s.Named p name i) with
    | some i =>
      obtain ⟨hne, hna⟩ := SlotTable.find_some hf
      simp only
      split
      · exact .inl rfl
      next hk =>
      push Not at hk
      split
      · exact .inl rfl
      · exact .inr ⟨p, rfl, hac, ht, hw, hv,
          .inl ⟨i, hf, ⟨hne, hna, hk.2.1, hk.2.2⟩, rfl⟩⟩
    | none =>
      simp only
      cases hal : (finRange 16).find? (fun a => s.AliasNamed p name a) with
      | none => exact .inl rfl
      | some a =>
        simp only
        split
        · exact .inl rfl
        · exact .inr ⟨p, rfl, hac, ht, hw, hv, .inr ⟨a, hf, hal, rfl⟩⟩

section

variable (hs : s.Sane tidy held)
include hs

theorem Sane.retired (a : Fin 16) : (s.retired a).Sane tidy held :=
  hs.setAlias (by intro h; cases h)

theorem Sane.promoted (hi : s.Live i)
    (hp : (s.nodes i).parent = some p) (ha : s.aliasForNode i = some a) :
    (s.setNode i (s.promoted i a)).Sane tidy held := by
  obtain ⟨hac, hn⟩ := aliasForNode_some ha
  obtain ⟨hdir, hm⟩ := hs.aliased.parent a hac (by rw [hn]; exact hi)
  have hr : (s.nodes i).type = .regular := by
    rw [← hn]
    exact (hs.aliased.node a hac).2
  rw [hn] at hm
  have hfits : s.Fits i (s.aliases a).parent (s.promoted i a) := {
    ne_root := (hs.notRoot hp).1
    notRoot := (hs.notRoot hp).2
    live := hi
    parent := rfl
    directory := hdir
    mount := hm.symm
    owned := hs.mounted.owned i hi
    avoids := hs.trees.avoids hdir (fun h => by rw [IsDirectory, hr] at h; cases h.2)
    same := .inr ⟨hi, rfl, rfl⟩ }
  exact ⟨hfits.trees hs.trees, hfits.mounted hs.mounted, hfits.aliased hs.aliased,
    hs.counted.setNode (fun _ _ => rfl) (hs.counted.active i) (hs.counted.free i)⟩

theorem Sane.dropName (h : s.Removable p name i) :
    (s.dropName i).after.Sane tidy (handOut held (s.dropName i).dropped) := by
  have hlive : s.Live i := ⟨h.named.1, h.named.2.1⟩
  have hp := h.named.2.2.1
  rcases dropName_cases s i with ⟨a, ha, hd⟩ | ⟨ha, hd⟩
  · rw [hd]
    exact (hs.promoted hlive hp ha).retired a
  · rw [hd]
    exact (hs.leaf hp h.childless (aliasForNode_none ha)).sane hs hlive
      ⟨hlive.1, rfl⟩ ⟨rfl, rfl⟩

theorem Sane.unlinkLocked (directory : Option (Fin 64)) (name : Name) (disk : Bool) :
    (s.unlinkLocked directory name disk).after.Sane tidy
      (handOut held (s.unlinkLocked directory name disk).dropped) := by
  rcases unlinkLocked_cases s directory name disk with
    h | ⟨p, -, -, -, -, -, ⟨i, -, hr, h⟩ | ⟨a, -, -, h⟩⟩ <;>
    rw [h]
  · exact hs
  · exact hs.dropName hr
  · exact hs.retired a

end

theorem Sane.finish {out : Unlinked} (hs : out.after.Sane tidy (handOut held out.dropped)) :
    out.finish.2.Sane tidy held := by
  unfold Unlinked.finish
  cases hd : out.dropped with
  | none =>
    rw [hd] at hs
    exact hs
  | some i =>
    rw [hd] at hs
    have := hs.release (i := i) (by simp [handOut])
    rwa [handOut, Option.elim_some, less_more] at this

theorem Sane.unlink (hs : s.Sane tidy held) (directory : Option (Fin 64)) (name : Name)
    (disk : Bool) : (s.unlink directory name disk).2.Sane tidy held :=
  (hs.unlinkLocked directory name disk).finish

/-- What `vfs_rename_locked` has checked when it starts to change something. -/
structure Renaming (s : Tables) (p : Fin 64) (name : Name) (q : Fin 64) (newName : Name)
    (entry : Entry) : Prop where
  old : s.IsDirectory p
  new : s.IsDirectory q
  writable : (s.nodes q).readonly = false
  valid : validName newName
  source : s.findEntry p name = some entry
  active : (s.nodes (s.entryNode entry)).active = true
  other : (s.findEntry q newName).map s.entryNode ≠ some (s.entryNode entry)
  distinct : ¬ (p = q ∧ name = newName)
  accepted : ¬ s.RenameRefused (s.entryNode entry) q ((s.findEntry q newName).map s.entryNode)

/-- The removal of the name that a rename replaces. -/
def replaced (s : Tables) (q : Fin 64) (newName : Name) (disk : Bool) : Unlinked :=
  if (s.findEntry q newName).map s.entryNode = none then ⟨true, none, s⟩
  else s.unlinkLocked (some q) newName disk

theorem findEntry_primary :
    s.findEntry p name = some (.primary i) ↔
      (finRange 64).find? (fun i => i ≠ 0 ∧ s.Named p name i) = some i := by
  unfold findEntry
  cases (finRange 64).find? (fun i => i ≠ 0 ∧ s.Named p name i) with
  | some j => simp
  | none => simp

theorem findEntry_extra :
    s.findEntry p name = some (.extra a) ↔
      (finRange 64).find? (fun i => i ≠ 0 ∧ s.Named p name i) = none ∧
        (finRange 16).find? (fun a => s.AliasNamed p name a) = some a := by
  unfold findEntry
  cases (finRange 64).find? (fun i => i ≠ 0 ∧ s.Named p name i) with
  | some j => simp
  | none => simp

theorem replaced_cases (s : Tables) (q : Fin 64) (newName : Name) (disk : Bool) :
    s.replaced q newName disk = ⟨false, none, s⟩ ∨
      (s.findEntry q newName = none ∧ s.replaced q newName disk = ⟨true, none, s⟩) ∨
      (∃ t, s.findEntry q newName = some (.primary t) ∧ s.Removable q newName t ∧
        s.replaced q newName disk = s.dropName t) ∨
      ∃ b, s.findEntry q newName = some (.extra b) ∧
        s.replaced q newName disk = ⟨true, none, s.retired b⟩ := by
  unfold replaced
  split
  · next hn =>
    exact .inr (.inl ⟨Option.map_eq_none_iff.mp hn, rfl⟩)
  rcases unlinkLocked_cases s (some q) newName disk with
    h | ⟨q', hq, -, -, -, -, ⟨t, hf, hr, h⟩ | ⟨b, hf, ha, h⟩⟩
  · exact .inl h
  · cases hq
    exact .inr (.inr (.inl ⟨t, findEntry_primary.mpr hf, hr, h⟩))
  · cases hq
    exact .inr (.inr (.inr ⟨b, findEntry_extra.mpr ⟨hf, ha⟩, h⟩))

theorem replaced_refused {q : Fin 64} {newName : Name} {disk : Bool}
    (h : (s.replaced q newName disk).ok = false) :
    s.replaced q newName disk = ⟨false, none, s⟩ := by
  rcases replaced_cases s q newName disk with
    hr | ⟨-, hr⟩ | ⟨t, -, -, hr⟩ | ⟨b, -, hr⟩
  · exact hr
  · rw [hr] at h
    cases h
  · rw [hr] at h
    rcases dropName_cases s t with ⟨a, -, hd⟩ | ⟨-, hd⟩
    · rw [hd] at h
      cases h
    · rw [hd] at h
      cases h
  · rw [hr] at h
    cases h

theorem renameLocked_cases (s : Tables) (oldDirectory : Option (Fin 64)) (name : Name)
    (newDirectory : Option (Fin 64)) (newName : Name) (disk moved : Bool) :
    (∃ ok, s.renameLocked oldDirectory name newDirectory newName disk moved = ⟨ok, none, s⟩) ∨
      ∃ p q entry, oldDirectory = some p ∧ newDirectory = some q ∧
        s.Renaming p name q newName entry ∧ (s.replaced q newName disk).ok = true ∧
        (((s.nodes (s.entryNode entry)).filesystem = .adytumfs ∧ moved = false ∧
            s.renameLocked oldDirectory name newDirectory newName disk moved =
              { s.replaced q newName disk with ok := false }) ∨
          s.renameLocked oldDirectory name newDirectory newName disk moved =
            { s.replaced q newName disk with
              after := (s.replaced q newName disk).after.moveEntry entry q newName }) := by
  unfold renameLocked
  cases hp : s.nodeFor oldDirectory with
  | none => exact .inl ⟨false, rfl⟩
  | some p =>
    cases hq : s.nodeFor newDirectory with
    | none => exact .inl ⟨false, rfl⟩
    | some q =>
      obtain ⟨rfl, hpa⟩ := nodeFor_some hp
      obtain ⟨rfl, hqa⟩ := nodeFor_some hq
      simp only
      split
      · exact .inl ⟨false, rfl⟩
      next hbad =>
      push Not at hbad
      obtain ⟨hpt, hpl, -, hqt, hql, hv, -, hrea⟩ := hbad
      cases hso : s.findEntry p name with
      | none => exact .inl ⟨false, rfl⟩
      | some entry =>
        simp only
        split
        · exact .inl ⟨false, rfl⟩
        next hf =>
        split
        · exact .inl ⟨true, rfl⟩
        next hse =>
        split
        · exact .inl ⟨true, rfl⟩
        next hsa =>
        split
        · exact .inl ⟨false, rfl⟩
        next href =>
        have hren : s.Renaming p name q newName entry := {
          old := ⟨⟨hpa, by simpa using hpl⟩, hpt⟩
          new := ⟨⟨hqa, by simpa using hql⟩, hqt⟩
          writable := by simpa using hrea
          valid := hv
          source := hso
          active := by simpa using hf
          other := hse
          distinct := hsa
          accepted := href }
        change (∃ ok, (if (s.replaced q newName disk).ok = false then
          { s.replaced q newName disk with ok := false } else _ : Unlinked) = _) ∨ _
        split
        · next hok =>
          exact .inl ⟨false, by rw [replaced_refused hok]⟩
        next hok =>
        refine .inr ⟨p, q, entry, rfl, rfl, hren, by simpa using hok, ?_⟩
        change (_ ∧ _ ∧ (if (s.replaced q newName disk).ok = false then
          { s.replaced q newName disk with ok := false } else _ : Unlinked) = _) ∨
          (if (s.replaced q newName disk).ok = false then
            { s.replaced q newName disk with ok := false } else _ : Unlinked) = _
        rw [if_neg hok]
        split
        · next hm =>
          exact .inl ⟨hm.1, hm.2, rfl⟩
        · exact .inr rfl

/-- The removal of a name touches only the node behind it and the aliases of that node. -/
structure Frame (s s' : Tables) (target : Option (Fin 64)) : Prop where
  nodes : ∀ x, target ≠ some x → s'.nodes x = s.nodes x
  aliases : ∀ b, target ≠ some (s.aliases b).node → s'.aliases b = s.aliases b
  mounts : s'.mounts = s.mounts

theorem retired_frame (b : Fin 16) : Frame s (s.retired b) (some (s.aliases b).node) := by
  refine ⟨fun x _ => rfl, ?_, rfl⟩
  intro c hc
  apply setAlias_of_ne
  rintro rfl
  exact hc rfl

theorem dropName_frame (i : Fin 64) : Frame s (s.dropName i).after (some i) := by
  rcases dropName_cases s i with ⟨a, ha, hd⟩ | ⟨-, hd⟩
  · rw [hd]
    refine ⟨fun x hx => setNode_of_ne (fun h => hx (by rw [h])), ?_, rfl⟩
    intro b hb
    apply setAlias_of_ne
    rintro rfl
    exact hb (by rw [(aliasForNode_some ha).2])
  · rw [hd]
    exact ⟨fun x hx => setNode_of_ne (fun h => hx (by rw [h])), fun _ _ => rfl, rfl⟩

theorem replaced_frame (s : Tables) (q : Fin 64) (newName : Name) (disk : Bool) :
    Frame s (s.replaced q newName disk).after ((s.findEntry q newName).map s.entryNode) := by
  rcases replaced_cases s q newName disk with h | ⟨-, h⟩ | ⟨t, hf, -, h⟩ | ⟨b, hf, h⟩
  · rw [h]
    exact ⟨fun _ _ => rfl, fun _ _ => rfl, rfl⟩
  · rw [h]
    exact ⟨fun _ _ => rfl, fun _ _ => rfl, rfl⟩
  · rw [h, hf]
    exact dropName_frame t
  · rw [h, hf]
    exact retired_frame b

theorem Sane.replaced (hs : s.Sane tidy held) (q : Fin 64) (newName : Name) (disk : Bool) :
    (s.replaced q newName disk).after.Sane tidy
      (handOut held (s.replaced q newName disk).dropped) := by
  unfold Tables.replaced
  split_ifs with hn
  · exact hs
  · exact hs.unlinkLocked (some q) newName disk

section Renaming

variable {p q : Fin 64} {name newName : Name} {entry : Entry} {disk : Bool}

theorem replaced_directory (hs : s.Sane tidy held) (hq : s.IsDirectory q) (newName : Name)
    (disk : Bool) : (s.replaced q newName disk).after.nodes q = s.nodes q := by
  rcases replaced_cases s q newName disk with h | ⟨-, h⟩ | ⟨t, -, hr, h⟩ | ⟨b, -, h⟩
  · rw [h]
  · rw [h]
  · rw [h]
    apply (dropName_frame t).nodes q
    intro htq
    cases htq
    have := (hs.trees.rooted q).ne_self
    rw [up_of_live hq.1, hr.named.2.2.1] at this
    exact this rfl
  · rw [h]
    rfl

theorem replaced_up_of_directory (disk : Bool) (hs : s.Sane tidy held)
    (ht : ∀ t, (s.findEntry q newName).map s.entryNode = some t → (s.nodes t).type = .directory) :
    (s.replaced q newName disk).after.up = s.up ∨
      ∃ t, (s.replaced q newName disk).after.up = Function.update s.up t none := by
  rcases replaced_cases s q newName disk with h | ⟨-, h⟩ | ⟨t, hf, -, h⟩ | ⟨b, hf, h⟩
  · exact .inl (by rw [h])
  · exact .inl (by rw [h])
  · have hdir := ht t (by rw [hf]; rfl)
    rcases dropName_cases s t with ⟨a, ha, -⟩ | ⟨-, hd⟩
    · obtain ⟨hac, hn⟩ := aliasForNode_some ha
      have := (hs.aliased.node a hac).2
      rw [hn, hdir] at this
      cases this
    · refine .inr ⟨t, ?_⟩
      rw [h, hd]
      simp only [setNode_up]
      rw [if_neg (by simp [cutOff])]
  · have hdir := ht (s.aliases b).node (by rw [hf]; rfl)
    have hal : s.AliasNamed q newName b := SlotTable.find_some (findEntry_extra.mp hf).2
    have := (hs.aliased.node b hal.1).2
    rw [hdir] at this
    cases this

theorem Renaming.mount (hs : s.Sane tidy held) (h : s.Renaming p name q newName entry)
    (hlive : s.Live (s.entryNode entry)) :
    (s.nodes q).mount = (s.nodes (s.entryNode entry)).mount := by
  have hac := h.accepted
  unfold RenameRefused at hac
  push Not at hac
  obtain ⟨-, -, -, hfs, hm⟩ := hac
  exact hs.same_mount hlive h.new.1 h.writable hfs (fun hk => (hm hk).1)

theorem Renaming.avoids (hs : s.Sane tidy held) (h : s.Renaming p name q newName entry) :
    Avoids (s.replaced q newName disk).after.up (s.entryNode entry) q := by
  have hs' := hs.replaced q newName disk
  have hnew := replaced_directory hs h.new newName disk
  have hk := (replaced_frame s q newName disk).nodes (s.entryNode entry) h.other
  have hdir : (s.replaced q newName disk).after.IsDirectory q := by
    have := h.new
    simp only [IsDirectory, Live, hnew] at this ⊢
    exact this
  by_cases hty : (s.nodes (s.entryNode entry)).type = .directory
  · have hac := h.accepted
    unfold RenameRefused at hac
    push Not at hac
    obtain ⟨-, han, htarget, -, -⟩ := hac
    have hold : Avoids s.up (s.entryNode entry) q :=
      hs.trees.avoids_of_hasAncestor h.new (by simpa using (han hty).2)
    have htargets : ∀ t, (s.findEntry q newName).map s.entryNode = some t →
        (s.nodes t).type = .directory := by
      intro t ht
      rw [(htarget t ht).2, hty]
    rcases replaced_up_of_directory disk hs htargets with hup | ⟨t, hup⟩
    · rw [hup]
      exact hold
    · rw [hup]
      exact hold.update_none t
  · apply hs'.trees.avoids hdir
    rintro ⟨-, hbad⟩
    rw [hk] at hbad
    exact hty hbad

theorem Renaming.fits {i : Fin 64} (disk : Bool) (hs : s.Sane tidy held)
    (h : s.Renaming p name q newName (.primary i)) :
    (s.replaced q newName disk).after.Fits i q
      { (s.replaced q newName disk).after.nodes i with parent := some q, name := newName } := by
  have hs' := hs.replaced q newName disk
  have hnew := replaced_directory hs h.new newName disk
  have hk : (s.replaced q newName disk).after.nodes i = s.nodes i :=
    (replaced_frame s q newName disk).nodes i h.other
  obtain ⟨hne, hna⟩ := SlotTable.find_some (findEntry_primary.mp h.source)
  have hlive : s.Live i := ⟨hna.1, hna.2.1⟩
  have hl' : (s.replaced q newName disk).after.Live i := by
    simp only [Live, hk]
    exact hlive
  have hr := hs'.notRoot (i := i) (by rw [hk]; exact hna.2.2.1)
  exact {
    ne_root := hne
    notRoot := hr.2
    live := hl'
    parent := rfl
    directory := by
      have := h.new
      simp only [IsDirectory, Live, hnew] at this ⊢
      exact this
    mount := by
      rw [hnew]
      simp only [hk]
      exact (h.mount hs hlive).symm
    owned := hs'.mounted.owned i hl'
    avoids := h.avoids hs
    same := .inr ⟨hl', rfl, rfl⟩ }

theorem Renaming.sane (hs : s.Sane tidy held) (h : s.Renaming p name q newName entry) :
    ((s.replaced q newName disk).after.moveEntry entry q newName).Sane tidy
      (handOut held (s.replaced q newName disk).dropped) := by
  have hs' := hs.replaced q newName disk
  cases entry with
  | primary i =>
    have hfits := h.fits disk hs
    exact ⟨hfits.trees hs'.trees, hfits.mounted hs'.mounted, hfits.aliased hs'.aliased,
      hs'.counted.setNode (fun _ _ => rfl) (hs'.counted.active i) (hs'.counted.free i)⟩
  | extra a =>
    have hfr := replaced_frame s q newName disk
    have hnew := replaced_directory hs h.new newName disk
    have hno : (s.replaced q newName disk).after.nodes (s.aliases a).node =
        s.nodes (s.aliases a).node := hfr.nodes _ h.other
    have hen : (s.replaced q newName disk).after.aliases a = s.aliases a :=
      hfr.aliases a h.other
    have hna : s.AliasNamed p name a := SlotTable.find_some (findEntry_extra.mp h.source).2
    obtain ⟨hac, hty, -, hti⟩ := hs.aliasFits a hna.1
    apply hs'.setAlias
    intro _
    simp only [hen, Live, IsDirectory, hno, hnew]
    refine ⟨hac, hty, fun hlive => ⟨h.new, h.mount hs hlive⟩, hti⟩

end Renaming

theorem Sane.renameLocked (hs : s.Sane tidy held) (oldDirectory : Option (Fin 64)) (name : Name)
    (newDirectory : Option (Fin 64)) (newName : Name) (disk moved : Bool) :
    (s.renameLocked oldDirectory name newDirectory newName disk moved).after.Sane tidy (handOut held
      (s.renameLocked oldDirectory name newDirectory newName disk moved).dropped) := by
  rcases renameLocked_cases s oldDirectory name newDirectory newName disk moved with
    ⟨ok, h⟩ | ⟨p, q, entry, -, -, hr, -, ⟨-, -, h⟩ | h⟩ <;>
    rw [h]
  · exact hs
  · exact hs.replaced q newName disk
  · exact hr.sane hs

theorem Sane.rename (hs : s.Sane tidy held) (oldDirectory : Option (Fin 64)) (name : Name)
    (newDirectory : Option (Fin 64)) (newName : Name) (disk moved : Bool) :
    (s.rename oldDirectory name newDirectory newName disk moved).2.Sane tidy held :=
  (hs.renameLocked oldDirectory name newDirectory newName disk moved).finish

end MichCore.Vfs.Tables
