import MichCore.VfsMounting

/-!
# Directory entries

An entry of a directory is the primary name of a linked node or an active alias. For each
call this says which entries it can add, and where.
-/
namespace MichCore.Vfs.Tables

variable {s s' s'' : Tables} {held : Fin 64 → ℕ} {tidy : Prop}

/-- The directory `p` has this entry under `name`. -/
def HasEntry (s : Tables) (p : Fin 64) (name : Name) : Entry → Prop
  | .primary i => s.Named p name i
  | .extra a => s.AliasNamed p name a

instance (s : Tables) (p : Fin 64) (name : Name) (e : Entry) : Decidable (s.HasEntry p name e) :=
  match e with
  | .primary i => inferInstanceAs (Decidable (s.Named p name i))
  | .extra a => inferInstanceAs (Decidable (s.AliasNamed p name a))

/-- Every entry of `s'` is one of `s`. -/
def Fewer (s s' : Tables) : Prop := ∀ p name e, s'.HasEntry p name e → s.HasEntry p name e

theorem Fewer.refl (s : Tables) : Fewer s s := fun _ _ _ h => h

theorem Fewer.trans (h : Fewer s s') (h' : Fewer s' s'') : Fewer s s'' :=
  fun p name e he => h p name e (h' p name e he)

section Slots

variable {i p : Fin 64} {node : Node} {name : Name} {a : Fin 16} {entry : Alias} {e : Entry}

theorem setNode_hasEntry_self : (s.setNode i node).HasEntry p name (.primary i) ↔
    node.active ∧ node.linked ∧ node.parent = some p ∧ node.name = name := by
  simp [HasEntry, Named]

theorem setNode_hasEntry_of_ne (h : e ≠ .primary i) :
    (s.setNode i node).HasEntry p name e ↔ s.HasEntry p name e := by
  cases e with
  | primary j =>
    have hji : j ≠ i := fun heq => h (by rw [heq])
    simp only [HasEntry, Named, setNode_of_ne hji]
  | extra b => rfl

theorem setAlias_hasEntry_self : (s.setAlias a entry).HasEntry p name (.extra a) ↔
    entry.active ∧ entry.parent = p ∧ entry.name = name := by
  simp [HasEntry, AliasNamed]

theorem setAlias_hasEntry_of_ne (h : e ≠ .extra a) :
    (s.setAlias a entry).HasEntry p name e ↔ s.HasEntry p name e := by
  cases e with
  | primary j => rfl
  | extra b =>
    have hba : b ≠ a := fun heq => h (by rw [heq])
    simp only [HasEntry, AliasNamed, setAlias_of_ne hba]

theorem setNode_fewer (h : node.active = true → node.linked = true →
    (s.nodes i).active = true ∧ (s.nodes i).linked = true ∧ node.parent = (s.nodes i).parent ∧
      node.name = (s.nodes i).name) : Fewer s (s.setNode i node) := by
  intro p name e he
  by_cases hei : e = .primary i
  · subst hei
    obtain ⟨ha, hl, hp, hn⟩ := setNode_hasEntry_self.mp he
    obtain ⟨ha', hl', hp', hn'⟩ := h ha hl
    exact ⟨ha', hl', by rw [← hp', hp], by rw [← hn', hn]⟩
  · exact (setNode_hasEntry_of_ne hei).mp he

theorem retired_fewer (a : Fin 16) : Fewer s (s.retired a) := by
  intro p name e he
  by_cases hea : e = .extra a
  · subst hea
    have := setAlias_hasEntry_self.mp he
    simp at this
  · exact (setAlias_hasEntry_of_ne hea).mp he

theorem retain_fewer (h : s.retain i = some s') : Fewer s s' := by
  obtain ⟨-, -, rfl⟩ := retain_some h
  exact setNode_fewer fun ha hl => ⟨ha, hl, rfl, rfl⟩

theorem nodeDestroy_fewer (i : Fin 64) : Fewer s (s.nodeDestroy i) := by
  intro p name e he
  cases e with
  | primary j =>
    by_cases hji : j = i
    · subst hji
      simp [HasEntry, Named, cleared] at he
    · simpa only [HasEntry, Named, nodeDestroy_of_ne hji] using he
  | extra a =>
    obtain ⟨heq, -⟩ := nodeDestroy_aliases he.1
    simpa only [HasEntry, AliasNamed, heq] using he

theorem release_fewer (i : Fin 64) : Fewer s (s.release i) := by
  unfold release
  split_ifs
  · exact Fewer.refl s
  · exact nodeDestroy_fewer i
  · exact setNode_fewer fun ha hl => ⟨ha, hl, rfl, rfl⟩

theorem releaseAll_fewer (slots : List (Fin 64)) : Fewer s (s.releaseAll slots) := by
  induction slots generalizing s with
  | nil => exact Fewer.refl s
  | cons x slots ih => exact (release_fewer x).trans ih

theorem finish_fewer (out : Unlinked) : Fewer out.after out.finish.2 := by
  unfold Unlinked.finish
  cases out.dropped with
  | none => exact Fewer.refl _
  | some i => exact release_fewer i

end Slots

variable (directory : Option (Fin 64))

theorem lookup_fewer (name : Name) : Fewer s (s.lookup directory name).2 := by
  rcases lookup_cases s directory name with ⟨h, -⟩ | ⟨p, i, s', -, -, -, -, hr, h⟩
  · rw [h]
    exact Fewer.refl s
  · rw [h]
    exact retain_fewer hr

theorem openFile_fewer (hs : s.Sane tidy held) (object : Option (Fin 64)) (spare : ℕ) :
    Fewer s (s.openFile object spare).2 := by
  rcases openFile_cases hs.counted.files object spare with h | ⟨i, f, s', -, hr, h⟩
  · rw [h]
    exact Fewer.refl s
  · rw [h]
    have hf : Fewer s' (s'.setFile f ⟨true, some i⟩) := fun _ _ e he => by cases e <;> exact he
    exact (retain_fewer hr).trans hf

theorem closeFile_fewer (f : Fin 32) : Fewer s (s.closeFile f) := by
  have hf : Fewer s (s.setFile f ⟨false, none⟩) := fun _ _ e he => by cases e <;> exact he
  unfold closeFile
  split_ifs
  · exact Fewer.refl s
  · cases (s.files f).node with
    | none => exact hf
    | some i => exact hf.trans (release_fewer i)

theorem detach_fewer (k : Fin 8) : Fewer s (s.detach k) := by
  intro p name e he
  cases e with
  | primary i =>
    by_cases h : s.OnMount k i
    · simp [HasEntry, Named, detach_of_onMount h] at he
    · simpa only [HasEntry, Named, detach_of_not_onMount h] using he
  | extra a => exact he

theorem unmount_fewer : Fewer s (s.unmount directory).2 := by
  rcases unmount_cases s directory with h | ⟨d, k, -, -, h⟩
  · rw [h]
    exact Fewer.refl s
  · rw [h]
    exact (detach_fewer k).trans (releaseAll_fewer _)

/-- The new entries of `s'` are in directories that were linked in `s`. -/
def NewInDirectory (s s' : Tables) : Prop :=
  ∀ p name e, s'.HasEntry p name e → s.HasEntry p name e ∨ s.IsDirectory p

theorem Fewer.newInDirectory (h : Fewer s s') : NewInDirectory s s' :=
  fun p name e he => .inl (h p name e he)

theorem NewInDirectory.trans_fewer (h : NewInDirectory s s') (h' : Fewer s' s'') :
    NewInDirectory s s'' := fun p name e he => h p name e (h' p name e he)

theorem setNode_newInDirectory {i q : Fin 64} {node : Node} (hq : s.IsDirectory q)
    (hn : node.parent = some q) : NewInDirectory s (s.setNode i node) := by
  intro p name e he
  by_cases hei : e = .primary i
  · subst hei
    obtain ⟨-, -, hp, -⟩ := setNode_hasEntry_self.mp he
    rw [hn] at hp
    cases hp
    exact .inr hq
  · exact .inl ((setNode_hasEntry_of_ne hei).mp he)

theorem setNode_free_fewer {i : Fin 64} {node : Node} (h : node.active = false) :
    Fewer s (s.setNode i node) := setNode_fewer fun ha => by rw [h] at ha; cases ha

theorem createMode_newInDirectory (name : Name) (type : NodeType)
    (mode : UInt32) (disk : Option (UInt32 × UInt64)) (spare : ℕ) :
    NewInDirectory s (s.createMode directory name type mode disk spare).2 := by
  rcases createMode_cases s directory name type mode disk spare with
    h | ⟨i, node, hi, hn, h⟩ | ⟨p, i, node, -, hc, h⟩ <;>
    rw [h]
  · exact (Fewer.refl s).newInDirectory
  · exact (setNode_free_fewer hn).newInDirectory
  · exact setNode_newInDirectory hc.directory hc.parent

theorem symlink_newInDirectory (name target : Name)
    (disk : Option (UInt32 × UInt64)) (written : Bool) (spare : ℕ) :
    NewInDirectory s (s.symlink directory name target disk written spare).2 := by
  rcases symlink_cases s directory name target disk written spare with
    h | ⟨i, node, hi, hn, h⟩ | ⟨p, i, node, -, hc, ⟨-, -, h⟩ | ⟨-, h⟩⟩ <;>
    rw [h]
  · exact (Fewer.refl s).newInDirectory
  · exact (setNode_free_fewer hn).newInDirectory
  all_goals exact setNode_newInDirectory hc.directory hc.parent

theorem setAlias_newInDirectory {a : Fin 16} {entry : Alias} (h : s.IsDirectory entry.parent) :
    NewInDirectory s (s.setAlias a entry) := by
  intro p name e he
  by_cases hea : e = .extra a
  · subst hea
    obtain ⟨-, hp, -⟩ := setAlias_hasEntry_self.mp he
    exact .inr (hp ▸ h)
  · exact .inl ((setAlias_hasEntry_of_ne hea).mp he)

theorem link_newInDirectory (object directory : Option (Fin 64)) (name : Name) (disk : Bool) :
    NewInDirectory s (s.link object directory name disk).2 := by
  rcases link_cases s object directory name disk with h | ⟨i, p, a, -, -, hl, h⟩
  · rw [h]
    exact (Fewer.refl s).newInDirectory
  · rw [h]
    exact setAlias_newInDirectory hl.directory

section

variable (hs : s.Sane tidy held)
include hs

theorem dropName_newInDirectory {i p : Fin 64} {name : Name}
    (h : s.Removable p name i) : NewInDirectory s (s.dropName i).after := by
  have hlive : s.Live i := ⟨h.named.1, h.named.2.1⟩
  rcases dropName_cases s i with ⟨a, ha, hd⟩ | ⟨-, hd⟩
  · rw [hd]
    obtain ⟨hac, hn⟩ := aliasForNode_some ha
    have hdir := (hs.aliased.parent a hac (by rw [hn]; exact hlive)).1
    exact (setNode_newInDirectory hdir rfl).trans_fewer (retired_fewer a)
  · rw [hd]
    exact (setNode_fewer fun _ hl => by cases hl).newInDirectory

theorem unlinkLocked_newInDirectory (directory : Option (Fin 64))
    (name : Name) (disk : Bool) : NewInDirectory s (s.unlinkLocked directory name disk).after := by
  rcases unlinkLocked_cases s directory name disk with
    h | ⟨p, -, -, -, -, -, ⟨i, -, hr, h⟩ | ⟨a, -, -, h⟩⟩ <;>
    rw [h]
  · exact (Fewer.refl s).newInDirectory
  · exact dropName_newInDirectory hs hr
  · exact (retired_fewer a).newInDirectory

theorem unlink_newInDirectory (directory : Option (Fin 64)) (name : Name)
    (disk : Bool) : NewInDirectory s (s.unlink directory name disk).2 :=
  (unlinkLocked_newInDirectory hs directory name disk).trans_fewer (finish_fewer _)

theorem replaced_newInDirectory (q : Fin 64) (newName : Name)
    (disk : Bool) : NewInDirectory s (s.replaced q newName disk).after := by
  unfold replaced
  split_ifs
  · exact (Fewer.refl s).newInDirectory
  · exact unlinkLocked_newInDirectory hs (some q) newName disk

end

theorem moveEntry_hasEntry {q p : Fin 64} {newName name : Name} {entry e : Entry}
    (h : (s.moveEntry entry q newName).HasEntry p name e) :
    (e = entry ∧ p = q ∧ name = newName) ∨ (e ≠ entry ∧ s.HasEntry p name e) := by
  by_cases he : e = entry
  · subst he
    refine .inl ⟨rfl, ?_⟩
    cases e with
    | primary i =>
      obtain ⟨-, -, hp, hn⟩ := setNode_hasEntry_self.mp h
      exact ⟨(Option.some.inj hp).symm, hn.symm⟩
    | extra a =>
      obtain ⟨-, hp, hn⟩ := setAlias_hasEntry_self.mp h
      exact ⟨hp.symm, hn.symm⟩
  · refine .inr ⟨he, ?_⟩
    cases entry with
    | primary i => exact (setNode_hasEntry_of_ne he).mp h
    | extra a => exact (setAlias_hasEntry_of_ne he).mp h

theorem renameLocked_newInDirectory (hs : s.Sane tidy held) (oldDirectory : Option (Fin 64))
    (name : Name) (newDirectory : Option (Fin 64)) (newName : Name) (disk moved : Bool) :
    NewInDirectory s (s.renameLocked oldDirectory name newDirectory newName disk moved).after := by
  rcases renameLocked_cases s oldDirectory name newDirectory newName disk moved with
    ⟨ok, h⟩ | ⟨p, q, entry, -, -, hr, -, ⟨-, -, h⟩ | h⟩ <;>
    rw [h]
  · exact (Fewer.refl s).newInDirectory
  · exact replaced_newInDirectory hs q newName disk
  · intro r n e he
    rcases moveEntry_hasEntry he with ⟨-, rfl, -⟩ | ⟨-, hold⟩
    · exact .inr hr.new
    · exact replaced_newInDirectory hs q newName disk r n e hold

theorem rename_newInDirectory (hs : s.Sane tidy held) (oldDirectory : Option (Fin 64))
    (name : Name) (newDirectory : Option (Fin 64)) (newName : Name) (disk moved : Bool) :
    NewInDirectory s (s.rename oldDirectory name newDirectory newName disk moved).2 :=
  (renameLocked_newInDirectory hs oldDirectory name newDirectory newName disk moved).trans_fewer
    (finish_fewer _)

end MichCore.Vfs.Tables
