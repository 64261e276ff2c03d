import MichCore.VfsSane

/-!
# References to VFS nodes

A release that drops the last reference destroys a node that is unlinked and used by no mount and
no open file, so the tables stay sane.
-/
namespace MichCore.Vfs.Tables

open ParentForest Function Finset

/-- The callers' references after one more was handed out, or one was given back. -/
def more (held : Fin 64 → ℕ) (i : Fin 64) : Fin 64 → ℕ := update held i (held i + 1)

def less (held : Fin 64 → ℕ) (i : Fin 64) : Fin 64 → ℕ := update held i (held i - 1)

section Held

variable (held : Fin 64 → ℕ) {i j : Fin 64}

@[simp] theorem more_self : more held i i = held i + 1 := by simp [more]

@[simp] theorem less_self : less held i i = held i - 1 := by simp [less]

theorem more_of_ne (h : j ≠ i) : more held i j = held j := update_of_ne h _ _

theorem less_of_ne (h : j ≠ i) : less held i j = held j := update_of_ne h _ _

@[simp] theorem less_more : less (more held i) i = held := by
  funext j
  by_cases hj : j = i
  · subst hj
    simp
  · rw [less_of_ne _ hj, more_of_ne _ hj]

end Held

theorem card_update {α β : Type*} [Fintype α] [DecidableEq α] (table : α → β) (x : α) (b : β)
    (P : β → Prop) [DecidablePred P] :
    (univ.filter (fun a => P (update table x b a))).card + (if P (table x) then 1 else 0) =
      (univ.filter (fun a => P (table a))).card + (if P b then 1 else 0) := by
  have hs : ∀ f : α → β, (univ.filter (fun a => P (f a))).card =
      (if P (f x) then 1 else 0) + ∑ a ∈ univ.erase x, if P (f a) then 1 else 0 := by
    intro f
    rw [card_filter, ← add_sum_erase _ _ (mem_univ x)]
  have hr : ∑ a ∈ univ.erase x, (if P (update table x b a) then 1 else 0) =
      ∑ a ∈ univ.erase x, if P (table a) then 1 else 0 := by
    apply sum_congr rfl
    intro a ha
    rw [update_of_ne (ne_of_mem_erase ha)]
  rw [hs, hs, hr, update_self]
  omega

variable {s s' : Tables} {held held' : Fin 64 → ℕ} {i : Fin 64} {tidy : Prop}

theorem Counted.setNode {node : Node} (hc : s.Counted held) (hh : ∀ j, j ≠ i → held' j = held j)
    (ha : node.active = true →
      node.references = linkReferences node + held' i + s.uses i ∧ 0 < node.references)
    (hf : node.active = false → held' i = 0 ∧ s.uses i = 0) :
    (s.setNode i node).Counted held' := by
  refine ⟨?_, ?_, hc.files⟩
  · intro j hj
    by_cases hji : j = i
    · subst hji
      rw [setNode_self] at hj ⊢
      exact ha hj
    · rw [setNode_of_ne hji] at hj ⊢
      rw [hh j hji]
      exact hc.active j hj
  · intro j hj
    by_cases hji : j = i
    · subst hji
      rw [setNode_self] at hj
      exact hf hj
    · rw [setNode_of_ne hji] at hj
      rw [hh j hji]
      exact hc.free j hj

theorem Counted.held_pos_active (hc : s.Counted held) (h : 0 < held i) :
    (s.nodes i).active = true := by
  by_contra hf
  have := (hc.free i (by simpa using hf)).1
  omega

theorem Sane.setNode_alike (node : Node) (hs : s.Sane tidy held) (h : Alike (s.nodes i) node)
    (hcount : node.active = true → node.references = (s.nodes i).references) :
    (s.setNode i node).Sane tidy held := by
  refine hs.alike (Tables.setNode_alike s i node h) (fun _ => ⟨rfl, rfl, rfl⟩) (fun _ _ => rfl)
    (hs.counted.setNode (fun _ _ => rfl) ?_ ?_)
  · intro hac
    rcases h with ⟨-, hf⟩ | hsh
    · rw [hf] at hac
      cases hac
    · have := hs.counted.active i (hsh.active ▸ hac)
      simp only [linkReferences, hsh.linked, hcount hac]
      exact this
  · intro hf
    rcases h with ⟨hf', -⟩ | hsh
    · exact hs.counted.free i hf'
    · exact hs.counted.free i (hsh.active ▸ hf)

theorem retain_some (h : s.retain i = some s') :
    (s.nodes i).active = true ∧ 0 < (s.nodes i).references ∧
      s' = s.setNode i { s.nodes i with references := (s.nodes i).references + 1 } := by
  unfold retain at h
  split_ifs at h with hbad
  push Not at hbad
  obtain ⟨ha, hpos, -⟩ := hbad
  exact ⟨by simpa using ha, Nat.pos_of_ne_zero hpos, (Option.some.inj h).symm⟩

theorem Sane.retain (hs : s.Sane tidy held) (h : s.retain i = some s') :
    s'.Sane tidy (more held i) := by
  obtain ⟨hac, hpos, rfl⟩ := retain_some h
  refine hs.alike ?_ (fun _ => ⟨rfl, rfl, rfl⟩) (fun _ _ => rfl)
    (hs.counted.setNode (fun j hj => more_of_ne held hj) ?_ ?_)
  · exact Tables.setNode_alike s i _ (.inr ⟨rfl, rfl, rfl, rfl, rfl, rfl, rfl⟩)
  · intro _
    have := (hs.counted.active i hac).1
    simp only [linkReferences, more_self] at this ⊢
    omega
  · intro hf
    rw [hac] at hf
    cases hf

section Destroy

@[simp] theorem nodeDestroy_self : (s.nodeDestroy i).nodes i = cleared (s.nodes i) := by
  simp [nodeDestroy]

theorem nodeDestroy_of_ne {j : Fin 64} (h : j ≠ i) : (s.nodeDestroy i).nodes j = s.nodes j :=
  update_of_ne h _ _

theorem nodeDestroy_aliases {a : Fin 16} (h : ((s.nodeDestroy i).aliases a).active = true) :
    (s.nodeDestroy i).aliases a = s.aliases a ∧ (s.aliases a).node ≠ i := by
  by_cases ha : (s.aliases a).active ∧ (s.aliases a).node = i
  · simp [nodeDestroy, ha] at h
  · simp only [nodeDestroy, if_neg ha] at h ⊢
    exact ⟨trivial, fun hn => ha ⟨h, hn⟩⟩

end Destroy

theorem Sane.leaf_of_not_live (hs : s.Sane tidy held) (hlive : ¬ s.Live i) (hu : s.uses i = 0)
    (hn : ∀ a, (s.aliases a).active = true → (s.aliases a).node ≠ i) : s.Leaf i where
  ne_root := by
    rintro rfl
    exact hlive hs.trees.root.1.1
  notRoot := (uses_eq_zero.mp hu).1
  childless := fun j hj hp => hlive (hs.trees.parent j i hj hp).1.1
  nameless := hn
  empty := by
    rintro a ha hl rfl
    exact hlive (hs.aliased.parent a ha hl).1.1

theorem Sane.nodeDestroy (hs : s.Sane tidy held) (hlive : ¬ s.Live i) (hu : s.uses i = 0) :
    (s.nodeDestroy i).Sane tidy (update held i 0) := by
  -- The aliases of the node go first; then nothing hangs on it.
  let s₁ : Tables := { s with aliases := (s.nodeDestroy i).aliases }
  have hs₁ : s₁.Sane tidy held := by
    refine hs.alike ?_ (fun _ => ⟨rfl, rfl, rfl⟩) (fun a ha => (nodeDestroy_aliases ha).1)
      ⟨hs.counted.active, hs.counted.free, hs.counted.files⟩
    exact fun j => Alike.refl _
  have hle : s₁.Leaf i := by
    refine hs₁.leaf_of_not_live hlive hu fun a ha => ?_
    obtain ⟨heq, hn⟩ := nodeDestroy_aliases ha
    exact heq ▸ hn
  exact ⟨hle.trees rfl hs₁.trees,
    hle.mounted rfl hs₁.mounted fun k hk => absurd hk ((uses_eq_zero.mp hu).2.1 k),
    hle.aliased hs₁.aliased,
    hs₁.counted.setNode (fun j hj => update_of_ne hj _ _) nofun fun _ => ⟨update_self .., hu⟩⟩

theorem Sane.release (hs : s.Sane tidy held) (hh : 0 < held i) :
    (s.release i).Sane tidy (less held i) := by
  have hac := hs.counted.held_pos_active hh
  obtain ⟨hcount, hpos⟩ := hs.counted.active i hac
  have hok : ¬ ((s.nodes i).active = false ∨ (s.nodes i).references = 0) := by
    rw [hac]
    simp
    omega
  unfold Tables.release
  rw [if_neg hok]
  split
  · -- The last reference was the caller's: no link, no mount and no file is left.
    have hlink : linkReferences (s.nodes i) = 0 := by omega
    have hlive : ¬ s.Live i := by
      rintro ⟨-, hlinke⟩
      simp [linkReferences, hlinke] at hlink
    have hle : less held i = update held i 0 := by
      rw [less, show held i - 1 = 0 by omega]
    rw [hle]
    exact hs.nodeDestroy hlive (by omega)
  · refine hs.alike ?_ (fun _ => ⟨rfl, rfl, rfl⟩) (fun _ _ => rfl)
      (hs.counted.setNode (fun j hj => less_of_ne held hj) ?_ ?_)
    · exact Tables.setNode_alike s i _ (.inr ⟨rfl, rfl, rfl, rfl, rfl, rfl, rfl⟩)
    · intro _
      simp only [linkReferences, less_self] at hcount ⊢
      omega
    · intro hf
      rw [hac] at hf
      cases hf

theorem Sane.releaseAll {slots : List (Fin 64)}
    (hs : s.Sane tidy (fun j => held j + slots.count j)) : (s.releaseAll slots).Sane tidy held := by
  induction slots generalizing s with
  | nil => simpa [Tables.releaseAll] using hs
  | cons x slots ih =>
    have hr := hs.release (i := x) (by simp)
    have hl : less (fun j => held j + (x :: slots).count j) x =
        fun j => held j + slots.count j := by
      funext j
      by_cases hj : j = x
      · subst hj
        simp
      · rw [less_of_ne _ hj, List.count_cons_of_ne (Ne.symm hj)]
    rw [hl] at hr
    exact ih hr

theorem retain_release (h : s.retain i = some s') : s'.release i = s := by
  obtain ⟨hac, hpos, rfl⟩ := retain_some h
  have hok : ¬ (((s.setNode i { s.nodes i with
      references := (s.nodes i).references + 1 }).nodes i).active = false ∨
      ((s.setNode i { s.nodes i with
        references := (s.nodes i).references + 1 }).nodes i).references = 0) := by
    simp [hac]
  unfold Tables.release
  rw [if_neg hok, if_neg (by simp; omega)]
  simp [setNode]

theorem setFile_uses (f : Fin 32) (file : File) (j : Fin 64) :
    (s.setFile f file).uses j + (if (s.files f).node = some j then 1 else 0) =
      s.uses j + (if file.node = some j then 1 else 0) := by
  have : fileUses (update s.files f file) j + (if (s.files f).node = some j then 1 else 0) =
        fileUses s.files j + (if file.node = some j then 1 else 0) :=
    card_update s.files f file (fun entry => entry.node = some j)
  simp only [uses, setFile]
  omega

theorem Sane.setFile (held' : Fin 64 → ℕ) (hs : s.Sane tidy held) (f : Fin 32) (file : File)
    (hf : file.active = false → file.node = none)
    (hh : ∀ j, held' j + (if file.node = some j then 1 else 0) =
      held j + (if (s.files f).node = some j then 1 else 0)) :
    (s.setFile f file).Sane tidy held' := by
  refine hs.alike ?_ (fun _ => ⟨rfl, rfl, rfl⟩) (fun _ _ => rfl) ⟨?_, ?_, ?_⟩
  · exact fun j => Alike.refl _
  · intro j hj
    obtain ⟨hcount, hpos⟩ := hs.counted.active j hj
    have hu := setFile_uses (s := s) f file j
    have hsa := hh j
    refine ⟨?_, hpos⟩
    show (s.nodes j).references = linkReferences (s.nodes j) + held' j + _
    omega
  · intro j hj
    obtain ⟨hz, hn⟩ := hs.counted.free j hj
    have hu := setFile_uses (s := s) f file j
    have hsa := hh j
    omega
  · intro g hg
    by_cases hgf : g = f
    · subst hgf
      simp only [Tables.setFile, update_self] at hg ⊢
      exact hf hg
    · simp only [Tables.setFile, update_of_ne hgf] at hg ⊢
      exact hs.counted.files g hg

end MichCore.Vfs.Tables
