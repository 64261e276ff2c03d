import MichCore.VfsLinks

/-!
# Unmounting

An unmount takes the link from every node of the mount and then drops the references of the links
and of the mount. A node that somebody else references stays behind unlinked.
-/
namespace MichCore.Vfs.Tables

open ParentForest List

variable {s : Tables} {held : Fin 64 → ℕ} {tidy : Prop} {k : Fin 8}

section Detach

theorem onMount_iff (hs : s.Sane tidy held) (hk : k ≠ 0) {i : Fin 64} :
    s.OnMount k i ↔ s.Live i ∧ (s.nodes i).mount = some k := by
  constructor
  · rintro ⟨-, ha, hm, hl⟩
    exact ⟨⟨ha, hl⟩, hm⟩
  · rintro ⟨⟨ha, hl⟩, hm⟩
    refine ⟨?_, ha, hm, hl⟩
    rintro rfl
    rw [hs.trees.root.2.2] at hm
    exact hk (Option.some.inj hm).symm

theorem detach_of_onMount {i : Fin 64} (h : s.OnMount k i) :
    (s.detach k).nodes i = { s.nodes i with linked := false, parent := none } := if_pos h

theorem detach_of_not_onMount {i : Fin 64} (h : ¬ s.OnMount k i) :
    (s.detach k).nodes i = s.nodes i := if_neg h

theorem detach_mounts_of_ne {m : Fin 8} (h : m ≠ k) : (s.detach k).mounts m = s.mounts m :=
  Function.update_of_ne h _ _

@[simp] theorem detach_aliases : (s.detach k).aliases = s.aliases := rfl

theorem detach_live {i : Fin 64} : (s.detach k).Live i ↔ s.Live i ∧ ¬ s.OnMount k i := by
  by_cases h : s.OnMount k i
  · simp [Live, detach_of_onMount h, h]
  · simp [Live, detach_of_not_onMount h, h]

theorem detach_active (i : Fin 64) :
    ((s.detach k).nodes i).active = (s.nodes i).active ∧
      ((s.detach k).nodes i).type = (s.nodes i).type ∧
      ((s.detach k).nodes i).references = (s.nodes i).references := by
  by_cases h : s.OnMount k i
  · rw [detach_of_onMount h]
    exact ⟨rfl, rfl, rfl⟩
  · rw [detach_of_not_onMount h]
    exact ⟨rfl, rfl, rfl⟩

variable (hs : s.Sane tidy held) (hk : k ≠ 0)
include hs hk

/-- A directory on the mount of a node that stays stays too. -/
theorem detach_directory {i p : Fin 64} (hi : s.Live i) (hi' : ¬ s.OnMount k i)
    (h : s.IsDirectory p ∧ (s.nodes p).mount = (s.nodes i).mount) :
    (s.detach k).IsDirectory p ∧ ((s.detach k).nodes p).mount = (s.nodes i).mount := by
  have hp : ¬ s.OnMount k p := by
    intro hp
    rw [onMount_iff hs hk] at hp hi'
    exact hi' ⟨hi, by rw [← h.2]; exact hp.2⟩
  rw [IsDirectory, detach_of_not_onMount hp]
  exact ⟨⟨detach_live.mpr ⟨h.1.1, hp⟩, h.1.2⟩, h.2⟩

theorem detach_rooted (i : Fin 64) : Rooted (s.detach k).up i := by
  by_cases hi : (s.detach k).Live i
  · obtain ⟨-, hoff⟩ := detach_live.mp hi
    apply Rooted.congr (P := fun j => ¬ s.OnMount k j) _ _ hoff (hs.trees.rooted i)
    · intro j hj
      by_cases hlive : s.Live j
      · rw [up_of_live hlive, up_of_live (detach_live.mpr ⟨hlive, hj⟩), detach_of_not_onMount hj]
      · rw [up_of_not_live hlive, up_of_not_live (fun h => hlive (detach_live.mp h).1)]
    · intro j p hj hp
      by_cases hlive : s.Live j
      · rw [up_of_live hlive] at hp
        exact (detach_live.mp (detach_directory hs hk hlive hj
          (hs.trees.parent j p hlive hp)).1.1).2
      · rw [up_of_not_live hlive] at hp
        cases hp
  · exact .root (up_of_not_live hi)

theorem detach_attached {m : Fin 8} {r p : Fin 64} (hm : m ≠ k) (h : s.Attached m r p) :
    (s.detach k).Attached m r p := by
  have hr : ¬ s.OnMount k r := by
    rw [onMount_iff hs hk, h.mount]
    rintro ⟨-, hmk⟩
    exact hm (Option.some.inj hmk)
  obtain ⟨hac, ht, -⟩ := detach_active (s := s) (k := k) p
  refine ⟨by rw [detach_mounts_of_ne hm, h.root], by rw [detach_mounts_of_ne hm, h.point],
    ⟨detach_live.mpr ⟨h.directory.1, hr⟩, ?_⟩, ?_, ?_, by rw [hac, ht]; exact h.covered⟩
  · rw [detach_of_not_onMount hr]
    exact h.directory.2
  · rw [detach_of_not_onMount hr, h.top]
  · rw [detach_of_not_onMount hr, h.mount]

theorem detach_trees : (s.detach k).Trees := by
  have h0 : ¬ s.OnMount k 0 := fun h => h.1 rfl
  obtain ⟨⟨hlive, ht⟩, hre⟩ := hs.trees.root
  rw [← detach_of_not_onMount h0] at ht hre
  refine ⟨⟨⟨detach_live.mpr ⟨hlive, h0⟩, ht⟩, hre⟩, ?_, ?_, detach_rooted hs hk⟩
  · intro i p hi hp
    obtain ⟨hlive, hoff⟩ := detach_live.mp hi
    rw [detach_of_not_onMount hoff] at hp ⊢
    exact detach_directory hs hk hlive hoff (hs.trees.parent i p hlive hp)
  · intro i hi hp
    obtain ⟨hlive, hoff⟩ := detach_live.mp hi
    rw [detach_of_not_onMount hoff] at hp
    rcases hs.trees.top i hlive hp with h | ⟨m, hm, hro⟩
    · exact .inl h
    refine .inr ⟨m, hm, ?_⟩
    have hac : (s.mounts m).active = true := by
      by_contra hidle
      rw [(hs.mounted.idle m (by simpa using hidle)).1] at hro
      cases hro
    obtain ⟨r, q, ha⟩ := hs.mounted.busy m hm hac
    have hri : r = i := by
      rw [ha.root] at hro
      exact Option.some.inj hro
    have hmk : m ≠ k := by
      rintro rfl
      exact hoff ((onMount_iff hs hk).mpr ⟨hlive, by rw [← hri]; exact ha.mount⟩)
    rw [detach_mounts_of_ne hmk, hro]

theorem detach_mounted : (s.detach k).Mounted := by
  refine ⟨?_, ?_, ?_, ?_⟩
  · rw [detach_mounts_of_ne hk.symm]
    exact hs.mounted.zero
  · intro m hm
    by_cases hmk : m = k
    · subst hmk
      simp [detach]
    · rw [detach_mounts_of_ne hmk] at hm ⊢
      exact hs.mounted.idle m hm
  · intro m hm hac
    have hmk : m ≠ k := by
      rintro rfl
      simp [detach] at hac
    rw [detach_mounts_of_ne hmk] at hac
    obtain ⟨r, p, ha⟩ := hs.mounted.busy m hm hac
    exact ⟨r, p, detach_attached hs hk hmk ha⟩
  · intro i hi
    obtain ⟨hlive, hoff⟩ := detach_live.mp hi
    obtain ⟨m, hmo, hac, hr⟩ := hs.mounted.owned i hlive
    have hmk : m ≠ k := by
      rintro rfl
      exact hoff ((onMount_iff hs hk).mpr ⟨hlive, hmo⟩)
    rw [detach_of_not_onMount hoff]
    exact ⟨m, hmo, by rw [detach_mounts_of_ne hmk]; exact hac, hr⟩

theorem detach_aliased : (s.detach k).Aliased False := by
  refine ⟨?_, ?_, fun h => h.elim⟩
  · intro a ha
    obtain ⟨hac, ht, -⟩ := detach_active (s := s) (k := k) (s.aliases a).node
    exact ⟨by rw [← (hs.aliased.node a ha).1]; exact hac,
      by rw [← (hs.aliased.node a ha).2]; exact ht⟩
  · intro a ha hi
    rw [detach_aliases] at ha hi ⊢
    obtain ⟨hlive, hoff⟩ := detach_live.mp hi
    rw [detach_of_not_onMount hoff]
    exact detach_directory hs hk hlive hoff (hs.aliased.parent a ha hlive)

omit hs hk in
theorem detach_uses (i : Fin 64) :
    (s.detach k).uses i + (if (s.mounts k).root = some i then 1 else 0) +
        (if (s.mounts k).mountpoint = some i then 1 else 0) = s.uses i := by
  have hr : rootUses (Function.update s.mounts k _) i +
      (if (s.mounts k).root = some i then 1 else 0) = rootUses s.mounts i + _ :=
    card_update s.mounts k
      ⟨false, none, none, nextGeneration (s.mounts k).generation, .none⟩ (fun m => m.root = some i)
  have hp : pointUses (Function.update s.mounts k _) i +
      (if (s.mounts k).mountpoint = some i then 1 else 0) = pointUses s.mounts i + _ :=
    card_update s.mounts k ⟨false, none, none, nextGeneration (s.mounts k).generation, .none⟩
      (fun m => m.mountpoint = some i)
  simp only [uses, detach]
  simp at hr hp
  omega

omit hs hk in
theorem pending_count (i : Fin 64) :
    (s.pending k).count i = (if s.OnMount k i then 1 else 0) +
      (if (s.mounts k).root = some i then 1 else 0) +
      (if (s.mounts k).mountpoint = some i then 1 else 0) := by
  have ht : ∀ o : Option (Fin 64), o.toList.count i = if o = some i then 1 else 0 := by
    intro o
    cases o with
    | none => rfl
    | some j => simp [count_cons]
  have hf : ((finRange 64).filter (fun i => s.OnMount k i)).count i =
      if s.OnMount k i then 1 else 0 := by
    by_cases h : s.OnMount k i
    · rw [count_filter (by simpa using h), if_pos h]
      exact count_eq_one_of_mem (nodup_finRange 64) (mem_finRange i)
    · rw [if_neg h, count_eq_zero]
      simp [h]
  rw [pending, count_append, count_append, ht, ht, hf]

omit hk in
theorem detach_counted : (s.detach k).Counted (fun j => held j + (s.pending k).count j) := by
  refine ⟨?_, ?_, hs.counted.files⟩
  · intro i hi
    obtain ⟨hac, -, hr⟩ := detach_active (s := s) (k := k) i
    obtain ⟨hcount, hpos⟩ := hs.counted.active i (hac ▸ hi)
    have hu := detach_uses (s := s) (k := k) i
    have hpe := pending_count (s := s) (k := k) i
    refine ⟨?_, by rw [hr]; exact hpos⟩
    rw [hr, hcount, hpe]
    by_cases h : s.OnMount k i
    · rw [detach_of_onMount h, if_pos h]
      simp only [linkReferences, h.2.2.2, if_true, Bool.false_eq_true, if_false]
      omega
    · rw [detach_of_not_onMount h, if_neg h]
      omega
  · intro i hi
    obtain ⟨hac, -, -⟩ := detach_active (s := s) (k := k) i
    obtain ⟨hh, hz⟩ := hs.counted.free i (hac ▸ hi)
    have hu := detach_uses (s := s) (k := k) i
    have hpe := pending_count (s := s) (k := k) i
    have hoff : ¬ s.OnMount k i := by
      intro h
      rw [hac, h.2.1] at hi
      cases hi
    rw [hpe, if_neg hoff]
    omega

theorem Sane.detach : (s.detach k).Sane False (fun j => held j + (s.pending k).count j) :=
  ⟨detach_trees hs hk, detach_mounted hs hk, detach_aliased hs hk, detach_counted hs⟩

end Detach

theorem Sane.mountDestroy (hs : s.Sane tidy held) (hk : k ≠ 0) :
    (s.mountDestroy k).Sane False held := (hs.detach hk).releaseAll

theorem unmount_cases (s : Tables) (directory : Option (Fin 64)) :
    s.unmount directory = (false, s) ∨ ∃ d k, directory = some d ∧ s.mountForPoint d = some k ∧
        s.unmount directory = (true, s.mountDestroy k) := by
  unfold unmount
  cases h : directory.bind s.mountForPoint with
  | none => exact .inl rfl
  | some k =>
    obtain ⟨d, rfl, hk⟩ := Option.bind_eq_some_iff.mp h
    simp only
    split_ifs with hb
    · exact .inl rfl
    · exact .inr ⟨d, k, rfl, hk, rfl⟩

section Release

variable {i x : Fin 64} {a : Fin 16}

theorem release_of_ne (h : i ≠ x) : (s.release x).nodes i = s.nodes i := by
  unfold release
  split_ifs
  · rfl
  · exact nodeDestroy_of_ne h
  · exact setNode_of_ne h

theorem release_self_of_lt (h : 1 < (s.nodes i).references) (hac : (s.nodes i).active = true) :
    s.release i = s.setNode i { s.nodes i with references := (s.nodes i).references - 1 } := by
  have hok : ¬ ((s.nodes i).active = false ∨ (s.nodes i).references = 0) := by
    rw [hac]
    simp
    omega
  rw [release, if_neg hok, if_neg (by omega)]

/-- A node with more references than are given back keeps all but these, and its aliases. -/
theorem release_survives (hac : (s.nodes i).active = true)
    (hcount : [x].count i < (s.nodes i).references) :
    (s.release x).nodes i =
        { s.nodes i with references := (s.nodes i).references - [x].count i } ∧
      ∀ a, (s.aliases a).node = i → (s.release x).aliases a = s.aliases a := by
  by_cases hx : i = x
  · subst hx
    rw [count_singleton_self] at hcount ⊢
    rw [release_self_of_lt hcount hac, setNode_self]
    exact ⟨rfl, fun _ _ => rfl⟩
  · rw [count_singleton, if_neg (by simpa using Ne.symm hx), release_of_ne hx]
    refine ⟨rfl, fun a ha => ?_⟩
    unfold release
    split_ifs
    · rfl
    · simp [Tables.nodeDestroy, ha, hx]
    · rfl

theorem release_alias_cases (s : Tables) (x : Fin 64) (a : Fin 16) :
    (s.release x).aliases a = s.aliases a ∨
      (s.release x).aliases a = { s.aliases a with active := false } := by
  unfold release
  split_ifs
  · exact .inl rfl
  · by_cases h : (s.aliases a).active ∧ (s.aliases a).node = x
    · exact .inr (if_pos h)
    · exact .inl (if_neg h)
  · exact .inl rfl

theorem releaseAll_alias_cases (s : Tables) (slots : List (Fin 64)) (a : Fin 16) :
    (s.releaseAll slots).aliases a = s.aliases a ∨
      (s.releaseAll slots).aliases a = { s.aliases a with active := false } := by
  induction slots generalizing s with
  | nil => exact .inl rfl
  | cons x slots ih =>
    change ((s.release x).releaseAll slots).aliases a = _ ∨
      ((s.release x).releaseAll slots).aliases a = _
    rcases release_alias_cases s x a with h | h
    · rw [← h]
      exact ih (s.release x)
    · rcases ih (s.release x) with h' | h'
      · exact .inr (by rw [h', h])
      · exact .inr (by rw [h', h])

theorem releaseAll_survives (slots : List (Fin 64)) (hac : (s.nodes i).active = true)
    (hcount : slots.count i < (s.nodes i).references) :
    (s.releaseAll slots).nodes i =
        { s.nodes i with references := (s.nodes i).references - slots.count i } ∧
      ∀ a, (s.aliases a).node = i → (s.releaseAll slots).aliases a = s.aliases a := by
  induction slots generalizing s with
  | nil => exact ⟨rfl, fun _ _ => rfl⟩
  | cons x slots ih =>
    change ((s.release x).releaseAll slots).nodes i = _ ∧
      ∀ a, _ → ((s.release x).releaseAll slots).aliases a = _
    rw [← singleton_append, count_append] at hcount ⊢
    obtain ⟨hone, hk⟩ := release_survives (x := x) hac (by omega)
    obtain ⟨hn, hal⟩ := ih (s := s.release x) (by rw [hone]; exact hac)
      (by rw [hone]; exact Nat.lt_sub_iff_add_lt'.mpr hcount)
    refine ⟨by rw [hn, hone, Nat.sub_sub], fun a ha => ?_⟩
    rw [hal a (by rw [hk a ha, ha]), hk a ha]

theorem releaseAll_dies (slots : List (Fin 64)) (hac : (s.nodes i).active = true)
    (hpos : 0 < (s.nodes i).references) (hcount : slots.count i = (s.nodes i).references)
    (a : Fin 16) (ha : (s.aliases a).node = i) :
    ((s.releaseAll slots).aliases a).active = false := by
  induction slots generalizing s with
  | nil => simp at hcount; omega
  | cons x slots ih =>
    change (((s.release x).releaseAll slots).aliases a).active = false
    rw [← singleton_append, count_append] at hcount
    by_cases hlt : [x].count i < (s.nodes i).references
    · obtain ⟨hone, hk⟩ := release_survives (x := x) hac hlt
      refine ih (by rw [hone]; exact hac) ?_ ?_ (by rw [hk a ha, ha])
      · rw [hone]
        exact Nat.sub_pos_of_lt hlt
      · rw [hone]
        exact Nat.eq_sub_of_add_eq' hcount
    · -- The last reference goes, and the aliases of the node with it.
      have hle := count_le_length (a := i) (l := [x])
      obtain rfl : x = i := by
        by_contra hx
        simp [hx] at hlt
        omega
      have hone : (s.nodes x).references = 1 := by
        simp at hlt
        omega
      rw [show s.release x = s.nodeDestroy x by simp [release, hone, hac]]
      have hd : ((s.nodeDestroy x).aliases a).active = false := by
        by_contra hal
        exact (nodeDestroy_aliases (by simpa using hal)).2 ha
      rcases releaseAll_alias_cases (s.nodeDestroy x) slots a with h | h
      · rw [h]
        exact hd
      · rw [h]

end Release

/-- Every node of the mount that has an alias has no reference but the one of its link. -/
def Unshared (s : Tables) (k : Fin 8) : Prop :=
  ∀ a, (s.aliases a).active = true → s.OnMount k (s.aliases a).node →
    (s.nodes (s.aliases a).node).references = 1
  deriving Decidable

section Aliases

variable (hs : s.Sane tidy held)
include hs

theorem mountDestroy_kept {i : Fin 64} (hi : s.Live i) (hoff : ¬ s.OnMount k i) :
    (s.mountDestroy k).Live i := by
  have hsa := detach_of_not_onMount hoff
  have hl : linkReferences ((s.detach k).nodes i) = 1 := by simp [linkReferences, hsa, hi.2]
  have hac : ((s.detach k).nodes i).active = true := by rw [hsa, hi.1]
  obtain ⟨hcount, -⟩ := (detach_counted hs).active i hac
  have hsu := releaseAll_survives (s.pending k) hac (by omega)
  rw [Live, mountDestroy, hsu.1, hsa]
  exact hi

theorem mountDestroy_tidy (ht : ∀ a, (s.aliases a).active = true → s.Live (s.aliases a).node)
    (h : s.Unshared k) (a : Fin 16) (ha : ((s.mountDestroy k).aliases a).active = true) :
    (s.mountDestroy k).Live ((s.mountDestroy k).aliases a).node := by
  have hk : (s.mountDestroy k).aliases a = s.aliases a := by
    rcases releaseAll_alias_cases (s.detach k) (s.pending k) a with heq | heq
    · exact heq
    · rw [mountDestroy, heq] at ha
      cases ha
  rw [hk] at ha ⊢
  by_cases hon : s.OnMount k (s.aliases a).node
  · -- The node had no reference but its link, so it is gone and the alias with it.
    exfalso
    have hone := h a ha hon
    obtain ⟨hac, -, hr⟩ := detach_active (s := s) (k := k) (s.aliases a).node
    rw [hon.2.1] at hac
    obtain ⟨hcount, hpos⟩ := (detach_counted hs).active _ hac
    have hpe := pending_count (s := s) (k := k) (s.aliases a).node
    rw [if_pos hon] at hpe
    have hd := releaseAll_dies (s.pending k) hac hpos (by omega) a rfl
    rw [← hk, mountDestroy, hd] at ha
    cases ha
  · exact mountDestroy_kept hs (ht a ha) hon

theorem mountDestroy_stale {r p : Fin 64} (hat : s.Attached k r p) {a : Fin 16}
    (ha : (s.aliases a).active = true) (hon : s.OnMount k (s.aliases a).node)
    (href : (s.nodes (s.aliases a).node).references ≠ 1) :
    ((s.mountDestroy k).aliases a).active = true ∧
      ¬ (s.mountDestroy k).Live ((s.mountDestroy k).aliases a).node := by
  obtain ⟨-, hpos⟩ := hs.counted.active _ hon.2.1
  have hreg := (hs.aliased.node a ha).2
  have hro : (s.mounts k).root ≠ some (s.aliases a).node := by
    rw [hat.root]
    intro h
    cases h
    rw [hat.directory.2] at hreg
    cases hreg
  have hpoi : (s.mounts k).mountpoint ≠ some (s.aliases a).node := by
    rw [hat.point]
    intro h
    cases h
    rw [hat.covered.2] at hreg
    cases hreg
  have hpe := pending_count (s := s) (k := k) (s.aliases a).node
  rw [if_pos hon, if_neg hro, if_neg hpoi] at hpe
  have hcut := detach_of_onMount hon
  have hsu := releaseAll_survives (s := s.detach k) (i := (s.aliases a).node) (s.pending k)
    (by rw [hcut]; exact hon.2.1)
    (by rw [hcut]; change _ < (s.nodes (s.aliases a).node).references; omega)
  have hk : (s.mountDestroy k).aliases a = s.aliases a := hsu.2 a rfl
  rw [hk]
  refine ⟨ha, ?_⟩
  rw [Live, mountDestroy, hsu.1, hcut]
  simp

end Aliases

end MichCore.Vfs.Tables
