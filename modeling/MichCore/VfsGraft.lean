import MichCore.VfsUnmount

/-!
# Mounting keeps the tables sane

`Grown` says what a half finished mount has added; giving the new nodes up again leaves the old
tables, but for the content of free slots. `Grafted` says that the new nodes form a tree of their
own; activating the mount then gives sane tables.
-/
namespace MichCore.Vfs.Tables

open ParentForest List

variable {s s' : Tables} {held : Fin 64 → ℕ} {tidy : Prop} {k : Fin 8} {slots : List (Fin 64)}

/-- `s'` has the nodes of `slots` beyond `s`, with one reference each, and aliases of them. -/
structure Grown (s : Tables) (slots : List (Fin 64)) (s' : Tables) : Prop where
  new : ∀ i ∈ slots, (s.nodes i).active = false ∧ (s'.nodes i).active = true ∧
    (s'.nodes i).references = 1
  old : ∀ i, i ∉ slots → s'.nodes i = s.nodes i ∨
    ((s.nodes i).active = false ∧ (s'.nodes i).active = false)
  aliases : ∀ a, s'.aliases a = s.aliases a ∨ ((s.aliases a).active = false ∧
    ((s'.aliases a).active = true → (s'.aliases a).node ∈ slots))
  mounts : ∀ m, (s'.mounts m).active = (s.mounts m).active ∧
    (s'.mounts m).root = (s.mounts m).root ∧ (s'.mounts m).mountpoint = (s.mounts m).mountpoint
  files : s'.files = s.files

theorem Grown.refl (s : Tables) : Grown s [] s :=
  ⟨by simp, fun _ _ => .inl rfl, fun _ => .inl rfl, fun _ => ⟨rfl, rfl, rfl⟩, rfl⟩

theorem uses_congr (hm : ∀ m, (s'.mounts m).root = (s.mounts m).root ∧
    (s'.mounts m).mountpoint = (s.mounts m).mountpoint) (hf : s'.files = s.files) (i : Fin 64) :
    s'.uses i = s.uses i := by
  simp only [uses, rootUses, pointUses, hf, (hm _).1, (hm _).2]

theorem Grown.sane (hs : s.Sane tidy held) (h : Grown s [] s') : s'.Sane tidy held := by
  have halik : ∀ i, Alike (s.nodes i) (s'.nodes i) := by
    intro i
    rcases h.old i (by simp) with heq | hf
    · rw [heq]
      exact Alike.refl _
    · exact .inl hf
  have halia : ∀ a, (s'.aliases a).active = true → s'.aliases a = s.aliases a := by
    intro a ha
    rcases h.aliases a with heq | ⟨-, hnew⟩
    · exact heq
    · exact absurd (hnew ha) (by simp)
  have hu := uses_congr (fun m => (h.mounts m).2) h.files
  refine hs.alike halik h.mounts halia ⟨?_, ?_, by rw [h.files]; exact hs.counted.files⟩
  · intro i hi
    rw [hu]
    rcases h.old i (by simp) with heq | ⟨-, hf⟩
    · rw [heq] at hi ⊢
      exact hs.counted.active i hi
    · rw [hf] at hi
      cases hi
  · intro i hi
    rw [hu]
    rcases h.old i (by simp) with heq | ⟨hf, -⟩
    · exact hs.counted.free i (heq ▸ hi)
    · exact hs.counted.free i hf

theorem Grown.release {x : Fin 64} (hs : s.Aliased tidy) (hx : x ∉ slots)
    (h : Grown s (x :: slots) s') : Grown s slots (s'.release x) := by
  obtain ⟨hf, hac, hone⟩ := h.new x (by simp)
  have hr : s'.release x = s'.nodeDestroy x := by
    simp [Tables.release, hac, hone]
  rw [hr]
  refine ⟨?_, ?_, ?_, h.mounts, h.files⟩
  · intro i hi
    have hix : i ≠ x := fun heq => hx (heq ▸ hi)
    rw [nodeDestroy_of_ne hix]
    exact h.new i (mem_cons_of_mem _ hi)
  · intro i hi
    by_cases hix : i = x
    · subst hix
      exact .inr ⟨hf, by simp [cleared]⟩
    · rw [nodeDestroy_of_ne hix]
      exact h.old i (by simp [hix, hi])
  · intro a
    by_cases hd : (s'.aliases a).active ∧ (s'.aliases a).node = x
    · -- An alias of the node is new: the old ones name nodes that were active.
      rcases h.aliases a with heq | ⟨hidle, -⟩
      · rw [heq] at hd
        have := (hs.node a hd.1).1
        rw [hd.2, hf] at this
        cases this
      · exact .inr ⟨hidle, fun hlive => by simp [Tables.nodeDestroy, hd] at hlive⟩
    · have hsa : (s'.nodeDestroy x).aliases a = s'.aliases a := by
        simp only [Tables.nodeDestroy, if_neg hd]
      rw [hsa]
      rcases h.aliases a with heq | ⟨hidle, hnew⟩
      · exact .inl heq
      refine .inr ⟨hidle, fun hlive => ?_⟩
      rcases mem_cons.mp (hnew hlive) with hno | hmem
      · exact absurd ⟨hlive, hno⟩ hd
      · exact hmem

theorem Grown.releaseAll (hs : s.Aliased tidy) (hn : slots.Nodup) (h : Grown s slots s') :
    Grown s [] (s'.releaseAll slots) := by
  induction slots generalizing s' with
  | nil => exact h
  | cons x slots ih =>
    obtain ⟨hx, hr⟩ := nodup_cons.mp hn
    exact ih hr (h.release hs hx)

/-- A node that is being set up: it gets its one reference later. -/
def Plan.Fresh (s : Tables) (plan : Plan) : Prop :=
  plan.node.active = true ∧ (s.nodes plan.slot).active = false

theorem Grown.plant {plan : Plan} (hp : plan.Fresh s) (h : Grown s slots s') :
    Grown s (slots ++ [plan.slot]) (s'.setNode plan.slot { plan.node with references := 1 }) := by
  refine ⟨?_, ?_, ?_, h.mounts, h.files⟩
  · intro i hi
    by_cases hs : i = plan.slot
    · subst hs
      rw [setNode_self]
      exact ⟨hp.2, hp.1, rfl⟩
    · rw [setNode_of_ne hs]
      exact h.new i (by simpa [hs] using hi)
  · intro i hi
    have hs : i ≠ plan.slot := by
      rintro rfl
      simp at hi
    rw [setNode_of_ne hs]
    exact h.old i (fun hmem => hi (mem_append_left _ hmem))
  · intro a
    rcases h.aliases a with heq | ⟨hidle, hnew⟩
    · exact .inl heq
    · exact .inr ⟨hidle, fun hlive => mem_append_left _ (hnew hlive)⟩

theorem Grown.giveUp {plan : Plan} (hp : plan.Fresh s) (hs : plan.slot ∉ slots)
    (h : Grown s slots s') :
    Grown s slots (s'.setNode plan.slot { plan.node with active := false }) := by
  refine ⟨?_, ?_, h.aliases, h.mounts, h.files⟩
  · intro i hi
    have hne : i ≠ plan.slot := fun heq => hs (heq ▸ hi)
    rw [setNode_of_ne hne]
    exact h.new i hi
  · intro i hi
    by_cases hne : i = plan.slot
    · subst hne
      exact .inr ⟨hp.2, by rw [setNode_self]⟩
    · rw [setNode_of_ne hne]
      exact h.old i hi

theorem install_none {plans : List Plan} {spare : ℕ} {after : Tables} (hs : s.Aliased tidy)
    (hpl : ∀ plan ∈ plans, plan.Fresh s) (hnod : (slots ++ plans.map Plan.slot).Nodup)
    (h : Grown s slots s') (hnon : install plans spare slots s' = (none, after)) :
    Grown s [] after := by
  induction plans generalizing slots s' spare with
  | nil => simp [install] at hnon
  | cons plan plans ih =>
    have hf := hpl plan (by simp)
    unfold install at hnon
    split at hnon
    · have hsl : plan.slot ∉ slots := by
        intro hmem
        exact (nodup_append.mp hnod).2.2 _ hmem _ (by simp) rfl
      have hg := h.giveUp hf hsl
      have := hg.releaseAll hs (nodup_append.mp hnod).1
      rw [← (Prod.mk.inj hnon).2]
      exact this
    · exact ih (fun p hp => hpl p (mem_cons_of_mem _ hp)) (by simpa using hnod)
        (h.plant hf) hnon

theorem install_some {plans : List Plan} {spare left : ℕ} {after : Tables}
    (hno : (plans.map Plan.slot).Nodup) (h : install plans spare slots s = (some left, after)) :
    (∀ plan ∈ plans, after.nodes plan.slot = { plan.node with references := 1 }) ∧
      (∀ i, i ∉ plans.map Plan.slot → after.nodes i = s.nodes i) ∧
      after.aliases = s.aliases ∧ after.mounts = s.mounts ∧ after.files = s.files := by
  induction plans generalizing slots s spare with
  | nil =>
    simp only [install, Prod.mk.injEq] at h
    rw [← h.2]
    simp
  | cons plan plans ih =>
    unfold install at h
    split at h
    · simp at h
    obtain ⟨hs, hr⟩ := nodup_cons.mp hno
    obtain ⟨hnew, hold, ha, hm, hf⟩ := ih hr h
    refine ⟨?_, ?_, ha, hm, hf⟩
    · refine forall_mem_cons.mpr ⟨?_, hnew⟩
      rw [hold _ hs, setNode_self]
    · intro i hi
      simp only [map_cons, mem_cons, not_or] at hi
      rw [hold i hi.2, setNode_of_ne hi.1]

/-- The new nodes form a tree below `root`, on the mount `k`. -/
structure Grafted (s : Tables) (k : Fin 8) (root : Fin 64) (slots : List (Fin 64))
    (s' : Tables) : Prop where
  nodup : slots.Nodup
  new : ∀ i ∈ slots, (s.nodes i).active = false ∧ s'.Live i ∧ (s'.nodes i).references = 1
  mount : ∀ i ∈ slots, (s'.nodes i).mount = some k
  filesystem : ∀ i ∈ slots, (s'.nodes i).filesystem ≠ .ramfs ∧ (s'.nodes i).filesystem ≠ .none ∧
    ((s'.nodes i).filesystem = .bootfs → (s'.nodes i).readonly = true)
  top : root ∈ slots ∧ (s'.nodes root).type = .directory ∧ (s'.nodes root).parent = none
  parent : ∀ i ∈ slots, i ≠ root → ∃ q ∈ slots, (s'.nodes i).parent = some q ∧
    (s'.nodes q).type = .directory
  rooted : ∀ i ∈ slots, Rooted s'.up i
  old : ∀ i, i ∉ slots → s'.nodes i = s.nodes i
  aliases : ∀ a, s'.aliases a = s.aliases a ∨ ((s.aliases a).active = false ∧
    (s'.aliases a).node ∈ slots ∧ (s'.nodes (s'.aliases a).node).type = .regular ∧
    (s'.aliases a).parent ∈ slots ∧ (s'.nodes (s'.aliases a).parent).type = .directory)
  mounts : s'.mounts = s.mounts
  files : s'.files = s.files

namespace Grafted

variable {root : Fin 64} (h : Grafted s k root slots s')
include h

theorem grown : Grown s slots s' where
  new := fun i hi => ⟨(h.new i hi).1, (h.new i hi).2.1.1, (h.new i hi).2.2⟩
  old := fun i hi => .inl (h.old i hi)
  aliases := by
    intro a
    rcases h.aliases a with heq | ⟨hidle, hn, -⟩
    · exact .inl heq
    · exact .inr ⟨hidle, fun _ => hn⟩
  mounts := by
    intro m
    rw [h.mounts]
    exact ⟨rfl, rfl, rfl⟩
  files := h.files

variable {i : Fin 64}

theorem not_mem_of_active (hi : (s.nodes i).active = true) : i ∉ slots := by
  intro hmem
  rw [(h.new i hmem).1] at hi
  cases hi

theorem live_iff : s'.Live i ↔ s.Live i ∨ i ∈ slots := by
  by_cases hi : i ∈ slots
  · simp [hi, (h.new i hi).2.1]
  · simp [hi, Live, h.old i hi]

theorem keeps_directory (hi : s.IsDirectory i) : s'.IsDirectory i := by
  refine ⟨h.live_iff.mpr (.inl hi.1), ?_⟩
  rw [h.old i (h.not_mem_of_active hi.1.1)]
  exact hi.2

theorem rooted_all (hs : s.Trees) (i : Fin 64) : Rooted s'.up i := by
  by_cases hi : i ∈ slots
  · exact h.rooted i hi
  apply Rooted.congr (P := fun j => j ∉ slots) _ _ hi (hs.rooted i)
  · intro j hj
    by_cases hlive : s.Live j
    · rw [up_of_live hlive, up_of_live (h.live_iff.mpr (.inl hlive)), h.old j hj]
    have hl' : ¬ s'.Live j := by
      rw [h.live_iff]
      simp [hlive, hj]
    rw [up_of_not_live hlive, up_of_not_live hl']
  · intro j p hj hp
    by_cases hlive : s.Live j
    · rw [up_of_live hlive] at hp
      exact h.not_mem_of_active (hs.parent j p hlive hp).1.1.1
    · rw [up_of_not_live hlive] at hp
      cases hp

end Grafted

/-- The mount entry that goes with the graft. -/
def grafting (s : Tables) (k : Fin 8) (root d : Fin 64) (filesystem : Filesystem) : Tables :=
  s.setMount k ⟨true, some root, some d, (s.mounts k).generation, filesystem⟩

section Grafting

variable {root d : Fin 64} {filesystem : Filesystem}

theorem grafting_self :
    (s.grafting k root d filesystem).mounts k =
      ⟨true, some root, some d, (s.mounts k).generation, filesystem⟩ := by
  simp [grafting, setMount]

@[simp] theorem grafting_nodes : (s.grafting k root d filesystem).nodes = s.nodes := rfl

theorem grafting_of_ne {m : Fin 8} (h : m ≠ k) :
    (s.grafting k root d filesystem).mounts m = s.mounts m := Function.update_of_ne h _ _

variable (hs : s.Sane tidy held) (h : Grafted s k root slots s')
include hs h

variable (hk : k ≠ 0) (hidle : (s.mounts k).active = false)

include hk hidle in
theorem grafting_trees : (s'.grafting k root d filesystem).Trees := by
  have h0 : (0 : Fin 64) ∉ slots := h.not_mem_of_active hs.trees.root.1.1.1
  refine ⟨⟨h.keeps_directory hs.trees.root.1, ?_, ?_⟩, ?_, ?_, h.rooted_all hs.trees⟩
  · change (s'.nodes 0).parent = none
    rw [h.old 0 h0]
    exact hs.trees.root.2.1
  · change (s'.nodes 0).mount = some 0
    rw [h.old 0 h0]
    exact hs.trees.root.2.2
  · intro i p hi hp
    change (s'.nodes i).parent = some p at hp
    change s'.IsDirectory p ∧ (s'.nodes p).mount = (s'.nodes i).mount
    by_cases hmem : i ∈ slots
    · have hne : i ≠ root := by
        rintro rfl
        rw [h.top.2.2] at hp
        cases hp
      obtain ⟨q, hq, hpa, ht⟩ := h.parent i hmem hne
      rw [hpa] at hp
      cases hp
      exact ⟨⟨(h.new p hq).2.1, ht⟩, by rw [h.mount p hq, h.mount i hmem]⟩
    · have hlive : s.Live i := (h.live_iff.mp hi).resolve_right hmem
      rw [h.old i hmem] at hp ⊢
      obtain ⟨hdir, hmo⟩ := hs.trees.parent i p hlive hp
      exact ⟨h.keeps_directory hdir, by rw [h.old p (h.not_mem_of_active hdir.1.1), hmo]⟩
  · intro i hi hp
    change (s'.nodes i).parent = none at hp
    by_cases hmem : i ∈ slots
    · have hr : i = root := by
        by_contra hne
        obtain ⟨q, -, hpa, -⟩ := h.parent i hmem hne
        rw [hpa] at hp
        cases hp
      exact .inr ⟨k, hk, by rw [grafting_self, hr]⟩
    · have hlive : s.Live i := (h.live_iff.mp hi).resolve_right hmem
      rw [h.old i hmem] at hp
      rcases hs.trees.top i hlive hp with hz | ⟨m, hm, hr⟩
      · exact .inl hz
      have hmk : m ≠ k := by
        rintro rfl
        rw [(hs.mounted.idle m hidle).1] at hr
        cases hr
      exact .inr ⟨m, hm, by rw [grafting_of_ne hmk, h.mounts, hr]⟩

omit hs in
theorem grafting_attached {m : Fin 8} {r p : Fin 64} (hm : m ≠ k) (ha : s.Attached m r p) :
    (s'.grafting k root d filesystem).Attached m r p := by
  have hr := h.not_mem_of_active ha.directory.1.1
  have hp := h.not_mem_of_active ha.covered.1
  exact ⟨by rw [grafting_of_ne hm, h.mounts, ha.root],
    by rw [grafting_of_ne hm, h.mounts, ha.point],
    h.keeps_directory ha.directory, by rw [grafting_nodes, h.old r hr, ha.top],
    by rw [grafting_nodes, h.old r hr, ha.mount],
    by rw [grafting_nodes, h.old p hp]; exact ha.covered⟩

include hk hidle in
theorem grafting_mounted (hd : s.IsDirectory d) : (s'.grafting k root d filesystem).Mounted := by
  refine ⟨?_, ?_, ?_, ?_⟩
  · rw [grafting_of_ne hk.symm, h.mounts]
    exact hs.mounted.zero
  · intro m hm
    have hmk : m ≠ k := by
      rintro rfl
      simp [grafting_self] at hm
    rw [grafting_of_ne hmk, h.mounts] at hm ⊢
    exact hs.mounted.idle m hm
  · intro m hm hac
    by_cases hmk : m = k
    · subst hmk
      have hdm := h.not_mem_of_active hd.1.1
      exact ⟨root, d, by rw [grafting_self], by rw [grafting_self],
        ⟨(h.new root h.top.1).2.1, h.top.2.1⟩, h.top.2.2, h.mount root h.top.1,
        by rw [grafting_nodes, h.old d hdm]; exact ⟨hd.1.1, hd.2⟩⟩
    · rw [grafting_of_ne hmk, h.mounts] at hac
      obtain ⟨r, p, ha⟩ := hs.mounted.busy m hm hac
      exact ⟨r, p, grafting_attached h hmk ha⟩
  · intro i hi
    change Owned _ (s'.nodes i)
    by_cases hmem : i ∈ slots
    · obtain ⟨hram, hn, hb⟩ := h.filesystem i hmem
      exact ⟨k, h.mount i hmem, by rw [grafting_self], by simp [hram, hk], hn, hb⟩
    have hlive : s.Live i := (h.live_iff.mp hi).resolve_right hmem
    obtain ⟨m, hmo, hac, hre⟩ := hs.mounted.owned i hlive
    have hmk : m ≠ k := by
      rintro rfl
      rw [hidle] at hac
      cases hac
    rw [h.old i hmem]
    exact ⟨m, hmo, by rw [grafting_of_ne hmk, h.mounts, hac], hre⟩

theorem grafting_aliased : (s'.grafting k root d filesystem).Aliased tidy := by
  refine ⟨?_, ?_, ?_⟩
  · intro a ha
    change (s'.aliases a).active = true at ha
    change (s'.nodes (s'.aliases a).node).active = true ∧ (s'.nodes (s'.aliases a).node).type = _
    rcases h.aliases a with heq | ⟨-, hn, hty, -, -⟩
    · rw [heq] at ha ⊢
      obtain ⟨hac, hty⟩ := hs.aliased.node a ha
      rw [h.old _ (h.not_mem_of_active hac)]
      exact ⟨hac, hty⟩
    · exact ⟨(h.new _ hn).2.1.1, hty⟩
  · intro a ha hlive
    change (s'.aliases a).active = true at ha
    change s'.Live (s'.aliases a).node at hlive
    change s'.IsDirectory (s'.aliases a).parent ∧
      (s'.nodes (s'.aliases a).parent).mount = (s'.nodes (s'.aliases a).node).mount
    rcases h.aliases a with heq | ⟨-, hn, -, hp, hty⟩
    · rw [heq] at ha hlive ⊢
      have hmem := h.not_mem_of_active (hs.aliased.node a ha).1
      obtain ⟨hdir, hmo⟩ := hs.aliased.parent a ha ((h.live_iff.mp hlive).resolve_right hmem)
      exact ⟨h.keeps_directory hdir,
        by rw [h.old _ hmem, h.old _ (h.not_mem_of_active hdir.1.1), hmo]⟩
    · exact ⟨⟨(h.new _ hp).2.1, hty⟩, by rw [h.mount _ hp, h.mount _ hn]⟩
  · intro hti a ha
    change (s'.aliases a).active = true at ha
    change s'.Live (s'.aliases a).node
    rcases h.aliases a with heq | ⟨-, hn, -⟩
    · rw [heq] at ha ⊢
      exact h.live_iff.mpr (.inl (hs.aliased.live hti a ha))
    · exact (h.new _ hn).2.1

include hidle in
theorem grafting_uses (i : Fin 64) : (s'.grafting k root d filesystem).uses i =
    s.uses i + (if root = i then 1 else 0) + (if d = i then 1 else 0) := by
  obtain ⟨hnor, hnop⟩ := hs.mounted.idle k hidle
  have hr : rootUses (Function.update s'.mounts k _) i +
      (if (s'.mounts k).root = some i then 1 else 0) = rootUses s'.mounts i + _ :=
    card_update s'.mounts k ⟨true, some root, some d, (s'.mounts k).generation, filesystem⟩
      (fun m => m.root = some i)
  have hp : pointUses (Function.update s'.mounts k _) i +
      (if (s'.mounts k).mountpoint = some i then 1 else 0) = pointUses s'.mounts i + _ :=
    card_update s'.mounts k ⟨true, some root, some d, (s'.mounts k).generation, filesystem⟩
      (fun m => m.mountpoint = some i)
  rw [h.mounts] at hr hp
  simp only [hnor, hnop, Option.some.injEq, reduceCtorEq, if_false] at hr hp
  simp only [uses, grafting, setMount, h.mounts, h.files]
  omega

include hk hidle in
theorem Sane.graft (hd : s.IsDirectory d) {s₁ s₂ : Tables} (h₁ : s'.retain root = some s₁)
    (h₂ : s₁.retain d = some s₂) :
    (s₂.grafting k root d filesystem).Sane tidy held := by
  obtain ⟨-, -, rfl⟩ := retain_some h₁
  obtain ⟨-, -, rfl⟩ := retain_some h₂
  have hdr : d ≠ root := by
    rintro rfl
    exact h.not_mem_of_active hd.1.1 h.top.1
  have hdm := h.not_mem_of_active hd.1.1
  set t := Tables.grafting _ k root d filesystem with ht
  have hro : t.nodes root = { s'.nodes root with references := 2 } := by
    change ((s'.setNode root _).setNode d _).nodes root = _
    rw [setNode_of_ne hdr.symm, setNode_self, (h.new root h.top.1).2.2]
  have hp : t.nodes d = { s.nodes d with references := (s.nodes d).references + 1 } := by
    change ((s'.setNode root _).setNode d _).nodes d = _
    rw [setNode_self, setNode_of_ne hdr, h.old d hdm]
  have hre : ∀ i, i ≠ root → i ≠ d → t.nodes i = s'.nodes i := by
    intro i hir hid
    change ((s'.setNode root _).setNode d _).nodes i = _
    rw [setNode_of_ne hid, setNode_of_ne hir]
  have hal : ∀ i, Alike ((s'.grafting k root d filesystem).nodes i) (t.nodes i) := by
    intro i
    change Alike (s'.nodes i) (t.nodes i)
    by_cases hir : i = root
    · subst hir
      rw [hro]
      exact .inr ⟨rfl, rfl, rfl, rfl, rfl, rfl, rfl⟩
    by_cases hid : i = d
    · subst hid
      rw [hp, h.old i hdm]
      exact .inr ⟨rfl, rfl, rfl, rfl, rfl, rfl, rfl⟩
    · rw [hre i hir hid]
      exact Alike.refl _
  have hu : ∀ i, t.uses i =
      s.uses i + (if root = i then 1 else 0) + (if d = i then 1 else 0) := by
    intro i
    rw [← grafting_uses hs h hidle i]
    rfl
  refine ⟨(grafting_trees hs h hk hidle).alike hal fun _ => rfl,
    (grafting_mounted hs h hk hidle hd).alike hal fun _ => ⟨rfl, rfl, rfl⟩,
    (grafting_aliased hs h).alike hal fun _ _ => rfl, ?_, ?_, ?_⟩
  · intro i hi
    rw [hu]
    by_cases hir : i = root
    · subst hir
      obtain ⟨hh, hz⟩ := hs.counted.free i (h.new i h.top.1).1
      have hlin := (h.new i h.top.1).2.1.2
      rw [hro]
      simp [linkReferences, hlin, hh, hz, hdr]
    · by_cases hid : i = d
      · subst hid
        obtain ⟨hcount, -⟩ := hs.counted.active i hd.1.1
        rw [hp]
        simp only [linkReferences] at hcount ⊢
        simp only [hcount, if_neg (Ne.symm hir), if_true]
        omega
      · rw [hre i hir hid] at hi ⊢
        rw [if_neg (Ne.symm hir), if_neg (Ne.symm hid)]
        by_cases hmem : i ∈ slots
        · obtain ⟨hfr, hlive, hone⟩ := h.new i hmem
          obtain ⟨hh, hz⟩ := hs.counted.free i hfr
          simp [linkReferences, hlive.2, hone, hh, hz]
        · rw [h.old i hmem] at hi ⊢
          exact hs.counted.active i hi
  · intro i hi
    have hir : i ≠ root := by
      rintro rfl
      rw [hro] at hi
      change (s'.nodes i).active = false at hi
      rw [(h.new i h.top.1).2.1.1] at hi
      cases hi
    have hid : i ≠ d := by
      rintro rfl
      rw [hp] at hi
      change (s.nodes i).active = false at hi
      rw [hd.1.1] at hi
      cases hi
    rw [hre i hir hid] at hi
    have hmem : i ∉ slots := by
      intro hmem
      rw [(h.new i hmem).2.1.1] at hi
      cases hi
    rw [h.old i hmem] at hi
    rw [hu, if_neg (Ne.symm hir), if_neg (Ne.symm hid)]
    exact hs.counted.free i hi
  · intro f hf
    change (s'.files f).active = false at hf
    change (s'.files f).node = none
    rw [h.files] at hf ⊢
    exact hs.counted.files f hf

end Grafting

end MichCore.Vfs.Tables
