import MichCore.VfsGraft

/-!
# The two mount calls

Both calls fill free slots with a tree of their own and then attach it. The checks of
`vfs_mount_adytumfs` are what makes it a tree: parents are directories, and every climb ends at
inode 0.
-/
namespace MichCore.Vfs.Tables

open ParentForest List

variable {s s' : Tables} {held : Fin 64 → ℕ} {tidy : Prop} {k : Fin 8} {slots : List (Fin 64)}

theorem release_setMount {m : Mount} {i : Fin 64} :
    (s.setMount k m).release i = (s.release i).setMount k m := by
  unfold release
  by_cases h : (s.nodes i).active = false ∨ (s.nodes i).references = 0
  · rw [if_pos h, if_pos (by exact h)]
  rw [if_neg h, if_neg (by exact h)]
  by_cases h1 : (s.nodes i).references = 1
  · rw [if_pos h1, if_pos (by exact h1)]
    rfl
  · rw [if_neg h1, if_neg (by exact h1)]
    rfl

theorem Grown.setMount {generation : UInt32} {filesystem : Filesystem} (hs : s.Mounted)
    (hidle : (s.mounts k).active = false) (h : Grown s slots s') :
    Grown s slots (s'.setMount k ⟨false, none, none, generation, filesystem⟩) := by
  refine ⟨h.new, h.old, h.aliases, ?_, h.files⟩
  intro m
  by_cases hmk : m = k
  · subst hmk
    simp [Tables.setMount, hidle, hs.idle m hidle]
  · simp only [Tables.setMount, Function.update_of_ne hmk]
    exact h.mounts m

/-- The outcome of a mount call: the old tables but for the content of free slots, or a
tree of its own attached to a directory. -/
inductive MountOutcome (s : Tables) : Bool × Tables → Prop where
  | failed {s' : Tables} (h : Grown s [] s') : MountOutcome s (false, s')
  | mounted {s₁ s₂ s₃ : Tables} {k : Fin 8} {root d : Fin 64} {filesystem : Filesystem}
      {slots : List (Fin 64)} (graft : Grafted s k root slots s₁) (slot : k ≠ 0)
      (idle : (s.mounts k).active = false) (directory : s.IsDirectory d)
      (retainRoot : s₁.retain root = some s₂) (retainPoint : s₂.retain d = some s₃) :
      MountOutcome s (true, s₃.grafting k root d filesystem)

theorem MountOutcome.refused (s : Tables) : MountOutcome s (false, s) := .failed (Grown.refl s)

theorem MountOutcome.sane {out : Bool × Tables} (hs : s.Sane tidy held)
    (h : MountOutcome s out) : out.2.Sane tidy held := by
  cases h with
  | failed h => exact h.sane hs
  | mounted graft slot idle directory retainRoot retainPoint =>
    exact hs.graft graft slot idle directory retainRoot retainPoint

variable {root : Fin 64} {entries : List BootEntry}

theorem finishMount_outcome {d : Fin 64} {filesystem : Filesystem} {spare : ℕ}
    (hs : s.Sane tidy held) (h : Grafted s k root slots s') (hk : k ≠ 0)
    (hidle : (s.mounts k).active = false) (hd : s.IsDirectory d) :
    MountOutcome s (s'.finishMount k root d filesystem slots spare) := by
  obtain ⟨-, hlive, hone⟩ := h.new root h.top.1
  have hok : ¬ ((s'.nodes root).active = false ∨ (s'.nodes root).references = 0 ∨
      (s'.nodes root).references = 0xFFFFFFFF) := by
    simp [hlive.1, hone]
  have hr : s'.retain root = some (s'.setNode root { s'.nodes root with
      references := (s'.nodes root).references + 1 }) := if_neg hok
  unfold Tables.finishMount
  rw [hr]
  simp only
  have hb := retain_release hr
  have htwo : ((s'.setNode root { s'.nodes root with
      references := (s'.nodes root).references + 1 }).nodes root).references = 2 := by
    rw [setNode_self, hone]
  generalize hs₁ : s'.setNode root { s'.nodes root with
    references := (s'.nodes root).references + 1 } = s₁ at hr hb htwo ⊢
  cases hp : s₁.retain d with
  | none =>
    simp only
    rw [if_pos (by omega), hb]
    exact .failed (h.grown.releaseAll hs.aliased h.nodup)
  | some s₂ =>
    simp only
    split
    · simp only [release_setMount, retain_release hp, hb]
      exact .failed ((h.grown.setMount hs.mounted hidle).releaseAll hs.aliased h.nodup)
    · exact .mounted h hk hidle hd hr hp

theorem freeMount_some (h : s.freeMount = some k) : k ≠ 0 ∧ (s.mounts k).active = false :=
  SlotTable.find_some h

theorem freeNodes_nodup : s.freeNodes.Nodup := (nodup_finRange 64).filter _

theorem freeNodes_free {i : Fin 64} (h : i ∈ s.freeNodes) : (s.nodes i).active = false := by
  have := (mem_filter.mp h).2
  simp only [ne_eq, decide_eq_true_eq] at this
  exact this.2

theorem bootPlans_slots (s : Tables) (k : Fin 8) (name : Name) (root : Fin 64)
    (hl : slots.length = entries.length) :
    (s.bootPlans k name root slots entries).map Plan.slot = root :: slots := by
  simp only [bootPlans, map_cons, map_map]
  congr 1
  change (slots.zip entries).map Prod.fst = slots
  exact map_fst_zip (by omega)

theorem bootPlans_node {name : Name} {plan : Plan}
    (h : plan ∈ s.bootPlans k name root slots entries) :
    ∃ parent name size, plan.node = s.bootNode k plan.slot parent name size ∧
      (parent = none ∧ plan.slot = root ∨ parent = some root ∧ plan.slot ∈ slots) := by
  rcases mem_cons.mp h with rfl | h
  · exact ⟨none, name, 0, rfl, .inl ⟨rfl, rfl⟩⟩
  · obtain ⟨pair, hp, rfl⟩ := mem_map.mp h
    exact ⟨some root, pair.2.name, pair.2.size, rfl, .inr ⟨rfl, (of_mem_zip hp).1⟩⟩

variable {spare left : ℕ}

theorem boot_grafted {name : Name} (hle : slots.length = entries.length)
    (hnodu : (root :: slots).Nodup) (hfr : ∀ i ∈ root :: slots, (s.nodes i).active = false)
    (h : install (s.bootPlans k name root slots entries) spare [] s = (some left, s')) :
    Grafted s k root (root :: slots) s' := by
  have hs := bootPlans_slots s k name root hle
  obtain ⟨hnew, hold, hal, hmo, hfi⟩ := install_some (hs ▸ hnodu) h
  rw [hs] at hold
  have hnode : ∀ i ∈ root :: slots, ∃ parent name size,
      s'.nodes i = { s.bootNode k i parent name size with references := 1 } ∧
        (parent = none ∧ i = root ∨ parent = some root ∧ i ∈ slots) := by
    intro i hi
    rw [← hs] at hi
    obtain ⟨plan, hpl, rfl⟩ := mem_map.mp hi
    obtain ⟨parent, name, size, hnode, hc⟩ := bootPlans_node hpl
    exact ⟨parent, name, size, by rw [hnew plan hpl, hnode], hc⟩
  have hr : (s'.nodes root).type = .directory ∧ (s'.nodes root).parent = none := by
    obtain ⟨parent, name, size, heq, ⟨rfl, -⟩ | ⟨-, hmem⟩⟩ := hnode root (by simp)
    · rw [heq]
      exact ⟨rfl, rfl⟩
    · exact absurd hmem (nodup_cons.mp hnodu).1
  have hlive : ∀ i ∈ root :: slots, s'.Live i := by
    intro i hi
    obtain ⟨parent, name, size, heq, -⟩ := hnode i hi
    simp [Live, heq, bootNode]
  have hpa : ∀ i ∈ root :: slots, i ≠ root → (s'.nodes i).parent = some root := by
    intro i hi hne
    obtain ⟨parent, name, size, heq, ⟨-, hr⟩ | ⟨rfl, -⟩⟩ := hnode i hi
    · exact absurd hr hne
    · rw [heq]
      rfl
  constructor
  case nodup => exact hnodu
  case new =>
    intro i hi
    obtain ⟨parent, name, size, heq, -⟩ := hnode i hi
    exact ⟨hfr i hi, hlive i hi, by rw [heq]⟩
  case mount =>
    intro i hi
    obtain ⟨parent, name, size, heq, -⟩ := hnode i hi
    rw [heq]
    rfl
  case filesystem =>
    intro i hi
    obtain ⟨parent, name, size, heq, -⟩ := hnode i hi
    rw [heq]
    simp [bootNode]
  case top => exact ⟨by simp, hr⟩
  case parent => exact fun i hi hne => ⟨root, by simp, hpa i hi hne, hr.1⟩
  case rooted =>
    have htop : Rooted s'.up root := .root (by rw [up_of_live (hlive root (by simp)), hr.2])
    intro i hi
    by_cases hne : i = root
    · rw [hne]
      exact htop
    · exact .step (by rw [up_of_live (hlive i hi), hpa i hi hne]) htop
  case old => exact hold
  case aliases => exact fun a => .inl (by rw [hal])
  case mounts => exact hmo
  case files => exact hfi

theorem freeNodes_take {n : ℕ} {slots : List (Fin 64)} (h : s.freeNodes.take n = slots) :
    slots.Nodup ∧ ∀ i ∈ slots, (s.nodes i).active = false := by
  subst h
  exact ⟨freeNodes_nodup.sublist (take_sublist _ _), fun i hi =>
    freeNodes_free (mem_of_mem_take hi)⟩

theorem mountBootfs_outcome (hs : s.Sane tidy held) (directory : Option (Fin 64))
    (entries : List BootEntry) (spare : ℕ) :
    MountOutcome s (s.mountBootfs directory entries spare) := by
  unfold Tables.mountBootfs
  cases hd : s.nodeFor directory with
  | none => exact .refused s
  | some d =>
    obtain ⟨-, hac⟩ := nodeFor_some hd
    simp only
    split
    · exact .refused s
    next hbad =>
    push Not at hbad
    have hdir : s.IsDirectory d := ⟨⟨hac, by simpa using hbad.2.1⟩, hbad.1⟩
    cases hk : s.freeMount with
    | none => exact .refused s
    | some k =>
      obtain ⟨hk0, hidle⟩ := freeMount_some hk
      cases hsl : s.freeNodes.take (entries.length + 1) with
      | nil => exact .refused s
      | cons root slots =>
        simp only
        split
        · exact .refused s
        next hl =>
        push Not at hl
        obtain ⟨hnodu, hf⟩ := freeNodes_take hsl
        cases hin : install (s.bootPlans k (s.nodes d).name root slots entries) spare [] s with
        | mk left after =>
          cases left with
          | none =>
            refine .failed (install_none hs.aliased ?_ ?_ (Grown.refl s) hin)
            · intro plan hp
              obtain ⟨parent, name, size, hnode, -⟩ := bootPlans_node hp
              refine ⟨by rw [hnode]; rfl, hf _ ?_⟩
              rw [← bootPlans_slots s k _ root hl]
              exact mem_map_of_mem hp
            · rw [nil_append, bootPlans_slots s k _ root hl]
              exact hnodu
          | some left =>
            exact finishMount_outcome hs (boot_grafted hl hnodu hf hin) hk0 hidle hdir

section Volume

variable {v : VolumeReport}

theorem mem_usedInodes {n : Fin 16} : n ∈ v.usedInodes ↔ (v.at n).used = true := by
  simp [VolumeReport.usedInodes]

theorem usedInodes_nodup : v.usedInodes.Nodup := (nodup_finRange 16).filter _

theorem map_slotOf (hle : slots.length = v.usedInodes.length) :
    v.usedInodes.map (fun n : Fin 16 => v.slotOf slots n) = slots := by
  apply ext_getElem
  · simp [hle]
  · intro j hj hj'
    have hv : (v.usedInodes.map Fin.val).Nodup := usedInodes_nodup.map Fin.val_injective
    have hlt : j < (v.usedInodes.map Fin.val).length := by simpa using hj
    have hidx := hv.idxOf_getElem j hlt
    rw [getElem_map] at hidx
    simp [VolumeReport.slotOf, hidx, hj']

theorem slotOf_mem (hl : slots.length = v.usedInodes.length) {n : Fin 16}
    (hn : (v.at n).used = true) : v.slotOf slots n ∈ slots := by
  have hmem : v.slotOf slots n ∈ v.usedInodes.map (fun n : Fin 16 => v.slotOf slots n) :=
    mem_map_of_mem (mem_usedInodes.mpr hn)
  rw [map_slotOf hl] at hmem
  exact hmem

theorem volumePlans_slots (s : Tables) (k : Fin 8) (name : Name)
    (hl : slots.length = v.usedInodes.length) :
    (s.volumePlans k v slots name).map Plan.slot = slots := by
  simp only [volumePlans, map_map]
  exact map_slotOf hl

/-- What the installed nodes of a volume hold. -/
structure Volumes (s : Tables) (k : Fin 8) (v : VolumeReport) (slots : List (Fin 64))
    (name : Name) (s' : Tables) : Prop where
  length : slots.length = v.usedInodes.length
  nodes : ∀ n : Fin 16, (v.at n).used = true →
    s'.nodes (v.slotOf slots n) = { s.volumeNode k v slots name n with references := 1 }
  slots : ∀ i ∈ slots, ∃ n : Fin 16, (v.at n).used = true ∧ i = v.slotOf slots n

variable {name : Name}

theorem volume_installed (hl : slots.length = v.usedInodes.length) (hno : slots.Nodup)
    (h : install (s.volumePlans k v slots name) spare [] s = (some left, s')) :
    Volumes s k v slots name s' ∧ (∀ i, i ∉ slots → s'.nodes i = s.nodes i) ∧
      s'.aliases = s.aliases ∧ s'.mounts = s.mounts ∧ s'.files = s.files := by
  have hs := volumePlans_slots s k name hl
  obtain ⟨hnew, hold, hr⟩ := install_some (hs.symm ▸ hno) h
  rw [hs] at hold
  refine ⟨⟨hl, ?_, ?_⟩, hold, hr⟩
  · intro n hn
    exact hnew _ (mem_map_of_mem (mem_usedInodes.mpr hn))
  · intro i hi
    rw [← map_slotOf hl] at hi
    obtain ⟨n, hn, rfl⟩ := mem_map.mp hi
    exact ⟨n, mem_usedInodes.mp hn, rfl⟩

namespace Volumes

variable {name : Name} (h : Volumes s k v slots name s')
include h

variable {n : Fin 16}

theorem live (hn : (v.at n).used = true) : s'.Live (v.slotOf slots n) := by
  simp [Live, h.nodes n hn, volumeNode]

theorem type {n : ℕ} (hlt : n < 16) (hn : (v.at n).used = true) :
    (s'.nodes (v.slotOf slots n)).type = (v.at n).type := by
  have := h.nodes ⟨n, hlt⟩ hn
  rw [show v.slotOf slots n = v.slotOf slots (⟨n, hlt⟩ : Fin 16) from rfl, this]
  rfl

theorem parent_zero (hn : (v.at 0).used = true) : (s'.nodes (v.slotOf slots 0)).parent = none := by
  have := h.nodes 0 hn
  rw [show v.slotOf slots 0 = v.slotOf slots (0 : Fin 16) from rfl, this]
  rfl

theorem parent_ne (hne : n ≠ 0) (hn : (v.at n).used = true) :
    (s'.nodes (v.slotOf slots n)).parent = some (v.slotOf slots (v.at n).parent) := by
  rw [h.nodes n hn]
  simp [volumeNode, hne]

theorem rooted (fuel : ℕ) (hn : (v.at n).used = true) (hrea : v.reachesRoot fuel n = true) :
    Rooted s'.up (v.slotOf slots n) := by
  induction fuel generalizing n with
  | zero => simp [VolumeReport.reachesRoot] at hrea
  | succ fuel ih =>
    by_cases hz : n = 0
    · subst hz
      exact .root (by rw [up_of_live (h.live hn)]; exact h.parent_zero hn)
    have hval : (n : ℕ) ≠ 0 := by
      intro hval
      exact hz (Fin.ext hval)
    simp only [VolumeReport.reachesRoot, hval, decide_false, Bool.false_or, Bool.and_eq_true,
      decide_eq_true_eq] at hrea
    obtain ⟨⟨hus, hlt⟩, hres⟩ := hrea
    have hup : s'.up (v.slotOf slots n) =
        some (v.slotOf slots (⟨(v.at n).parent, hlt⟩ : Fin 16)) := by
      rw [up_of_live (h.live hn), h.parent_ne hz hn]
    exact .step hup (ih hus hres)

end Volumes

theorem volume_grafted (hok : v.InodesOk) (hle : slots.length = v.usedInodes.length)
    (hno : slots.Nodup) (hfr : ∀ i ∈ slots, (s.nodes i).active = false)
    (h : install (s.volumePlans k v slots name) spare [] s = (some left, s')) :
    Grafted s k (v.slotOf slots 0) slots s' := by
  obtain ⟨hvol, hold, hal, hm, hfi⟩ := volume_installed hle hno h
  obtain ⟨-, hin, hu, hdir, -, hc⟩ := hok
  constructor
  case nodup => exact hno
  case new =>
    intro i hi
    obtain ⟨n, hn, rfl⟩ := hvol.slots i hi
    exact ⟨hfr _ hi, hvol.live hn, by rw [hvol.nodes n hn]⟩
  case mount =>
    intro i hi
    obtain ⟨n, hn, rfl⟩ := hvol.slots i hi
    rw [hvol.nodes n hn]
    rfl
  case filesystem =>
    intro i hi
    obtain ⟨n, hn, rfl⟩ := hvol.slots i hi
    rw [hvol.nodes n hn]
    simp [volumeNode]
  case top =>
    have hz : (v.at (0 : Fin 16)).used = true := hu
    exact ⟨slotOf_mem hle hz, by rw [hvol.type (by omega) hu, hdir],
      hvol.parent_zero hu⟩
  case parent =>
    intro i hi hne
    obtain ⟨n, hn, rfl⟩ := hvol.slots i hi
    have hn0 : n ≠ 0 := by
      rintro rfl
      exact hne rfl
    have hlt := ((hin n hn).2 hn0).2.2
    obtain ⟨hpu, hpd, -⟩ := hc n hn0 hn
    exact ⟨_, slotOf_mem (n := ⟨(v.at n).parent, hlt⟩) hle hpu, hvol.parent_ne hn0 hn,
      by rw [hvol.type hlt hpu, hpd]⟩
  case rooted =>
    intro i hi
    obtain ⟨n, hn, rfl⟩ := hvol.slots i hi
    by_cases hn0 : n = 0
    · subst hn0
      exact hvol.rooted 1 hn (by simp [VolumeReport.reachesRoot])
    · exact hvol.rooted 16 hn (hc n hn0 hn).2.2
  case old => exact hold
  case aliases => exact fun a => .inl (by rw [hal])
  case mounts => exact hm
  case files => exact hfi

theorem Grafted.placeAlias {root : Fin 64} (v : VolumeReport) (report : AliasReport)
    (hn : v.slotOf slots report.inode ∈ slots)
    (hr : (s'.nodes (v.slotOf slots report.inode)).type = .regular)
    (hp : v.slotOf slots report.parent ∈ slots)
    (hd : (s'.nodes (v.slotOf slots report.parent)).type = .directory)
    (h : Grafted s k root slots s') : Grafted s k root slots (placeAlias v slots s' report) := by
  unfold Tables.placeAlias
  cases hfi : (List.finRange 16).find? (fun a => (s'.aliases a).active = false) with
  | none => exact h
  | some a =>
    have hidle : (s'.aliases a).active = false := SlotTable.find_some hfi
    refine ⟨h.nodup, h.new, h.mount, h.filesystem, h.top, h.parent, h.rooted, h.old, ?_, h.mounts,
      h.files⟩
    intro b
    by_cases hb : b = a
    · subst hb
      have hold : (s.aliases b).active = false := by
        rcases h.aliases b with heq | ⟨hfr, -⟩
        · rw [← heq]
          exact hidle
        · exact hfr
      simp only [setAlias_self, setAlias_nodes]
      exact .inr ⟨hold, hn, hr, hp, hd⟩
    · rw [setAlias_of_ne hb]
      exact h.aliases b

theorem placeAlias_nodes {report : AliasReport} :
    (placeAlias v slots s' report).nodes = s'.nodes := by
  unfold Tables.placeAlias
  split
  · rfl
  · rfl

theorem Grafted.placeAliases {root : Fin 64} {reports : List AliasReport}
    (hvol : Volumes s k v slots name s')
    (hok : ∀ a ∈ reports, a.inode < 16 ∧ a.parent < 16 ∧ (v.at a.inode).used ∧
      (v.at a.parent).used ∧ (v.at a.inode).type = .regular ∧ (v.at a.parent).type = .directory)
    (h : Grafted s k root slots s') :
    Grafted s k root slots (reports.foldl (Tables.placeAlias v slots) s') := by
  induction reports generalizing s' with
  | nil => exact h
  | cons report reports ih =>
    obtain ⟨hi, hp, hu, hpu, hr, hd⟩ := hok report (by simp)
    have hpl := h.placeAlias v report (slotOf_mem (n := ⟨report.inode, hi⟩) hvol.length hu)
      (by rw [hvol.type hi hu, hr])
      (slotOf_mem (n := ⟨report.parent, hp⟩) hvol.length hpu)
      (by rw [hvol.type hp hpu, hd])
    refine ih ⟨hvol.length, ?_, hvol.slots⟩ (fun a ha => hok a (mem_cons_of_mem _ ha)) hpl
    intro n hn
    rw [placeAlias_nodes]
    exact hvol.nodes n hn

end Volume

theorem mountAdytumfs_outcome (hs : s.Sane tidy held) (directory : Option (Fin 64))
    (volume : Option VolumeReport) (spare : ℕ) :
    MountOutcome s (s.mountAdytumfs directory volume spare) := by
  unfold Tables.mountAdytumfs
  cases hd : s.nodeFor directory with
  | none => exact .refused s
  | some d =>
    obtain ⟨-, hac⟩ := nodeFor_some hd
    simp only
    split
    · exact .refused s
    next hbad =>
    push Not at hbad
    have hdir : s.IsDirectory d := ⟨⟨hac, by simpa using hbad.2.1⟩, hbad.1⟩
    cases hk : s.freeMount with
    | none => exact .refused s
    | some k =>
      obtain ⟨hk0, hidle⟩ := freeMount_some hk
      cases volume with
      | none => exact .refused s
      | some v =>
        simp only
        generalize hsl : s.freeNodes.take v.usedInodes.length = slots
        split
        · exact .refused s
        next hr =>
        push Not at hr
        obtain ⟨hok, hl⟩ := hr
        obtain ⟨hno, hf⟩ := freeNodes_take hsl
        cases hin : install (s.volumePlans k v slots (s.nodes d).name) spare [] s with
        | mk left after =>
          cases left with
          | none =>
            refine .failed (install_none hs.aliased ?_ ?_ (Grown.refl s) hin)
            · intro plan hp
              obtain ⟨n, hn, rfl⟩ := mem_map.mp hp
              exact ⟨rfl, hf _ (slotOf_mem hl (mem_usedInodes.mp hn))⟩
            · rw [nil_append, volumePlans_slots s k _ hl]
              exact hno
          | some left =>
            have hg := volume_grafted hok hl hno hf hin
            have hvol := (volume_installed hl hno hin).1
            simp only
            split
            · exact .failed (hg.grown.releaseAll hs.aliased hno)
            · next hal =>
              push Not at hal
              exact finishMount_outcome hs (hg.placeAliases hvol hal.1) hk0 hidle hdir

end MichCore.Vfs.Tables
