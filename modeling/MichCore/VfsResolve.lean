import MichCore.VfsNames

/-!
# Resolving paths

`resolve_path` of `fs/vfs.c` walks a path with one reference to the node at hand. A confined walk
fails at a `..` in its start directory and stays below it: a step up goes back to where a step down
came from. The names there may be hard links, though, to files whose parent link is elsewhere.
-/
namespace MichCore.Vfs.Tables

open Option

/-- The components between the slashes. -/
def components (path : Name) : List Name := (path.splitOn slash).filter (· ≠ [])

/-- Where `..` leads from a directory: to its parent, or from the root of a mount to the
parent of the mountpoint. `none` stays in place. -/
def above (s : Tables) (i : Fin 64) : Option (Fin 64) :=
  match (s.nodes i).parent with
  | some p => some p
  | none =>
    match s.mountForRoot i with
    | none => none
    | some k => (s.nodeFor (s.mounts k).mountpoint).bind (fun point => (s.nodes point).parent)

/-- The loop of `resolve_path`: components still to go, components seen so far, and the
current node, to which the walk holds a reference. -/
def walk (confine : Bool) (start : Option (Fin 64)) :
    List Name → ℕ → Fin 64 → Tables → Option (Fin 64) × Tables
  | [], _, current, s => (some current, s)
  | component :: rest, seen, current, s =>
    if 255 < component.length ∨ 32 < seen + 1 then (none, s.release current)
    else if component = [dot] then walk confine start rest (seen + 1) current s
    else if component = [dot, dot] then
      if (s.nodes current).active = false ∨ (s.nodes current).type ≠ .directory then
        (none, s.release current)
      else if confine = true ∧ some current = start then (none, s.release current)
      else
        match s.above current with
        | none => walk confine start rest (seen + 1) current s
        | some p =>
          if (s.nodes p).active = false ∨ (s.nodes p).linked = false then (none, s.release current)
          else
            match s.retain p with
            | none => (none, s.release current)
            | some s => walk confine start rest (seen + 1) p (s.release current)
    else
      match s.lookup (some current) component with
      | (none, s) => (none, s.release current)
      | (some next, s) => walk confine start rest (seen + 1) next (s.release current)

/-- A path that ends in a slash names a directory. -/
def finishWalk (path : Name) : Option (Fin 64) × Tables → Option (Fin 64) × Tables
  | (none, s) => (none, s)
  | (some current, s) =>
    if 1 < path.length ∧ path.getLast? = some slash ∧
        ((s.nodes current).active = false ∨ (s.nodes current).type ≠ .directory) then
      (none, s.release current)
    else (some current, s)

/-- `resolve_path`; a path has 1 to 255 bytes. -/
def resolvePath (s : Tables) (start : Option (Fin 64)) (path : Name) (confine : Bool) :
    Option (Fin 64) × Tables :=
  if path = [] ∨ 256 ≤ path.length then (none, s)
  else if confine = true ∧ path.head? = some slash then (none, s)
  else if path.head? = some slash then
    match s.retain 0 with
    | none => (none, s)
    | some s => finishWalk path (walk confine start (components path) 0 0 s)
  else
    match s.nodeFor start with
    | none => (none, s)
    | some i =>
      if (s.nodes i).type ≠ .directory then (none, s)
      else
        match s.retain i with
        | none => (none, s)
        | some s => finishWalk path (walk confine start (components path) 0 i s)

/-- `vfs_resolve_beneath` -/
def resolveBeneath (s : Tables) (start : Option (Fin 64)) (path : Name) :
    Option (Fin 64) × Tables := s.resolvePath start path true

variable {s : Tables} {held : Fin 64 → ℕ} {tidy : Prop}

/-- The tables with one more reference to a node. -/
def bump (s : Tables) (i : Fin 64) : Tables :=
  s.setNode i { s.nodes i with references := (s.nodes i).references + 1 }

section Bump

variable {i j : Fin 64}

/-- A node with a reference can be held on the way. -/
def Held (s : Tables) (i : Fin 64) : Prop :=
  (s.nodes i).active = true ∧ 0 < (s.nodes i).references

theorem bump_nodes (s : Tables) (i j : Fin 64) :
    ∃ references, (s.bump i).nodes j = { s.nodes j with references := references } := by
  by_cases hji : j = i
  · subst hji
    exact ⟨_, setNode_self⟩
  · exact ⟨_, setNode_of_ne hji⟩

theorem bump_active : ((s.bump i).nodes j).active = (s.nodes j).active := by
  obtain ⟨r, h⟩ := bump_nodes s i j
  rw [h]

theorem bump_linked : ((s.bump i).nodes j).linked = (s.nodes j).linked := by
  obtain ⟨r, h⟩ := bump_nodes s i j
  rw [h]

theorem bump_parent : ((s.bump i).nodes j).parent = (s.nodes j).parent := by
  obtain ⟨r, h⟩ := bump_nodes s i j
  rw [h]

theorem bump_type : ((s.bump i).nodes j).type = (s.nodes j).type := by
  obtain ⟨r, h⟩ := bump_nodes s i j
  rw [h]

theorem bump_name : ((s.bump i).nodes j).name = (s.nodes j).name := by
  obtain ⟨r, h⟩ := bump_nodes s i j
  rw [h]

theorem bump_nodeFor {object : Option (Fin 64)} : (s.bump i).nodeFor object = s.nodeFor object := by
  simp only [nodeFor, bump_active]

theorem bump_above : (s.bump i).above j = s.above j := by
  simp only [above, bump_parent, bump_nodeFor]
  rfl

theorem bump_found {p : Fin 64} {name : Name} : (s.bump i).found p name = s.found p name := by
  have hn : ∀ j, (s.bump i).Named p name j ↔ s.Named p name j := by
    intro j
    simp only [Named, bump_active, bump_linked, bump_parent, bump_name]
  simp only [found, hn]
  rfl

theorem bump_release (h : s.Held i) : (s.bump i).release i = s := by
  have hac : ((s.bump i).nodes i).active = true := by
    rw [bump_active]
    exact h.1
  have hr : ((s.bump i).nodes i).references = (s.nodes i).references + 1 := by
    rw [bump, setNode_self]
  have hpos := h.2
  rw [release_self_of_lt (by omega) hac, hr, bump, setNode_setNode, setNode_self]
  simp [setNode]

theorem bump_next {t : Tables} (hi : s.Held i) (h : (s.bump i).retain j = some t) :
    t.release i = s.bump j ∧ s.Held j := by
  obtain ⟨hac, hpos, rfl⟩ := retain_some h
  rw [bump_active] at hac
  by_cases hji : j = i
  · subst hji
    refine ⟨?_, hi⟩
    have hr : ((s.bump j).nodes j).references = (s.nodes j).references + 1 := by
      rw [bump, setNode_self]
    rw [release_self_of_lt (by rw [setNode_self, hr]; exact Nat.lt_add_of_pos_left (by omega))
      (by rw [setNode_self, bump_active]; exact hi.1)]
    rw [setNode_setNode, setNode_self, hr, bump, setNode_setNode, setNode_self]
    rfl
  · have hr : ((s.bump i).nodes j).references = (s.nodes j).references := by
      rw [bump, setNode_of_ne hji]
    refine ⟨?_, hac, hr ▸ hpos⟩
    have hn : (s.bump i).nodes j = s.nodes j := setNode_of_ne hji
    rw [hn]
    have hf : ((s.bump i).setNode j { s.nodes j with
        references := (s.nodes j).references + 1 }).nodes i =
          { s.nodes i with references := (s.nodes i).references + 1 } := by
      rw [setNode_of_ne (Ne.symm hji), bump, setNode_self]
    have hpos' := hi.2
    rw [release_self_of_lt (by rw [hf]; exact Nat.lt_add_of_pos_left hpos')
      (by rw [hf]; exact hi.1), hf]
    simp only [bump, setNode, Nat.add_sub_cancel]
    rw [Function.update_comm hji, Function.update_idem]
    simp

end Bump

/-- `i`, or the root of the mount that covers it. -/
def Enters (s : Tables) (i c : Fin 64) : Prop :=
  match s.mountForPoint i with
  | some k => (s.mounts k).root = some c
  | none => c = i

/-- The nodes a confined walk can reach: the start, a child of a reached node or the root
mounted there, and the file behind an alias in a reached directory. -/
inductive Walked (s : Tables) (start : Fin 64) : Fin 64 → Prop where
  | start : Walked s start start
  | down {d i c : Fin 64} (hd : Walked s start d) (hi : s.Live i)
      (hparent : (s.nodes i).parent = some d) (henter : s.Enters i c) : Walked s start c
  | link {d : Fin 64} {a : Fin 16} (hd : Walked s start d) (htype : (s.nodes d).type = .directory)
      (ha : (s.aliases a).active = true) (hparent : (s.aliases a).parent = d) :
      Walked s start (s.aliases a).node

theorem Walked.found {start d j : Fin 64} {name : Name} (hd : Walked s start d)
    (ht : (s.nodes d).type = .directory) (h : s.found d name = some j) : Walked s start j := by
  unfold Tables.found at h
  cases hn : (List.finRange 64).find? (fun i => s.Named d name i) with
  | some i =>
    obtain ⟨hac, hl, hp, -⟩ : s.Named d name i := SlotTable.find_some hn
    rw [hn] at h
    refine .down hd ⟨hac, hl⟩ hp ?_
    unfold Enters
    simp only at h
    cases hm : s.mountForPoint i with
    | none =>
      rw [hm] at h
      exact (some.inj h).symm
    | some k =>
      rw [hm] at h
      exact h
  | none =>
    rw [hn] at h
    obtain ⟨a, ha, rfl⟩ := map_eq_some_iff.mp h
    obtain ⟨hac, hp, -⟩ : s.AliasNamed d name a := SlotTable.find_some ha
    exact .link hd ht hac hp

theorem Sane.mountForRoot_eq (hs : s.Sane tidy held) {k k' : Fin 8} {r : Fin 64} (hk : k ≠ 0)
    (hac : (s.mounts k).active = true) (hro : (s.mounts k).root = some r)
    (h : s.mountForRoot r = some k') : k' = k := by
  obtain ⟨hk', hac', hro'⟩ : k' ≠ 0 ∧ (s.mounts k').active = true ∧
    (s.mounts k').root = some r := SlotTable.find_some h
  obtain ⟨r₁, p₁, ha⟩ := hs.mounted.busy k hk hac
  obtain ⟨r₂, p₂, ha'⟩ := hs.mounted.busy k' hk' hac'
  have hr₁ : r₁ = r := some.inj (ha.root.symm.trans hro)
  have hr₂ : r₂ = r := some.inj (ha'.root.symm.trans hro')
  have hsa := ha'.mount
  rw [hr₂, ← hr₁, ha.mount] at hsa
  exact (some.inj hsa).symm

theorem Walked.above (hs : s.Sane tidy held) {start c p : Fin 64} (hc : Walked s start c)
    (hne : c ≠ start) (hty : (s.nodes c).type = .directory) (h : s.above c = some p) :
    Walked s start p := by
  cases hc with
  | start => exact absurd rfl hne
  | @down d i _ hd hi hpa hen =>
    unfold Enters at hen
    cases hm : s.mountForPoint i with
    | none =>
      rw [hm] at hen
      subst hen
      rw [Tables.above, hpa] at h
      cases h
      exact hd
    | some k =>
      rw [hm] at hen
      obtain ⟨hk, hac, hpo⟩ := mountForPoint_some hm
      obtain ⟨r, q, ha⟩ := hs.mounted.busy k hk hac
      have hr : r = c := some.inj (ha.root.symm.trans hen)
      have htop : (s.nodes c).parent = none := by
        rw [← hr]
        exact ha.top
      rw [Tables.above, htop] at h
      simp only at h
      cases hro : s.mountForRoot c with
      | none =>
        rw [hro] at h
        cases h
      | some k' =>
        rw [hro] at h
        simp only at h
        rw [hs.mountForRoot_eq hk hac hen hro, hpo, nodeFor_of_active hi.1, bind_some, hpa] at h
        cases h
        exact hd
  | @link d a hd hdir ha hpa =>
    rw [(hs.aliased.node a ha).2] at hty
    cases hty

/-- A walk ends with nothing and the tables as they were, or with one reference to its
result. -/
def Balanced (s : Tables) (out : Option (Fin 64) × Tables) : Prop :=
  out = (none, s) ∨ ∃ r, out = (some r, s.bump r) ∧ s.Held r

theorem walk_spec (hs : s.Sane tidy held) (confine : Bool) (start : Option (Fin 64))
    (path : List Name) (seen : ℕ) (current : Fin 64) (hh : s.Held current) :
    s.Balanced (walk confine start path seen current (s.bump current)) ∧
      ∀ d, confine = true → start = some d → Walked s d current →
        ∀ r, (walk confine start path seen current (s.bump current)).1 = some r → Walked s d r := by
  induction path generalizing seen current with
  | nil =>
    refine ⟨.inr ⟨current, rfl, hh⟩, ?_⟩
    intro d _ _ hw r hr
    cases hr
    exact hw
  | cons component rest ih =>
    have hfa : s.Balanced (none, (s.bump current).release current) ∧
        ∀ d, confine = true → start = some d → Walked s d current →
          ∀ r, ((none, (s.bump current).release current) : Option (Fin 64) × Tables).1 = some r →
            Walked s d r := by
      refine ⟨.inl (by rw [bump_release hh]), ?_⟩
      intro d _ _ _ r hr
      cases hr
    unfold walk
    split
    · exact hfa
    split
    · exact ih (seen + 1) current hh
    split
    · split
      · exact hfa
      next hfi =>
      push Not at hfi
      rw [bump_type] at hfi
      split
      · exact hfa
      next htop =>
      rw [bump_above]
      cases hab : s.above current with
      | none => exact ih (seen + 1) current hh
      | some p =>
        simp only
        split
        · exact hfa
        cases hre : (s.bump current).retain p with
        | none => exact hfa
        | some t =>
          obtain ⟨hn, hh'⟩ := bump_next hh hre
          simp only [hn]
          obtain ⟨hb, hconfined⟩ := ih (seen + 1) p hh'
          refine ⟨hb, ?_⟩
          intro d hconfine hst hw
          apply hconfined d hconfine hst
          refine hw.above hs ?_ hfi.2 hab
          intro heq
          exact htop ⟨hconfine, by rw [heq, hst]⟩
    · rcases lookup_cases (s.bump current) (some current) component with
        ⟨h, -⟩ | ⟨p, next, t, hp, hty, -, hfo, hre, h⟩
      · rw [h]
        exact hfa
      rw [h]
      obtain ⟨ho, -⟩ := nodeFor_some hp
      cases ho
      rw [bump_found] at hfo
      rw [bump_type] at hty
      obtain ⟨hn, hh'⟩ := bump_next hh hre
      simp only [hn]
      obtain ⟨hb, hconfined⟩ := ih (seen + 1) next hh'
      refine ⟨hb, ?_⟩
      intro d hconfine hst hw
      exact hconfined d hconfine hst (hw.found hty hfo)

theorem finishWalk_balanced (path : Name) {out : Option (Fin 64) × Tables}
    (h : s.Balanced out) : s.Balanced (finishWalk path out) ∧
      ∀ r, (finishWalk path out).1 = some r → out.1 = some r := by
  rcases h with rfl | ⟨r, rfl, hh⟩
  · exact ⟨.inl rfl, fun r hr => hr⟩
  simp only [finishWalk]
  split_ifs
  · exact ⟨.inl (by rw [bump_release hh]), nofun⟩
  · exact ⟨.inr ⟨r, rfl, hh⟩, fun r hr => hr⟩

theorem resolveBeneath_spec (hs : s.Sane tidy held) (start : Option (Fin 64)) (path : Name) :
    s.Balanced (s.resolveBeneath start path) ∧
      ∀ r, (s.resolveBeneath start path).1 = some r → ∃ d, start = some d ∧ Walked s d r := by
  have hnon : s.Balanced (none, s) ∧ ∀ r, ((none, s) : Option (Fin 64) × Tables).1 = some r →
      ∃ d, start = some d ∧ Walked s d r := ⟨.inl rfl, nofun⟩
  unfold resolveBeneath resolvePath
  split
  · exact hnon
  by_cases hsl : path.head? = some slash
  · rw [if_pos ⟨rfl, hsl⟩]
    exact hnon
  rw [if_neg (fun h => hsl h.2), if_neg hsl]
  cases hnod : s.nodeFor start with
  | none => exact hnon
  | some i =>
    obtain ⟨rfl, hac⟩ := nodeFor_some hnod
    simp only
    split
    · exact hnon
    cases hre : s.retain i with
    | none => exact hnon
    | some t =>
      obtain ⟨-, hpos, rfl⟩ := retain_some hre
      simp only
      obtain ⟨hb, hc⟩ :=
        walk_spec hs true (some i) (components path) 0 i ⟨hac, hpos⟩
      obtain ⟨hf, hsa⟩ := finishWalk_balanced path hb
      refine ⟨hf, ?_⟩
      intro r hr
      exact ⟨i, rfl, hc i rfl rfl .start r (hsa r hr)⟩

/-- Descent through parent links and from a mountpoint to the root mounted on it. -/
inductive Beneath (s : Tables) (start : Fin 64) : Fin 64 → Prop where
  | start : Beneath s start start
  | child {d i : Fin 64} (hd : Beneath s start d) (hi : s.Live i)
      (hparent : (s.nodes i).parent = some d) : Beneath s start i
  | mounted {d r : Fin 64} {k : Fin 8} (hd : Beneath s start d)
      (hactive : (s.mounts k).active = true) (hpoint : (s.mounts k).mountpoint = some d)
      (hroot : (s.mounts k).root = some r) : Beneath s start r

/-- A file with a hard-link name in a directory below the start. -/
def LinkedBeneath (s : Tables) (start r : Fin 64) : Prop :=
  ∃ a, (s.aliases a).active = true ∧ s.Beneath start (s.aliases a).parent ∧
    (s.aliases a).node = r

/-- Nothing is below a file, so an alias ends the descent. -/
theorem Walked.beneath (hs : s.Sane tidy held) {start r : Fin 64} (h : Walked s start r) :
    s.Beneath start r ∨ s.LinkedBeneath start r := by
  induction h with
  | start => exact .inl .start
  | @down d i c hd hi hpa hen ih =>
    have hdir := (hs.trees.parent i d hi hpa).1
    rcases ih with hbe | ⟨a, ha, -, hn⟩
    · left
      have hc := hbe.child hi hpa
      unfold Enters at hen
      cases hm : s.mountForPoint i with
      | none =>
        rw [hm] at hen
        subst hen
        exact hc
      | some k =>
        rw [hm] at hen
        obtain ⟨-, hac, hpo⟩ := mountForPoint_some hm
        exact hc.mounted hac hpo hen
    · exfalso
      have hr := (hs.aliased.node a ha).2
      rw [hn, hdir.2] at hr
      cases hr
  | @link d a hd hdir ha hpa ih =>
    rcases ih with hbe | ⟨b, hb, -, hn⟩
    · exact .inr ⟨a, ha, by rw [hpa]; exact hbe, rfl⟩
    exfalso
    have hr := (hs.aliased.node b hb).2
    rw [hn, hdir] at hr
    cases hr

/-- A confined resolve returns its start, something below it, or a file with a hard-link name
below it; the tables change by the one reference to what it returns. -/
theorem resolveBeneath_confined {s : Tables} {held : Fin 64 → ℕ} (hs : s.Sane False held)
    (start : Option (Fin 64)) (path : Name) :
    (∀ r, (s.resolveBeneath start path).1 = some r →
      ∃ d, start = some d ∧ (s.Beneath d r ∨ s.LinkedBeneath d r)) ∧
    (s.resolveBeneath start path).2 = (s.resolveBeneath start path).1.elim s s.bump := by
  obtain ⟨hb, hw⟩ := resolveBeneath_spec hs start path
  refine ⟨?_, ?_⟩
  · intro r hr
    obtain ⟨d, hd, hre⟩ := hw r hr
    exact ⟨d, hd, hre.beneath hs⟩
  · rcases hb with h | ⟨r, h, -⟩
    · rw [h]
      rfl
    · rw [h]
      rfl

/-- A directory, and a file beside it that has a second name in the directory. -/
def outsideCalls : List Call :=
  [.create (some 0) [100] .directory 0o777 none 1, .create (some 0) [102] .regular 0o666 none 1,
    .link (some 2) (some 1) [103] true]

/-- Resolving the path `./g` in that directory. -/
theorem resolveBeneath_linked :
    ((boot.run outsideCalls).resolveBeneath (some 1) [46, 47, 103]).1 = some 2 ∧
      ((boot.run outsideCalls).Beneath 1 2 ∨ (boot.run outsideCalls).LinkedBeneath 1 2) := by
  have hr : ((boot.run outsideCalls).resolveBeneath (some 1) [46, 47, 103]).1 = some 2 := by
    decide +kernel
  obtain ⟨held, hs⟩ := run_sane boot_sane.weaken outsideCalls
  obtain ⟨d, hd, hb⟩ := (resolveBeneath_confined hs (some 1) [46, 47, 103]).1 2 hr
  cases hd
  exact ⟨hr, hb⟩

/-- The file is not below the directory by parent links. -/
theorem resolveBeneath_outside :
    ((boot.run outsideCalls).resolveBeneath (some 1) [103]).1 = some 2 ∧
      ¬ (boot.run outsideCalls).Beneath 1 2 := by
  have hc : ∀ i, (boot.run outsideCalls).Live i →
      ((boot.run outsideCalls).nodes i).parent ≠ some 1 := by
    decide +kernel
  have hu : ∀ k, ((boot.run outsideCalls).mounts k).mountpoint ≠ some 1 := by
    decide +kernel
  refine ⟨by decide +kernel, ?_⟩
  have hall : ∀ x, (boot.run outsideCalls).Beneath 1 x → x = 1 := by
    intro x hx
    induction hx with
    | start => rfl
    | child hd hi hpa ih =>
      subst ih
      exact absurd hpa (hc _ hi)
    | mounted hd hac hpo hr ih =>
      subst ih
      exact absurd hpo (hu _)
  intro h
  have := hall 2 h
  simp at this

end MichCore.Vfs.Tables
