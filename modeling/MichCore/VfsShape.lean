import MichCore.VfsRuns

/-!
# The shape of the namespace

In every run the linked nodes form trees of bounded depth, no directory loses its link while
something is in it, and no name comes to be under an unlinked directory. An unmount that finds a
second reference to a node with an alias leaves that node and its alias behind.
-/
namespace MichCore.Vfs.Tables

open ParentForest

variable {s : Tables} {held : Fin 64 → ℕ} {tidy : Prop}

/-- The root of a tree: the global root or the root of an active mount. -/
def IsTreeRoot (s : Tables) (i : Fin 64) : Prop :=
  i = 0 ∨ ∃ k, (s.mounts k).active = true ∧ (s.mounts k).root = some i

/-- The shape every state should have. -/
structure NamespaceShape (s : Tables) : Prop where
  parent : ∀ i, s.Live i → ¬ s.IsTreeRoot i →
    ∃ p, (s.nodes i).parent = some p ∧ s.IsDirectory p
  climbs : ∀ i, s.Live i → ∃ n r, n ≤ 64 ∧
    climb (fun j => (s.nodes j).parent) n i = some r ∧ s.IsTreeRoot r
  names : ∀ a, (s.aliases a).active = true → s.Live (s.aliases a).node ∧
    (s.nodes (s.aliases a).node).type = .regular ∧ s.IsDirectory (s.aliases a).parent
  occupied : ∀ p name e, s.HasEntry p name e → s.Live p

variable {call : Call} {s' : Tables} {i : Fin 64}

theorem Trees.exists_root (hs : s.Trees) (hi : s.Live i) :
    ∃ n r, n ≤ 64 ∧ climb (fun j => (s.nodes j).parent) n i = some r ∧ s.Live r ∧
      (s.nodes r).parent = none := by
  -- Climb in the linked part; there the two parent functions agree.
  have hshort : ∀ n i, s.Live i → climb s.up n i = none →
      ∃ m r, m < n ∧ climb (fun j => (s.nodes j).parent) m i = some r ∧ s.Live r ∧
        (s.nodes r).parent = none := by
    intro n
    induction n with
    | zero =>
      intro i hi h
      cases h
    | succ n ih =>
      intro i hi h
      rw [climb, up_of_live hi] at h
      cases hp : (s.nodes i).parent with
      | none => exact ⟨0, i, by omega, rfl, hi, hp⟩
      | some p =>
        rw [hp, Option.bind_some] at h
        obtain ⟨m, r, hm, hc, hr⟩ := ih p (hs.parent i p hi hp).1.1 h
        exact ⟨m + 1, r, by omega, by simp [climb, hp, hc], hr⟩
  have hno := (hs.rooted i).climb_card
  rw [Fintype.card_fin] at hno
  obtain ⟨n, r, hn, hre⟩ := hshort 64 i hi hno
  exact ⟨n, r, by omega, hre⟩

theorem Sane.isTreeRoot (hs : s.Sane tidy held) (hi : s.Live i)
    (hp : (s.nodes i).parent = none) : s.IsTreeRoot i := by
  rcases hs.trees.top i hi hp with hz | ⟨k, -, hr⟩
  · exact .inl hz
  refine .inr ⟨k, ?_, hr⟩
  by_contra hidle
  rw [(hs.mounted.idle k (by simpa using hidle)).1] at hr
  cases hr

theorem Sane.shape_iff_aliases (hs : s.Sane False held) :
    s.NamespaceShape ↔ ∀ a, (s.aliases a).active = true → s.Live (s.aliases a).node := by
  refine ⟨fun h a ha => (h.names a ha).1, fun ht => ⟨?_, ?_, ?_, ?_⟩⟩
  · intro i hi hro
    cases hp : (s.nodes i).parent with
    | none => exact absurd (hs.isTreeRoot hi hp) hro
    | some p => exact ⟨p, rfl, (hs.trees.parent i p hi hp).1⟩
  · intro i hi
    obtain ⟨n, r, hn, hc, hr, hp⟩ := hs.trees.exists_root hi
    exact ⟨n, r, hn, hc, hs.isTreeRoot hr hp⟩
  · intro a ha
    exact ⟨ht a ha, (hs.aliased.node a ha).2, (hs.aliased.parent a ha (ht a ha)).1⟩
  · intro p name e he
    cases e with
    | primary i => exact (hs.trees.parent i p ⟨he.1, he.2.1⟩ he.2.2.1).1.1
    | extra a =>
      have := (hs.aliased.parent a he.1 (ht a he.1)).1.1
      rw [he.2.1] at this
      exact this

/-- A directory that lost its link was empty. -/
def EmptyOrKept (s s' : Tables) : Prop :=
  ∀ d, s.IsDirectory d → s'.Live d ∨ s.childCount d = 0

theorem EmptyOrKept.of_live (h : ∀ d, s.Live d → s'.Live d) : EmptyOrKept s s' :=
  fun d hd => .inl (h d hd.1)

theorem setNode_live_kept {node : Node}
    (h : s.Live i → node.active = true ∧ node.linked = true) (d : Fin 64) (hd : s.Live d) :
    (s.setNode i node).Live d := by
  by_cases hdi : d = i
  · subst hdi
    exact setNode_live_self.mpr (h hd)
  · exact (setNode_live_of_ne hdi).mpr hd

/-- A linked node has a reference for its link, so a release by a holder leaves it. -/
theorem Sane.release_live (hs : s.Sane tidy held) {x : Fin 64} (hx : 0 < held x) (d : Fin 64)
    (hd : s.Live d) : (s.release x).Live d := by
  by_cases hdx : d = x
  · subst hdx
    obtain ⟨hcount, -⟩ := hs.counted.active d hd.1
    have hl : linkReferences (s.nodes d) = 1 := by simp [linkReferences, hd.2]
    rw [release_self_of_lt (by omega) hd.1]
    exact setNode_live_self.mpr hd
  · simp only [Live, release_of_ne hdx]
    exact hd

theorem retain_live {x : Fin 64} (h : s.retain x = some s') (d : Fin 64)
    (hd : s.Live d) : s'.Live d := by
  obtain ⟨-, -, rfl⟩ := retain_some h
  refine setNode_live_kept ?_ d hd
  exact fun hx => hx

theorem dropName_emptyOrKept {i p : Fin 64} {name : Name} (h : s.Removable p name i) :
    EmptyOrKept s (s.dropName i).after := by
  intro d hd
  by_cases hdi : d = i
  · subst hdi
    exact .inr (h.childless hd.2)
  · have hs := (dropName_frame (s := s) i).nodes d (fun h => hdi (Option.some.inj h).symm)
    exact .inl (by simp only [Live, hs]; exact hd.1)

theorem unlinkLocked_emptyOrKept (s : Tables) (directory : Option (Fin 64)) (name : Name)
    (disk : Bool) : EmptyOrKept s (s.unlinkLocked directory name disk).after := by
  rcases unlinkLocked_cases s directory name disk with
    h | ⟨p, -, -, -, -, -, ⟨i, -, hr, h⟩ | ⟨a, -, -, h⟩⟩ <;>
    rw [h]
  · exact .of_live fun _ hd => hd
  · exact dropName_emptyOrKept hr
  · exact .of_live fun _ hd => hd

theorem replaced_emptyOrKept (s : Tables) (q : Fin 64) (newName : Name) (disk : Bool) :
    EmptyOrKept s (s.replaced q newName disk).after := by
  unfold replaced
  split_ifs
  · exact .of_live fun _ hd => hd
  · exact unlinkLocked_emptyOrKept s (some q) newName disk

theorem moveEntry_live {entry : Entry} {q : Fin 64} {newName : Name} {d : Fin 64}
    (hd : s'.Live d) : (s'.moveEntry entry q newName).Live d := by
  cases entry with
  | primary i =>
    simp only [moveEntry]
    refine setNode_live_kept ?_ d hd
    exact fun hi => hi
  | extra a => exact hd

theorem renameLocked_emptyOrKept (s : Tables) (oldDirectory : Option (Fin 64)) (name : Name)
    (newDirectory : Option (Fin 64)) (newName : Name) (disk moved : Bool) :
    EmptyOrKept s (s.renameLocked oldDirectory name newDirectory newName disk moved).after := by
  rcases renameLocked_cases s oldDirectory name newDirectory newName disk moved with
    ⟨ok, h⟩ | ⟨p, q, entry, -, -, -, -, ⟨-, -, h⟩ | h⟩ <;>
    rw [h]
  · exact .of_live fun _ hd => hd
  · exact replaced_emptyOrKept s q newName disk
  · intro d hd
    rcases replaced_emptyOrKept s q newName disk d hd with hlive | he
    · exact .inl (moveEntry_live hlive)
    · exact .inr he

theorem finish_live {out : Unlinked} (hs : out.after.Sane tidy (handOut held out.dropped))
    (d : Fin 64) (hd : out.after.Live d) : out.finish.2.Live d := by
  unfold Unlinked.finish
  cases hdr : out.dropped with
  | none => exact hd
  | some i =>
    rw [hdr] at hs
    exact hs.release_live (by simp [handOut]) d hd

theorem MountOutcome.live {out : Bool × Tables} (h : MountOutcome s out) (d : Fin 64)
    (hd : s.Live d) : out.2.Live d := by
  cases h with
  | failed h =>
    rcases h.old d (by simp) with heq | ⟨hf, -⟩
    · simp only [Live, heq]
      exact hd
    · exact absurd hd (not_live_of_inactive hf)
  | mounted graft slot idle directory retainRoot retainPoint =>
    exact retain_live retainPoint d (retain_live retainRoot d (graft.live_iff.mpr (.inl hd)))

section

variable (hs : s.Sane tidy held)
include hs

theorem Sane.closeFile_live (f : Fin 32) (d : Fin 64) (hd : s.Live d) : (s.closeFile f).Live d := by
  unfold Tables.closeFile
  split_ifs
  · exact hd
  · cases hn : (s.files f).node with
    | none => exact hd
    | some i => exact (hs.fileCleared hn).release_live (by simp) d hd

theorem Sane.perform_emptyOrKept
    (hca : ∀ directory, call ≠ .unmount directory) : EmptyOrKept s (s.perform call) := by
  have hf : ∀ {i n}, (s.nodes i).active = false → ∀ d, s.Live d → (s.setNode i n).Live d :=
    fun hi => setNode_live_kept fun hlive => absurd hlive (not_live_of_inactive hi)
  cases call with
  | create directory name type mode disk spare =>
    refine .of_live fun d hd => ?_
    simp only [Tables.perform]
    rcases createMode_cases s directory name type mode disk spare with
      h | ⟨i, node, hi, -, h⟩ | ⟨p, i, node, -, hcr, h⟩ <;>
      rw [h]
    · exact hd
    · exact hf hi d hd
    · exact hf hcr.slot.2 d hd
  | symlink directory name target disk written spare =>
    refine .of_live fun d hd => ?_
    simp only [Tables.perform]
    rcases symlink_cases s directory name target disk written spare with
      h | ⟨i, node, hi, -, h⟩ | ⟨p, i, node, -, hcr, ⟨-, -, h⟩ | ⟨-, h⟩⟩ <;>
      rw [h]
    · exact hd
    · exact hf hi d hd
    all_goals exact hf hcr.slot.2 d hd
  | link object directory name disk =>
    refine .of_live fun d hd => ?_
    simp only [Tables.perform]
    rcases link_cases s object directory name disk with h | ⟨i, p, a, -, -, -, h⟩ <;>
      exact h ▸ hd
  | unlink directory name disk =>
    intro d hd
    rcases unlinkLocked_emptyOrKept s directory name disk d hd with hlive | he
    · exact .inl (finish_live (hs.unlinkLocked directory name disk) d hlive)
    · exact .inr he
  | rename oldDirectory name newDirectory newName disk moved =>
    intro d hd
    rcases renameLocked_emptyOrKept s oldDirectory name newDirectory newName disk moved d hd with
      hlive | he
    · exact .inl (finish_live
        (hs.renameLocked oldDirectory name newDirectory newName disk moved) d hlive)
    · exact .inr he
  | lookup directory name =>
    refine .of_live fun d hd => ?_
    simp only [Tables.perform]
    rcases lookup_cases s directory name with ⟨h, -⟩ | ⟨p, i, s', -, -, -, -, hr, h⟩ <;>
      rw [h]
    · exact hd
    · exact retain_live hr d hd
  | release object =>
    refine .of_live fun d hd => ?_
    simp only [Tables.perform, hs.outside_eq]
    split
    · next hh =>
      exact hs.release_live hh d hd
    · exact hd
  | openFile object spare =>
    refine .of_live fun d hd => ?_
    simp only [Tables.perform]
    rcases openFile_cases hs.counted.files object spare with h | ⟨i, f, s', -, hr, h⟩ <;>
      rw [h]
    · exact hd
    · exact retain_live hr d hd
  | closeFile file => exact .of_live (hs.closeFile_live file)
  | mountBootfs directory entries spare =>
    exact .of_live (mountBootfs_outcome hs directory entries spare).live
  | mountAdytumfs directory volume spare =>
    exact .of_live (mountAdytumfs_outcome hs directory volume spare).live
  | unmount directory => exact absurd rfl (hca directory)

def Call.IsMount : Call → Prop
  | .mountBootfs .. => True
  | .mountAdytumfs .. => True
  | _ => False

theorem Sane.perform_newInDirectory
    (hc : ¬ call.IsMount) : NewInDirectory s (s.perform call) := by
  cases call with
  | create directory name type mode disk spare =>
    exact createMode_newInDirectory directory name type mode disk spare
  | symlink directory name target disk written spare =>
    exact symlink_newInDirectory directory name target disk written spare
  | link object directory name disk => exact link_newInDirectory object directory name disk
  | unlink directory name disk => exact unlink_newInDirectory hs directory name disk
  | rename oldDirectory name newDirectory newName disk moved =>
    exact rename_newInDirectory hs oldDirectory name newDirectory newName disk moved
  | lookup directory name => exact (lookup_fewer directory name).newInDirectory
  | release object =>
    simp only [Tables.perform]
    split_ifs
    · exact (release_fewer object).newInDirectory
    · exact (Fewer.refl s).newInDirectory
  | openFile object spare => exact (openFile_fewer hs object spare).newInDirectory
  | closeFile file => exact (closeFile_fewer file).newInDirectory
  | mountBootfs directory entries spare => exact absurd trivial hc
  | mountAdytumfs directory volume spare => exact absurd trivial hc
  | unmount directory => exact (unmount_fewer directory).newInDirectory

theorem MountOutcome.new {out : Bool × Tables} (h : MountOutcome s out)
    {p : Fin 64} {name : Name} {e : Entry} (he : out.2.HasEntry p name e) :
    s.HasEntry p name e ∨ out.2.IsDirectory p := by
  have hs' := h.sane hs
  cases e with
  | primary i => exact .inr (hs'.trees.parent i p ⟨he.1, he.2.1⟩ he.2.2.1).1
  | extra a =>
    by_cases hlive : out.2.Live (out.2.aliases a).node
    · have := (hs'.aliased.parent a he.1 hlive).1
      rw [he.2.1] at this
      exact .inr this
    -- Only an old alias can name a node without a link.
    left
    have hsa : out.2.aliases a = s.aliases a := by
      cases h with
      | failed h =>
        rcases h.aliases a with heq | ⟨-, hnew⟩
        · exact heq
        · exact absurd (hnew he.1) (by simp)
      | mounted graft slot idle directory retainRoot retainPoint =>
        obtain ⟨-, -, rfl⟩ := retain_some retainRoot
        obtain ⟨-, -, rfl⟩ := retain_some retainPoint
        rcases graft.aliases a with heq | ⟨-, hno, -⟩
        · exact heq
        exfalso
        apply hlive
        refine setNode_live_kept ?_ _ (setNode_live_kept ?_ _ (graft.new _ hno).2.1)
        · exact fun hd => hd
        · exact fun hr => hr
    simpa only [HasEntry, AliasNamed, hsa] using he

end

/-- An unmount that takes effect finds no second reference to a node with an alias. -/
def UnmountsUnshared (s : Tables) : Call → Prop
  | .unmount directory => ∀ k, (s.unmount directory).1 = true →
      directory.bind s.mountForPoint = some k → s.Unshared k
  | _ => True

theorem Sane.perform_tidy (hs : s.Sane True held) (h : s.UnmountsUnshared call) :
    ∃ held', (s.perform call).Sane True held' := by
  by_cases hc : ∃ directory, call = .unmount directory
  · obtain ⟨directory, rfl⟩ := hc
    refine ⟨held, (hs.unmount directory).strengthen ?_⟩
    rcases unmount_cases s directory with hout | ⟨d, k, rfl, hk, hout⟩
    · rw [hout]
      exact hs.aliased.live trivial
    · have hu : s.Unshared k := h k (by rw [hout]) hk
      rw [hout]
      exact mountDestroy_tidy hs (hs.aliased.live trivial) hu
  · push Not at hc
    exact hs.perform_of_ne hc

theorem Sane.stale (hs : s.Sane False held) (h : ¬ s.UnmountsUnshared call) :
    ¬ (s.perform call).NamespaceShape := by
  cases call with
  | unmount directory =>
    simp only [UnmountsUnshared, Unshared] at h
    push Not at h
    obtain ⟨k, hok, hb, a, ha, hon, hr⟩ := h
    obtain ⟨d, rfl, hk⟩ := Option.bind_eq_some_iff.mp hb
    obtain ⟨hk0, hac, -⟩ := mountForPoint_some hk
    obtain ⟨r, p, hat⟩ := hs.mounted.busy k hk0 hac
    rcases unmount_cases s (some d) with hout | ⟨d', k', hd, hk', hout⟩
    · rw [hout] at hok
      cases hok
    cases hd
    rw [hk] at hk'
    cases hk'
    intro hsh
    simp only [Tables.perform, hout] at hsh
    obtain ⟨hal, hde⟩ := mountDestroy_stale hs hat ha hon hr
    exact hde (hsh.names a hal).1
  | _ => exact absurd trivial h

theorem run_tidy {calls : List Call}
    (h : ∀ before call after, calls = before ++ call :: after →
      (boot.run before).UnmountsUnshared call) : ∃ held, (boot.run calls).Sane True held := by
  induction calls using List.reverseRecOn with
  | nil => exact ⟨_, boot_sane⟩
  | append_singleton calls call ih =>
    obtain ⟨held, hrun⟩ := ih (fun before c after heq =>
      h before c (after ++ [call]) (by simp [heq]))
    rw [run_concat]
    exact hrun.perform_tidy (h calls call [] rfl)

/-- In every run a directory that loses its link to a call other than an unmount was empty, and
every new name is in a linked directory. The namespace has its shape in all states exactly if no
unmount finds a second reference to a node with an alias. -/
theorem namespaceShape_iff (calls : List Call) :
    (∀ before call after, calls = before ++ call :: after →
      ((∀ directory, call ≠ .unmount directory) → ∀ d, (boot.run before).IsDirectory d →
        ¬ ((boot.run before).perform call).Live d → (boot.run before).childCount d = 0) ∧
      ∀ p name e, ((boot.run before).perform call).HasEntry p name e →
        ¬ (boot.run before).HasEntry p name e →
        (¬ call.IsMount → (boot.run before).IsDirectory p) ∧
          (call.IsMount → ((boot.run before).perform call).IsDirectory p)) ∧
    ((∀ before, before <+: calls → (boot.run before).NamespaceShape) ↔
      ∀ before call after, calls = before ++ call :: after →
        (boot.run before).UnmountsUnshared call) := by
  refine ⟨?_, ?_, ?_⟩
  · intro before call after _
    obtain ⟨held, hs⟩ := run_sane boot_sane.weaken before
    refine ⟨?_, ?_⟩
    · intro hca d hd hcut
      exact (hs.perform_emptyOrKept hca d hd).resolve_left hcut
    · intro p name e he hnew
      refine ⟨?_, ?_⟩
      · intro hca
        exact (hs.perform_newInDirectory hca p name e he).resolve_left hnew
      · intro hca
        cases call with
        | mountBootfs directory entries spare =>
          exact ((mountBootfs_outcome hs directory entries spare).new hs he).resolve_left hnew
        | mountAdytumfs directory volume spare =>
          exact ((mountAdytumfs_outcome hs directory volume spare).new hs he).resolve_left hnew
        | _ => exact hca.elim
  · intro hsh before call after heq
    obtain ⟨held, hs⟩ := run_sane boot_sane.weaken before
    by_contra hbad
    apply hs.stale hbad
    rw [← run_concat]
    exact hsh _ ⟨after, by simp [heq]⟩
  · intro hg before hst
    obtain ⟨rest, rfl⟩ := hst
    have ht : ∃ held, (boot.run before).Sane True held := by
      apply run_tidy
      intro xs call ys heq
      exact hg xs call (ys ++ rest) (by simp [heq])
    obtain ⟨held, hs⟩ := ht
    exact hs.weaken.shape_iff_aliases.mpr (hs.aliased.live trivial)

/-- A volume with nothing but its root directory. -/
def emptyVolume : VolumeReport where
  inodes := fun n => some (if n = 0 then ⟨true, .directory, 0, 0, 0o777, [], 0, none⟩ else .unused)
  aliases := []
  aliases_le := by simp

/-- Mount an empty volume on a new directory, create a file there and keep its object, link it
under a second name, and unmount. -/
def staleCalls : List Call :=
  [.create (some 0) [109] .directory 0o777 none 1, .mountAdytumfs (some 1) (some emptyVolume) 2,
    .create (some 2) [102] .regular 0o666 (some (1, 0)) 1, .link (some 3) (some 2) [103] true,
    .unmount (some 1)]

theorem staleAlias : ¬ (boot.run staleCalls).NamespaceShape := by
  intro h
  have hs : ((boot.run staleCalls).aliases 0).active = true ∧
      ¬ (boot.run staleCalls).Live ((boot.run staleCalls).aliases 0).node := by
    decide +kernel
  exact hs.2 (h.names 0 hs.1).1

end MichCore.Vfs.Tables
