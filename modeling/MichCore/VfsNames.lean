import MichCore.VfsShape

/-!
# One entry for each name

`vfs_create_mode` looks for its name among the nodes only, so it can put a second entry beside an
alias. Apart from that every call keeps names unique, and lookup, unlink and rename then act on
the same entry.
-/
namespace MichCore.Vfs.Tables

open List

variable {s s' : Tables} {held : Fin 64 → ℕ} {tidy : Prop}

/-- No directory has two entries of one name. -/
def UniqueNames (s : Tables) : Prop :=
  ∀ p name e e', s.HasEntry p name e → s.HasEntry p name e' → e = e'

theorem UniqueNames.of_origin (hu : s.UniqueNames) (origin : Entry → Entry)
    (hf : ∀ p name e, s'.HasEntry p name e → s.HasEntry p name (origin e))
    (hinj : ∀ p name e e', s'.HasEntry p name e → s'.HasEntry p name e' →
      origin e = origin e' → e = e') : s'.UniqueNames := by
  intro p name e e' he he'
  exact hinj p name e e' he he' (hu p name _ _ (hf p name e he) (hf p name e' he'))

theorem UniqueNames.fewer (hu : s.UniqueNames) (h : Fewer s s') : s'.UniqueNames :=
  hu.of_origin id h fun _ _ _ _ _ _ heq => heq

/-- One entry is new, and no other has its name. -/
theorem UniqueNames.of_new (hu : s.UniqueNames) (new : Entry)
    (hold : ∀ p name e, e ≠ new → s'.HasEntry p name e →
      s.HasEntry p name e ∧ ¬ s'.HasEntry p name new) : s'.UniqueNames := by
  intro p name e e' he he'
  by_cases hnew : e = new
  · by_contra hne
    exact (hold p name e' (fun h => hne (hnew.trans h.symm)) he').2 (hnew ▸ he)
  · have hnew' : e' ≠ new := fun h => (hold p name e hnew he).2 (h ▸ he')
    exact hu p name e e' (hold p name e hnew he).1 (hold p name e' hnew' he').1

section Scans

variable {p : Fin 64} {name : Name} {e : Entry}

theorem findEntry_hasEntry (h : s.findEntry p name = some e) : s.HasEntry p name e := by
  cases e with
  | primary i => exact (SlotTable.find_some (findEntry_primary.mp h)).2
  | extra a =>
    have hf := (findEntry_extra.mp h).2
    exact SlotTable.find_some hf

theorem findEntry_none (hs : s.Sane tidy held) (h : s.findEntry p name = none) :
    ¬ s.HasEntry p name e := by
  intro he
  unfold findEntry at h
  cases hn : (finRange 64).find? (fun i => i ≠ 0 ∧ s.Named p name i) with
  | some i =>
    rw [hn] at h
    cases h
  | none =>
    rw [hn] at h
    cases e with
    | primary i =>
      exact SlotTable.find_none hn i ⟨(hs.notRoot he.2.2.1).1, he⟩
    | extra a => exact SlotTable.find_none (Option.map_eq_none_iff.mp h) a he

/-- The node behind an entry, or the root mounted on it. -/
def reached (s : Tables) : Entry → Option (Fin 64)
  | .primary i =>
    match s.mountForPoint i with
    | some k => (s.mounts k).root
    | none => some i
  | .extra a => some (s.aliases a).node

/-- What an unlink of an entry does. -/
def removed (s : Tables) : Entry → Unlinked
  | .primary i => s.dropName i
  | .extra a => ⟨true, none, s.retired a⟩

theorem Sane.found_cases (hs : s.Sane tidy held) (p : Fin 64) (name : Name) :
    (s.found p name = none ∧ ∀ e, ¬ s.HasEntry p name e) ∨
      ∃ e j, s.HasEntry p name e ∧ s.found p name = some j ∧ s.reached e = some j ∧
        (s.nodes j).active = true := by
  unfold found
  cases hno : (finRange 64).find? (fun i => s.Named p name i) with
  | some i =>
    have hna : s.Named p name i := SlotTable.find_some hno
    refine .inr ⟨.primary i, ?_⟩
    simp only [reached]
    cases hm : s.mountForPoint i with
    | none => exact ⟨i, hna, rfl, rfl, hna.1⟩
    | some k =>
      obtain ⟨hk, hac, -⟩ := mountForPoint_some hm
      obtain ⟨r, q, ha⟩ := hs.mounted.busy k hk hac
      exact ⟨r, hna, ha.root, ha.root, ha.directory.1.1⟩
  | none =>
    cases hal : (finRange 16).find? (fun a => s.AliasNamed p name a) with
    | some a =>
      have hna : s.AliasNamed p name a := SlotTable.find_some hal
      exact .inr ⟨.extra a, _, hna, rfl, rfl, (hs.aliased.node a hna.1).1⟩
    | none =>
      refine .inl ⟨rfl, fun e he => ?_⟩
      cases e with
      | primary i => exact SlotTable.find_none hno i he
      | extra a => exact SlotTable.find_none hal a he

theorem UniqueNames.same_entry (hu : s.UniqueNames) (hs : s.Sane tidy held)
    (he : s.HasEntry p name e) (disk : Bool) :
    s.findEntry p name = some e ∧ s.found p name = s.reached e ∧
      (s.unlinkLocked (some p) name disk = ⟨false, none, s⟩ ∨
        s.unlinkLocked (some p) name disk = s.removed e) := by
  have hfi : s.findEntry p name = some e := by
    cases hfi : s.findEntry p name with
    | none => exact absurd he (findEntry_none hs hfi)
    | some e' => rw [hu p name e e' he (findEntry_hasEntry hfi)]
  refine ⟨hfi, ?_, ?_⟩
  · rcases hs.found_cases p name with ⟨-, hn⟩ | ⟨e', j, he', hfo, hr, -⟩
    · exact absurd he (hn e)
    · rw [hfo, hu p name e e' he he', hr]
  · rcases unlinkLocked_cases s (some p) name disk with
      h | ⟨p', hp, -, -, -, -, ⟨i, hsc, -, h⟩ | ⟨a, hsc, hal, h⟩⟩
    · exact .inl h
    · cases hp
      have heq := findEntry_primary.mpr hsc
      rw [hfi] at heq
      cases heq
      exact .inr h
    · cases hp
      have heq := findEntry_extra.mpr ⟨hsc, hal⟩
      rw [hfi] at heq
      cases heq
      exact .inr h

end Scans

theorem promoted_origin {i p : Fin 64} {a : Fin 16} {name : Name} {e : Entry}
    (ha : s.aliasForNode i = some a)
    (he : ((s.setNode i (s.promoted i a)).retired a).HasEntry p name e) :
    e ≠ .extra a ∧ s.HasEntry p name (if e = .primary i then .extra a else e) := by
  have hea : e ≠ .extra a := by
    rintro rfl
    have := setAlias_hasEntry_self.mp he
    simp at this
  refine ⟨hea, ?_⟩
  have he' := (setAlias_hasEntry_of_ne hea).mp he
  by_cases hei : e = .primary i
  · subst hei
    rw [if_pos rfl]
    obtain ⟨-, -, hp, hn⟩ := setNode_hasEntry_self.mp he'
    exact ⟨(aliasForNode_some ha).1, Option.some.inj hp, hn⟩
  · rw [if_neg hei]
    exact (setNode_hasEntry_of_ne hei).mp he'

section

variable (hu : s.UniqueNames)
include hu

theorem UniqueNames.dropName (i : Fin 64) : (s.dropName i).after.UniqueNames := by
  rcases dropName_cases s i with ⟨a, ha, hd⟩ | ⟨-, hd⟩
  · rw [hd]
    apply hu.of_origin (fun e => if e = .primary i then .extra a else e)
    · exact fun p name e he => (promoted_origin ha he).2
    · intro p name e e' he he' heq
      have hne := (promoted_origin ha he).1
      have hne' := (promoted_origin ha he').1
      by_cases hei : e = .primary i
      · by_cases hei' : e' = .primary i
        · rw [hei, hei']
        · rw [if_pos hei, if_neg hei'] at heq
          exact absurd heq.symm hne'
      · by_cases hei' : e' = .primary i
        · rw [if_neg hei, if_pos hei'] at heq
          exact absurd heq hne
        · rwa [if_neg hei, if_neg hei'] at heq
  · rw [hd]
    exact hu.fewer (setNode_fewer nofun)

theorem UniqueNames.unlinkLocked (directory : Option (Fin 64)) (name : Name)
    (disk : Bool) : (s.unlinkLocked directory name disk).after.UniqueNames := by
  rcases unlinkLocked_cases s directory name disk with
    h | ⟨p, -, -, -, -, -, ⟨i, -, -, h⟩ | ⟨a, -, -, h⟩⟩ <;>
    rw [h]
  · exact hu
  · exact hu.dropName i
  · exact hu.fewer (retired_fewer a)

theorem UniqueNames.replaced (q : Fin 64) (newName : Name) (disk : Bool) :
    (s.replaced q newName disk).after.UniqueNames := by
  unfold Tables.replaced
  split_ifs
  · exact hu
  · exact hu.unlinkLocked (some q) newName disk

theorem UniqueNames.replaced_free (hs : s.Sane tidy held) {q : Fin 64}
    {newName : Name} {disk : Bool} (hok : (s.replaced q newName disk).ok = true) (e : Entry) :
    ¬ (s.replaced q newName disk).after.HasEntry q newName e := by
  intro he
  rcases replaced_cases s q newName disk with h | ⟨hf, h⟩ | ⟨t, hf, -, h⟩ | ⟨b, hf, h⟩
  · rw [h] at hok
    cases hok
  · rw [h] at he
    exact findEntry_none hs hf he
  · rw [h] at he
    have ht := findEntry_hasEntry hf
    rcases dropName_cases s t with ⟨a, ha, hd⟩ | ⟨-, hd⟩
    · rw [hd] at he
      have hor := hu q newName _ _ (promoted_origin ha he).2 ht
      split at hor
      · cases hor
      · next het =>
        exact het hor
    · rw [hd] at he
      by_cases het : e = .primary t
      · subst het
        have := setNode_hasEntry_self.mp he
        simp [cutOff] at this
      · exact het (hu q newName _ _ ((setNode_hasEntry_of_ne het).mp he) ht)
  · rw [h] at he
    have hb := findEntry_hasEntry hf
    by_cases heb : e = .extra b
    · subst heb
      have := setAlias_hasEntry_self.mp he
      simp at this
    · exact heb (hu q newName _ _ ((setAlias_hasEntry_of_ne heb).mp he) hb)

theorem UniqueNames.renameLocked (hs : s.Sane tidy held) (oldDirectory : Option (Fin 64))
    (name : Name) (newDirectory : Option (Fin 64)) (newName : Name) (disk moved : Bool) :
    (s.renameLocked oldDirectory name newDirectory newName disk moved).after.UniqueNames := by
  rcases renameLocked_cases s oldDirectory name newDirectory newName disk moved with
    ⟨ok, h⟩ | ⟨p, q, entry, -, -, -, hok, ⟨-, -, h⟩ | h⟩ <;>
    rw [h]
  · exact hu
  · exact hu.replaced q newName disk
  · refine (hu.replaced q newName disk).of_new entry fun r n e hne he => ?_
    rcases moveEntry_hasEntry he with ⟨rfl, -⟩ | ⟨-, hold⟩
    · exact absurd rfl hne
    refine ⟨hold, fun hen => ?_⟩
    rcases moveEntry_hasEntry hen with ⟨-, rfl, rfl⟩ | ⟨hse, -⟩
    · exact hu.replaced_free hs hok e hold
    · exact hse rfl

end

theorem Created.unique_iff {p i : Fin 64} {name : Name} {type : NodeType} {node : Node}
    (node' : Node) (hu : s.UniqueNames) (h : s.Created p name type i node)
    (hno : node'.active = true ∧ node'.linked = true ∧ node'.parent = node.parent ∧
      node'.name = node.name) : (s.setNode i node').UniqueNames ↔ ∀ a, ¬ s.AliasNamed p name a := by
  have hnew : (s.setNode i node').HasEntry p name (.primary i) :=
    setNode_hasEntry_self.mpr ⟨hno.1, hno.2.1, by rw [hno.2.2.1, h.parent],
      by rw [hno.2.2.2, h.name]⟩
  constructor
  · intro hun a ha
    have hold : (s.setNode i node').HasEntry p name (.extra a) := ha
    cases hun p name _ _ hnew hold
  · intro hf
    refine hu.of_new (.primary i) fun r n e hei he => ?_
    have hold := (setNode_hasEntry_of_ne hei).mp he
    refine ⟨hold, fun hpr => ?_⟩
    -- Nothing else has the new name.
    obtain ⟨-, -, hpa, hna⟩ := setNode_hasEntry_self.mp hpr
    rw [hno.2.2.1, h.parent] at hpa
    rw [hno.2.2.2, h.name] at hna
    cases hpa
    subst hna
    cases e with
    | primary j => exact h.fresh j hold
    | extra a => exact hf a hold

theorem Linkable.unique_iff {i p : Fin 64} {name : Name} {a : Fin 16} (hu : s.UniqueNames)
    (h : s.Linkable i p name a) :
    (s.setAlias a ⟨true, i, p, name⟩).UniqueNames ↔ ∀ e, ¬ s.HasEntry p name e := by
  have hnew : (s.setAlias a ⟨true, i, p, name⟩).HasEntry p name (.extra a) :=
    setAlias_hasEntry_self.mpr ⟨rfl, rfl, rfl⟩
  have hs : ∀ r n, ¬ s.HasEntry r n (.extra a) := by
    intro r n he
    have := he.1
    rw [h.slot] at this
    cases this
  constructor
  · intro hun e he
    have hea : e ≠ .extra a := by
      rintro rfl
      exact hs p name he
    exact hea (hun p name e _ ((setAlias_hasEntry_of_ne hea).mpr he) hnew)
  · intro hf
    refine hu.of_new (.extra a) fun r n e hea he => ?_
    have hold := (setAlias_hasEntry_of_ne hea).mp he
    refine ⟨hold, fun hal => ?_⟩
    obtain ⟨-, rfl, rfl⟩ := setAlias_hasEntry_self.mp hal
    exact hf e hold

theorem Sane.retain_none (hs : s.Sane tidy held) {p j : Fin 64} {name : Name}
    (hf : s.found p name = some j) :
    s.retain j = none ↔ (s.nodes j).references = 0xFFFFFFFF := by
  have hac : (s.nodes j).active = true := by
    rcases hs.found_cases p name with ⟨hn, -⟩ | ⟨e, j', -, hso, -, hac⟩
    · rw [hn] at hf
      cases hf
    · rw [hso] at hf
      cases hf
      exact hac
  have hpos := (hs.counted.active j hac).2
  unfold Tables.retain
  split_ifs with hbad
  · simp only [hac] at hbad
    simp only [true_iff]
    rcases hbad with h | h | h
    · cases h
    · omega
    · exact h
  · simp only [false_iff]
    push Not at hbad
    exact hbad.2.2

/-- A create or symlink that succeeds finds no alias of its name in the directory, and a
link that succeeds was not misled by a saturated reference count. -/
def KeepsNames (s : Tables) : Call → Prop
  | .create directory name type mode disk spare =>
    (s.createMode directory name type mode disk spare).1 ≠ none →
      ∀ p, directory = some p → ∀ a, ¬ s.AliasNamed p name a
  | .symlink directory name target disk written spare =>
    (s.symlink directory name target disk written spare).1 ≠ none →
      ∀ p, directory = some p → ∀ a, ¬ s.AliasNamed p name a
  | .link object directory name disk =>
    (s.link object directory name disk).1 = true →
      ∀ p j, directory = some p → s.found p name = some j →
        (s.nodes j).references ≠ 0xFFFFFFFF
  | _ => True

theorem UniqueNames.perform_iff (hu : s.UniqueNames) (hs : s.Sane tidy held) {call : Call}
    (hca : ¬ call.IsMount) : (s.perform call).UniqueNames ↔ s.KeepsNames call := by
  cases call with
  | create directory name type mode disk spare =>
    simp only [Tables.perform, KeepsNames]
    rcases createMode_cases s directory name type mode disk spare with
      h | ⟨i, node, -, hnod, h⟩ | ⟨p, i, node, rfl, hcr, h⟩
    · simpa [h] using hu
    · simpa [h] using hu.fewer (setNode_free_fewer hnod)
    · rw [h, hcr.unique_iff node hu ⟨hcr.live.1, hcr.live.2, rfl, rfl⟩]
      simp
  | symlink directory name target disk written spare =>
    simp only [Tables.perform, KeepsNames]
    rcases symlink_cases s directory name target disk written spare with
      h | ⟨i, node, -, hnod, h⟩ | ⟨p, i, node, rfl, hcr, ⟨-, -, h⟩ | ⟨-, h⟩⟩
    · simpa [h] using hu
    · simpa [h] using hu.fewer (setNode_free_fewer hnod)
    · simpa [h] using hu.fewer (setNode_fewer fun _ hl => by cases hl)
    · have hiff := hcr.unique_iff
        { node with target := target, size := UInt32.ofNat target.length } hu
        ⟨hcr.live.1, hcr.live.2, rfl, rfl⟩
      rw [h, hiff]
      simp
  | link object directory name disk =>
    simp only [Tables.perform, KeepsNames]
    rcases link_cases s object directory name disk with h | ⟨i, p, a, rfl, rfl, hl, h⟩
    · simpa [h] using hu
    rw [h, hl.unique_iff hu]
    constructor
    · rintro hfr - q j hq hfo
      cases hq
      rcases hs.found_cases p name with ⟨hnon, -⟩ | ⟨e, -, he, -⟩
      · rw [hnon] at hfo
        cases hfo
      · exact absurd he (hfr e)
    · intro hcount e he
      rcases hs.found_cases p name with ⟨-, hnon⟩ | ⟨-, j, -, hfo, -⟩
      · exact hnon e he
      · exact hcount rfl p j rfl hfo ((hs.retain_none hfo).mp (hl.fresh j hfo))
  | unlink directory name disk =>
    simp only [KeepsNames, iff_true]
    exact (hu.unlinkLocked directory name disk).fewer (finish_fewer _)
  | rename oldDirectory name newDirectory newName disk moved =>
    simp only [KeepsNames, iff_true]
    exact (hu.renameLocked hs oldDirectory name newDirectory newName disk moved).fewer
      (finish_fewer _)
  | lookup directory name =>
    simp only [KeepsNames, iff_true]
    exact hu.fewer (lookup_fewer directory name)
  | release object =>
    simp only [KeepsNames, iff_true, Tables.perform]
    split_ifs
    · exact hu.fewer (release_fewer object)
    · exact hu
  | openFile object spare =>
    simp only [KeepsNames, iff_true]
    exact hu.fewer (openFile_fewer hs object spare)
  | closeFile file =>
    simp only [KeepsNames, iff_true]
    exact hu.fewer (closeFile_fewer file)
  | mountBootfs directory entries spare => exact absurd trivial hca
  | mountAdytumfs directory volume spare => exact absurd trivial hca
  | unmount directory =>
    simp only [KeepsNames, iff_true]
    exact hu.fewer (unmount_fewer directory)

theorem run_uniqueNames {calls : List Call} (hu : s.UniqueNames) (hs : s.Sane False held)
    (hca : ∀ call ∈ calls, ¬ call.IsMount)
    (h : ∀ before call after, calls = before ++ call :: after → (s.run before).KeepsNames call) :
    (s.run calls).UniqueNames := by
  induction calls using reverseRecOn with
  | nil => exact hu
  | append_singleton calls call ih =>
    have hrun := ih (fun c hc => hca c (mem_append_left _ hc))
      (fun before c after heq => h before c (after ++ [call]) (by simp [heq]))
    obtain ⟨held', hsa⟩ := run_sane hs calls
    rw [run_concat]
    exact (hrun.perform_iff hsa (hca call (by simp))).mpr (h calls call [] rfl)

/-- From sane tables with unique names, names stay unique through a run of calls exactly if
every create, symlink and link of the run keeps them so; and then rename, lookup and unlink act
on the one entry of a name. -/
theorem uniqueNames_iff {s : Tables} {held : Fin 64 → ℕ} (hs : s.Sane False held)
    (hu : s.UniqueNames) (calls : List Call) (hcalls : ∀ call ∈ calls, ¬ call.IsMount) :
    ((∀ before, before <+: calls → (s.run before).UniqueNames) ↔
      ∀ before call after, calls = before ++ call :: after → (s.run before).KeepsNames call) ∧
    ∀ before, before <+: calls → (s.run before).UniqueNames →
      ∀ p name e disk, (s.run before).HasEntry p name e →
        (s.run before).findEntry p name = some e ∧
        (s.run before).found p name = (s.run before).reached e ∧
        ((s.run before).unlinkLocked (some p) name disk = ⟨false, none, s.run before⟩ ∨
          (s.run before).unlinkLocked (some p) name disk = (s.run before).removed e) := by
  refine ⟨⟨?_, ?_⟩, ?_⟩
  · intro hun before call after heq
    obtain ⟨held', hsa⟩ := run_sane hs before
    have hcall : ¬ call.IsMount := hcalls call (by simp [heq])
    refine ((hun before ⟨call :: after, heq.symm⟩).perform_iff hsa hcall).mp ?_
    rw [← run_concat]
    exact hun _ ⟨after, by simp [heq]⟩
  · intro hk before hst
    obtain ⟨rest, rfl⟩ := hst
    apply run_uniqueNames hu hs (fun call hcall => hcalls call (mem_append_left _ hcall))
    intro xs call ys heq
    exact hk xs call (ys ++ rest) (by simp [heq])
  · intro before _ hun p name e disk he
    obtain ⟨held', hsa⟩ := run_sane hs before
    exact hun.same_entry hsa he disk

theorem boot_uniqueNames : boot.UniqueNames := by
  intro p name e e' he
  cases e with
  | primary i =>
    obtain ⟨ha, -, hp, -⟩ := he
    by_cases hi : i = 0
    · subst hi
      cases hp
    · simp [boot, Function.update_of_ne hi, blankNode] at ha
  | extra a => cases he.1

/-- A file and a second name for it. -/
def linkCalls : List Call :=
  [.create (some 0) [97] .regular 0o666 none 1, .link (some 1) (some 0) [98] true]

theorem uniqueNames_linked : (boot.run linkCalls).UniqueNames := by
  refine (uniqueNames_iff boot_sane.weaken boot_uniqueNames linkCalls ?_).1.mpr ?_ linkCalls
    (prefix_refl _)
  · simp [linkCalls, Call.IsMount]
  · intro before call after heq
    rcases before with _ | ⟨first, _ | ⟨second, rest⟩⟩
    · obtain ⟨rfl, -⟩ := cons.inj heq
      rintro - p hp a ha
      cases ha.1
    · obtain ⟨rfl, ht⟩ := cons.inj heq
      obtain ⟨rfl, -⟩ := cons.inj ht
      rintro - p j hp hf
      cases hp
      have hn : (boot.run [.create (some 0) [97] .regular 0o666 none 1]).found 0
        [98] = none := by
        decide +kernel
      rw [hn] at hf
      cases hf
    · simp [linkCalls] at heq

/-- The same with a create of the second name at the end. -/
def duplicateCalls : List Call := linkCalls ++ [.create (some 0) [98] .regular 0o666 none 1]

theorem duplicateName : ¬ (boot.run duplicateCalls).UniqueNames := by
  intro h
  have he : (boot.run duplicateCalls).HasEntry 0 [98] (.primary 2) ∧
      (boot.run duplicateCalls).HasEntry 0 [98] (.extra 0) := by
    decide +kernel
  cases h 0 [98] _ _ he.1 he.2

end MichCore.Vfs.Tables
