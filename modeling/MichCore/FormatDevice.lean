import MichCore.FormatVolume

/-!
# Formatting a cached device

On a device of 8 to 23 sectors `adytumfs_make` writes through the cache and then fails; on every
other size it refuses before the first write or leaves a fresh volume.
-/
namespace MichCore.Adytumfs
open Routine BlockCache

/-- No sector of the device was written, and none waits in the cache. -/
structure Untouched (d : ℕ) (c c' : Sys) : Prop where
  log : ∃ new, c'.store.log = c.store.log ++ new ∧ ∀ w ∈ new, w.1 ≠ d
  pending : ∀ w, Pending c' w → w.1 ≠ d

/-- The device holds block `a` and block `b` with the same bytes. -/
def SameOnDevice (d : ℕ) (c : Sys) (a b : ℕ) : Prop :=
  ∀ s < 8, c.store.sector d (8 * a + s) = c.store.sector d (8 * b + s)

/-- Both metadata sets of a volume hold the same bytes on the device. -/
structure CopiesAgree (d : ℕ) (super : Superblock) (c : Sys) : Prop where
  superblocks : SameOnDevice d c (superblockSlot super.totalBlocks false).toNat
    (superblockSlot super.totalBlocks true).toNat
  bitmaps : ∀ i < super.blockBitmapBlocks.toNat,
    SameOnDevice d c (slotBase super false false + i) (slotBase super false true + i)
  tables : ∀ i < super.inodeTableBlocks.toNat,
    SameOnDevice d c (slotBase super true false + i) (slotBase super true true + i)

/-- The device holds a volume of generation 1 that a mount accepts, with an empty
root directory. -/
structure FreshVolume (d : ℕ) (super : Superblock) (c : Sys) : Prop where
  generation : super.generation = 1
  activeSlot : super.activeSlot = false
  picked : ∀ m : Mem, (exec (cachedStore d) superRead ⟨m, c⟩).1 = some super
  verified : ∀ m : Mem, m.super = super → windowOpen m = false →
    (exec (cachedStore d) verify ⟨m, c⟩).1 = some ()
  root : ∀ m : Mem, m.super = super → windowOpen m = false →
    ∃ inode, (exec (cachedStore d) (dirInode super.rootInode.toNat) ⟨m, c⟩).1 = some inode ∧
      inode.size = 0 ∧ inode.blocks = 0
  empty : ∀ m : Mem, m.super = super → windowOpen m = false →
    (exec (cachedStore d) (dirIter super.rootInode.toNat 0) ⟨m, c⟩).1 = some none
  copies : CopiesAgree d super c

/-- A number of loop turns quadratic in the number of blocks, and a refusal that
wrote nothing or a fresh volume. -/
structure MakeOk (d : ℕ) (m : MakeMem) (c : Sys) : Prop where
  steps : (exec (cachedStore d) make ⟨m, c⟩).2.mem.steps ≤
    m.steps + (c.store.sectorCount d / 8 + 1) * (c.store.sectorCount d / 8 + 70000)
  result : (exec (cachedStore d) make ⟨m, c⟩).1 = none ∧
      Untouched d c (exec (cachedStore d) make ⟨m, c⟩).2.store ∨
    (exec (cachedStore d) make ⟨m, c⟩).1 = some () ∧
      ∃ super, FreshVolume d super (exec (cachedStore d) make ⟨m, c⟩).2.store

variable {c c' : Sys} {d : ℕ} {f : Flat}

theorem Simulates.sameOnDevice {base : List (ℕ × ℕ × Sector)} (hR : Simulates d base c f)
    (hc : ∀ b, f.dirty b = false) {a b : ℕ} (ha : a < f.blocks) (hb : b < f.blocks)
    (he : f.blk a = f.blk b) : SameOnDevice d c a b := by
  intro s hs
  rw [hR.sector_eq ha hs (hc a), hR.sector_eq hb hs (hc b), he]

theorem Made.inodeAt_root {m : Mem} {now : UInt64} (hmade : Made m.super now f.blk)
    (hL : Layout m.super) (hc : windowOpen m = false) :
    inodeAt ⟨m, f⟩ 1 = some (rootInode now) := by
  rw [inodeAt, viewBlock_of_closed hc]
  exact hmade.slotInode_root hL

section Fresh
variable {d : ℕ} {base : List (ℕ × ℕ × Sector)} {c : Sys} {f : Flat} {super : Superblock}
  {now : UInt64} (hR : Simulates d base c f) (hmade : Made super now f.blk) (hL : Layout super)
  (hfits : super.totalBlocks.toNat ≤ f.blocks) (hw : f.wild = false)
include hR hmade hL hfits hw

omit hw in
theorem Made.copiesAgree (hc : ∀ b, f.dirty b = false) : CopiesAgree d super c := by
  have hsa := fun {a b : ℕ} => Simulates.sameOnDevice hR hc (a := a) (b := b)
  have h0 := hL.order false
  have h1 := hL.order true
  have hs := hL.superblockSlot_true
  have ht := hL.tail
  constructor
  · refine hsa (by change 0 < _; omega) (by omega) ?_
    rw [hmade.superblocks false, hmade.superblocks true]
  · intro i hi
    simp only [slotBase, Bool.false_eq_true, if_false]
    refine hsa (by omega) (by omega) ?_
    have := (hmade.bitmaps false i hi).trans (hmade.bitmaps true i hi).symm
    simpa only [slotBase, Bool.false_eq_true, if_false] using this
  · intro i hi
    simp only [slotBase, if_true]
    refine hsa (by omega) (by omega) ?_
    have := (hmade.tables false i hi).trans (hmade.tables true i hi).symm
    simpa only [slotBase, if_true] using this

theorem Made.exec_dirInode {m : Mem} (hm : m.super = super) (hr : super.rootInode = 1)
    (hc : windowOpen m = false) :
    exec flatStore (dirInode super.rootInode.toNat) ⟨m, f⟩ = (some (rootInode now), ⟨m, f⟩) := by
  subst hm
  have hmo : Mounted ⟨m, f⟩ := ⟨hL, hfits, hR.small, hw⟩
  have hone : m.super.rootInode.toNat = 1 := by rw [hr]; rfl
  have hmax := hL.rootMax
  rw [dirInode, exec_bind, exec_inodeRead hmo, if_neg (by dsimp only; omega), hone,
    hmade.inodeAt_root hL hc, follow_some, if_neg (by simp only [rootInode]; decide), exec_pure]

theorem Made.freshVolume (hcle : ∀ b, f.dirty b = false) (hgen : super.generation = 1)
    (hs : super.activeSlot = false) (hr : super.rootInode = 1)
    (hp : superReadOf f.blocks f.blk = some super) (hau : Audit super f.blk) :
    FreshVolume d super c := by
  have hta := hL.tail
  have hdir := fun {m : Mem} => hmade.exec_dirInode hR hL hfits hw (m := m)
  refine ⟨hgen, hs, fun m => ?_, fun m hm hclo => ?_, fun m hm hclo => ?_,
    fun m hm hclo => ?_, hmade.copiesAgree hR hL hfits hcle⟩
  · have he := exec_superRead (c := (⟨m, f⟩ : World)) hR.small (by dsimp only; omega)
    rw [(exec_cached hR superRead m (by rw [he]; exact hw)).1, he]
    exact hp
  · have hmo : Mounted ⟨m, f⟩ := by
      subst hm
      exact ⟨hL, hfits, hR.small, hw⟩
    have he := (exec_verify hmo hclo).1 (by subst hm; exact hau)
    rw [(exec_cached hR verify m (by rw [he]; exact hw)).1, he]
  · have he := hdir hm hr hclo
    refine ⟨rootInode now, ?_, rfl, rfl⟩
    rw [(exec_cached hR _ m (by rw [he]; exact hw)).1, he]
  · have he : exec flatStore (dirIter super.rootInode.toNat 0) ⟨m, f⟩ = (some none, ⟨m, f⟩) := by
      have hto : ((rootInode now).blocks * 4096).toNat = 0 := by simp [rootInode, Inode.zero]
      rw [dirIter, exec_bind, hdir hm hr hclo, follow_some]
      dsimp only
      rw [hto, dirIterFrom, if_pos (by omega), exec_pure]
    rw [(exec_cached hR _ m (by rw [he]; exact hw)).1, he]

end Fresh

variable {m : MakeMem}

theorem exec_make_tiny (h : f.blocks = 0) : exec flatStore make ⟨m, f⟩ = (none, ⟨m, f⟩) := by
  have hi : exec flatStore (request Req.info : MakeR (ℕ × Bool)) ⟨m, f⟩ =
      (some (f.sectorCount, f.readOnly), ⟨m, f⟩) := rfl
  rw [make, exec_bind, hi, follow_some]
  dsimp only
  rw [show f.sectorCount / 8 = 0 from h]
  split
  · rw [exec_fail]
  · rw [if_pos (.inl (by decide)), exec_fail]

theorem untouched_of_simulates (hR : Simulates d c.store.log c' f) (hw : f.writes = []) :
    Untouched d c c' := by
  have hno : ∀ w, ¬ FromWrites f.writes w := by
    rintro w ⟨p, hp, -⟩
    simp [hw] at hp
  obtain ⟨new, hlog, hnew⟩ := hR.log
  exact ⟨⟨new, hlog, fun w hm hd => hno w (hnew w hm hd)⟩,
    fun w hp hd => hno w (hR.pending w hp hd).2⟩

theorem makeOk_of_size (hc : Coherent c) (hn : c.store.sectorCount d < 2 ^ 32)
    (hw : c.store.readOnly d = false) (hp : ∀ w, Pending c w → w.1 ≠ d)
    (hs : c.store.sectorCount d < 8 ∨ 24 ≤ c.store.sectorCount d) : MakeOk d m c := by
  have hR := simulates_ofSettled hc hn hp
  set f := Flat.ofSettled d c with hf
  have hbl : f.blocks = c.store.sectorCount d / 8 := rfl
  have href : (exec flatStore make ⟨m, f⟩).1 = none → (exec flatStore make ⟨m, f⟩).2.store = f →
      (exec flatStore make ⟨m, f⟩).2.mem.steps ≤ m.steps + (f.blocks / 1024 + 1) →
      MakeOk d m c := by
    intro h1 h2 h3
    obtain ⟨hres, hmem, hR'⟩ := exec_cached hR make m (by rw [h2]; rfl)
    rw [h2] at hR'
    refine ⟨?_, .inl ⟨hres.trans h1, untouched_of_simulates hR' rfl⟩⟩
    rw [hmem, ← hbl]
    nlinarith [h3, Nat.div_le_self f.blocks 1024]
  rcases hs with hs | hs
  · have he := exec_make_tiny (m := m) (f := f) (by omega)
    exact href (by rw [he]) (by rw [he]) (by rw [he]; dsimp only; omega)
  rcases exec_make (m := m) (f := f) hw hn (by omega) with ⟨h1, h2, h3⟩ |
    ⟨r, turns, f', hfo, htu, he, hd, hcl, hmade⟩
  · exact href h1 h2 h3
  have hL := makeSuper_layout hfo
  have hb := toNat_blocks hfo.blocks
  have hin := toNat_makeInodes hfo
  have hreg := toNat_makeRegion hfo
  have hto : (makeSuper (UInt64.ofNat f.blocks) r).totalBlocks.toNat = f.blocks := hb
  obtain ⟨hres, hmem, hR'⟩ := exec_cached hR make m (by rw [he]; exact hd.wild)
  rw [he] at hres hmem hR'
  refine ⟨?_, .inr ⟨hres, _, hmade.freshVolume hR' hL ?_ hd.wild hcl rfl rfl rfl ?_ ?_⟩⟩
  · rw [hmem, ← hbl]
    exact Nat.add_le_add_left (makeCost_le hfo htu) _
  · rw [hd.blocks]
    exact hto.le
  · rw [hd.blocks]
    exact hmade.superReadOf_eq rfl rfl rfl (makeSuper_valid hfo rfl)
  · refine hmade.audit hL ?_ ?_ (by rw [hin]; omega)
    · rw [toNat_makeData hfo, hreg]
      change _ = _ - (dataStartOf (UInt64.ofNat f.blocks)).toNat
      rw [toNat_dataStartOf hfo.blocks]
      omega
    · change ((makeSuper (UInt64.ofNat f.blocks) r).inodeCount - 2).toNat = _
      rw [UInt64.toNat_sub_of_le _ _ (UInt64.le_iff_toNat_le.mpr (by
        rw [hin]; change 2 ≤ _; omega))]
      rfl

/-- Something of the device was written since `c`, or waits to be. -/
structure Marked (d : ℕ) (c c' : Sys) : Prop where
  coherent : Coherent c'
  count : c'.store.sectorCount = c.store.sectorCount
  readOnly : c'.store.readOnly = c.store.readOnly
  written : ∃ new, c'.store.log = c.store.log ++ new ∧
    ((∃ w ∈ new, w.1 = d) ∨ ∃ w, Pending c' w ∧ w.1 = d)

theorem Marked.not_untouched (h : Marked d c c') : ¬ Untouched d c c' := by
  rintro ⟨⟨new, hlog, hnew⟩, hp⟩
  obtain ⟨new', hlog', hm⟩ := h.written
  obtain rfl := List.append_cancel_left (hlog.symm.trans hlog')
  rcases hm with ⟨w, hw, hd⟩ | ⟨w, hw, hd⟩
  · exact hnew w hw hd
  · exact hp w hw hd

theorem Marked.of_sameView {c'' : Sys} (h : Marked d c c') (hc : Coherent c'')
    (hs : SameView c' c'') : Marked d c c'' := by
  refine ⟨hc, hs.count.trans h.count, hs.readOnly.trans h.readOnly, ?_⟩
  obtain ⟨new, hlog, hm⟩ := h.written
  obtain ⟨more, hlog', -, hk⟩ := hs.log
  refine ⟨new ++ more, by rw [hlog', hlog, List.append_assoc], ?_⟩
  rcases hm with ⟨w, hw, hd⟩ | ⟨w, hw, hd⟩
  · exact .inl ⟨w, List.mem_append_left _ hw, hd⟩
  · rcases hk w hw with hw | hw
    · exact .inr ⟨w, hw, hd⟩
    · exact .inl ⟨w, List.mem_append_right _ hw, hd⟩

theorem Marked.flush (h : Marked d c c') :
    ∃ new, (cachedStore d .flush c').2.store.log = c.store.log ++ new ∧ ∃ w ∈ new, w.1 = d := by
  obtain ⟨c'', he, hc'', hs, hf⟩ := exec_flush d h.coherent
  obtain ⟨new, hlog, hm⟩ := (h.of_sameView hc'' hs).written
  refine ⟨new, by simp only [cachedStore, he, hlog], ?_⟩
  rcases hm with hm | ⟨w, hw, hd⟩
  · exact hm
  · exact absurd hd (hf w hw)

theorem write_marks {b : ℕ} (image : Block) (hc : Coherent c')
    (hcount : c'.store.sectorCount = c.store.sectorCount)
    (hro : c'.store.readOnly = c.store.readOnly) (hlog : ∃ new, c'.store.log = c.store.log ++ new)
    (hn : c.store.sectorCount d < 2 ^ 32) (hw : c.store.readOnly d = false)
    (hb : blockLba b < c.store.sectorCount d) :
    ∃ c'', cachedStore d (.write b image) c' = (true, c'') ∧ Marked d c c'' := by
  have hal : blockLba b % 8 = 0 := by unfold blockLba; omega
  obtain ⟨c'', he, hc'', hwr, hp⟩ := exec_writePage hc d (blockLba b) image.sector hal
    (by rw [hcount]; exact hb) (by rw [hcount]; exact hn) (by rw [hro]; exact hw)
  refine ⟨c'', by simp only [cachedStore, he, Option.isSome_some], hc'', hwr.count.trans hcount,
    hwr.readOnly.trans hro, ?_⟩
  obtain ⟨new, hnew⟩ := hlog
  obtain ⟨more, hm, -⟩ := hwr.log
  exact ⟨new ++ more, by rw [hm, hnew, List.append_assoc], .inr ⟨_, hp, rfl⟩⟩

section Short
variable {d : ℕ} {c : Sys} (hn : c.store.sectorCount d < 2 ^ 32) (hw : c.store.readOnly d = false)
include hn hw

theorem wp_makeWrite_marked {c' : Sys} (h : Marked d c c') (b : ℕ) (image : Block) :
    wp (cachedStore d) (makeWrite b image)
      (fun _ k => Marked d c k.store ∧ blockLba b < c.store.sectorCount d)
      (fun k => Marked d c k.store) ⟨m, c'⟩ := by
  rw [makeWrite, wp_bind]
  by_cases hb : blockLba b < c.store.sectorCount d
  · obtain ⟨new, hlog, -⟩ := h.written
    obtain ⟨c'', he, hm⟩ := write_marks image h.coherent h.count h.readOnly ⟨new, hlog⟩ hn hw hb
    rw [wp_of_some (exec_request_eq _ _ he)]
    exact ⟨hm, hb⟩
  · have hal : blockLba b % 8 = 0 := by unfold blockLba; omega
    obtain ⟨c'', he, hc'', hs⟩ := exec_writePage_past h.coherent d (blockLba b) image.sector hal
      (by rw [h.count]; omega) (Nat.mod_lt _ (by omega))
    have hreq : cachedStore d (.write b image) c' = (false, c'') := by
      simp only [cachedStore, he, Option.isSome_none]
    rw [wp_of_some (exec_request_eq _ _ hreq)]
    exact h.of_sameView hc'' hs

theorem wp_makeCopies_marked (turns : ℕ) (start shadow : UInt64) (image : ℕ → Block)
    (index k : ℕ) {c' : Sys} (h : Marked d c c') :
    wp (cachedStore d) (makeCopies turns start shadow image index k)
      (fun _ r => Marked d c r.store ∧
        (0 < k → blockLba (shadow + UInt64.ofNat index).toNat < c.store.sectorCount d))
      (fun r => Marked d c r.store) ⟨m, c'⟩ := by
  induction k generalizing index m c' with
  | zero => exact ⟨h, fun h0 => absurd h0 (by omega)⟩
  | succ k ih =>
    rw [makeCopies, wp_bind]
    change wp (cachedStore d) _ _ _ ⟨m.charged turns, c'⟩
    rw [wp_bind]
    refine wp_mono (wp_makeWrite_marked hn hw h _ _) (fun _ r1 h1 => ?_) (fun _ h => h)
    rw [wp_bind]
    refine wp_mono (wp_makeWrite_marked hn hw h1.1 _ _) (fun _ r2 h2 => ?_) (fun _ h => h)
    exact wp_mono (ih (index + 1) h2.1) (fun _ r3 h3 => ⟨h3.1, fun _ => h2.2⟩) (fun _ h => h)

theorem wp_makeVolume_short (super : Superblock) (regionBlocks : UInt64) (hc : Coherent c)
    (hpos : 0 < c.store.sectorCount d)
    (hshort : 0 < super.blockBitmapBlocks.toNat ∧ c.store.sectorCount d ≤
        blockLba (tailBaseOf super.totalBlocks + super.inodeTableBlocks).toNat ∨
      0 < super.inodeTableBlocks.toNat ∧ c.store.sectorCount d ≤
        blockLba (tailBaseOf super.totalBlocks).toNat) (m : MakeMem) :
    wp (cachedStore d) (makeVolume super regionBlocks) (fun _ _ => False)
      (fun r => Marked d c r.store) ⟨m, c⟩ := by
  obtain ⟨c1, he, h1⟩ := write_marks (b := 0) (superPack super) hc rfl rfl ⟨[], by simp⟩ hn hw
    (by simpa [blockLba] using hpos)
  rw [makeVolume, wp_bind, makeWrite, wp_bind, wp_of_some (exec_request_eq _ _ he)]
  dsimp only
  rw [if_pos rfl, wp_pure, wp_bind]
  refine wp_mono (wp_makeWrite_marked hn hw h1 _ _) (fun _ r2 h2 => ?_) (fun _ h => h)
  rw [wp_bind]
  refine wp_mono (wp_makeCopies_marked hn hw _ _ _ _ _ _ h2.1) (fun _ r3 h3 => ?_) (fun _ h => h)
  rw [wp_bind, makeTables, wp_bind, wp_getMem]
  refine wp_mono (wp_makeCopies_marked hn hw _ _ _ _ _ _ h3.1) (fun _ r4 h4 => ?_) (fun _ h => h)
  have hz : ∀ x : UInt64, x + UInt64.ofNat 0 = x := fun x => by simp
  rcases hshort with ⟨hb, hpa⟩ | ⟨hb, hpa⟩
  · have := h3.2 hb
    rw [hz] at this
    exact absurd this (by omega)
  · have := h4.2 hb
    rw [hz] at this
    exact absurd this (by omega)

theorem wp_make_short (hc : Coherent c) (hsi : 8 ≤ c.store.sectorCount d)
    (hsi' : c.store.sectorCount d < 24) (m : MakeMem) :
    wp (cachedStore d) make (fun _ _ => False) (fun r => Marked d c r.store) ⟨m, c⟩ := by
  have hi : exec (cachedStore d) (request Req.info : MakeR (ℕ × Bool)) ⟨m, c⟩ =
      (some (c.store.sectorCount d, c.store.readOnly d), ⟨m, c⟩) := rfl
  have hshort := fun super r => wp_makeVolume_short hn hw super r hc (by omega)
  have hl : ∀ span : UInt64, ¬ (span - 1 + 1024 - 1) / 1024 > 1 →
      regionLoop span (2 ^ 64) 1 0 = (1, 0) := by
    intro span hs
    rw [show 2 ^ 64 = (2 ^ 64 - 1) + 1 by norm_num, regionLoop, if_neg hs]
  rw [make, wp_bind, wp_of_some hi, hw, if_neg (by simp)]
  dsimp only
  obtain hb | hb : c.store.sectorCount d / 8 = 1 ∨ c.store.sectorCount d / 8 = 2 := by
    omega
  all_goals
    rw [hb, if_neg (by decide), hl _ (by decide)]
    dsimp only
    rw [wp_bind]
    change wp (cachedStore d) _ _ _ ⟨m.charged 0, c⟩
    rw [if_neg (by decide)]
    refine hshort _ _ ?_ _
  · exact .inl ⟨by decide, by rw [show blockLba _ = 4294967288 by decide]; omega⟩
  · exact .inr ⟨by decide, by rw [show blockLba _ = 4294967288 by decide]; omega⟩

theorem make_short (hc : Coherent c) (hsi : 8 ≤ c.store.sectorCount d)
    (hsi' : c.store.sectorCount d < 24) (m : MakeMem) :
    (exec (cachedStore d) make ⟨m, c⟩).1 = none ∧
      Marked d c (exec (cachedStore d) make ⟨m, c⟩).2.store := by
  have hshort := wp_make_short hn hw hc hsi hsi' m
  unfold wp at hshort
  generalize exec (cachedStore d) make ⟨m, c⟩ = r at hshort ⊢
  rcases r with ⟨_ | _, c'⟩
  · exact ⟨rfl, hshort⟩
  · exact hshort.elim

end Short

/-- A blank device of 64 sectors after `adytumfs_make`. -/
def smallestVolume : Sys := (exec (cachedStore 0) make ⟨⟨0, 0⟩, blankSys 64⟩).2.store

theorem smallestVolume_made : ∃ f, Simulates 0 [] smallestVolume f ∧
    f.sectorCount = 64 ∧ f.readOnly = false ∧ f.wild = false ∧ (∀ b, f.dirty b = false) ∧
    Made smallestSuper 0 f.blk := by
  have hR := simulates_ofSettled (d := 0) (coherent_blankSys 64) (by decide)
    (fun w hw => absurd hw (not_pending_boot _ w))
  obtain ⟨m', f', he, hd, hc, hmade⟩ := exec_make_smallest (m := ⟨0, 0⟩)
    (f := Flat.ofSettled 0 (blankSys 64)) rfl rfl
  obtain ⟨-, -, hR'⟩ := exec_cached hR make ⟨0, 0⟩ (by rw [he]; exact hd.wild)
  rw [he] at hR'
  exact ⟨f', hR', hd.sectorCount, hd.readOnly, hd.wild, hc, hmade⟩

theorem made_smallestVolume : Made smallestSuper 0 (shownBlock 0 smallestVolume) := by
  obtain ⟨f, hR, hcount, -, -, -, hmade⟩ := smallestVolume_made
  have hs : ∀ b < 8, shownBlock 0 smallestVolume b = f.blk b := fun b hb =>
    Block.ofSectors_congr (hR.view b (by rw [Flat.blocks, hcount]; exact hb))
  refine ⟨fun slot => ?_, fun slot i hi => ?_, fun slot i hi => ?_, fun b hlo hhi => ?_⟩
  · exact (hs _ (by cases slot <;> decide)).trans (hmade.superblocks slot)
  · obtain rfl : i = 0 := Nat.lt_one_iff.mp hi
    exact (hs _ (by cases slot <;> decide)).trans (hmade.bitmaps slot 0 hi)
  · obtain rfl : i = 0 := Nat.lt_one_iff.mp hi
    exact (hs _ (by cases slot <;> decide)).trans (hmade.tables slot 0 hi)
  · exact (hs b (hhi.trans (by decide))).trans (hmade.checksums b hlo hhi)

/-- The mount audit accepts the formatted volume, whose root directory is in use. -/
theorem verify_smallestVolume :
    superValid smallestSuper (UInt64.ofNat (smallestVolume.store.sectorCount 0 / 8)) ∧
    (exec (cachedStore 0) verify ⟨Mem.fresh 0 smallestSuper, smallestVolume⟩).1 = some () ∧
    slotInode smallestSuper (shownBlock 0 smallestVolume) 1 = some (rootInode 0) ∧
    (rootInode 0).mode ≠ 0 := by
  obtain ⟨f, hR, hcount, -⟩ := smallestVolume_made
  have hse : smallestVolume.store.sectorCount 0 = 64 := hR.count.trans hcount
  have hv : superValid smallestSuper
      (UInt64.ofNat (smallestVolume.store.sectorCount 0 / 8)) = true := by
    rw [hse]
    decide
  have hsm : smallestVolume.store.sectorCount 0 < 2 ^ 32 := by
    rw [hse]
    decide
  have hL : Layout smallestSuper :=
    ((superValid_iff smallestSuper 8 (by decide)).mp (by decide)).2.2.2
  have hau : Audit smallestSuper (shownBlock 0 smallestVolume) :=
    made_smallestVolume.audit hL (by decide) (by decide) (by decide)
  have hr := made_smallestVolume.slotInode_root hL
  -- only these facts of the volume are used: the format is not run again
  generalize smallestVolume = c at *
  refine ⟨hv, ?_, hr, by decide⟩
  exact (verify_iff_audit (Mem.fresh 0 smallestSuper) c hR.coherent hsm hv
    (windowOpen_fresh _ _)).mpr hau

/-- A format of a writable device does its job on every size except 8 to 23
sectors. -/
theorem makeOk_iff (d : ℕ) (m : MakeMem) (c : Sys) (hc : Coherent c)
    (hn : c.store.sectorCount d < 2 ^ 32) (hw : c.store.readOnly d = false)
    (hp : ∀ w, Pending c w → w.1 ≠ d) :
    MakeOk d m c ↔ c.store.sectorCount d < 8 ∨ 24 ≤ c.store.sectorCount d := by
  refine ⟨fun h => ?_, makeOk_of_size hc hn hw hp⟩
  by_contra hs
  obtain ⟨hno, hm⟩ := make_short hn hw hc (by omega) (by omega) m
  rcases h.result with ⟨-, hu⟩ | ⟨he, -⟩
  · exact hm.not_untouched hu
  · rw [hno] at he
    exact absurd he (by simp)

theorem makeOk_blank : MakeOk 0 ⟨0, 0⟩ (blankSys 64) :=
  (makeOk_iff 0 ⟨0, 0⟩ (blankSys 64) (coherent_blankSys 64) (by decide) rfl
    (fun w hw => absurd hw (not_pending_boot _ w))).mpr (.inr (by decide))

/-- On two blocks the format fails with blocks left in the cache that the next
flush writes over the device. -/
theorem make_two_blocks : (exec (cachedStore 0) make ⟨⟨0, 0⟩, blankSys 16⟩).1 = none ∧
    ¬ Untouched 0 (blankSys 16) (exec (cachedStore 0) make ⟨⟨0, 0⟩, blankSys 16⟩).2.store ∧
    ∃ w ∈ (cachedStore 0 .flush
      (exec (cachedStore 0) make ⟨⟨0, 0⟩, blankSys 16⟩).2.store).2.store.log, w.1 = 0 := by
  obtain ⟨hn, hm⟩ := make_short (d := 0) (c := blankSys 16) (by decide) rfl
    (coherent_blankSys 16) (by decide) (by decide) ⟨0, 0⟩
  obtain ⟨new, hlog, w, hw, hd⟩ := hm.flush
  refine ⟨hn, hm.not_untouched, w, ?_, hd⟩
  rw [hlog]
  exact List.mem_append_right _ hw

end MichCore.Adytumfs
