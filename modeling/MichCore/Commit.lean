import MichCore.Staging

/-!
# The commit of a window

`adytumfs_commit` writes the staged blocks to the inactive metadata set and the superblock of
the next generation, with a flush after each. Blocks that were not staged keep what the inactive
set held.
-/
namespace MichCore.Adytumfs
open Routine List

namespace Layout
variable {super : Superblock} (h : Layout super)
include h

theorem places : slotBase super false false = 1 ∧
    slotBase super true false = 1 + metaBlocks super false ∧
    slotBase super false true = super.totalBlocks.toNat - 1 - metaBlocks super false ∧
    slotBase super true true =
      super.totalBlocks.toNat - 1 - metaBlocks super false - metaBlocks super true ∧
    (superblockSlot super.totalBlocks false).toNat = 0 ∧
    (superblockSlot super.totalBlocks true).toNat = super.totalBlocks.toNat - 1 ∧
    super.dataStart.toNat = 1 + metaBlocks super false + metaBlocks super true ∧
    super.dataStart.toNat < super.dataChecksumRegion.toNat ∧
    super.dataChecksumRegion.toNat +
      (super.dataChecksumRegion.toNat - super.dataStart.toNat + 1023) / 1024 +
      metaBlocks super true + metaBlocks super false + 1 ≤ super.totalBlocks.toNat :=
  ⟨h.bitmapSlotBase_false, h.tableSlotBase_false, h.bitmapSlotBase_true, h.tableSlotBase_true,
    rfl, h.superblockSlot_true, h.dataStart, h.dataPos, h.tail⟩

theorem slotBase_inj {slot t t' : Bool} {i i' : ℕ} (hi : i < metaBlocks super t)
    (hi' : i' < metaBlocks super t')
    (he : slotBase super t slot + i = slotBase super t' slot + i') : t = t' ∧ i = i' := by
  obtain ⟨h1, h2, h3, h4, -, -, h5, h6, h7⟩ := h.places
  cases slot <;> cases t <;> cases t' <;>
    first
    | exact ⟨rfl, by omega⟩
    | (exfalso; omega)

theorem slotBase_ne {t t' : Bool} (slot : Bool) {i i' : ℕ} (hi : i < metaBlocks super t)
    (hi' : i' < metaBlocks super t') :
    slotBase super t slot + i ≠ slotBase super t' (!slot) + i' := by
  obtain ⟨h1, h2, h3, h4, -, -, h5, h6, h7⟩ := h.places
  cases slot <;> cases t <;> cases t' <;> simp only [Bool.not_true, Bool.not_false] <;> omega

theorem slotBase_ne_superblock {t : Bool} (slot slot' : Bool) {i : ℕ}
    (hi : i < metaBlocks super t) :
    slotBase super t slot + i ≠ (superblockSlot super.totalBlocks slot').toNat := by
  obtain ⟨h1, h2, h3, h4, h5, h6, h7, h8, h9⟩ := h.places
  cases slot <;> cases slot' <;> cases t <;> omega

end Layout

/-- Where a staged block lands in a metadata set. -/
def landing (super : Superblock) (slot : Bool) (s : Staged) : ℕ :=
  slotBase super s.isTable slot + s.index.toNat

/-- The staged blocks of the entries in `l` are in a metadata set; nothing else
was written. -/
structure Landed (c : World) (slot : Bool) (l : List (Fin 32)) (f' : Flat) : Prop where
  same : SameDevice c.store f'
  landed : ∀ e ∈ l, (c.mem.staging e).device = some c.mem.device →
    f'.blk (landing c.mem.super slot (c.mem.staging e)) = (c.mem.staging e).image
  kept : ∀ b, (∀ e ∈ l, (c.mem.staging e).device = some c.mem.device →
    b ≠ landing c.mem.super slot (c.mem.staging e)) → f'.blk b = c.store.blk b
  writes : ∃ new, f'.writes = new ++ c.store.writes ∧ ∀ p ∈ new, ∃ e,
    (c.mem.staging e).device = some c.mem.device ∧
      p = (landing c.mem.super slot (c.mem.staging e), (c.mem.staging e).image)

variable {f : Flat} {m : Mem}

theorem exec_landEntries (slot : Bool) (hs : StagingOk m) (l : List (Fin 32))
    (hl : l.Nodup) (h : Mounted ⟨m, f⟩) (hw : f.readOnly = false) :
    ∃ f', exec flatStore (landEntries slot l) ⟨m, f⟩ = (some (), ⟨m, f'⟩) ∧
      Landed ⟨m, f⟩ slot l f' := by
  induction l generalizing f with
  | nil => exact ⟨f, rfl, SameDevice.refl f, by simp, fun _ _ => rfl, [], rfl, by simp⟩
  | cons e rest ih =>
    obtain ⟨he, hr⟩ := nodup_cons.mp hl
    rw [landEntries, exec_bind, exec_getMem, follow_some]
    dsimp only
    by_cases hown : (m.staging e).device = some m.device
    · have hin := h.slotBase_lt _ slot (hs.inside e hown)
      rw [if_pos hown, exec_bind, landEntry, exec_blockWrite _ hin hw, follow_some]
      dsimp only
      set b := slotBase m.super (m.staging e).isTable slot + (m.staging e).index.toNat with hb
      obtain ⟨f', hex, hld⟩ := ih hr (f := f.setBlock b (m.staging e).image)
        ⟨h.layout, h.fits, h.small, h.tame⟩ hw
      have hot : ∀ e' ∈ rest, (m.staging e').device = some m.device →
          b ≠ landing m.super slot (m.staging e') := by
        intro e' he' hown' hsa
        obtain ⟨h1, h2⟩ := h.layout.slotBase_inj (hs.inside e hown) (hs.inside e' hown') hsa
        exact he (by rwa [hs.unique e e' hown hown' h1 (UInt8.toNat_inj.mp h2)])
      refine ⟨f', hex, (sameDevice_setBlock f _ _).trans hld.same, ?_, ?_, ?_⟩
      · intro e' he' hown'
        rcases mem_cons.mp he' with rfl | he'
        · refine (hld.kept b hot).trans ?_
          simp [Flat.setBlock]
        · exact hld.landed e' he' hown'
      · intro b' hb'
        have hne : b' ≠ b := hb' e mem_cons_self hown
        refine (hld.kept b' (fun e' he' => hb' e' (mem_cons_of_mem _ he'))).trans ?_
        simp [Flat.setBlock, hne]
      · obtain ⟨new, hnew, hmem⟩ := hld.writes
        refine ⟨new ++ [(b, (m.staging e).image)], by rw [hnew]; simp [Flat.setBlock], ?_⟩
        intro p hp
        rcases mem_append.mp hp with hp | hp
        · exact hmem p hp
        · exact ⟨e, hown, mem_singleton.mp hp⟩
    · rw [if_neg hown]
      obtain ⟨f', hex, hld⟩ := ih hr h hw
      refine ⟨f', hex, hld.same, ?_, ?_, hld.writes⟩
      · intro e' he' hown'
        rcases mem_cons.mp he' with rfl | he'
        · exact absurd hown' hown
        · exact hld.landed e' he' hown'
      · intro b hb
        exact hld.kept b (fun e' he' => hb e' (mem_cons_of_mem _ he'))

/-- Memory after a commit: next generation, window closed. -/
def committedMem (m : Mem) : Mem :=
  { m with
    super := nextSuper m.super
    staging := fun e => if (m.staging e).device = some m.device then
      { m.staging e with device := none } else m.staging e }

theorem windowOpen_committedMem (m : Mem) : windowOpen (committedMem m) = false := by
  rw [windowOpen, any_eq_false]
  intro e _
  simp only [committedMem, decide_eq_true_eq]
  split
  · simp
  · next he =>
    exact he

/-- Position of the superblock a commit writes. -/
def flipBlock (super : Superblock) : ℕ :=
  (superblockSlot super.totalBlocks (!super.activeSlot)).toNat

/-- What a commit leaves on the device. -/
structure Committed (c : World) (f' : Flat) : Prop where
  same : SameDevice c.store f'
  clean : ∀ b, f'.dirty b = false
  flip : f'.blk (flipBlock c.mem.super) = superPack (nextSuper c.mem.super)
  metadata : ∀ isTable, ∀ i < metaBlocks c.mem.super isTable,
    f'.blk (slotBase c.mem.super isTable (!c.mem.super.activeSlot) + i) =
      match stagedAt c.mem isTable i with
      | some e => (c.mem.staging e).image
      | none => c.store.blk (slotBase c.mem.super isTable (!c.mem.super.activeSlot) + i)
  kept : ∀ b, b ≠ flipBlock c.mem.super → (∀ isTable, ∀ i < metaBlocks c.mem.super isTable,
    b ≠ slotBase c.mem.super isTable (!c.mem.super.activeSlot) + i) → f'.blk b = c.store.blk b

theorem exec_commit (h : Mounted ⟨m, f⟩) (hs : StagingOk m)
    (hw : f.readOnly = false) (hop : windowOpen m = true) :
    ∃ f', exec flatStore commit ⟨m, f⟩ = (some (), ⟨committedMem m, f'⟩) ∧ Committed ⟨m, f⟩ f' := by
  have hp := h.layout.places
  have hfits := h.fits
  dsimp only at hfits hp
  obtain ⟨f1, hla, hld⟩ := exec_landEntries (!m.super.activeSlot) hs (finRange 32)
    (nodup_finRange 32) h hw
  have hfl : flipBlock m.super < f1.blocks := by
    rw [hld.same.blocks]
    change _ < f.blocks
    unfold flipBlock
    cases m.super.activeSlot <;> simp only [Bool.not_true, Bool.not_false] <;> omega
  have hne : ∀ isTable, ∀ i < metaBlocks m.super isTable,
      slotBase m.super isTable (!m.super.activeSlot) + i ≠ flipBlock m.super :=
    fun isTable i hi => h.layout.slotBase_ne_superblock _ _ hi
  let f2 : Flat := { f1 with dirty := fun _ => false }
  let f3 := f2.setBlock (flipBlock m.super) (superPack (nextSuper m.super))
  refine ⟨{ f3 with dirty := fun _ => false }, ?_, ?_⟩
  · have hwr : exec flatStore (blockWrite (flipBlock m.super) (superPack (nextSuper m.super)))
        ⟨m, f2⟩ = (some (), ⟨m, f3⟩) :=
      exec_blockWrite (c := ⟨m, f2⟩) _ hfl (hld.same.readOnly.trans hw)
    rw [commit, exec_bind, exec_getMem, follow_some, if_neg (by rw [hop]; simp), exec_bind,
      hla, follow_some, exec_bind, exec_cacheFlush, follow_some, exec_bind]
    change follow flatStore _ (exec flatStore (blockWrite (flipBlock m.super)
      (superPack (nextSuper m.super))) ⟨m, f2⟩) = _
    rw [hwr, follow_some]
    rfl
  · refine ⟨⟨hld.same.sectorCount, hld.same.readOnly, hld.same.wild⟩, fun _ => rfl, ?_, ?_, ?_⟩
    · exact Function.update_self ..
    · intro isTable i hi
      refine (Function.update_of_ne (hne isTable i hi) ..).trans ?_
      cases hst : stagedAt m isTable i with
      | some e =>
        obtain ⟨hown, ht, hx⟩ := stagedAt_some hst
        have := hld.landed e (mem_finRange e) hown
        rw [landing] at this
        dsimp only at this ⊢
        rwa [ht, hx] at this
      | none =>
        refine hld.kept _ (fun e _ hown hsa => ?_)
        obtain ⟨h1, h2⟩ := h.layout.slotBase_inj hi (hs.inside e hown) hsa
        exact stagedAt_none.mp hst e hown h1.symm h2.symm
    · intro b hb hot
      refine (Function.update_of_ne hb ..).trans (hld.kept b (fun e _ hown => ?_))
      exact hot _ _ (hs.inside e hown)

theorem exec_commit_closed (hc : windowOpen m = false) :
    exec flatStore commit ⟨m, f⟩ = (some (), ⟨m, f⟩) := by
  rw [commit, exec_bind, exec_getMem, follow_some, if_pos hc, exec_pure]

/-- The committed generation is the window's view exactly when the blocks the
window left alone were the same in both sets. -/
theorem Committed.view_iff {c : World} {f' : Flat} (hc : Committed c f') :
    (∀ isTable, ∀ i < metaBlocks c.mem.super isTable,
      committedBlock ⟨committedMem c.mem, f'⟩ isTable i = viewBlock c isTable i) ↔
    ∀ isTable, ∀ i < metaBlocks c.mem.super isTable, stagedAt c.mem isTable i = none →
      c.store.blk (slotBase c.mem.super isTable (!c.mem.super.activeSlot) + i) =
        c.store.blk (slotBase c.mem.super isTable c.mem.super.activeSlot + i) := by
  refine forall_congr' (fun isTable => forall_congr' (fun i => forall_congr' (fun hi => ?_)))
  have hm := hc.metadata isTable i hi
  change f'.blk (slotBase c.mem.super isTable (!c.mem.super.activeSlot) + i) = _ ↔ _
  rw [hm, viewBlock]
  cases stagedAt c.mem isTable i with
  | some e => simp
  | none => simp [committedBlock]

end MichCore.Adytumfs
