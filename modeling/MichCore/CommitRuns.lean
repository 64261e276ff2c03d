import MichCore.Commit
import MichCore.FormatDevice

/-!
# Runs of windows on a device

A run stages table blocks, edits bitmap bits and commits. A block that was edited in one window
and left alone in the next is rolled back, unless it is the same in both metadata sets.
-/
namespace MichCore.Adytumfs
open Routine BlockCache

/-- Memory of the format layer over the cached device. -/
abbrev Machine := Config Mem Sys

/-- A volume in use on a device that holds everything written so far. -/
structure Attached (k : Machine) : Prop where
  coherent : Coherent k.store
  small : k.store.store.sectorCount k.mem.device < 2 ^ 32
  writable : k.store.store.readOnly k.mem.device = false
  settled : ∀ w, Pending k.store w → w.1 ≠ k.mem.device
  layout : Layout k.mem.super
  fits : k.mem.super.totalBlocks.toNat ≤ k.store.store.sectorCount k.mem.device / 8
  staging : StagingOk k.mem

/-- A block as the device itself holds it. -/
def deviceBlock (d : ℕ) (c : Sys) (b : ℕ) : Block :=
  Block.ofSectors (fun s => c.store.sector d (8 * b + s))

/-- A metadata block as the window sees it: staged image, or block of the active
set. -/
def logicalBlock (k : Machine) (isTable : Bool) (i : ℕ) : Block :=
  match stagedAt k.mem isTable i with
  | some e => (k.mem.staging e).image
  | none => shownBlock k.mem.device k.store
      (slotBase k.mem.super isTable k.mem.super.activeSlot + i)

/-- The set named by the active slot of `k'` is on the device, block for block as
the window of `k` saw it. -/
def Published (k k' : Machine) : Prop :=
  ∀ isTable, ∀ i < metaBlocks k.mem.super isTable,
    deviceBlock k'.mem.device k'.store
        (slotBase k'.mem.super isTable k'.mem.super.activeSlot + i) =
      logicalBlock k isTable i

/-- The blocks the window has not staged are the same in both metadata sets. -/
def UnstagedAgree (k : Machine) : Prop :=
  ∀ isTable, ∀ i < metaBlocks k.mem.super isTable, stagedAt k.mem isTable i = none →
    shownBlock k.mem.device k.store (slotBase k.mem.super isTable (!k.mem.super.activeSlot) + i) =
      shownBlock k.mem.device k.store (slotBase k.mem.super isTable k.mem.super.activeSlot + i)

namespace Attached
variable {k : Machine} (h : Attached k)
include h

theorem simulates : Simulates k.mem.device k.store.store.log k.store
    (Flat.ofSettled k.mem.device k.store) :=
  simulates_ofSettled h.coherent h.small h.settled

theorem mounted : Mounted ⟨k.mem, Flat.ofSettled k.mem.device k.store⟩ :=
  ⟨h.layout, h.fits, h.small, rfl⟩

theorem deviceBlock_eq {b : ℕ} (hb : b < k.store.store.sectorCount k.mem.device / 8) :
    deviceBlock k.mem.device k.store b = shownBlock k.mem.device k.store b := by
  refine Block.ofSectors_congr (fun s hs => ?_)
  rw [shownBlock, Block.sector_ofSectors _ hs, view_of_settled h.coherent (by omega) h.settled]

omit h in
theorem logicalBlock_eq (isTable : Bool) (i : ℕ) : logicalBlock k isTable i =
    viewBlock ⟨k.mem, Flat.ofSettled k.mem.device k.store⟩ isTable i := by
  rw [logicalBlock, viewBlock]
  cases stagedAt k.mem isTable i <;> rfl

end Attached

variable {m : Mem} {k : Machine} {i : ℕ}

theorem attached_of_simulates {base : List (ℕ × ℕ × Sector)} {c : Sys} {f : Flat}
    (hR : Simulates m.device base c f) (hc : ∀ b, f.dirty b = false) (hw : f.readOnly = false)
    (hL : Layout m.super) (hfits : m.super.totalBlocks.toNat ≤ f.blocks) (hs : StagingOk m) :
    Attached ⟨m, c⟩ where
  coherent := hR.coherent
  small := by rw [hR.count]; exact hR.small
  writable := by rw [hR.readOnly]; exact hw
  settled := by
    intro w hp hd
    have hdi := (hR.pending w hp hd).1
    rw [hc] at hdi
    exact absurd hdi (by simp)
  layout := hL
  fits := by rw [hR.count]; exact hfits
  staging := hs

/-- What happens to the metadata of a volume between mount and unmount. -/
inductive WindowOp where
  /-- `adytumfs_table_stage` -/
  | stage (index : ℕ) (image : Block)
  /-- `adytumfs_bit_write` -/
  | edit (block : ℕ) (used : Bool)
  /-- `adytumfs_commit` -/
  | commit

def WindowOp.routine : WindowOp → Fs Unit
  | .stage index image => tableStage index image
  | .edit block used => bitWrite block used
  | .commit => Adytumfs.commit

/-- Staged table blocks are blocks of the volume's table. -/
def WindowOp.Of (super : Superblock) : WindowOp → Prop
  | .stage index _ => index < super.inodeTableBlocks.toNat
  | .edit _ _ => True
  | .commit => True

def WindowOp.run (op : WindowOp) (k : Machine) : Machine :=
  (exec (cachedStore k.mem.device) op.routine k).2

def runWindows (ops : List WindowOp) (k : Machine) : Machine := ops.foldl (fun k op => op.run k) k

theorem runWindows_nil (k : Machine) : runWindows [] k = k := rfl

theorem runWindows_cons (op : WindowOp) (ops : List WindowOp) (k : Machine) :
    runWindows (op :: ops) k = runWindows ops (op.run k) := rfl

/-- What a step of a run keeps of the volume. -/
structure SameVolume (k k' : Machine) : Prop where
  device : k'.mem.device = k.mem.device
  metaBlocks : ∀ isTable, metaBlocks k'.mem.super isTable = metaBlocks k.mem.super isTable

theorem SameVolume.trans {a b c : Machine} (hab : SameVolume a b) (hbc : SameVolume b c) :
    SameVolume a c :=
  ⟨hbc.device.trans hab.device, fun t => (hbc.metaBlocks t).trans (hab.metaBlocks t)⟩

theorem Attached.of_same_store (h : Attached k) (p : Fs Unit) {r : Option Unit} {m' : Mem}
    (he : exec flatStore p ⟨k.mem, Flat.ofSettled k.mem.device k.store⟩ =
      (r, ⟨m', Flat.ofSettled k.mem.device k.store⟩))
    (hd : m'.device = k.mem.device) (hsu : m'.super = k.mem.super) (hs : StagingOk m') :
    (exec (cachedStore k.mem.device) p k).1 = r ∧ (exec (cachedStore k.mem.device) p k).2.mem = m' ∧
      Attached (exec (cachedStore k.mem.device) p k).2 ∧
      ∀ b < k.store.store.sectorCount k.mem.device / 8,
        shownBlock k.mem.device (exec (cachedStore k.mem.device) p k).2.store b =
          shownBlock k.mem.device k.store b := by
  obtain ⟨hres, hmem, hR⟩ := exec_cached h.simulates p k.mem (by rw [he]; rfl)
  rw [he] at hres hmem hR
  generalize exec (cachedStore k.mem.device) p ⟨k.mem, k.store⟩ = out at hres hmem hR ⊢
  obtain ⟨r', m'', c'⟩ := out
  dsimp only at hres hmem hR ⊢
  subst hmem
  refine ⟨hres, rfl, ?_, ?_⟩
  · rw [← hd] at hR
    refine attached_of_simulates hR (fun _ => rfl) ?_ (hsu ▸ h.layout) ?_ hs
    · rw [hd]
      exact h.writable
    · rw [hsu, hd]
      exact h.fits
  · intro b hb
    exact Block.ofSectors_congr (fun s hs' => hR.view b hb s hs')

theorem Attached.commit_open (h : Attached k) (ho : windowOpen k.mem = true) :
    ∃ f', (exec (cachedStore k.mem.device) commit k).1 = some () ∧
      (WindowOp.commit.run k).mem = committedMem k.mem ∧
      Attached (WindowOp.commit.run k) ∧
      Committed ⟨k.mem, Flat.ofSettled k.mem.device k.store⟩ f' ∧
      ∀ b < k.store.store.sectorCount k.mem.device / 8,
        shownBlock k.mem.device (WindowOp.commit.run k).store b = f'.blk b := by
  obtain ⟨f', he, hcom⟩ := exec_commit h.mounted h.staging h.writable ho
  obtain ⟨hres, hmem, hR⟩ := exec_cached h.simulates Adytumfs.commit k.mem
    (by rw [he]; exact hcom.same.wild)
  rw [he] at hres hmem hR
  unfold WindowOp.run WindowOp.routine
  change ∃ f', (exec (cachedStore k.mem.device) Adytumfs.commit ⟨k.mem, k.store⟩).1 = some () ∧ _
  generalize exec (cachedStore k.mem.device) Adytumfs.commit ⟨k.mem, k.store⟩ = out
    at hres hmem hR ⊢
  obtain ⟨r, m', c'⟩ := out
  dsimp only at hres hmem hR ⊢
  subst hmem
  refine ⟨f', hres, rfl, ?_, hcom, fun b hb => ?_⟩
  · refine attached_of_simulates hR hcom.clean (hcom.same.readOnly.trans h.writable)
      (h.layout.of_geometry rfl) ?_ (StagingOk.of_closed (windowOpen_committedMem _))
    rw [hcom.same.blocks]
    exact h.fits
  · refine Block.ofSectors_congr (fun s hs => hR.view b ?_ s hs)
    rw [hcom.same.blocks]
    exact hb

/-- A commit always goes through, and it publishes the window exactly when the
blocks it left alone agree. -/
theorem Attached.commit (h : Attached k) :
    (exec (cachedStore k.mem.device) commit k).1 = some () ∧
      Attached (WindowOp.commit.run k) ∧ SameVolume k (WindowOp.commit.run k) ∧
      (Published k (WindowOp.commit.run k) ↔ (windowOpen k.mem = true → UnstagedAgree k)) := by
  cases ho : windowOpen k.mem with
  | false =>
    unfold WindowOp.run WindowOp.routine
    obtain ⟨hres, hmem, hatt, hs⟩ := h.of_same_store Adytumfs.commit
      (exec_commit_closed ho) rfl rfl h.staging
    generalize exec (cachedStore k.mem.device) Adytumfs.commit k = out at hres hmem hatt hs ⊢
    obtain ⟨r, m', c'⟩ := out
    dsimp only at hres hmem hatt hs ⊢
    subst hmem
    refine ⟨hres, hatt, ⟨rfl, fun _ => rfl⟩, iff_of_true ?_ (by simp)⟩
    intro isTable i hi
    have hin := h.mounted.slotBase_lt isTable k.mem.super.activeSlot hi
    have hin' := hatt.mounted.slotBase_lt isTable k.mem.super.activeSlot hi
    rw [logicalBlock, stagedAt_of_closed ho]
    exact (hatt.deviceBlock_eq hin').trans (hs _ hin)
  | true =>
    obtain ⟨f', hres, hmem, hatt, hcom, hs⟩ := h.commit_open ho
    refine ⟨hres, hatt, ⟨by rw [hmem]; rfl, fun _ => by rw [hmem]; rfl⟩, ?_⟩
    rw [UnstagedAgree]
    simp only [true_imp_iff]
    refine Iff.trans ?_ hcom.view_iff
    refine forall_congr' (fun isTable => forall_congr' (fun i => forall_congr' (fun hi => ?_)))
    have hin := h.mounted.slotBase_lt isTable (!k.mem.super.activeSlot) hi
    have hi' : i < metaBlocks (WindowOp.commit.run k).mem.super isTable := by
      rw [hmem]
      exact hi
    have hin' := hatt.mounted.slotBase_lt isTable (!k.mem.super.activeSlot) hi'
    have hdev := hatt.deviceBlock_eq hin'
    rw [hmem] at hdev ⊢
    rw [logicalBlock_eq]
    exact iff_of_eq (congrArg (· = _) (hdev.trans (hs _ hin)))

theorem Attached.edited (h : Attached k) (op : WindowOp)
    (hrun : exec flatStore op.routine ⟨k.mem, Flat.ofSettled k.mem.device k.store⟩ =
        (none, ⟨k.mem, Flat.ofSettled k.mem.device k.store⟩) ∨ ∃ c' isTable index image,
        exec flatStore op.routine ⟨k.mem, Flat.ofSettled k.mem.device k.store⟩ = (some (), c') ∧
        Edited ⟨k.mem, Flat.ofSettled k.mem.device k.store⟩ c' isTable index image) :
    Attached (op.run k) ∧ SameVolume k (op.run k) := by
  rcases hrun with he | ⟨⟨m', f'⟩, isTable, index, image, he, hed⟩
  · obtain ⟨-, hmem, hatt, -⟩ := h.of_same_store op.routine he rfl rfl h.staging
    refine ⟨hatt, ?_, fun _ => ?_⟩
    · rw [WindowOp.run, hmem]
    · rw [WindowOp.run, hmem]
  · obtain rfl : f' = Flat.ofSettled k.mem.device k.store := hed.store
    obtain ⟨-, hmem, hatt, -⟩ := h.of_same_store op.routine he hed.device hed.super hed.window
    have hd : m'.device = k.mem.device := hed.device
    have hs : m'.super = k.mem.super := hed.super
    refine ⟨hatt, ?_, fun _ => ?_⟩
    · rw [WindowOp.run, hmem, hd]
    · rw [WindowOp.run, hmem, hs]

theorem Attached.step (h : Attached k) {op : WindowOp} (hop : op.Of k.mem.super) :
    Attached (op.run k) ∧ SameVolume k (op.run k) := by
  cases op with
  | stage index image =>
    refine h.edited (.stage index image) ?_
    rcases exec_tableStage h.mounted h.staging hop image with ⟨-, he⟩ | ⟨c', he, hed⟩
    · exact .inl he
    · exact .inr ⟨c', _, _, _, he, hed⟩
  | edit block used =>
    by_cases hi : block / 32768 < metaBlocks k.mem.super false
    · refine h.edited (.edit block used) ?_
      rcases exec_bitWrite h.mounted h.staging hi used with ⟨-, he⟩ | ⟨c', he, hed⟩
      · exact .inl he
      · exact .inr ⟨c', _, _, _, he, hed⟩
    · have hout : k.mem.super.blockBitmapBlocks.toNat ≤ block / 32768 := not_lt.mp hi
      refine h.edited (.edit block used) (.inl ?_)
      rw [WindowOp.routine, bitWrite, exec_bind, exec_getSuper, follow_some, if_pos hout, exec_fail]
  | commit => exact ⟨h.commit.2.1, h.commit.2.2.1⟩

theorem SameVolume.of {k' : Machine} (h : SameVolume k k') {op : WindowOp}
    (hop : op.Of k.mem.super) :
    op.Of k'.mem.super := by
  cases op with
  | stage index image =>
    have := h.metaBlocks true
    simp only [Adytumfs.metaBlocks, if_true] at this
    simpa only [WindowOp.Of, this] using hop
  | edit block used => trivial
  | commit => trivial

theorem Attached.run (h : Attached k) (ops : List WindowOp) (hops : ∀ op ∈ ops, op.Of k.mem.super) :
    Attached (runWindows ops k) ∧ SameVolume k (runWindows ops k) := by
  induction ops generalizing k with
  | nil => exact ⟨h, rfl, fun _ => rfl⟩
  | cons op rest ih =>
    obtain ⟨h1, hs⟩ := h.step (hops op List.mem_cons_self)
    obtain ⟨h2, hr⟩ := ih h1 (fun op' hop' => hs.of (hops op' (List.mem_cons_of_mem _ hop')))
    exact ⟨h2, hs.trans hr⟩

/-- A commit of a run publishes the logical view of its window exactly when the
window is closed or the blocks it left alone are the same in both metadata sets. -/
theorem published_iff (k : Machine) (h : Attached k) (ops : List WindowOp)
    (hops : ∀ op ∈ ops, op.Of k.mem.super) :
    (exec (cachedStore (runWindows ops k).mem.device) commit (runWindows ops k)).1 = some () ∧
      (Published (runWindows ops k) (WindowOp.commit.run (runWindows ops k)) ↔
        (windowOpen (runWindows ops k).mem = true → UnstagedAgree (runWindows ops k))) :=
  ⟨(h.run ops hops).1.commit.1, (h.run ops hops).1.commit.2.2.2⟩

/-- Block `i` of a metadata set, as the cache shows it. -/
def look (k : Machine) (isTable slot : Bool) (i : ℕ) : Block :=
  shownBlock k.mem.device k.store (slotBase k.mem.super isTable slot + i)

theorem Attached.look_edit (h : Attached k) (op : WindowOp) {isTable : Bool} {image : Block}
    {c' : World}
    (he : exec flatStore op.routine ⟨k.mem, Flat.ofSettled k.mem.device k.store⟩ = (some (), c'))
    (hed : Edited ⟨k.mem, Flat.ofSettled k.mem.device k.store⟩ c' isTable i image) :
    (op.run k).mem = c'.mem ∧ Attached (op.run k) ∧
      ∀ t slot, ∀ j < metaBlocks k.mem.super t, look (op.run k) t slot j = look k t slot j := by
  obtain ⟨m', f'⟩ := c'
  obtain rfl : f' = Flat.ofSettled k.mem.device k.store := hed.store
  obtain ⟨-, hmem, hatt, hsh⟩ := h.of_same_store op.routine he hed.device hed.super hed.window
  refine ⟨hmem, hatt, fun t slot j hj => ?_⟩
  have hd : (op.run k).mem.device = k.mem.device := (congrArg Mem.device hmem).trans hed.device
  have hsu : (op.run k).mem.super = k.mem.super := (congrArg Mem.super hmem).trans hed.super
  rw [look, look, hd, hsu]
  exact hsh _ (h.mounted.slotBase_lt t slot hj)

theorem Attached.look_commit (h : Attached k) (ho : windowOpen k.mem = true) (t : Bool) {j : ℕ}
    (hj : j < metaBlocks k.mem.super t) :
    look (WindowOp.commit.run k) t k.mem.super.activeSlot j = look k t k.mem.super.activeSlot j ∧
      look (WindowOp.commit.run k) t (!k.mem.super.activeSlot) j =
        match stagedAt k.mem t j with
        | some e => (k.mem.staging e).image
        | none => look k t (!k.mem.super.activeSlot) j := by
  obtain ⟨f', -, hmem, -, hcom, hs⟩ := h.commit_open ho
  have hl : ∀ slot, look (WindowOp.commit.run k) t slot j =
      f'.blk (slotBase k.mem.super t slot + j) := by
    intro slot
    rw [look, hmem]
    exact hs _ (h.mounted.slotBase_lt t slot hj)
  refine ⟨?_, (hl _).trans (hcom.metadata t j hj)⟩
  rw [hl]
  refine hcom.kept _ (h.layout.slotBase_ne_superblock _ _ hj) (fun t' i hi => ?_)
  exact h.layout.slotBase_ne _ hj hi

theorem windowOpen_of_staged {isTable : Bool} (h : stagedAt m isTable i ≠ none) :
    windowOpen m = true := by
  cases ho : windowOpen m with
  | false => exact absurd (stagedAt_of_closed ho isTable i) h
  | true => rfl

theorem Roomy.committed (h : Roomy m) : Roomy (committedMem m) := by
  refine ⟨h.fits, fun e => .inl ?_⟩
  change (if (m.staging e).device = some m.device then
    { m.staging e with device := none } else m.staging e).device = none
  by_cases hown : (m.staging e).device = some m.device
  · rw [if_pos hown]
  · rw [if_neg hown]
    exact (h.own e).resolve_right hown

/-- A table block staged in one window and left alone in the next is lost: the
second commit activates the set that holds what was there before the first. -/
theorem Attached.rolled_back (h : Attached k) (hr : Roomy k.mem) {b : ℕ}
    (hi : i < metaBlocks k.mem.super true) (hb : b / 32768 < metaBlocks k.mem.super false)
    (image : Block) (used : Bool) :
    logicalBlock (runWindows [.stage i image, .commit, .edit b used] k) true i = image ∧
    look (runWindows [.stage i image, .commit, .edit b used, .commit] k) true
        (runWindows [.stage i image, .commit, .edit b used, .commit] k).mem.super.activeSlot i =
      look k true k.mem.super.activeSlot i := by
  simp only [runWindows_cons, runWindows_nil]
  -- the first window
  obtain ⟨hstar, -⟩ | ⟨c1, he1, hed1⟩ := exec_tableStage h.mounted h.staging hi image
  · exact absurd hstar (hr.not_starved h.staging hi)
  obtain ⟨hm1, h1, hl1⟩ := h.look_edit (.stage i image) he1 hed1
  set k1 := (WindowOp.stage i image).run k with hk1
  have hs1 : k1.mem.super = k.mem.super := (congrArg Mem.super hm1).trans hed1.super
  have hstag1 : stagedAt k1.mem true i ≠ none := by
    rw [hm1]
    exact fun h0 => ((hed1.staged true i).mp h0).2 ⟨rfl, rfl⟩
  have him1 : logicalBlock k1 true i = image := by
    have hv := hed1.view true i
    rw [if_pos ⟨rfl, rfl⟩, viewBlock] at hv
    rw [logicalBlock]
    rw [hm1] at hstag1 ⊢
    cases hst : stagedAt c1.mem true i with
    | none => exact absurd hst hstag1
    | some e =>
      rw [hst] at hv
      exact hv
  have hop1 := windowOpen_of_staged hstag1
  obtain ⟨f2, -, hm2, h2, -, -⟩ := h1.commit_open hop1
  have hi1 : i < metaBlocks k1.mem.super true := by rw [hs1]; exact hi
  obtain ⟨hke2, hnew2⟩ := h1.look_commit hop1 true hi1
  set k2 := WindowOp.commit.run k1 with hk2
  have hs2 : k2.mem.super = nextSuper k.mem.super := by
    rw [hm2, ← hs1]
    rfl
  have hold2 : look k2 true k.mem.super.activeSlot i = look k true k.mem.super.activeSlot i := by
    rw [← hl1 true _ i hi, ← hs1]
    exact hke2
  have him2 : look k2 true (!k.mem.super.activeSlot) i = image := by
    rw [← hs1, hnew2, ← him1, logicalBlock]
    cases hst : stagedAt k1.mem true i with
    | none => exact absurd hst hstag1
    | some e => rfl
  -- the second window
  have hr2 : Roomy k2.mem := by
    rw [hm2, hm1]
    exact (hed1.roomy hr).committed
  have hc2 : windowOpen k2.mem = false := by
    rw [hm2]
    exact windowOpen_committedMem _
  have hb2 : b / 32768 < metaBlocks k2.mem.super false := by rw [hs2]; exact hb
  have hi2 : i < metaBlocks k2.mem.super true := by rw [hs2]; exact hi
  obtain ⟨hstar, -⟩ | ⟨c3, he3, hed3⟩ := exec_bitWrite h2.mounted h2.staging hb2 used
  · exact absurd hstar (hr2.not_starved h2.staging hb2)
  obtain ⟨hm3, h3, hl3⟩ := h2.look_edit (.edit b used) he3 hed3
  set k3 := (WindowOp.edit b used).run k2 with hk3
  have hs3 : k3.mem.super = nextSuper k.mem.super :=
    (congrArg Mem.super hm3).trans (hed3.super.trans hs2)
  have hno3 : stagedAt k3.mem true i = none := by
    rw [hm3, hed3.staged]
    exact ⟨stagedAt_of_closed hc2 true i, by simp⟩
  have hop3 : windowOpen k3.mem = true := by
    have hstag : stagedAt k3.mem false (b / 32768) ≠ none := by
      rw [hm3]
      exact fun h0 => ((hed3.staged false (b / 32768)).mp h0).2 ⟨rfl, rfl⟩
    exact windowOpen_of_staged hstag
  obtain ⟨f4, -, hm4, -, -, -⟩ := h3.commit_open hop3
  have hi3 : i < metaBlocks k3.mem.super true := by rw [hs3]; exact hi
  obtain ⟨-, hnew4⟩ := h3.look_commit hop3 true hi3
  rw [hno3] at hnew4
  have hsl3 : k3.mem.super.activeSlot = !k.mem.super.activeSlot := by rw [hs3]; rfl
  have hsl4 : (WindowOp.commit.run k3).mem.super.activeSlot = !k3.mem.super.activeSlot := by
    rw [hm4]
    rfl
  constructor
  · rw [logicalBlock, hno3]
    change look k3 true k3.mem.super.activeSlot i = image
    rw [hsl3, hl3 true _ i hi2, him2]
  · rw [hsl4, hnew4, hl3 true _ i hi2, hsl3, Bool.not_not, hold2]

theorem Attached.not_published (h : Attached k) (hr : Roomy k.mem) {b : ℕ}
    (hi : i < metaBlocks k.mem.super true) (hb : b / 32768 < metaBlocks k.mem.super false)
    {image : Block} (hne : look k true k.mem.super.activeSlot i ≠ image) (used : Bool) :
    ¬ Published (runWindows [.stage i image, .commit, .edit b used] k)
      (runWindows [.stage i image, .commit, .edit b used, .commit] k) := by
  intro hpub
  have hi' : i < k.mem.super.inodeTableBlocks.toNat := hi
  obtain ⟨-, hvol3⟩ := h.run [.stage i image, .commit, .edit b used]
    (by simpa [WindowOp.Of] using hi')
  obtain ⟨h4, hvol4⟩ := h.run [.stage i image, .commit, .edit b used, .commit]
    (by simpa [WindowOp.Of] using hi')
  obtain ⟨hvi, hl⟩ := h.rolled_back hr hi hb image used
  generalize runWindows [.stage i image, .commit, .edit b used, .commit] k = k4
    at hpub h4 hvol4 hl
  generalize runWindows [.stage i image, .commit, .edit b used] k = k3 at hpub hvol3 hvi
  have hi4 : i < metaBlocks k4.mem.super true := by
    rw [hvol4.metaBlocks]
    exact hi
  have hdev := hpub true i (by rw [hvol3.metaBlocks]; exact hi)
  rw [hvi, h4.deviceBlock_eq (h4.mounted.slotBase_lt true _ hi4)] at hdev
  exact hne (hl.symm.trans hdev)

/-- The smallest volume, formatted and mounted. -/
def smallestMount : Machine := ⟨Mem.fresh 0 smallestSuper, smallestVolume⟩

theorem attached_smallestMount : Attached smallestMount := by
  obtain ⟨f, hR, hcount, hw, -, hcl, -⟩ := smallestVolume_made
  refine attached_of_simulates (m := Mem.fresh 0 smallestSuper) hR hcl hw
    ((superValid_iff smallestSuper 8 (by decide)).mp (by decide)).2.2.2 ?_
    (StagingOk.of_closed (windowOpen_fresh _ _))
  rw [Flat.blocks, hcount]
  decide

theorem roomy_smallestMount : Roomy smallestMount.mem := ⟨by decide, fun _ => .inl rfl⟩

/-- A table block staged and a bit edited in one window are both in the staging cache. -/
theorem Attached.staged_both (h : Attached k) (hr : Roomy k.mem) {b : ℕ}
    (hi : i < metaBlocks k.mem.super true) (hb : b / 32768 < metaBlocks k.mem.super false)
    (image : Block) (used : Bool) :
    let k' := runWindows [.stage i image, .edit b used] k
    k'.mem.super = k.mem.super ∧ stagedAt k'.mem true i ≠ none ∧
      stagedAt k'.mem false (b / 32768) ≠ none := by
  simp only [runWindows_cons, runWindows_nil]
  obtain ⟨hst, -⟩ | ⟨c1, he1, hed1⟩ := exec_tableStage h.mounted h.staging hi image
  · exact absurd hst (hr.not_starved h.staging hi)
  obtain ⟨hm1, h1, -⟩ := h.look_edit (.stage i image) he1 hed1
  set k1 := (WindowOp.stage i image).run k with hk1
  have hs1 : k1.mem.super = k.mem.super := (congrArg Mem.super hm1).trans hed1.super
  have hr1 : Roomy k1.mem := by
    rw [hm1]
    exact hed1.roomy hr
  have hb1 : b / 32768 < metaBlocks k1.mem.super false := by rw [hs1]; exact hb
  obtain ⟨hst, -⟩ | ⟨c2, he2, hed2⟩ := exec_bitWrite h1.mounted h1.staging hb1 used
  · exact absurd hst (hr1.not_starved h1.staging hb1)
  obtain ⟨hm2, -, -⟩ := h1.look_edit (.edit b used) he2 hed2
  rw [hm2]
  refine ⟨hed2.super.trans hs1, fun h0 => ?_, fun h0 => ?_⟩
  · have hke := ((hed2.staged true i).mp h0).1
    rw [show k1.mem = c1.mem from hm1] at hke
    exact ((hed1.staged true i).mp hke).2 ⟨rfl, rfl⟩
  · exact ((hed2.staged false (b / 32768)).mp h0).2 ⟨rfl, rfl⟩

/-- The fresh table with a file in inode 2. -/
def tableWithFile : Block := setSlot (makeTable 0 0) 2 { rootInode 0 with mode := modeReg }

/-- The first window of the volume: a file is created and a block is taken for it. -/
theorem published_smallestMount :
    let k := runWindows [.stage 0 tableWithFile, .edit 3 true] smallestMount
    windowOpen k.mem = true ∧ Published k (WindowOp.commit.run k) := by
  intro k
  obtain ⟨hs, ht, hb⟩ := attached_smallestMount.staged_both (i := 0) (b := 3)
    roomy_smallestMount (by decide) (by decide) tableWithFile true
  have hops : ∀ op ∈ [.stage 0 tableWithFile, .edit 3 true],
      WindowOp.Of smallestMount.mem.super op := by
    simpa [WindowOp.Of] using (by decide : 0 < smallestMount.mem.super.inodeTableBlocks.toNat)
  refine ⟨windowOpen_of_staged ht, (published_iff smallestMount attached_smallestMount _
    hops).2.mpr fun _ isTable i hi hn => ?_⟩
  -- the volume has one block of each kind, and both are staged
  rw [hs] at hi
  cases isTable with
  | true =>
    obtain rfl : i = 0 := Nat.lt_one_iff.mp hi
    exact absurd hn ht
  | false =>
    obtain rfl : i = 0 := Nat.lt_one_iff.mp hi
    exact absurd hn hb

theorem look_smallestMount : look smallestMount true false 0 = makeTable 0 0 := by
  have hmade := made_smallestVolume
  unfold look smallestMount
  generalize smallestVolume = c at hmade
  exact hmade.tables false 0 (by decide)

theorem tableWithFile_ne : tableWithFile ≠ makeTable 0 0 := by
  intro he
  have h1 := inodeUnpack_setSlot (s := 2) (t := 2) (makeTable 0 0)
    { rootInode 0 with mode := modeReg } (by omega) (by omega)
  have h2 := inodeUnpack_setSlot (s := 1) (t := 2) Image.zero (rootInode 0) (by omega) (by omega)
  obtain ⟨inode, hz, hm⟩ := inodeUnpack_zero 2
  rw [if_neg (by omega), hz] at h2
  rw [if_pos rfl] at h1
  change inodeUnpack (slotBytes tableWithFile 2) = _ at h1
  rw [he] at h1
  have hs := h2.symm.trans h1
  cases hs
  exact absurd hm (by decide)

/-- A file created in one window is gone after the next commit, although every
call returned 0. -/
theorem window_rolled_back :
    ¬ Published (runWindows [.stage 0 tableWithFile, .commit, .edit 3 true] smallestMount)
      (runWindows [.stage 0 tableWithFile, .commit, .edit 3 true, .commit] smallestMount) :=
  attached_smallestMount.not_published roomy_smallestMount (by decide) (by decide)
    (fun he => tableWithFile_ne (he.symm.trans look_smallestMount)) true

end MichCore.Adytumfs
