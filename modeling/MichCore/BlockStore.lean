import MichCore.CachePages

/-!
# Blocks of a volume

Two stores answer the same block requests: the kernel's, with the sector cache over the device,
and a flat array of blocks that also notes what the cache may still owe to the device and which
images were ever written. The flat store marks a request it does not describe (past the end, a
write to a read-only device, dropping a page that owes sectors) as wild. A routine that stays in
bounds gives the same result on both.
-/
namespace MichCore

open Function List

/-- `ADYTUMFS_BLOCK_SIZE` bytes. -/
abbrev Block := Image 4096

namespace Block

def sector (b : Block) (s : ℕ) : Sector := fun j => b.byte (s * 512 + j.val)

def ofSectors (f : ℕ → Sector) : Block := fun j => (f (j.val / 512)).byte (j.val % 512)

theorem byte_sector (b : Block) (s : ℕ) {j : ℕ} (hj : j < 512) :
    (b.sector s).byte j = b.byte (s * 512 + j) := by
  simp only [Image.byte, sector, hj, dif_pos]

theorem byte_ofSectors (f : ℕ → Sector) {j : ℕ} (hj : j < 4096) :
    (ofSectors f).byte j = (f (j / 512)).byte (j % 512) := by
  simp only [Image.byte, ofSectors, hj, dif_pos]

theorem sector_ofSectors (f : ℕ → Sector) {s : ℕ} (hs : s < 8) : (ofSectors f).sector s = f s := by
  apply Image.ext_byte
  intro j hj
  rw [byte_sector _ _ hj, byte_ofSectors _ (by omega), show (s * 512 + j) / 512 = s by omega,
    show (s * 512 + j) % 512 = j by omega]

theorem ext_sector {a b : Block} (h : ∀ s < 8, a.sector s = b.sector s) : a = b := by
  apply Image.ext_byte
  intro j hj
  have hs := congrArg (fun x => Image.byte x (j % 512)) (h (j / 512) (by omega))
  rw [byte_sector _ _ (by omega), byte_sector _ _ (by omega),
    show j / 512 * 512 + j % 512 = j by omega] at hs
  exact hs

theorem ofSectors_congr {f : ℕ → Sector} {b : Block} (h : ∀ s < 8, f s = b.sector s) :
    ofSectors f = b :=
  ext_sector (fun s hs => (sector_ofSectors f hs).trans (h s hs))

end Block

/-- What the format layer asks of its device. -/
inductive Req where
  /-- `block_info`: sector count and read-only flag. -/
  | info
  /-- `adytumfs_block_read`. -/
  | read (block : ℕ)
  /-- `adytumfs_block_write`. -/
  | write (block : ℕ) (image : Block)
  /-- `block_cache_flush`. -/
  | flush
  /-- `block_cache_invalidate` of one block. -/
  | invalidate (block : ℕ)

abbrev Ans : Req → Type
  | .info => ℕ × Bool
  | .read _ => Option Block
  | .write _ _ => Bool
  | .flush => Bool
  | .invalidate _ => Unit

open BlockCache Routine

/-- First sector of a block, as the u32 the cache interface takes. -/
def blockLba (block : ℕ) : ℕ := block * 8 % 2 ^ 32

/-- The kernel's store: block requests go through the sector cache of `device`. -/
def cachedStore (device : ℕ) : Handler Req Ans Sys
  | .info, c => ((c.store.sectorCount device, c.store.readOnly device), c)
  | .read b, c =>
    let r := exec Disk.handle (blockCacheRead device (blockLba b) 8) c
    (r.1.map Block.ofSectors, r.2)
  | .write b image, c =>
    let r := exec Disk.handle (blockCacheWrite device (blockLba b) image.sector 8) c
    (r.1.isSome, r.2)
  | .flush, c =>
    let r := exec Disk.handle (blockCacheFlush device) c
    (r.1.isSome, r.2)
  | .invalidate b, c => ((), (exec Disk.handle (blockCacheInvalidate device (blockLba b) 8) c).2)

/-- A device as an array of blocks. -/
structure Flat where
  sectorCount : ℕ
  readOnly : Bool
  blk : ℕ → Block
  /-- The cache may still owe this block to the device. -/
  dirty : ℕ → Bool
  /-- Block images written so far, newest first. -/
  writes : List (ℕ × Block)
  wild : Bool

namespace Flat

def blocks (f : Flat) : ℕ := f.sectorCount / 8

def setBlock (f : Flat) (b : ℕ) (image : Block) : Flat :=
  { f with
    blk := update f.blk b image
    dirty := update f.dirty b true
    writes := (b, image) :: f.writes }

end Flat

/-- Only contents changed. -/
structure SameDevice (f f' : Flat) : Prop where
  sectorCount : f'.sectorCount = f.sectorCount
  readOnly : f'.readOnly = f.readOnly
  wild : f'.wild = f.wild

theorem SameDevice.refl (f : Flat) : SameDevice f f := ⟨rfl, rfl, rfl⟩

theorem SameDevice.trans {a b c : Flat} (hab : SameDevice a b) (hbc : SameDevice b c) :
    SameDevice a c :=
  ⟨hbc.sectorCount.trans hab.sectorCount, hbc.readOnly.trans hab.readOnly, hbc.wild.trans hab.wild⟩

theorem SameDevice.blocks {f f' : Flat} (h : SameDevice f f') : f'.blocks = f.blocks := by
  rw [Flat.blocks, Flat.blocks, h.sectorCount]

theorem sameDevice_setBlock (f : Flat) (b : ℕ) (image : Block) :
    SameDevice f (f.setBlock b image) := ⟨rfl, rfl, rfl⟩

def flatStore : Handler Req Ans Flat
  | .info, f => ((f.sectorCount, f.readOnly), f)
  | .read b, f => if b < f.blocks then (some (f.blk b), f) else (none, { f with wild := true })
  | .write b image, f =>
    if b < f.blocks ∧ f.readOnly = false then (true, f.setBlock b image)
    else (false, { f with wild := true })
  | .flush, f => (true, { f with dirty := fun _ => false })
  | .invalidate b, f =>
    if b < f.blocks ∧ f.dirty b = false then ((), f) else ((), { f with wild := true })

theorem flatStore_wild (r : Req) (f : Flat) (h : f.wild = true) :
    (flatStore r f).2.wild = true := by
  cases r <;> simp only [flatStore] <;> (try split_ifs) <;> simp [Flat.setBlock, h]

/-- A sector write that is a part of a written block image. -/
def FromWrites (writes : List (ℕ × Block)) (w : ℕ × ℕ × Sector) : Prop :=
  ∃ p ∈ writes, ∃ s < 8, w.2 = (8 * p.1 + s, p.2.sector s)

theorem FromWrites.mono {ws ws' : List (ℕ × Block)} {w : ℕ × ℕ × Sector}
    (h : FromWrites ws w) (hsub : ∀ p ∈ ws, p ∈ ws') : FromWrites ws' w := by
  obtain ⟨p, hp, hs⟩ := h
  exact ⟨p, hsub p hp, hs⟩

/-- The cached device shows the blocks of the flat store, and every sector that
reached it since the record was `base`, or is still pending, is a part of a
block image the flat store has seen. -/
structure Simulates (d : ℕ) (base : List (ℕ × ℕ × Sector)) (c : Sys) (f : Flat) : Prop where
  coherent : Coherent c
  count : c.store.sectorCount d = f.sectorCount
  small : f.sectorCount < 2 ^ 32
  readOnly : c.store.readOnly d = f.readOnly
  view : ∀ b < f.blocks, ∀ s < 8, view c d (8 * b + s) = (f.blk b).sector s
  pending : ∀ w, Pending c w → w.1 = d →
    f.dirty (w.2.1 / 8) = true ∧ FromWrites f.writes w
  log : ∃ new, c.store.log = base ++ new ∧ ∀ w ∈ new, w.1 = d → FromWrites f.writes w

namespace Simulates
variable {d : ℕ} {base : List (ℕ × ℕ × Sector)} {c c' : Sys} {f : Flat}

section

variable (hR : Simulates d base c f)
include hR

theorem blockLba_eq {b : ℕ} (hb : b < f.blocks) :
    blockLba b = 8 * b ∧ 8 * b + 8 ≤ c.store.sectorCount d := by
  have h1 := hR.small
  unfold Flat.blocks at hb
  rw [hR.count, blockLba, Nat.mod_eq_of_lt (by omega)]
  omega

theorem of_sameView (hc' : Coherent c') (hs : SameView c c') : Simulates d base c' f := by
  refine ⟨hc', by rw [hs.count, hR.count], hR.small, by rw [hs.readOnly, hR.readOnly], ?_,
    fun w hw hd => hR.pending w (hs.pending w hw) hd, ?_⟩
  · intro b hb s hs8
    rw [hs.view d _ (by have := (hR.blockLba_eq hb).2; omega), hR.view b hb s hs8]
  · obtain ⟨new, hlog, hnew⟩ := hR.log
    obtain ⟨more, hlog', hm, -⟩ := hs.log
    refine ⟨new ++ more, by rw [hlog', hlog, append_assoc], ?_⟩
    intro w hw hd
    rcases mem_append.mp hw with hw | hw
    · exact hnew w hw hd
    · exact (hR.pending w (hm w hw) hd).2

theorem of_wrote (hc' : Coherent c') {b : ℕ} (image : Block) (hb : b < f.blocks)
    (hw : Wrote c c' d (8 * b) image.sector) :
    Simulates d base c' (f.setBlock b image) := by
  have hnew : ∀ w, OfPage d (8 * b) image.sector w → FromWrites (f.setBlock b image).writes w :=
    fun w ⟨s, hs, he⟩ => ⟨(b, image), mem_cons_self, s, hs, by rw [he]⟩
  have hold : ∀ w, FromWrites f.writes w → FromWrites (f.setBlock b image).writes w :=
    fun w h => h.mono (fun p hp => mem_cons_of_mem _ hp)
  refine ⟨hc', by rw [hw.count]; exact hR.count, hR.small, by rw [hw.readOnly]; exact hR.readOnly,
    ?_, ?_, ?_⟩
  · intro b' hb' s hs8
    have hin := (hR.blockLba_eq (b := b') hb').2
    rw [hw.view d _ (by omega)]
    by_cases he : b' = b
    · subst he
      rw [if_pos ⟨rfl, by omega, by omega⟩]
      simp [Flat.setBlock]
    · rw [if_neg (by omega), hR.view b' hb' s hs8]
      simp [Flat.setBlock, he]
  · intro w hp hd
    refine ⟨?_, ?_⟩
    · simp only [Flat.setBlock]
      by_cases he : w.2.1 / 8 = b
      · rw [he, update_self]
      · rw [update_of_ne he]
        rcases hw.pending w hp with h | ⟨s, hs, rfl⟩
        · exact (hR.pending w h hd).1
        · exact absurd (by dsimp only; omega) he
    · rcases hw.pending w hp with h | h
      · exact hold w (hR.pending w h hd).2
      · exact hnew w h
  · obtain ⟨new, hlog, hf⟩ := hR.log
    obtain ⟨more, hlog', hmo⟩ := hw.log
    refine ⟨new ++ more, by rw [hlog', hlog, append_assoc], ?_⟩
    intro w hmem hd
    rcases mem_append.mp hmem with hmem | hmem
    · exact hold w (hf w hmem hd)
    · rcases hmo w hmem with h | h
      · exact hold w (hR.pending w h hd).2
      · exact hnew w h

theorem sector_eq {b s : ℕ} (hb : b < f.blocks) (hs : s < 8)
    (hc : f.dirty b = false) : c.store.sector d (8 * b + s) = (f.blk b).sector s := by
  have hin := (hR.blockLba_eq hb).2
  rw [← hR.view b hb s hs]
  apply hR.coherent.sector_of_not_pending (by omega)
  intro x hx
  have hd := (hR.pending _ hx rfl).1
  rw [show (8 * b + s) / 8 = b by omega, hc] at hd
  exact absurd hd (by simp)

end

end Simulates

theorem simulates_step {d : ℕ} {base : List (ℕ × ℕ × Sector)} (r : Req) (c : Sys) (f : Flat)
    (hR : Simulates d base c f) (hw : ¬ (flatStore r f).2.wild = true) :
    (cachedStore d r c).1 = (flatStore r f).1 ∧
      Simulates d base (cachedStore d r c).2 (flatStore r f).2 := by
  cases r with
  | info => exact ⟨by simp only [cachedStore, flatStore, hR.count, hR.readOnly], hR⟩
  | read b =>
    simp only [flatStore] at hw ⊢
    split_ifs at hw ⊢ with hb
    · obtain ⟨hlba, hin⟩ := hR.blockLba_eq hb
      obtain ⟨data, c', he, hc', hs, hda⟩ := exec_readPage hR.coherent d (8 * b)
        (by omega) hin (by rw [hR.count]; exact hR.small)
      simp only [cachedStore, hlba, he, Option.map_some]
      exact ⟨congrArg some (Block.ofSectors_congr
        (fun s hs8 => (hda s hs8).trans (hR.view b hb s hs8))), hR.of_sameView hc' hs⟩
    · exact absurd rfl hw
  | write b image =>
    simp only [flatStore] at hw ⊢
    split_ifs at hw ⊢ with hb
    · obtain ⟨hlba, hin⟩ := hR.blockLba_eq hb.1
      obtain ⟨c', he, hc', hwr, -⟩ := exec_writePage hR.coherent d (8 * b) image.sector
        (by omega) (by omega) (by rw [hR.count]; exact hR.small) (by rw [hR.readOnly]; exact hb.2)
      simp only [cachedStore, hlba, he, Option.isSome_some, true_and]
      exact hR.of_wrote hc' image hb.1 hwr
    · exact absurd rfl hw
  | flush =>
    obtain ⟨c', he, hc', hs, hf⟩ := exec_flush d hR.coherent
    have hR' := hR.of_sameView hc' hs
    simp only [cachedStore, flatStore, he, Option.isSome_some, true_and]
    exact ⟨hc', hR'.count, hR'.small, hR'.readOnly, hR'.view,
      fun w hp hd => absurd hd (hf w hp), hR'.log⟩
  | invalidate b =>
    simp only [flatStore] at hw ⊢
    split_ifs at hw ⊢ with hb
    · obtain ⟨hlba, hin⟩ := hR.blockLba_eq hb.1
      simp only [cachedStore, hlba, exec_invalidate c d (8 * b) (by omega), true_and]
      refine hR.of_sameView (dropped_coherent hR.coherent d _)
        (dropped_sameView hR.coherent (fun i hi hd => ?_))
      have hlba' : (c.mem.entries i).lba = 8 * b := by
        rw [hi.2.2, pageLba_of_aligned _ (by omega)]
      have hsp := hR.coherent.span i hi.1
      rw [hi.2.1, hlba'] at hsp
      have hpe := (hR.pending _ ⟨i, hd, 0, by omega, rfl⟩ hi.2.1).1
      rw [hlba', show (8 * b + 0) / 8 = b by omega, hb.2] at hpe
      exact absurd hpe (by simp)
    · exact absurd rfl hw

theorem exec_cached {μ α : Type} {d : ℕ} {base : List (ℕ × ℕ × Sector)} {c : Sys} {f : Flat}
    (hR : Simulates d base c f) (p : Routine Req Ans μ α) (m : μ)
    (hw : (exec flatStore p ⟨m, f⟩).2.store.wild = false) :
    let out := exec (cachedStore d) p ⟨m, c⟩
    let flat := exec flatStore p ⟨m, f⟩
    out.1 = flat.1 ∧ out.2.mem = flat.2.mem ∧ Simulates d base out.2.store flat.2.store :=
  exec_simulates (cachedStore d) flatStore (Simulates d base) (fun f => f.wild = true)
    flatStore_wild simulates_step p m c f hR (by rw [hw]; simp)

/-- What a coherent cache shows of a device. Any block may be pending. -/
def Flat.ofSys (d : ℕ) (c : Sys) : Flat where
  sectorCount := c.store.sectorCount d
  readOnly := c.store.readOnly d
  blk := fun b => Block.ofSectors (fun s => view c d (8 * b + s))
  dirty := fun _ => true
  writes := (range (c.store.sectorCount d / 8 + 1)).map
    (fun b => (b, Block.ofSectors (fun s => view c d (8 * b + s))))
  wild := false

theorem simulates_ofSys {d : ℕ} {c : Sys} (hc : Coherent c) (hn : c.store.sectorCount d < 2 ^ 32) :
    Simulates d c.store.log c (Flat.ofSys d c) := by
  refine ⟨hc, rfl, hn, rfl, ?_, ?_, ⟨[], by simp, by simp⟩⟩
  · intro b _ s hs
    exact (Block.sector_ofSectors (fun s => BlockCache.view c d (8 * b + s)) hs).symm
  · rintro w ⟨i, hi, s, hs, rfl⟩ hd
    have hne : (c.mem.entries i).state ≠ .empty := by rw [hi]; simp
    have hal := hc.aligned i hne
    have hin := hc.inside i hne
    have hsp := hc.span i hne
    dsimp only at hd
    rw [hd] at hin hsp
    have hlba : 8 * ((c.mem.entries i).lba / 8) = (c.mem.entries i).lba := by omega
    refine ⟨rfl, _, mem_map.mpr ⟨(c.mem.entries i).lba / 8, ?_, rfl⟩, s, by omega, ?_⟩
    · rw [mem_range]
      omega
    · have hp := pageLba_add _ s hal (by omega)
      have hh : Holds (c.mem.entries i) d ((c.mem.entries i).lba + s) := ⟨hne, hd, hp.symm⟩
      rw [Block.sector_ofSectors _ (by omega), hlba, hc.view_of_holds hh, hp,
        Nat.add_sub_cancel_left]

/-- The same when the cache owes the device nothing. -/
def Flat.ofSettled (d : ℕ) (c : Sys) : Flat :=
  { Flat.ofSys d c with dirty := fun _ => false, writes := [] }

theorem simulates_ofSettled {d : ℕ} {c : Sys} (hc : Coherent c)
    (hn : c.store.sectorCount d < 2 ^ 32) (hp : ∀ w, Pending c w → w.1 ≠ d) :
    Simulates d c.store.log c (Flat.ofSettled d c) := by
  have hR := simulates_ofSys hc hn
  exact ⟨hc, rfl, hn, rfl, hR.view, fun w hw hd => absurd hd (hp w hw), ⟨[], by simp, by simp⟩⟩

theorem view_of_settled {d l : ℕ} {c : Sys} (hc : Coherent c) (hl : l < c.store.sectorCount d)
    (hp : ∀ w, Pending c w → w.1 ≠ d) : view c d l = c.store.sector d l :=
  (hc.sector_of_not_pending hl (fun _ hx => hp _ hx rfl)).symm

end MichCore
