import MichCore.CachePages

/-!
# The cache is transparent

Reads and writes of any sector range. The loop of `block_cache_read` gathers the view page by
page, that of `block_cache_write` replaces it, and a flush brings a device to it. So a run of
cache calls answers as plain sector arrays would.
-/
namespace MichCore.BlockCache
open Disk (handle)
open Routine

variable {c : Sys} {d : ℕ} {disk : Disk} {logical : ℕ → ℕ → Sector}

theorem Holds.offset {e : Entry} {l : ℕ} (h : Holds e d l) : l - e.lba = l % 8 := by
  rw [h.2.2, pageLba]
  omega

/-- The sector `k` places after one that a page holds, still inside the page. -/
theorem Holds.add {e : Entry} {l k : ℕ} (h : Holds e d l) (hk : l % 8 + k < 8) :
    Holds e d (l + k) := by
  refine ⟨h.1, h.2.1, h.2.2.trans ?_⟩
  unfold pageLba
  omega

theorem Coherent.view_add (hc : Coherent c) {l k : ℕ} {i : Fin 16} (h : Holds (c.mem.entries i) d l)
    (hk : l % 8 + k < 8) : view c d (l + k) = (c.mem.entries i).data (l % 8 + k) := by
  rw [hc.view_of_holds (h.add hk)]
  congr 1
  unfold pageLba
  omega

/-- Sectors `[l, l + n)` of a device have the content of `part` for every reader, and nothing
else has changed. -/
structure Stored (c c' : Sys) (d l n : ℕ) (part : ℕ → Sector) : Prop where
  count : c'.store.sectorCount = c.store.sectorCount
  readOnly : c'.store.readOnly = c.store.readOnly
  view : ∀ d' k, k < c.store.sectorCount d' → view c' d' k =
    if d' = d ∧ l ≤ k ∧ k < l + n then part (k - l) else view c d' k

/-- One turn of the write loop is the whole-page overwrite with the other sectors of the
page written back as they are. -/
theorem stored_turn (hc : Coherent c) {l n : ℕ} {i : Fin 16} (part : ℕ → Sector)
    (hh : Holds (c.mem.entries i) d l) (hn : l % 8 + n ≤ 8) (hw : c.store.readOnly d = false) :
    let e := c.mem.entries i
    let c' : Sys := ⟨c.mem.setEntry i { e with
      data := fun s => if l % 8 ≤ s ∧ s < l % 8 + n then part (s - l % 8) else e.data s
      state := .dirty }, c.store⟩
    Coherent c' ∧ Stored c c' d l n part := by
  intro e c'
  have hp8 : pageLba l % 8 = 0 := pageLba_aligned _
  have hpa : pageLba l + l % 8 = l := by
    unfold pageLba
    omega
  have hh' : Holds (c.mem.entries i) d (pageLba l) := ⟨hh.1, hh.2.1, by
    rw [hh.2.2]
    exact (pageLba_pageLba _).symm⟩
  let whole : ℕ → Sector := fun s =>
    if l % 8 ≤ s ∧ s < l % 8 + n then part (s - l % 8) else e.data s
  have hsa : c' = overwritten c i whole := by
    have hwh : (fun s => if s < 8 then whole s else e.data s) = whole := by
      funext s
      split_ifs with hs
      · rfl
      · simp only [whole]
        rw [if_neg (by omega)]
    simp only [overwritten]
    rw [hwh]
  obtain ⟨hcoh, hwr⟩ := overwritten_spec hc i whole hp8 hw hh'
  rw [hsa]
  refine ⟨hcoh, hwr.count, hwr.readOnly, ?_⟩
  intro d' k hk
  rw [hwr.view d' k hk]
  by_cases hr : d' = d ∧ pageLba l ≤ k ∧ k < pageLba l + 8
  · obtain ⟨rfl, h1, h2⟩ := hr
    rw [if_pos ⟨rfl, h1, h2⟩]
    simp only [whole]
    by_cases hin : l ≤ k ∧ k < l + n
    · rw [if_pos (by omega), if_pos ⟨trivial, hin⟩]
      congr 1
      omega
    rw [if_neg (by omega), if_neg (fun h => hin h.2)]
    have hk' : k = pageLba l + (k - pageLba l) := by omega
    rw [hk', hc.view_add hh' (by omega)]
    congr 1
    omega
  · rw [if_neg hr, if_neg]
    rintro ⟨rfl, h1, h2⟩
    exact hr ⟨rfl, by omega, by omega⟩

/-- Every page that sectors `[lba + first, lba + last)` touch starts inside a device of this
size. -/
def PagesInside (count lba first last : ℕ) : Prop :=
  ∀ k, first ≤ k → k < last → pageLba ((lba + k) % 2 ^ 32) < count

theorem pagesInside_turn {count lba done sectors : ℕ} (hlt : done < sectors) :
    PagesInside count lba done sectors ↔ pageLba ((lba + done) % 2 ^ 32) < count ∧
      PagesInside count lba
        (done + min (8 - (lba + done) % 2 ^ 32 % 8) (sectors - done)) sectors := by
  constructor
  · intro h
    exact ⟨h done le_rfl hlt, fun k hk hks => h k (by omega) hks⟩
  · rintro ⟨hp, hr⟩ k hk hks
    by_cases hin : k < done + min (8 - (lba + done) % 2 ^ 32 % 8) (sectors - done)
    · unfold pageLba at hp ⊢
      omega
    · exact hr k (Nat.le_of_not_lt hin) hks

theorem pagesInside_of_le {count lba sectors : ℕ} (h : lba + sectors ≤ count)
    (hcount : count < 2 ^ 32) : PagesInside count lba 0 sectors := by
  intro k _ hk
  unfold pageLba
  omega

/-- A page is read in exactly if it starts inside the device, even where its sector does not lie
there. -/
theorem exec_fill_cases (hc : Coherent c) (d l : ℕ) :
    ∃ r c', exec handle (fill d l) c = (r, c') ∧ Coherent c' ∧ SameView c c' ∧
      (r = none ∧ c.store.sectorCount d ≤ pageLba l ∨
        ∃ i, r = some i ∧ pageLba l < c.store.sectorCount d ∧ Holds (c'.mem.entries i) d l) := by
  rcases Nat.lt_or_ge (pageLba l) (c.store.sectorCount d) with hin | hp
  · obtain ⟨i, c', he, hc', hs, hh⟩ := exec_fill hc d (pageLba l) hin
    rw [Holds, pageLba_pageLba] at hh
    refine ⟨some i, c', ?_, hc', hs, .inr ⟨i, rfl, hin, hh⟩⟩
    simpa only [fill, pageLba_pageLba] using he
  · obtain ⟨c', he, hc', hs⟩ := exec_fill_past hc d l hp
    exact ⟨none, c', he, hc', hs, .inl ⟨rfl, hp⟩⟩

/-- What turn `done` and the later ones of the read loop do, whether or not the range lies inside
the device. -/
structure Gathered (c : Sys) (d lba sectors done : ℕ) (buffer : ℕ → Sector)
    (r : Option (ℕ → Sector)) (c' : Sys) : Prop where
  coherent : Coherent c'
  same : SameView c c'
  isSome : r.isSome ↔ PagesInside (c.store.sectorCount d) lba done sectors
  /-- A short transfer inside the device brings the view. -/
  view : c.store.sectorCount d < 2 ^ 32 → lba + sectors ≤ c.store.sectorCount d →
    sectors ≤ 2 ^ 23 → done ≤ sectors → (∀ s < done, buffer s = view c d (lba + s)) →
    ∀ data ∈ r, ∀ s < sectors, data s = view c d (lba + s)

theorem Gathered.nothing (hc : Coherent c) {d lba sectors done : ℕ} (buffer : ℕ → Sector)
    (hle : sectors ≤ done) : Gathered c d lba sectors done buffer (some buffer) c where
  coherent := hc
  same := SameView.refl c
  isSome := iff_of_true rfl fun k hk hks => by omega
  view := by
    rintro - - - - hbuf _ ⟨⟩ s hs
    exact hbuf s (by omega)

theorem exec_readLoop (hc : Coherent c) (d lba sectors fuel done : ℕ) (buffer : ℕ → Sector)
    (hf : sectors ≤ done + fuel) :
    ∃ r c', exec handle (readLoop d lba sectors fuel done buffer) c = (r, c') ∧
      Gathered c d lba sectors done buffer r c' := by
  induction fuel generalizing c done buffer with
  | zero => exact ⟨some buffer, c, rfl, .nothing hc buffer (by omega)⟩
  | succ fuel ih =>
    rw [readLoop]
    split
    · next hlt =>
      rw [exec_bind]
      obtain ⟨r, c1, he, hc1, hs1, ⟨rfl, hp⟩ | ⟨i, rfl, hin, hh⟩⟩ :=
        exec_fill_cases hc d ((lba + done) % 2 ^ 32)
      · refine ⟨none, c1, by rw [he, follow_none], hc1, hs1, iff_of_false (by simp) (fun h => ?_),
          by simp⟩
        exact absurd (h done le_rfl hlt) (Nat.not_lt.mpr hp)
      · rw [he, follow_some, exec_bind, exec_getMem, follow_some]
        dsimp only
        rw [hh.offset]
        generalize hn : min (8 - (lba + done) % 2 ^ 32 % 8) (sectors - done) = n
        obtain ⟨r, c', he', hr⟩ := ih hc1 (done + n) _ (by omega)
        refine ⟨r, c', he', hr.coherent, hs1.trans hr.same, ?_, ?_⟩
        · rw [hr.isSome, hs1.count, pagesInside_turn hlt, hn, and_iff_right hin]
        · intro hcount hins hshort _ hbuf data hd s hs
          have hlow : (lba + done) % 2 ^ 32 = lba + done := Nat.mod_eq_of_lt (by omega)
          have hst : bufferStart done = done := bufferStart_of_lt (by omega)
          rw [← hs1.view d (lba + s) (by omega)]
          refine hr.view (by rw [hs1.count]; exact hcount) (by rw [hs1.count]; exact hins)
            hshort (by omega) (fun k hk => ?_) data hd s hs
          rw [hlow] at hh hn ⊢
          rw [hst]
          split_ifs with ht
          · rw [show lba + k = lba + done + (k - done) by omega, hc1.view_add hh (by omega)]
          · rw [hbuf k (by omega), hs1.view d (lba + k) (by omega)]
    · exact ⟨some buffer, c, rfl, .nothing hc buffer (by omega)⟩

/-- The place of sector `s` of a transfer in the caller's buffer. Its turn starts at the page of
the sector, or with the transfer. -/
def bufferPlace (lba s : ℕ) : ℕ :=
  bufferStart (pageLba (lba + s) - lba) + (s - (pageLba (lba + s) - lba))

theorem bufferPlace_of_lt {lba s : ℕ} (h : s < 2 ^ 23) : bufferPlace lba s = s := by
  have hf : pageLba (lba + s) - lba ≤ s := by
    unfold pageLba
    omega
  rw [bufferPlace, bufferStart_of_lt (hf.trans_lt h)]
  omega

theorem bufferPlace_turn {lba done k : ℕ} (hs : done = 0 ∨ (lba + done) % 8 = 0)
    (hp : (lba + done) % 8 + k < 8) : bufferPlace lba (done + k) = bufferStart done + k := by
  have hf : pageLba (lba + (done + k)) - lba = done := by
    unfold pageLba
    omega
  rw [bufferPlace, hf]
  omega

/-- Readers of the other devices see what they saw. -/
structure OnlyDevice (c c' : Sys) (d : ℕ) : Prop where
  count : c'.store.sectorCount = c.store.sectorCount
  readOnly : c'.store.readOnly = c.store.readOnly
  view : ∀ d' ≠ d, ∀ l < c.store.sectorCount d', view c' d' l = view c d' l

/-- A transfer that does not reach a page which starts inside the device and ends outside of it:
it lies inside, or the device has whole pages. -/
def Regular (count lba sectors : ℕ) : Prop :=
  lba + sectors ≤ count ∨ count % 8 = 0 ∧ lba < 2 ^ 32

/-- What turn `done` and the later ones of the write loop do, whether or not the range lies
inside the device. -/
structure TurnsDone (c : Sys) (d lba sectors done : ℕ) (buffer : ℕ → Sector) (r : Option Unit)
    (c' : Sys) : Prop where
  coherent : Coherent c'
  only : OnlyDevice c c' d
  isSome : r.isSome ↔ PagesInside (c.store.sectorCount d) lba done sectors
  /-- A regular transfer stores its sectors up to the end of the device, also when it fails. -/
  view : c.store.sectorCount d < 2 ^ 32 →
    lba + sectors ≤ c.store.sectorCount d ∨
      c.store.sectorCount d % 8 = 0 ∧ lba + done < 2 ^ 32 →
    (done < sectors → done = 0 ∨ (lba + done) % 8 = 0) →
    ∀ l < c.store.sectorCount d, view c' d l =
      if lba + done ≤ l ∧ l < lba + sectors then buffer (bufferPlace lba (l - lba))
      else view c d l

theorem TurnsDone.nothing (hc : Coherent c) {d lba sectors done : ℕ} (buffer : ℕ → Sector)
    (hle : sectors ≤ done) : TurnsDone c d lba sectors done buffer (some ()) c where
  coherent := hc
  only := ⟨rfl, rfl, fun _ _ _ _ => rfl⟩
  isSome := iff_of_true rfl fun k hk hks => by omega
  view := fun _ _ _ l _ => by rw [if_neg (by omega)]

/-- A turn that finds no page, behind the last sector of a device of whole pages. -/
theorem TurnsDone.past {c1 : Sys} (hc : Coherent c1) (hs : SameView c c1) {d lba sectors done : ℕ}
    (buffer : ℕ → Sector) (hlt : done < sectors)
    (hp : c.store.sectorCount d ≤ pageLba ((lba + done) % 2 ^ 32)) :
    TurnsDone c d lba sectors done buffer none c1 where
  coherent := hc
  only := ⟨hs.count, hs.readOnly, fun d' _ l hl => hs.view d' l hl⟩
  isSome := iff_of_false (by simp) fun h => absurd (h done le_rfl hlt) (Nat.not_lt.mpr hp)
  view := by
    intro hcount hr _ l hl
    have hend : c.store.sectorCount d ≤ lba + done := by
      unfold pageLba at hp
      omega
    rw [hs.view d l hl, if_neg (by omega)]

/-- One turn stores `n` sectors and the loop goes on behind them. -/
theorem TurnsDone.turn {c1 c2 c' : Sys} (hs1 : SameView c c1) {d lba sectors done n : ℕ}
    {buffer : ℕ → Sector} {r : Option Unit} (hlt : done < sectors)
    (hin : pageLba ((lba + done) % 2 ^ 32) < c.store.sectorCount d)
    (hn : min (8 - (lba + done) % 2 ^ 32 % 8) (sectors - done) = n)
    (hs2 : Stored c1 c2 d ((lba + done) % 2 ^ 32) n fun k => buffer (bufferStart done + k))
    (hres : TurnsDone c2 d lba sectors (done + n) buffer r c') :
    TurnsDone c d lba sectors done buffer r c' := by
  have hc' : c2.store.sectorCount = c.store.sectorCount := hs2.count.trans hs1.count
  refine ⟨hres.coherent, ⟨hres.only.count.trans hc',
    hres.only.readOnly.trans (hs2.readOnly.trans hs1.readOnly), fun d' hd' l hl => ?_⟩, ?_, ?_⟩
  · rw [hres.only.view d' hd' l (by rw [hc']; exact hl),
      hs2.view d' l (by rw [hs1.count]; exact hl), if_neg fun h => hd' h.1, hs1.view d' l hl]
  · rw [hres.isSome, hc', pagesInside_turn hlt, hn, and_iff_right hin]
  · intro hcount hreg hst l hl
    -- The sum did not wrap, and the next turn starts at a page.
    have hlow : (lba + done) % 2 ^ 32 = lba + done := Nat.mod_eq_of_lt (by omega)
    rw [hlow] at hin hn hs2
    have hne := hres.view (by rw [hc']; exact hcount)
      (by rw [hc']; unfold pageLba at hin; omega) (by omega) l (by rw [hc']; exact hl)
    rw [hne, hs2.view d l (by rw [hs1.count]; exact hl), hs1.view d l hl]
    by_cases ht : lba + done ≤ l ∧ l < lba + done + n
    · rw [if_neg (by omega), if_pos ⟨rfl, ht⟩, if_pos (by omega)]
      have hp := bufferPlace_turn (k := l - (lba + done)) (hst hlt) (by omega)
      rw [← hp, show done + (l - (lba + done)) = l - lba by omega]
    · have hm : ¬(d = d ∧ lba + done ≤ l ∧ l < lba + done + n) := fun h => ht h.2
      rw [if_neg hm]
      exact if_congr (by omega) rfl rfl

theorem exec_writeLoop (hc : Coherent c) (d lba sectors fuel done : ℕ) (buffer : ℕ → Sector)
    (hw : c.store.readOnly d = false) (hf : sectors ≤ done + fuel) :
    ∃ r c', exec handle (writeLoop d lba sectors buffer fuel done) c = (r, c') ∧
      TurnsDone c d lba sectors done buffer r c' := by
  induction fuel generalizing c done with
  | zero => exact ⟨some (), c, rfl, .nothing hc buffer (by omega)⟩
  | succ fuel ih =>
    rw [writeLoop]
    split
    · next hlt =>
      rw [exec_bind]
      obtain ⟨r, c1, he, hc1, hs1, ⟨rfl, hp⟩ | ⟨i, rfl, hin, hh⟩⟩ :=
        exec_fill_cases hc d ((lba + done) % 2 ^ 32)
      · exact ⟨none, c1, by rw [he, follow_none], .past hc1 hs1 buffer hlt hp⟩
      · rw [he, follow_some, exec_bind, exec_getMem, follow_some]
        dsimp only
        rw [hh.offset, exec_bind, exec_modifyMem, follow_some]
        generalize hn : min (8 - (lba + done) % 2 ^ 32 % 8) (sectors - done) = n
        have hw1 : c1.store.readOnly d = false := by rw [hs1.readOnly]; exact hw
        obtain ⟨hc2, hs2⟩ := stored_turn hc1 (fun k => buffer (bufferStart done + k)) hh
          (by omega : _ + n ≤ 8) hw1
        obtain ⟨r, c', he', hr⟩ := ih hc2 (done + n) hw1 (by omega)
        exact ⟨r, c', he', .turn hs1 hlt hin hn hs2 hr⟩
    · exact ⟨some (), c, rfl, .nothing hc buffer (by omega)⟩

/-- A read of any range: whether it returns 0, and what a short one inside the device brings. -/
theorem exec_cacheRead (hc : Coherent c) (d lba sectors : ℕ) :
    ∃ r c', exec handle (blockCacheRead d lba sectors) c = (r, c') ∧ Coherent c' ∧
      SameView c c' ∧
      (r.isSome ↔ sectors ≠ 0 ∧ PagesInside (c.store.sectorCount d) lba 0 sectors) ∧
      (c.store.sectorCount d < 2 ^ 32 → lba + sectors ≤ c.store.sectorCount d →
        sectors ≤ 2 ^ 23 → ∀ data ∈ r, ∀ s < sectors, data s = view c d (lba + s)) := by
  rw [blockCacheRead]
  split
  · exact ⟨none, c, rfl, hc, SameView.refl c, by simp_all, by simp⟩
  · next hpos =>
    obtain ⟨r, c', he, hd⟩ := exec_readLoop hc d lba sectors sectors 0 (fun _ => Image.zero)
      (by omega)
    exact ⟨r, c', he, hd.coherent, hd.same, by rw [hd.isSome, and_iff_right hpos],
      fun hcount hin hshort => hd.view hcount hin hshort (Nat.zero_le _) (by omega)⟩

theorem Coherent.read (hc : Coherent c) {d n : ℕ} (lba : ℕ)
    (hcount : c.store.sectorCount d < 2 ^ 32) (hpos : n ≠ 0)
    (hin : lba + n ≤ c.store.sectorCount d) (hshort : n ≤ 2 ^ 23) :
    ∃ data c', exec handle (blockCacheRead d lba n) c = (some data, c') ∧
      ∀ s < n, data s = view c d (lba + s) := by
  obtain ⟨r, c', he, -, -, hso, hv⟩ := exec_cacheRead hc d lba n
  obtain ⟨data, rfl⟩ := Option.isSome_iff_exists.mp
    (hso.mpr ⟨hpos, pagesInside_of_le hin hcount⟩)
  exact ⟨data, c', he, hv hcount hin hshort data rfl⟩

/-- A write of any range: whether it returns 0, and what a regular one of at most `2 ^ 23` sectors
leaves for readers, also when it fails. -/
theorem exec_cacheWrite (hc : Coherent c) (d lba : ℕ) (buffer : ℕ → Sector) (sectors : ℕ)
    (hw : c.store.readOnly d = false) :
    ∃ r c', exec handle (blockCacheWrite d lba buffer sectors) c = (r, c') ∧ Coherent c' ∧
      OnlyDevice c c' d ∧
      (r.isSome ↔ sectors ≠ 0 ∧ PagesInside (c.store.sectorCount d) lba 0 sectors) ∧
      (c.store.sectorCount d < 2 ^ 32 → Regular (c.store.sectorCount d) lba sectors →
        ∀ l < c.store.sectorCount d, view c' d l =
          if lba ≤ l ∧ l < lba + sectors then buffer (bufferPlace lba (l - lba))
          else view c d l) := by
  rw [blockCacheWrite]
  split
  · next hz =>
    subst hz
    exact ⟨none, c, rfl, hc, ⟨rfl, rfl, fun _ _ _ _ => rfl⟩, by simp,
      fun _ _ l _ => by rw [if_neg (by omega)]⟩
  · next hpos =>
    obtain ⟨r, c', he, hd⟩ := exec_writeLoop hc d lba sectors sectors 0 buffer hw (by omega)
    exact ⟨r, c', he, hd.coherent, hd.only, by rw [hd.isSome, and_iff_right hpos],
      fun hcount hr => hd.view hcount hr fun _ => .inl rfl⟩

inductive CacheOp where
  | read (device lba sectors : ℕ)
  | write (device lba : ℕ) (buffer : ℕ → Sector) (sectors : ℕ)
  | flush (device : ℕ)
  /-- A sweep of the clock, as any miss causes one. -/
  | evict

namespace CacheOp

def routine : CacheOp → CacheR Unit
  | read d lba n => do
    let _ ← blockCacheRead d lba n
    pure ()
  | write d lba buffer n => blockCacheWrite d lba buffer n
  | flush d => blockCacheFlush d
  | evict => do
    let _ ← BlockCache.evict 32
    pure ()

/-- The range of a call lies inside its device, and what is written is accepted there. -/
def Inside (disk : Disk) : CacheOp → Prop
  | read d lba n => n ≠ 0 ∧ lba + n ≤ disk.sectorCount d
  | write d lba _ n => n ≠ 0 ∧ lba + n ≤ disk.sectorCount d ∧ disk.readOnly d = false
  | flush _ => True
  | evict => True

/-- The calls that a device takes what they write. -/
def Accepted (disk : Disk) : CacheOp → Prop
  | write d _ _ _ => disk.readOnly d = false
  | _ => True

/-- The first sector is a `u32`, and so is every byte offset in the buffer. -/
def Short : CacheOp → Prop
  | read _ lba n => lba < 2 ^ 32 ∧ n ≤ 2 ^ 23
  | write _ lba _ n => lba < 2 ^ 32 ∧ n ≤ 2 ^ 23
  | flush _ => True
  | evict => True

/-- A write to the device does not wrap in the buffer, and no page that it reaches is cut off by
the end of the device. -/
def Plain (disk : Disk) (d : ℕ) : CacheOp → Prop
  | write d' lba _ n => d' = d → n ≤ 2 ^ 23 ∧ Regular (disk.sectorCount d) lba n
  | _ => True

/-- What a call stores in a sector, if it is a write that covers it. -/
def stored : CacheOp → ℕ → ℕ → Option Sector
  | write d' lba buffer n, d, l =>
    if d = d' ∧ lba ≤ l ∧ l < lba + n then some (buffer (l - lba)) else none
  | _, _, _ => none

end CacheOp

/-- The machine after a run of calls, whatever each of them returned. -/
def runOps (c : Sys) (ops : List CacheOp) : Sys :=
  ops.foldl (fun c op => (exec handle op.routine c).2) c

/-- The most recent cached write to a sector. -/
def lastStored (ops : List CacheOp) (d l : ℕ) : Option Sector :=
  ops.reverse.findSome? (fun op => op.stored d l)

/-- The most recent cached write to a sector or, if there is none, what the device
held before the run. -/
def contents (disk : Disk) (ops : List CacheOp) (d l : ℕ) : Sector :=
  (lastStored ops d l).getD (disk.sector d l)

theorem contents_append (disk : Disk) (ops : List CacheOp) (op : CacheOp) (d l : ℕ) :
    contents disk (ops ++ [op]) d l = (op.stored d l).getD (contents disk ops d l) := by
  rw [contents, lastStored, List.reverse_append, List.reverse_singleton, List.singleton_append,
    List.findSome?_cons]
  cases op.stored d l <;> rfl

/-- Devices that answer every request and are of a size the interface can express. -/
structure FaultFree (disk : Disk) : Prop where
  noFault : ∀ n, disk.fault n = false
  count : ∀ d, disk.sectorCount d < 2 ^ 32

/-- The cache is coherent over devices shaped as `disk`. -/
structure Fits (disk : Disk) (c : Sys) : Prop where
  coherent : Coherent c
  count : c.store.sectorCount = disk.sectorCount
  readOnly : c.store.readOnly = disk.readOnly

theorem Fits.of_sameView {c' : Sys} (h : Fits disk c) (hc : Coherent c') (hs : SameView c c') :
    Fits disk c' :=
  ⟨hc, hs.count.trans h.count, hs.readOnly.trans h.readOnly⟩

/-- Readers of a device see what the call stored there and else what they saw. -/
def Applied (disk : Disk) (op : CacheOp) (c c' : Sys) : Prop :=
  ∀ d, op.Plain disk d → ∀ l < disk.sectorCount d, view c' d l = (op.stored d l).getD (view c d l)

theorem Fits.applied_of_sameView {c' : Sys} (h : Fits disk c) {op : CacheOp}
    (hop : ∀ d l, op.stored d l = none) (hs : SameView c c') : Applied disk op c c' := by
  intro d _ l hl
  rw [hop, Option.getD_none, hs.view d l (by rw [h.count]; exact hl)]

/-- One call from any cache over the devices, whether or not it fails. -/
theorem Fits.step (h : Fits disk c) (hd : FaultFree disk) (op : CacheOp)
    (hac : op.Accepted disk) : Fits disk (exec handle op.routine c).2 ∧
      Applied disk op c (exec handle op.routine c).2 := by
  cases op with
  | read d lba n =>
    obtain ⟨r, c', he, hc', hs, -⟩ := exec_cacheRead h.coherent d lba n
    have hst : (exec handle (CacheOp.read d lba n).routine c).2 = c' := by
      simp only [CacheOp.routine, exec_bind, he]
      cases r <;> rfl
    rw [hst]
    exact ⟨h.of_sameView hc' hs, h.applied_of_sameView (fun _ _ => rfl) hs⟩
  | write d lba buffer n =>
    obtain ⟨r, c', he, hc', ho, -, hv⟩ := exec_cacheWrite h.coherent d lba buffer n
      (by rw [h.readOnly]; exact hac)
    simp only [CacheOp.routine, he]
    refine ⟨⟨hc', ho.count.trans h.count, ho.readOnly.trans h.readOnly⟩, ?_⟩
    intro d' hp l hl
    by_cases hdev : d' = d
    · subst hdev
      obtain ⟨hshort, hr⟩ := hp rfl
      rw [h.count] at hv
      rw [hv (hd.count d') hr l hl]
      by_cases hin : lba ≤ l ∧ l < lba + n
      · simp only [CacheOp.stored, if_pos hin, true_and, Option.getD_some]
        rw [bufferPlace_of_lt (by omega)]
      · simp only [CacheOp.stored, if_neg hin, true_and, Option.getD_none]
    · rw [ho.view d' hdev l (by rw [h.count]; exact hl)]
      simp only [CacheOp.stored, hdev, false_and, if_false, Option.getD_none]
  | flush d =>
    obtain ⟨c', he, hc', hs, -⟩ := exec_flush d h.coherent
    simp only [CacheOp.routine, he]
    exact ⟨h.of_sameView hc' hs, h.applied_of_sameView (fun _ _ => rfl) hs⟩
  | evict =>
    obtain ⟨c', he, hc', hs, -, -⟩ := exec_evict h.coherent 31
    simp only [CacheOp.routine, exec_bind, he, follow_some, exec_pure]
    exact ⟨h.of_sameView hc' hs, h.applied_of_sameView (fun _ _ => rfl) hs⟩

/-- After a run the cache is coherent, and it stands for the most recent writes to every device
whose writes were plain. -/
theorem fits_run (hd : FaultFree disk) (ops : List CacheOp) (hops : ∀ op ∈ ops, op.Accepted disk) :
    Fits disk (runOps ⟨bootCache, disk⟩ ops) ∧ ∀ d, (∀ op ∈ ops, op.Plain disk d) →
      ∀ l < disk.sectorCount d, view (runOps ⟨bootCache, disk⟩ ops) d l =
        contents disk ops d l := by
  induction ops using List.reverseRecOn with
  | nil =>
    exact ⟨⟨coherent_boot hd.noFault, rfl, rfl⟩, fun d _ l _ =>
      view_of_not_holds (fun i hi => hi.1 rfl)⟩
  | append_singleton ops op ih =>
    obtain ⟨hfits, hs⟩ := ih fun o ho => hops o (List.mem_append_left _ ho)
    obtain ⟨hf', ha⟩ := hfits.step hd op (hops op (by simp))
    rw [runOps, List.foldl_append]
    refine ⟨hf', fun d hp l hl => ?_⟩
    rw [contents_append, ← hs d (fun o ho => hp o (List.mem_append_left _ ho)) l hl]
    exact ha d (hp op (by simp)) l hl

theorem CacheOp.Inside.accepted {op : CacheOp} (h : op.Inside disk) : op.Accepted disk := by
  cases op with
  | write => exact h.2.2
  | _ => trivial

theorem CacheOp.Inside.plain {op : CacheOp} (h : op.Inside disk) (hshort : op.Short) (d : ℕ) :
    op.Plain disk d := by
  cases op with
  | write d' lba buffer n =>
    rintro rfl
    exact ⟨hshort.2, .inl h.2.1⟩
  | _ => trivial

/-- The view of a device after a run inside the devices. -/
theorem shows_run (hd : FaultFree disk) (ops : List CacheOp)
    (hops : ∀ op ∈ ops, op.Inside disk ∧ op.Short) :
    Fits disk (runOps ⟨bootCache, disk⟩ ops) ∧ ∀ d, ∀ l < disk.sectorCount d,
      view (runOps ⟨bootCache, disk⟩ ops) d l = contents disk ops d l := by
  obtain ⟨hfits, hs⟩ := fits_run hd ops fun op ho => (hops op ho).1.accepted
  exact ⟨hfits, fun d => hs d fun op ho => (hops op ho).1.plain (hops op ho).2 d⟩

/-- A short read inside its device returns the view. -/
theorem Fits.read (h : Fits disk c) (hd : FaultFree disk) {d lba n : ℕ} (hpos : n ≠ 0)
    (hin : lba + n ≤ disk.sectorCount d) (hshort : n ≤ 2 ^ 23) :
    ∃ data c', exec handle (blockCacheRead d lba n) c = (some data, c') ∧
      ∀ s < n, data s = view c d (lba + s) :=
  h.coherent.read lba (h.count ▸ hd.count d) hpos (h.count ▸ hin) hshort

/-- A flush returns 0 and leaves the view on the device. -/
theorem Fits.flush (h : Fits disk c) (d : ℕ) :
    ∃ c', exec handle (blockCacheFlush d) c = (some (), c') ∧
      ∀ l < disk.sectorCount d, c'.store.sector d l = view c d l := by
  obtain ⟨c', he, hc', hs, hp⟩ := exec_flush d h.coherent
  have h' := h.of_sameView hc' hs
  refine ⟨c', he, fun l hl => ?_⟩
  rw [hc'.sector_of_not_pending (by rw [h'.count]; exact hl) (fun x hx => hp _ hx rfl),
    hs.view d l (by rw [h.count]; exact hl)]

/-- At every read of a run the cache returns the most recent write to each sector or the
device's first contents, and at every flush the device comes to hold exactly that, up to its
last sector. No transfer is longer than the byte offsets in its buffer can say. -/
theorem cache_transparent (disk : Disk) (hd : FaultFree disk) (ops : List CacheOp)
    (hops : ∀ op ∈ ops, op.Inside disk ∧ op.Short) :
    (∀ before d lba n after, ops = before ++ CacheOp.read d lba n :: after →
      ∃ data c', exec handle (blockCacheRead d lba n) (runOps ⟨bootCache, disk⟩ before) =
          (some data, c') ∧ ∀ s < n, data s = contents disk before d (lba + s)) ∧
    (∀ before d after, ops = before ++ CacheOp.flush d :: after →
      ∃ c', exec handle (blockCacheFlush d) (runOps ⟨bootCache, disk⟩ before) = (some (), c') ∧
        ∀ l < disk.sectorCount d, c'.store.sector d l = contents disk before d l) := by
  have hshows : ∀ before op after, ops = before ++ op :: after → _ := fun before op after h =>
    shows_run hd before fun o ho => hops o (by rw [h]; exact List.mem_append_left _ ho)
  constructor
  · intro before d lba n after h
    obtain ⟨hfits, hshown⟩ := hshows before _ after h
    obtain ⟨⟨hpos, hin⟩, hshort⟩ := hops (.read d lba n) (by rw [h]; simp)
    obtain ⟨data, c', he, hda⟩ := hfits.read hd hpos hin hshort.2
    refine ⟨data, c', he, fun s hs => ?_⟩
    rw [hda s hs, hshown d (lba + s) (by omega)]
  · intro before d after h
    obtain ⟨hfits, hshown⟩ := hshows before _ after h
    obtain ⟨c', he, hse⟩ := hfits.flush d
    refine ⟨c', he, fun l hl => ?_⟩
    rw [hse l hl, hshown d l hl]

/-- A device of 20 sectors has only half of its last cache page, where two writes overlap
before the flush. -/
def partialPageOps : List CacheOp :=
  [.write 0 14 (fun _ => Image.zero) 6, .read 0 15 5, .write 0 17 (fun _ => Image.zero) 2,
    .evict, .flush 0]

theorem cache_transparent_partialPage :
    ∃ c', exec handle (blockCacheFlush 0) (runOps (blankSys 20) (partialPageOps.take 4)) =
        (some (), c') ∧
      ∀ l < 20, c'.store.sector 0 l = contents (blankSys 20).store (partialPageOps.take 4) 0 l := by
  have hops : ∀ op ∈ partialPageOps, op.Inside (blankSys 20).store ∧ op.Short := by
    simp [partialPageOps, CacheOp.Inside, CacheOp.Short, blankSys]
  exact (cache_transparent (blankSys 20).store ⟨fun _ => rfl, fun _ => by simp [blankSys]⟩
    partialPageOps hops).2 (partialPageOps.take 4) 0 [] rfl

/-- A write of one sector more than 32-bit byte offsets can say. Its first sector is zero and the
others are not. -/
def longWrite : CacheOp :=
  .write 0 0 (fun s => if s = 0 then Image.zero else Image.zero.setByte 0 1) (2 ^ 23 + 1)

/-- The last sector of the transfer is taken from the start of the buffer. -/
theorem long_write_wraps :
    let disk := (blankSys (2 ^ 23 + 8)).store
    longWrite.Inside disk ∧ (CacheOp.read 0 (2 ^ 23) 1).Inside disk ∧
      ∃ data c', exec handle (blockCacheRead 0 (2 ^ 23) 1) (runOps ⟨bootCache, disk⟩ [longWrite]) =
        (some data, c') ∧ data 0 ≠ contents disk [longWrite] 0 (2 ^ 23) := by
  intro disk
  have hcount : disk.sectorCount 0 = 2 ^ 23 + 8 := rfl
  obtain ⟨r, c1, he, hc1, ho, -, hv⟩ := exec_cacheWrite (coherent_blankSys (2 ^ 23 + 8)) 0 0
    (fun s => if s = 0 then Image.zero else Image.zero.setByte 0 1) (2 ^ 23 + 1) rfl
  have hrun : runOps ⟨bootCache, disk⟩ [longWrite] = c1 := congrArg Prod.snd he
  have hcou1 : c1.store.sectorCount 0 = 2 ^ 23 + 8 := by rw [ho.count]; rfl
  obtain ⟨data, c', hre, hd⟩ := hc1.read (d := 0) (n := 1) (2 ^ 23) (by omega)
    one_ne_zero (by omega) (by omega)
  refine ⟨⟨by omega, by omega, rfl⟩, ⟨by omega, by omega⟩, data, c', by rw [hrun, hre], ?_⟩
  have hp : bufferPlace 0 (2 ^ 23) = 0 := by
    norm_num [bufferPlace, pageLba, bufferStart]
  have hl : data 0 = Image.zero := by
    rw [hd 0 (by omega), Nat.add_zero,
      hv (by change 2 ^ 23 + 8 < 2 ^ 32; omega) (.inl (by change 0 + _ ≤ 2 ^ 23 + 8; omega)) _
        (by change 2 ^ 23 < 2 ^ 23 + 8; omega),
      if_pos (by omega), Nat.sub_zero, hp, if_pos rfl]
  have hcon : contents disk [longWrite] 0 (2 ^ 23) = Image.zero.setByte 0 1 := by
    rw [← List.nil_append [longWrite], contents_append]
    simp [longWrite, CacheOp.stored]
  intro h
  have hb := congrArg (fun b => Image.byte b 0) ((hl.symm.trans h).trans hcon)
  simp only [Image.byte_setByte _ 0 1 (by omega : 0 < 512), if_true] at hb
  exact absurd hb (by decide)

/-- No write is lost: the device holds the most recent write to a sector, or exactly one page
of the cache does, and it is dirty. -/
theorem written_or_dirty (disk : Disk) (hd : FaultFree disk) (ops : List CacheOp)
    (hops : ∀ op ∈ ops, op.Inside disk ∧ op.Short) (d l : ℕ) (hl : l < disk.sectorCount d) :
    let c := runOps ⟨bootCache, disk⟩ ops
    c.store.sector d l = contents disk ops d l ∨
      ∃! i, Holds (c.mem.entries i) d l ∧ (c.mem.entries i).state = .dirty ∧
        (c.mem.entries i).data (l - pageLba l) = contents disk ops d l := by
  intro c
  obtain ⟨hfits, hsh⟩ : Fits disk c ∧ _ := shows_run hd ops hops
  have hc := hfits.coherent
  rw [← hsh d l hl]
  by_cases hex : ∃ i, Holds (c.mem.entries i) d l
  · obtain ⟨i, hi⟩ := hex
    by_cases hst : (c.mem.entries i).state = .dirty
    · refine .inr ⟨i, ⟨hi, hst, (hc.view_of_holds hi).symm⟩, fun j hj => ?_⟩
      exact Option.some.inj ((hc.lookup_eq hj.1).symm.trans (hc.lookup_eq hi))
    · exact .inl (hc.view_of_not_dirty hi (by rwa [hfits.count]) hst).symm
  · exact .inl (view_of_not_holds fun i hi => hex ⟨i, hi⟩).symm

/-- A sector of the last page, before the flush. -/
theorem written_or_dirty_partialPage :
    let disk := (blankSys 20).store
    let c := runOps ⟨bootCache, disk⟩ (partialPageOps.take 3)
    c.store.sector 0 17 = contents disk (partialPageOps.take 3) 0 17 ∨
      ∃! i, Holds (c.mem.entries i) 0 17 ∧ (c.mem.entries i).state = .dirty ∧
        (c.mem.entries i).data (17 - pageLba 17) = contents disk (partialPageOps.take 3) 0 17 :=
  written_or_dirty _ ⟨fun _ => rfl, fun _ => by simp [blankSys]⟩ (partialPageOps.take 3)
    (by simp [partialPageOps, CacheOp.Inside, CacheOp.Short, blankSys]) 0 17 (by simp [blankSys])

/-- On a device of whole pages every short write is plain. -/
theorem CacheOp.Short.plain {op : CacheOp} (h : op.Short) (hw : disk.sectorCount d % 8 = 0) :
    op.Plain disk d := by
  cases op with
  | write d' lba buffer n => exact fun _ => ⟨h.2, .inr ⟨hw, h.1⟩⟩
  | _ => trivial

end MichCore.BlockCache
