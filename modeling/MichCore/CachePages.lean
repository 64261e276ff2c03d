import MichCore.CacheCoherence

/-!
# Whole pages through the cache

The filesystem reads and writes eight aligned sectors at a time. On a coherent cache such a read
returns the view, such a write replaces it on one page, a flush leaves nothing pending, and a
direct write drops the cached page first.
-/
namespace MichCore.BlockCache
open Disk (handle)
open Routine

/-- One of the eight sector writes of a page. -/
def OfPage (d page : ℕ) (buffer : ℕ → Sector) (w : ℕ × ℕ × Sector) : Prop :=
  ∃ s < 8, w = (d, page + s, buffer s)

/-- One page has new content for every reader, and nothing else happened. -/
structure Wrote (c c' : Sys) (d page : ℕ) (buffer : ℕ → Sector) : Prop where
  count : c'.store.sectorCount = c.store.sectorCount
  readOnly : c'.store.readOnly = c.store.readOnly
  view : ∀ d' l, l < c.store.sectorCount d' → view c' d' l =
    if d' = d ∧ page ≤ l ∧ l < page + 8 then buffer (l - page) else view c d' l
  log : ∃ new, c'.store.log = c.store.log ++ new ∧
    ∀ w ∈ new, Pending c w ∨ OfPage d page buffer w
  pending : ∀ w, Pending c' w → Pending c w ∨ OfPage d page buffer w

variable {c : Sys} {d page : ℕ}

theorem SameView.wrote {a b : Sys} {buffer : ℕ → Sector} (hab : SameView a b)
    (hbc : Wrote b c d page buffer) : Wrote a c d page buffer := by
  have hpe : ∀ w, Pending b w ∨ OfPage d page buffer w → Pending a w ∨ OfPage d page buffer w :=
    fun w hw => hw.imp_left (hab.pending w)
  refine ⟨hbc.count.trans hab.count, hbc.readOnly.trans hab.readOnly, ?_, ?_, ?_⟩
  · intro d' l hl
    rw [hbc.view d' l (by rw [hab.count]; exact hl), hab.view d' l hl]
  · obtain ⟨n1, h1, hp1, -⟩ := hab.log
    obtain ⟨n2, h2, hp2⟩ := hbc.log
    refine ⟨n1 ++ n2, by rw [h2, h1, List.append_assoc], ?_⟩
    intro w hw
    rcases List.mem_append.mp hw with hw | hw
    · exact .inl (hp1 w hw)
    · exact hpe w (hp2 w hw)
  · exact fun w hw => hpe w (hbc.pending w hw)

theorem pageLba_eq_iff {l : ℕ} (hp : page % 8 = 0) :
    pageLba l = page ↔ page ≤ l ∧ l < page + 8 := by
  unfold pageLba
  omega

section

variable (hc : Coherent c)
include hc

theorem Coherent.sector_of_not_pending {l : ℕ} (hl : l < c.store.sectorCount d)
    (h : ∀ x, ¬ Pending c (d, l, x)) : c.store.sector d l = view c d l := by
  by_cases hex : ∃ j, Holds (c.mem.entries j) d l
  · obtain ⟨j, hj⟩ := hex
    refine (hc.view_of_not_dirty hj hl fun hs => ?_).symm
    exact h _ ⟨j, hs, l - pageLba l, hc.offset_lt hj hl,
      by rw [hj.2.2, hj.2.1, Nat.add_sub_cancel' (pageLba_le l)]⟩
  · exact (view_of_not_holds (fun j hj => hex ⟨j, hj⟩)).symm

theorem exec_readPage (d page : ℕ) (hp : page % 8 = 0)
    (hin : page + 8 ≤ c.store.sectorCount d) (hcount : c.store.sectorCount d < 2 ^ 32) :
    ∃ data c', exec handle (blockCacheRead d page 8) c = (some data, c') ∧ Coherent c' ∧
      SameView c c' ∧ ∀ s < 8, data s = view c d (page + s) := by
  obtain ⟨i, c', hf, hc', hs, hh⟩ := exec_fill hc d page (by omega)
  have hlba : (c'.mem.entries i).lba = page := by rw [hh.2.2, pageLba_of_aligned page hp]
  refine ⟨fun s => if 0 ≤ s ∧ s < 0 + 8 then (c'.mem.entries i).data (0 + (s - 0)) else Image.zero,
    c', ?_, hc', hs, ?_⟩
  · rw [blockCacheRead, if_neg (by omega), readLoop, if_pos (by omega), Nat.add_zero,
      Nat.mod_eq_of_lt (by omega), exec_bind, hf, follow_some, exec_bind, exec_getMem, follow_some]
    simp only [hlba, Nat.sub_self, Nat.sub_zero, min_self, bufferStart_of_lt (Nat.two_pow_pos 23)]
    rw [readLoop, if_neg (by omega), exec_pure]
  · intro s hs8
    have hh' : Holds (c'.mem.entries i) d (page + s) :=
      ⟨hh.1, hh.2.1, by rw [hlba, pageLba_add page s hp hs8]⟩
    rw [← hs.view d (page + s) (by omega), hc'.view_of_holds hh', pageLba_add page s hp hs8]
    simp [hs8]

/-- Overwrite a cached page. -/
def overwritten (c : Sys) (i : Fin 16) (buffer : ℕ → Sector) : Sys :=
  ⟨c.mem.setEntry i { c.mem.entries i with
    data := fun s => if s < 8 then buffer s else (c.mem.entries i).data s, state := .dirty },
    c.store⟩

theorem overwritten_spec (i : Fin 16) (buffer : ℕ → Sector) (hp : page % 8 = 0)
    (hw : c.store.readOnly d = false) (hh : Holds (c.mem.entries i) d page) :
    Coherent (overwritten c i buffer) ∧ Wrote c (overwritten c i buffer) d page buffer := by
  set c' := overwritten c i buffer with hc'
  have hlba : (c.mem.entries i).lba = page := by rw [hh.2.2, pageLba_of_aligned page hp]
  have hent : ∀ j, c'.mem.entries j = if j = i then
      { c.mem.entries i with
        data := fun s => if s < 8 then buffer s else (c.mem.entries i).data s, state := .dirty }
      else c.mem.entries j := setEntry_entries c.mem i _
  have hot : ∀ j, j ≠ i → c'.mem.entries j = c.mem.entries j :=
    fun j hj => by rw [hent, if_neg hj]
  have hd : (c'.mem.entries i).data = fun s =>
    if s < 8 then buffer s else (c.mem.entries i).data s := by
    rw [hent, if_pos rfl]
  have hkey : ∀ j, (c'.mem.entries j).deviceId = (c.mem.entries j).deviceId ∧
      (c'.mem.entries j).lba = (c.mem.entries j).lba ∧
      (c'.mem.entries j).sectors = (c.mem.entries j).sectors ∧
      ((c'.mem.entries j).state ≠ .empty ↔ (c.mem.entries j).state ≠ .empty) := by
    intro j
    rw [hent]
    split_ifs with hji
    · rw [hji]
      exact ⟨rfl, rfl, rfl, iff_of_true nofun hh.1⟩
    · exact ⟨rfl, rfl, rfl, Iff.rfl⟩
  have hcoh : Coherent c' := by
    refine coherent_of_pages hc.noFault (fun j k hj hk hid hl => ?_) fun j hj => ?_
    · rw [(hkey j).1, (hkey k).1] at hid
      rw [(hkey j).2.1, (hkey k).2.1] at hl
      exact hc.unique j k ((hkey j).2.2.2.mp hj) ((hkey k).2.2.2.mp hk) hid hl
    have hpa := hc.page ((hkey j).2.2.2.mp hj)
    rw [hent]
    split_ifs with hji
    · subst hji
      exact ⟨hpa.device, hpa.aligned, hpa.inside, hpa.span, nofun, fun _ => hh.2.1 ▸ hw⟩
    · exact hpa
  have hho : ∀ j d' l, Holds (c'.mem.entries j) d' l ↔ Holds (c.mem.entries j) d' l := by
    intro j d' l
    rw [Holds, (hkey j).1, (hkey j).2.1, (hkey j).2.2.2, Holds]
  have hown : ∀ d' l, Holds (c.mem.entries i) d' l ↔ d' = d ∧ page ≤ l ∧ l < page + 8 := by
    intro d' l
    rw [← pageLba_eq_iff hp, Holds, hlba, hh.2.1, eq_comm, @eq_comm _ page]
    exact and_iff_right hh.1
  refine ⟨hcoh, rfl, rfl, ?_, ⟨[], by simp [hc', overwritten], by simp⟩, ?_⟩
  · intro d' l hl
    split_ifs with hnew
    · rw [hcoh.view_of_holds ((hho i d' l).mpr ((hown d' l).mpr hnew)), hd,
        (pageLba_eq_iff hp).mpr hnew.2]
      exact if_pos (by omega)
    refine view_congr (fun j => hho j d' l) (fun j hj => ?_) fun _ => rfl
    rw [hot j]
    rintro rfl
    exact hnew ((hown d' l).mp hj)
  · rintro w ⟨j, hj, s, hs, rfl⟩
    rw [(hkey j).1, (hkey j).2.1]
    rw [(hkey j).2.2.1] at hs
    by_cases hji : j = i
    · subst hji
      have hs8 : s < 8 := by have := hc.span j hh.1; omega
      refine .inr ⟨s, hs8, ?_⟩
      rw [hd, hlba, hh.2.1]
      simp only [hs8, if_true]
    · rw [hot j hji] at hj ⊢
      exact .inl ⟨j, hj, s, hs, rfl⟩

theorem exec_writePage (d page : ℕ) (buffer : ℕ → Sector) (hp : page % 8 = 0)
    (hin : page < c.store.sectorCount d) (hcount : c.store.sectorCount d < 2 ^ 32)
    (hw : c.store.readOnly d = false) :
    ∃ c', exec handle (blockCacheWrite d page buffer 8) c = (some (), c') ∧ Coherent c' ∧
      Wrote c c' d page buffer ∧ Pending c' (d, page, buffer 0) := by
  obtain ⟨i, c1, hf, hc1, hs, hh⟩ := exec_fill hc d page hin
  have hlba : (c1.mem.entries i).lba = page := by rw [hh.2.2, pageLba_of_aligned page hp]
  have ho := overwritten_spec hc1 i buffer hp (by rw [hs.readOnly]; exact hw) hh
  refine ⟨overwritten c1 i buffer, ?_, ho.1, hs.wrote ho.2, ?_⟩
  swap
  · have hsp := hc1.span i hh.1
    rw [hh.2.1, hlba, hs.count] at hsp
    refine ⟨i, ?_, 0, ?_, ?_⟩ <;> simp [overwritten, setEntry_entries, hh.2.1, hlba]
    omega
  rw [blockCacheWrite, if_neg (by omega), writeLoop, if_pos (by omega), Nat.add_zero,
    Nat.mod_eq_of_lt (by omega), exec_bind, hf, follow_some, exec_bind, exec_getMem,
    follow_some, exec_bind, exec_modifyMem, follow_some]
  simp only [hlba, Nat.sub_self, Nat.sub_zero, min_self, bufferStart_of_lt (Nat.two_pow_pos 23)]
  rw [writeLoop, if_neg (by omega), exec_pure]
  simp [overwritten, hlba]

theorem exec_writePage_past (d page : ℕ) (buffer : ℕ → Sector) (hp : page % 8 = 0)
    (hpas : c.store.sectorCount d ≤ page) (hpag : page < 2 ^ 32) :
    ∃ c', exec handle (blockCacheWrite d page buffer 8) c = (none, c') ∧ Coherent c' ∧
      SameView c c' := by
  obtain ⟨c', he, hc', hs⟩ := exec_fill_past hc d page
    (by rw [pageLba_of_aligned page hp]; exact hpas)
  refine ⟨c', ?_, hc', hs⟩
  rw [blockCacheWrite, if_neg (by omega), writeLoop, if_pos (by omega), Nat.add_zero,
    Nat.mod_eq_of_lt hpag, exec_bind, he, follow_none]

theorem retagged (i : Fin 16) : let c' : Sys := ⟨c.mem.setEntry i { c.mem.entries i with
      device := some (c.mem.entries i).deviceId }, c.store⟩
    Coherent c' ∧ SameView c c' ∧ ∀ j, (c'.mem.entries j).deviceId = (c.mem.entries j).deviceId ∧
      (c'.mem.entries j).state = (c.mem.entries j).state := by
  intro c'
  have hent : ∀ j, c'.mem.entries j = if j = i then
      { c.mem.entries i with device := some (c.mem.entries i).deviceId } else c.mem.entries j :=
    setEntry_entries c.mem i _
  have hf : ∀ j, (c'.mem.entries j).deviceId = (c.mem.entries j).deviceId ∧
      (c'.mem.entries j).state = (c.mem.entries j).state := by
    intro j
    rw [hent]
    split_ifs with hji
    · simp [hji]
    · simp
  have hs : ∀ j, (c.mem.entries j).state ≠ .empty → c'.mem.entries j = c.mem.entries j := by
    intro j hj
    rw [hent]
    split_ifs with hji
    · subst hji
      rw [← hc.device j hj]
    · rfl
  have hlive : ∀ j, (c'.mem.entries j).state ≠ .empty → c'.mem.entries j = c.mem.entries j :=
    fun j hj => hs j ((hf j).2 ▸ hj)
  exact ⟨hc.of_live rfl hlive,
    SameView.of_live hc rfl hlive (fun j hj => hs j (by rw [hj]; simp)), hf⟩

end

theorem exec_flushEntries (d : ℕ) (is : List (Fin 16)) (hc : Coherent c) :
    ∃ c', exec handle (flushEntries d is) c = (some (), c') ∧ Coherent c' ∧ SameView c c' ∧
      (∀ j, (c'.mem.entries j).deviceId = (c.mem.entries j).deviceId) ∧
      (∀ j, (c'.mem.entries j).state = .dirty → (c.mem.entries j).state = .dirty) ∧
      ∀ j ∈ is, (c.mem.entries j).deviceId = d → (c'.mem.entries j).state ≠ .dirty := by
  induction is generalizing c with
  | nil => exact ⟨c, rfl, hc, SameView.refl c, fun _ => rfl, fun _ h => h, by simp⟩
  | cons i is ih =>
    rw [flushEntries, exec_bind, exec_getMem, follow_some]
    by_cases hi : (c.mem.entries i).deviceId = d
    · obtain ⟨hc1, hs1, hf1⟩ := retagged hc i
      rw [hi] at hc1 hs1 hf1
      generalize hdef : (⟨c.mem.setEntry i { c.mem.entries i with device := some d },
        c.store⟩ : Sys) = c1 at hc1 hs1 hf1
      obtain ⟨c', he, hc', hs', hid, hst, hcl⟩ := ih (cleaned_coherent hc1 i)
      have hf2 := cleaned_fields c1 i
      have hid' : ∀ j, ((cleaned c1 i).mem.entries j).deviceId = (c.mem.entries j).deviceId :=
        fun j => (hf2 j).1.trans (hf1 j).1
      have hst' : ∀ j, ((cleaned c1 i).mem.entries j).state = .dirty →
          (c.mem.entries j).state = .dirty := by
        intro j hj
        rw [cleaned_entries] at hj
        split_ifs at hj with h
        rw [← (hf1 j).2]
        exact hj
      refine ⟨c', ?_, hc', (hs1.trans (cleaned_sameView hc1 i)).trans hs',
        fun j => (hid j).trans (hid' j), fun j hj => hst' j (hst j hj), ?_⟩
      · rw [if_pos hi, exec_bind, exec_modifyMem, follow_some, hdef, exec_bind,
          exec_writeback hc1, follow_some, he]
      · exact List.forall_mem_cons.mpr ⟨fun _ hd => cleaned_state c1 i (hst i hd),
          fun j hj hjd => hcl j hj ((hid' j).trans hjd)⟩
    · obtain ⟨c', he, hc', hs', hid, hst, hcl⟩ := ih hc
      exact ⟨c', by rw [if_neg hi, he], hc', hs', hid, hst,
        List.forall_mem_cons.mpr ⟨fun hjd => absurd hjd hi, hcl⟩⟩

theorem exec_flush (d : ℕ) (hc : Coherent c) :
    ∃ c', exec handle (blockCacheFlush d) c = (some (), c') ∧ Coherent c' ∧ SameView c c' ∧
      ∀ w, Pending c' w → w.1 ≠ d := by
  obtain ⟨c', he, hc', hs, hid, -, hcl⟩ := exec_flushEntries d (List.finRange 16) hc
  refine ⟨c', he, hc', hs, ?_⟩
  rintro w ⟨j, hj, s, hs, rfl⟩ hd
  exact hcl j (List.mem_finRange j) ((hid j).symm.trans hd) hj

def dropEntry (d page : ℕ) (e : Entry) : Entry :=
  if Holds e d page then { emptyEntry with data := e.data } else e

def dropped (c : Sys) (d page : ℕ) : Sys :=
  ⟨{ c.mem with entries := fun i => dropEntry d page (c.mem.entries i) }, c.store⟩

theorem exec_invalidate (c : Sys) (d page : ℕ) (hp : page % 8 = 0) :
    exec handle (blockCacheInvalidate d page 8) c = (some (), dropped c d page) := by
  have hl : pageLba (page + 8 - 1) = page := pageLba_add page 7 hp (by omega)
  have hkey : ∀ e : Entry, (e.state ≠ .empty ∧ e.deviceId = d ∧ page ≤ e.lba ∧ e.lba ≤ page ∧
      (e.lba - page) % 8 = 0) ↔ Holds e d page := by
    intro e
    rw [Holds, pageLba_of_aligned page hp]
    constructor
    · rintro ⟨h1, h2, h3, h4, -⟩
      exact ⟨h1, h2, by omega⟩
    · rintro ⟨h1, h2, h3⟩
      exact ⟨h1, h2, by omega, by omega, by omega⟩
  rw [blockCacheInvalidate, if_neg (by omega), exec_modifyMem]
  simp only [hl, pageLba_of_aligned page hp, hkey]
  rfl

theorem dropped_live (j : Fin 16) (h : ((dropped c d page).mem.entries j).state ≠ .empty) :
    (dropped c d page).mem.entries j = c.mem.entries j ∧ ¬ Holds (c.mem.entries j) d page := by
  simp only [dropped, dropEntry] at h ⊢
  split_ifs at h ⊢ with hh
  · exact absurd rfl h
  · exact ⟨rfl, hh⟩

theorem dropped_coherent (hc : Coherent c) (d page : ℕ) : Coherent (dropped c d page) :=
  hc.of_live rfl (fun j hj => (dropped_live j hj).1)

theorem dropped_sameView (hc : Coherent c)
    (h : ∀ i, Holds (c.mem.entries i) d page → (c.mem.entries i).state ≠ .dirty) :
    SameView c (dropped c d page) := by
  refine SameView.of_live hc rfl (fun j hj => (dropped_live j hj).1) (fun j hj => ?_)
  simp only [dropped, dropEntry]
  rw [if_neg (fun hh => h j hh hj)]

end MichCore.BlockCache
