import MichCore.BlockCache

/-!
# The cache never changes what a reader sees

The view of a sector is its cached copy, or the device when its page is not cached. In a
coherent state clean pages agree with the device and no page is cached twice. Every cache
operation keeps the state coherent and the view, and writes only pending sectors to a device.
-/
namespace MichCore.BlockCache
open Disk (handle)
open Routine Function

abbrev Sys := Config CacheMem Disk

/-- The sector a reader gets. -/
def view (c : Sys) (device lba : ℕ) : Sector :=
  match lookup c.mem device lba with
  | some i => (c.mem.entries i).data (lba - pageLba lba)
  | none => c.store.sector device lba

/-- A sector write that a dirty page still owes to its device. -/
def Pending (c : Sys) (w : ℕ × ℕ × Sector) : Prop :=
  ∃ i, (c.mem.entries i).state = .dirty ∧ ∃ s < (c.mem.entries i).sectors,
    w = ((c.mem.entries i).deviceId, (c.mem.entries i).lba + s, (c.mem.entries i).data s)

structure Coherent (c : Sys) : Prop where
  noFault : ∀ n, c.store.fault n = false
  unique : ∀ i j, (c.mem.entries i).state ≠ .empty → (c.mem.entries j).state ≠ .empty →
    (c.mem.entries i).deviceId = (c.mem.entries j).deviceId →
    (c.mem.entries i).lba = (c.mem.entries j).lba → i = j
  device : ∀ i, (c.mem.entries i).state ≠ .empty →
    (c.mem.entries i).device = some (c.mem.entries i).deviceId
  aligned : ∀ i, (c.mem.entries i).state ≠ .empty → (c.mem.entries i).lba % 8 = 0
  inside : ∀ i, (c.mem.entries i).state ≠ .empty →
    (c.mem.entries i).lba < c.store.sectorCount (c.mem.entries i).deviceId
  span : ∀ i, (c.mem.entries i).state ≠ .empty → (c.mem.entries i).sectors =
    min 8 (c.store.sectorCount (c.mem.entries i).deviceId - (c.mem.entries i).lba)
  clean : ∀ i, (c.mem.entries i).state = .clean → ∀ s < (c.mem.entries i).sectors,
    (c.mem.entries i).data s =
      c.store.sector (c.mem.entries i).deviceId ((c.mem.entries i).lba + s)
  writable : ∀ i, (c.mem.entries i).state = .dirty →
    c.store.readOnly (c.mem.entries i).deviceId = false

/-- Pages may have moved between cache and device, and nothing else happened. -/
structure SameView (c c' : Sys) : Prop where
  count : c'.store.sectorCount = c.store.sectorCount
  readOnly : c'.store.readOnly = c.store.readOnly
  view : ∀ d l, l < c.store.sectorCount d → view c' d l = view c d l
  /-- What reached a device was pending, and no pending write is lost. -/
  log : ∃ new, c'.store.log = c.store.log ++ new ∧ (∀ w ∈ new, Pending c w) ∧
    ∀ w, Pending c w → Pending c' w ∨ w ∈ new
  pending : ∀ w, Pending c' w → Pending c w

theorem SameView.refl (c : Sys) : SameView c c :=
  ⟨rfl, rfl, fun _ _ _ => rfl, ⟨[], by simp, by simp, fun _ h => .inl h⟩, fun _ h => h⟩

variable {c : Sys} {d l : ℕ} {i : Fin 16}

/-- What a coherent cache says of one page. -/
structure PageSound (st : Disk) (e : Entry) : Prop where
  device : e.device = some e.deviceId
  aligned : e.lba % 8 = 0
  inside : e.lba < st.sectorCount e.deviceId
  span : e.sectors = min 8 (st.sectorCount e.deviceId - e.lba)
  clean : e.state = .clean → ∀ s < e.sectors, e.data s = st.sector e.deviceId (e.lba + s)
  writable : e.state = .dirty → st.readOnly e.deviceId = false

theorem Coherent.page (hc : Coherent c) (hi : (c.mem.entries i).state ≠ .empty) :
    PageSound c.store (c.mem.entries i) :=
  ⟨hc.device i hi, hc.aligned i hi, hc.inside i hi, hc.span i hi, hc.clean i, hc.writable i⟩

theorem coherent_of_pages (hf : ∀ n, c.store.fault n = false)
    (hu : ∀ i j, (c.mem.entries i).state ≠ .empty → (c.mem.entries j).state ≠ .empty →
      (c.mem.entries i).deviceId = (c.mem.entries j).deviceId →
      (c.mem.entries i).lba = (c.mem.entries j).lba → i = j)
    (h : ∀ i, (c.mem.entries i).state ≠ .empty → PageSound c.store (c.mem.entries i)) :
    Coherent c :=
  ⟨hf, hu, fun i hi => (h i hi).device, fun i hi => (h i hi).aligned,
    fun i hi => (h i hi).inside, fun i hi => (h i hi).span,
    fun i hi => (h i (by simp [hi])).clean hi, fun i hi => (h i (by simp [hi])).writable hi⟩

theorem SameView.trans {a b : Sys} (hab : SameView a b) (hbc : SameView b c) : SameView a c := by
  refine ⟨hbc.count.trans hab.count, hbc.readOnly.trans hab.readOnly, ?_, ?_, ?_⟩
  · intro d l hl
    rw [hbc.view d l (by rw [hab.count]; exact hl), hab.view d l hl]
  · obtain ⟨n1, h1, hp1, hk1⟩ := hab.log
    obtain ⟨n2, h2, hp2, hk2⟩ := hbc.log
    refine ⟨n1 ++ n2, by rw [h2, h1, List.append_assoc], ?_, ?_⟩
    · intro w hw
      rcases List.mem_append.mp hw with hw | hw
      · exact hp1 w hw
      · exact hab.pending w (hp2 w hw)
    · intro w hw
      rcases hk1 w hw with hw | hw
      · exact (hk2 w hw).imp_right (List.mem_append_right n1)
      · exact .inr (List.mem_append_left n2 hw)
  · exact fun w hw => hab.pending w (hbc.pending w hw)

theorem pageLba_le (l : ℕ) : pageLba l ≤ l := Nat.sub_le _ _

theorem sub_pageLba_lt (l : ℕ) : l - pageLba l < 8 := by unfold pageLba; omega

theorem pageLba_add (page s : ℕ) (hp : page % 8 = 0) (hs : s < 8) : pageLba (page + s) = page := by
  unfold pageLba; omega

theorem pageLba_of_aligned (page : ℕ) (hp : page % 8 = 0) : pageLba page = page :=
  pageLba_add page 0 hp (by omega)

theorem pageLba_aligned (l : ℕ) : pageLba l % 8 = 0 := by unfold pageLba; omega

@[simp] theorem pageLba_pageLba (l : ℕ) : pageLba (pageLba l) = pageLba l :=
  pageLba_of_aligned _ (pageLba_aligned l)

theorem lookup_some {m : CacheMem} (h : lookup m d l = some i) : Holds (m.entries i) d l :=
  SlotTable.find_some h

theorem lookup_none {m : CacheMem} (h : lookup m d l = none) (i : Fin 16) :
    ¬ Holds (m.entries i) d l :=
  SlotTable.find_none h i

theorem Coherent.lookup_eq (hc : Coherent c) (h : Holds (c.mem.entries i) d l) :
    lookup c.mem d l = some i := by
  cases hl : lookup c.mem d l with
  | none => exact absurd h (lookup_none hl i)
  | some j =>
    obtain ⟨h1, h2, h3⟩ := lookup_some hl
    obtain ⟨g1, g2, g3⟩ := h
    rw [hc.unique i j g1 h1 (g2.trans h2.symm) (g3.trans h3.symm)]

theorem Coherent.view_of_holds (hc : Coherent c) (h : Holds (c.mem.entries i) d l) :
    view c d l = (c.mem.entries i).data (l - pageLba l) := by
  simp only [view, hc.lookup_eq h]

theorem view_of_not_holds (h : ∀ i, ¬ Holds (c.mem.entries i) d l) :
    view c d l = c.store.sector d l := by
  cases hl : lookup c.mem d l with
  | none => simp only [view, hl]
  | some i => exact absurd (lookup_some hl) (h i)

theorem view_congr {c' : Sys} (h : ∀ j, Holds (c'.mem.entries j) d l ↔ Holds (c.mem.entries j) d l)
    (hd : ∀ j, Holds (c.mem.entries j) d l → (c'.mem.entries j).data = (c.mem.entries j).data)
    (hs : (∀ j, ¬ Holds (c.mem.entries j) d l) → c'.store.sector d l = c.store.sector d l) :
    view c' d l = view c d l := by
  have hlo : lookup c'.mem d l = lookup c.mem d l := by simp only [lookup, h]
  cases hl : lookup c.mem d l with
  | none => simp only [view, hlo, hl, hs (lookup_none hl)]
  | some i => simp only [view, hlo, hl, hd i (lookup_some hl)]

theorem Coherent.offset_lt (hc : Coherent c) (h : Holds (c.mem.entries i) d l)
    (hl : l < c.store.sectorCount d) : l - pageLba l < (c.mem.entries i).sectors := by
  obtain ⟨h1, h2, h3⟩ := h
  rw [hc.span i h1, h2, h3]
  have := sub_pageLba_lt l
  have := pageLba_le l
  omega

variable (m : CacheMem) (s : Disk)

theorem setEntry_entries (i : Fin 16) (e : Entry) (j : Fin 16) :
    (m.setEntry i e).entries j = if j = i then e else m.entries j := by
  simp only [CacheMem.setEntry, update_apply]

/-- The disk after the writes of a run of sectors. -/
def Disk.afterRun (s : Disk) (device lba : ℕ) (data : ℕ → Sector) : ℕ → ℕ → Disk
  | _, 0 => s
  | k, n + 1 => Disk.afterRun { s with
      sector := Disk.setSector s.sector device (lba + k) (data k)
      served := s.served + 1
      log := s.log ++ [(device, lba + k, data k)] } device lba data (k + 1) n

theorem exec_writeRun (s : Disk) (device lba : ℕ) (data : ℕ → Sector) (k n : ℕ)
    (hf : ∀ j, s.fault j = false) (hr : s.readOnly device = false)
    (hn : lba + k + n ≤ s.sectorCount device) :
    exec handle (forRange (fun s => writeSector device (lba + s) (data s)) k n) ⟨m, s⟩ =
      (some (), ⟨m, s.afterRun device lba data k n⟩) := by
  induction n generalizing k s with
  | zero => rfl
  | succ n ih =>
    have hw : exec handle (writeSector device (lba + k) (data k)) ⟨m, s⟩ =
        (some (), ⟨m, { s with
          sector := Disk.setSector s.sector device (lba + k) (data k)
          served := s.served + 1
          log := s.log ++ [(device, lba + k, data k)] }⟩) := by
      have hb : ¬ (s.fault s.served ∨ s.sectorCount device ≤ lba + k ∨ s.readOnly device) := by
        simp only [hf, hr]
        simp
        omega
      simp only [writeSector, exec_bind, exec_request, follow_some, handle, if_neg hb]
      rfl
    rw [forRange, exec_bind, hw, follow_some]
    exact ih _ (k + 1) hf hr (by dsimp only; omega)

theorem afterRun_frame (device lba : ℕ) (data : ℕ → Sector) (k n : ℕ) :
    (s.afterRun device lba data k n).sectorCount = s.sectorCount ∧
    (s.afterRun device lba data k n).readOnly = s.readOnly ∧
    (s.afterRun device lba data k n).fault = s.fault := by
  induction n generalizing k s with
  | zero => exact ⟨rfl, rfl, rfl⟩
  | succ n ih => exact ih _ _

theorem afterRun_log (device lba : ℕ) (data : ℕ → Sector) (k n : ℕ) :
    (s.afterRun device lba data k n).log =
      s.log ++ (List.range' k n).map (fun t => (device, lba + t, data t)) := by
  induction n generalizing k s with
  | zero => simp [Disk.afterRun]
  | succ n ih => simp [Disk.afterRun, ih, List.range'_succ]

theorem afterRun_sector (device lba : ℕ) (data : ℕ → Sector) (k n d l : ℕ) :
    (s.afterRun device lba data k n).sector d l =
      if d = device ∧ lba + k ≤ l ∧ l < lba + k + n then data (l - lba) else s.sector d l := by
  induction n generalizing k s with
  | zero => rw [Disk.afterRun, if_neg (by omega)]
  | succ n ih =>
    rw [Disk.afterRun, ih]
    by_cases hl : d = device ∧ l = lba + k
    · obtain ⟨rfl, rfl⟩ := hl
      rw [if_neg (by omega), if_pos (by omega)]
      simp [Disk.setSector]
    split
    · rw [if_pos (by omega)]
    · rw [if_neg (by omega)]
      simp [Disk.setSector, hl]

/-- The state after the page of a dirty entry was written back. -/
def cleaned (c : Sys) (i : Fin 16) : Sys :=
  let e := c.mem.entries i
  if e.state = .dirty then
    ⟨c.mem.setEntry i { e with state := .clean },
      c.store.afterRun e.deviceId e.lba e.data 0 e.sectors⟩
  else c

theorem exec_writeback (hc : Coherent c) (i : Fin 16) :
    exec handle (writeback i) c = (some (), cleaned c i) := by
  rw [writeback, exec_bind, exec_getMem, follow_some]
  rcases hs : (c.mem.entries i).state with _ | _ | _
  · simp [hs, cleaned]
  · simp [hs, cleaned]
  · have hne : (c.mem.entries i).state ≠ .empty := by simp [hs]
    have hsp := hc.span i hne
    have hin := hc.inside i hne
    have hrun := exec_writeRun c.mem c.store (c.mem.entries i).deviceId (c.mem.entries i).lba
      (c.mem.entries i).data 0 (c.mem.entries i).sectors hc.noFault (hc.writable i hs)
      (by omega)
    simp only [hs, hc.device i hne, exec_bind]
    rw [hrun]
    simp [cleaned, hs, hc.device i hne]

section

variable (c)

theorem cleaned_entries (i j : Fin 16) :
    (cleaned c i).mem.entries j = if j = i ∧ (c.mem.entries i).state = .dirty then
      { c.mem.entries i with state := .clean } else c.mem.entries j := by
  unfold cleaned
  by_cases hd : (c.mem.entries i).state = .dirty
  · simp only [hd, if_true, setEntry_entries, and_true]
  · simp only [hd, if_false, and_false]

theorem cleaned_fields (i j : Fin 16) :
    let e := c.mem.entries j
    let e' := (cleaned c i).mem.entries j
    e'.deviceId = e.deviceId ∧ e'.lba = e.lba ∧ e'.sectors = e.sectors ∧ e'.data = e.data ∧
      e'.device = e.device ∧ (e'.state = .empty ↔ e.state = .empty) := by
  dsimp only
  rw [cleaned_entries]
  split_ifs with h
  · obtain ⟨rfl, hd⟩ := h
    simp [hd]
  · simp

theorem cleaned_frame (i : Fin 16) :
    (cleaned c i).store.sectorCount = c.store.sectorCount ∧
    (cleaned c i).store.readOnly = c.store.readOnly ∧
    (cleaned c i).store.fault = c.store.fault := by
  unfold cleaned
  dsimp only
  split_ifs
  · exact afterRun_frame _ _ _ _ _ _
  · exact ⟨rfl, rfl, rfl⟩

theorem cleaned_state (i : Fin 16) : ((cleaned c i).mem.entries i).state ≠ .dirty := by
  rw [cleaned_entries]
  split_ifs with h
  · simp
  · exact fun hd => h ⟨rfl, hd⟩

theorem cleaned_holds (i j : Fin 16) (d l : ℕ) :
    Holds ((cleaned c i).mem.entries j) d l ↔ Holds (c.mem.entries j) d l := by
  obtain ⟨h1, h2, -, -, -, h6⟩ := cleaned_fields c i j
  simp only [Holds, h1, h2, ne_eq, h6]

theorem cleaned_sector_of_not_holds (hc : Coherent c) (i : Fin 16) (d l : ℕ)
    (h : ¬ Holds (c.mem.entries i) d l) : (cleaned c i).store.sector d l = c.store.sector d l := by
  unfold cleaned
  by_cases hd : (c.mem.entries i).state = .dirty
  · have hne : (c.mem.entries i).state ≠ .empty := by simp [hd]
    have hal := hc.aligned i hne
    have hs := hc.span i hne
    simp only [hd, if_true, afterRun_sector]
    rw [if_neg]
    rintro ⟨rfl, h1, h2⟩
    apply h
    refine ⟨hne, rfl, ?_⟩
    have : pageLba l = pageLba ((c.mem.entries i).lba + (l - (c.mem.entries i).lba)) := by
      rw [show (c.mem.entries i).lba + (l - (c.mem.entries i).lba) = l by omega]
    rw [this, pageLba_add _ _ hal (by omega)]
  · simp only [hd, if_false]

end

theorem cleaned_coherent (hc : Coherent c) (i : Fin 16) : Coherent (cleaned c i) := by
  obtain ⟨hcount, hro, hf⟩ := cleaned_frame c i
  have hlive : ∀ j, ((cleaned c i).mem.entries j).state ≠ .empty →
      (c.mem.entries j).state ≠ .empty := fun j hj h => hj ((cleaned_fields c i j).2.2.2.2.2.mpr h)
  refine coherent_of_pages (hf ▸ hc.noFault) (fun j k hj hk hid hlba => ?_) fun j hj => ?_
  · have fj := cleaned_fields c i j
    have fk := cleaned_fields c i k
    exact hc.unique j k (hlive j hj) (hlive k hk) (by rw [← fj.1, ← fk.1]; exact hid)
      (by rw [← fj.2.1, ← fk.2.1]; exact hlba)
  obtain ⟨hde, hal, hin, hsp, hcle, hw⟩ := hc.page (hlive j hj)
  rw [cleaned_entries]
  split_ifs with hji
  · -- the entry just written back agrees with the sectors it wrote
    obtain ⟨rfl, hd⟩ := hji
    refine ⟨hde, hal, hcount ▸ hin, hcount ▸ hsp, fun _ s hs => ?_, nofun⟩
    simp only [cleaned, hd, if_true, afterRun_sector]
    rw [if_pos ⟨trivial, by omega, by simpa using hs⟩]
    congr 1
    omega
  · refine ⟨hde, hal, hcount ▸ hin, hcount ▸ hsp, fun hcl s hs => ?_, hro ▸ hw⟩
    rw [hcle hcl s hs]
    by_cases hd : (c.mem.entries i).state = .dirty
    · rw [cleaned_sector_of_not_holds c hc i]
      rintro ⟨g1, g2, g3⟩
      rw [pageLba_add _ _ hal (by omega)] at g3
      exact hji ⟨(hc.unique i j g1 (hlive j hj) g2 g3).symm, hd⟩
    · simp only [cleaned, hd, if_false]

theorem cleaned_sameView (hc : Coherent c) (i : Fin 16) : SameView c (cleaned c i) := by
  obtain ⟨hcount, hro, -⟩ := cleaned_frame c i
  refine ⟨hcount, hro, ?_, ?_, ?_⟩
  · exact fun d l _ => view_congr (fun j => cleaned_holds c i j d l)
      (fun j _ => (cleaned_fields c i j).2.2.2.1)
      (fun hno => cleaned_sector_of_not_holds c hc i d l (hno i))
  · by_cases hd : (c.mem.entries i).state = .dirty
    · refine ⟨(List.range' 0 (c.mem.entries i).sectors).map (fun t =>
        ((c.mem.entries i).deviceId, (c.mem.entries i).lba + t, (c.mem.entries i).data t)),
        ?_, ?_, ?_⟩
      · simp only [cleaned, hd, if_true, afterRun_log]
      · intro w hw
        obtain ⟨t, ht, rfl⟩ := List.mem_map.mp hw
        rw [List.mem_range'_1] at ht
        exact ⟨i, hd, t, by omega, rfl⟩
      · rintro w ⟨j, hj, s, hs, rfl⟩
        by_cases hji : j = i
        · subst hji
          exact .inr (List.mem_map.mpr ⟨s, by rw [List.mem_range'_1]; omega, rfl⟩)
        · refine .inl ⟨j, ?_⟩
          rw [cleaned_entries, if_neg (fun h => hji h.1)]
          exact ⟨hj, s, hs, rfl⟩
    · have hsa : cleaned c i = c := by simp [cleaned, hd]
      rw [hsa]
      exact ⟨[], by simp, by simp, fun _ h => .inl h⟩
  · rintro w ⟨j, hj, s, hs, rfl⟩
    have fj := cleaned_fields c i j
    rw [cleaned_entries] at hj
    split_ifs at hj with h
    refine ⟨j, hj, s, by rw [← fj.2.2.1]; exact hs, ?_⟩
    rw [fj.1, fj.2.1, fj.2.2.2.1]

theorem Coherent.of_live {c' : Sys} (hc : Coherent c)
    (hst : c'.store = { c.store with served := c'.store.served })
    (h : ∀ j, (c'.mem.entries j).state ≠ .empty → c'.mem.entries j = c.mem.entries j) :
    Coherent c' := by
  refine coherent_of_pages (by rw [hst]; exact hc.noFault) (fun j k hj hk hid hlba => ?_)
    fun j hj => ?_
  · have ej := h j hj
    have ek := h k hk
    rw [ej, ek] at hid hlba
    exact hc.unique j k (ej ▸ hj) (ek ▸ hk) hid hlba
  · have ej := h j hj
    rw [ej] at hj ⊢
    obtain ⟨h1, h2, h3, h4, h5, h6⟩ := hc.page hj
    rw [hst]
    exact ⟨h1, h2, h3, h4, h5, h6⟩

theorem Coherent.view_of_not_dirty (hc : Coherent c) {d l : ℕ} (hi : Holds (c.mem.entries i) d l)
    (hl : l < c.store.sectorCount d) (hnot : (c.mem.entries i).state ≠ .dirty) :
    view c d l = c.store.sector d l := by
  have hcl : (c.mem.entries i).state = .clean := by
    have h1 := hi.1
    rcases hs : (c.mem.entries i).state with _ | _ | _ <;> simp_all
  rw [hc.view_of_holds hi, hc.clean i hcl _ (hc.offset_lt hi hl), hi.2.1, hi.2.2,
    Nat.add_sub_cancel' (pageLba_le l)]

theorem SameView.of_live {c' : Sys} (hc : Coherent c)
    (hst : c'.store = { c.store with served := c'.store.served })
    (h : ∀ j, (c'.mem.entries j).state ≠ .empty → c'.mem.entries j = c.mem.entries j)
    (hd : ∀ j, (c.mem.entries j).state = .dirty → c'.mem.entries j = c.mem.entries j) :
    SameView c c' := by
  have hc' : Coherent c' := hc.of_live hst h
  have hh : ∀ j d l, Holds (c'.mem.entries j) d l → Holds (c.mem.entries j) d l :=
    fun j d l hj => h j hj.1 ▸ hj
  have hke : ∀ w, Pending c w → Pending c' w := by
    rintro w ⟨j, hj, s, hs, rfl⟩
    refine ⟨j, ?_⟩
    rw [hd j hj]
    exact ⟨hj, s, hs, rfl⟩
  refine ⟨by rw [hst], by rw [hst], ?_,
    ⟨[], by rw [hst]; simp, by simp, fun w hw => .inl (hke w hw)⟩,
    ?_⟩
  · intro d l hl
    by_cases hex : ∃ j, Holds (c.mem.entries j) d l
    · obtain ⟨j, hj⟩ := hex
      by_cases he : c'.mem.entries j = c.mem.entries j
      · rw [hc.view_of_holds hj, hc'.view_of_holds (he ▸ hj), he]
      have hno : ∀ k, ¬ Holds (c'.mem.entries k) d l := by
        intro k hk
        have hk' := hh k d l hk
        have hkj := hc.unique k j hk'.1 hj.1 (hk'.2.1.trans hj.2.1.symm) (hk'.2.2.trans hj.2.2.symm)
        exact he (hkj ▸ h k hk.1)
      -- a dropped page is clean, so the device has what it held
      rw [view_of_not_holds hno, hst, hc.view_of_not_dirty hj hl (fun hs => he (hd j hs))]
    · have hno : ∀ j, ¬ Holds (c.mem.entries j) d l := fun j hj => hex ⟨j, hj⟩
      rw [view_of_not_holds hno, view_of_not_holds (fun j hj => hno j (hh j d l hj)), hst]
  · rintro w ⟨j, hj, s, hs, rfl⟩
    have he := h j (by rw [hj]; simp)
    rw [he] at hj hs ⊢
    exact ⟨j, hj, s, hs, rfl⟩

theorem SameView.symm {c' : Sys} (h : SameView c c') (hlog : c'.store.log = c.store.log) :
    SameView c' c := by
  refine ⟨h.count.symm, h.readOnly.symm, fun d l hl => (h.view d l (h.count ▸ hl)).symm,
    ⟨[], by simp [hlog], by simp, fun w hw => .inl (h.pending w hw)⟩, fun w hw => ?_⟩
  obtain ⟨new, hnew, -, hk⟩ := h.log
  have hnil : new = [] := by simpa [hlog] using hnew
  simpa [hnil] using hk w hw

def released (c : Sys) (i : Fin 16) : Sys :=
  ⟨c.mem.setEntry i { c.mem.entries i with state := .empty, device := none }, c.store⟩

@[simp] theorem released_state (c : Sys) (i : Fin 16) :
    ((released c i).mem.entries i).state = .empty := by
  simp [released, setEntry_entries]

theorem released_entries_ne (c : Sys) {j : Fin 16} (h : j ≠ i) :
    (released c i).mem.entries j = c.mem.entries j := by
  simp [released, setEntry_entries, h]

theorem released_live (j : Fin 16) (h : ((released c i).mem.entries j).state ≠ .empty) :
    (released c i).mem.entries j = c.mem.entries j := by
  apply released_entries_ne
  rintro rfl
  exact h (released_state c j)

theorem released_coherent (hc : Coherent c) (i : Fin 16) : Coherent (released c i) :=
  hc.of_live rfl released_live

theorem released_sameView (hc : Coherent c) (i : Fin 16) (hi : (c.mem.entries i).state ≠ .dirty) :
    SameView c (released c i) := by
  refine SameView.of_live hc rfl released_live (fun j hj => released_entries_ne c ?_)
  rintro rfl
  exact hi hj

theorem cleaned_entries_ne (c : Sys) {j : Fin 16} (h : j ≠ i) :
    (cleaned c i).mem.entries j = c.mem.entries j := by
  rw [cleaned_entries, if_neg (fun hh => h hh.1)]

theorem exec_evict (hc : Coherent c) (n : ℕ) :
    ∃ c', exec handle (evict (n + 1)) c = (some c.mem.clock, c') ∧
      Coherent c' ∧ SameView c c' ∧ (c'.mem.entries c.mem.clock).state = .empty ∧
      ∀ j, j ≠ c.mem.clock → c'.mem.entries j = c.mem.entries j := by
  let i := c.mem.clock
  let c1 : Sys := ⟨{ c.mem with clock := c.mem.clock + 1 }, c.store⟩
  have hc1 : Coherent c1 := hc.of_live rfl (fun _ _ => rfl)
  have hs1 : SameView c c1 := SameView.of_live hc rfl (fun _ _ => rfl) (fun _ _ => rfl)
  rw [evict, exec_bind, exec_getMem, follow_some, exec_bind, exec_modifyMem, follow_some]
  rcases hs : (c.mem.entries c.mem.clock).state with _ | _ | _
  · exact ⟨c1, rfl, hc1, hs1, hs, fun _ _ => rfl⟩
  · exact ⟨released c1 i, rfl, released_coherent hc1 i,
      hs1.trans (released_sameView hc1 i (by simp [c1, i, hs])), released_state c1 i,
      fun j hj => released_entries_ne c1 hj⟩
  · have hwb : exec handle (attempt (writeback c.mem.clock)) c1 =
        (some (some ()), cleaned c1 i) := by
      rw [exec_attempt, exec_writeback hc1]
    have hcl := cleaned_coherent hc1 i
    refine ⟨released (cleaned c1 i) i, ?_, released_coherent hcl i,
      hs1.trans ((cleaned_sameView hc1 i).trans (released_sameView hcl i (cleaned_state c1 i))),
      released_state _ i, fun j hj => ?_⟩
    · dsimp only
      rw [exec_bind, hwb, follow_some]
      rfl
    · rw [released_entries_ne _ hj, cleaned_entries_ne c1 hj]

theorem exec_fillSectors (st : Disk) (device page s n : ℕ) (data : ℕ → Sector)
    (hf : ∀ j, st.fault j = false) (hn : page + s + n ≤ st.sectorCount device) :
    ∃ served data', exec handle (fillSectors device page s n data) ⟨m, st⟩ =
        (some data', ⟨m, { st with served := served }⟩) ∧
      ∀ t, data' t = if s ≤ t ∧ t < s + n then st.sector device (page + t) else data t := by
  induction n generalizing s st data with
  | zero => exact ⟨st.served, data, rfl, fun t => by rw [if_neg (by omega)]⟩
  | succ n ih =>
    have hr : exec handle (readSector device (page + s)) ⟨m, st⟩ =
        (some (st.sector device (page + s)), ⟨m, { st with served := st.served + 1 }⟩) := by
      have hb : ¬ (st.fault st.served ∨ st.sectorCount device ≤ page + s) := by
        simp only [hf]
        simp
        omega
      simp only [readSector, exec_bind, exec_request, follow_some, handle, if_neg hb]
      rfl
    obtain ⟨served, data', he, hd⟩ := ih { st with served := st.served + 1 } (s + 1)
      (update data s (st.sector device (page + s))) hf (by dsimp only; omega)
    refine ⟨served, data', ?_, ?_⟩
    · rw [fillSectors, exec_bind, hr, follow_some, he]
    · intro t
      rw [hd t]
      by_cases ht : t = s
      · subst ht
        rw [if_neg (by omega), if_pos (by omega), update_self]
      rw [update_of_ne ht]
      split
      · rw [if_pos (by omega)]
      · rw [if_neg (by omega)]

theorem fresh_page (hc : Coherent c) (i : Fin 16) (d page served : ℕ) (data : ℕ → Sector)
    (hp : page % 8 = 0) (hin : page < c.store.sectorCount d) (hi : (c.mem.entries i).state = .empty)
    (hno : ∀ j, ¬ Holds (c.mem.entries j) d page)
    (hd : ∀ t < min 8 (c.store.sectorCount d - page), data t = c.store.sector d (page + t)) :
    let e : Entry := ⟨some d, d, page, min 8 (c.store.sectorCount d - page), .clean, data⟩
    let c' : Sys := ⟨c.mem.setEntry i e, { c.store with served := served }⟩
    Coherent c' ∧ SameView c c' := by
  intro e c'
  have hent : ∀ j, c'.mem.entries j = if j = i then e else c.mem.entries j :=
    setEntry_entries c.mem i e
  have ho : ∀ j, j ≠ i → c'.mem.entries j = c.mem.entries j := fun j hj => by simp [hent, hj]
  have hse : c'.mem.entries i = e := by simp [hent]
  have hkey : ∀ j, (c.mem.entries j).state ≠ .empty → (c.mem.entries j).deviceId = d →
      (c.mem.entries j).lba ≠ page := fun j h1 h2 h3 =>
    hno j ⟨h1, h2, by rw [pageLba_of_aligned page hp]; exact h3⟩
  have hcoh : Coherent c' := by
    refine coherent_of_pages hc.noFault (fun j k hj hk hid hlba => ?_) fun j hj => ?_
    · by_cases hji : j = i <;> by_cases hki : k = i
      · rw [hji, hki]
      · rw [hji, hse, ho k hki] at hid hlba
        rw [ho k hki] at hk
        exact absurd hlba.symm (hkey k hk hid.symm)
      · rw [hki, hse, ho j hji] at hid hlba
        rw [ho j hji] at hj
        exact absurd hlba (hkey j hj hid)
      · rw [ho j hji, ho k hki] at hid hlba
        rw [ho j hji] at hj
        rw [ho k hki] at hk
        exact hc.unique j k hj hk hid hlba
    · by_cases hji : j = i
      · rw [hji, hse]
        exact ⟨rfl, hp, hin, rfl, fun _ => hd, nofun⟩
      · rw [ho j hji] at hj ⊢
        obtain ⟨h1, h2, h3, h4, h5, h6⟩ := hc.page hj
        exact ⟨h1, h2, h3, h4, h5, h6⟩
  -- the other way around, the new page is a clean one dropped
  have hsa : SameView c' c := SameView.of_live hcoh rfl
    (fun j hj => (ho j (by rintro rfl; exact hj hi)).symm)
    (fun j hj => (ho j (by rintro rfl; rw [hse] at hj; cases hj)).symm)
  exact ⟨hcoh, hsa.symm rfl⟩

theorem exec_fill (hc : Coherent c) (d l : ℕ) (hl : l < c.store.sectorCount d) :
    ∃ i c', exec handle (fill d l) c = (some i, c') ∧ Coherent c' ∧ SameView c c' ∧
      Holds (c'.mem.entries i) d l := by
  rw [fill, exec_bind, exec_getMem, follow_some]
  cases hlo : lookup c.mem d (pageLba l) with
  | some i =>
    have hh := lookup_some hlo
    have hsa : c.mem.setEntry i { c.mem.entries i with device := some d } = c.mem := by
      have he : ({ c.mem.entries i with device := some d } : Entry) = c.mem.entries i := by
        have hdev := hc.device i hh.1
        rw [hh.2.1] at hdev
        rw [← hdev]
      rw [he]
      simp [CacheMem.setEntry]
    refine ⟨i, c, ?_, hc, SameView.refl c, ⟨hh.1, hh.2.1, by simpa using hh.2.2⟩⟩
    simp only [exec_bind, exec_modifyMem, follow_some, exec_pure, hsa]
  | none =>
    obtain ⟨c1, he1, hc1, hs1, hem, hr⟩ := exec_evict hc 31
    have hp : pageLba l < c1.store.sectorCount d := by
      rw [hs1.count]
      have := pageLba_le l
      omega
    have hno : ∀ j, ¬ Holds (c1.mem.entries j) d (pageLba l) := by
      intro j hj
      by_cases hji : j = c.mem.clock
      · rw [hji] at hj
        exact hj.1 hem
      · rw [hr j hji] at hj
        exact lookup_none hlo j hj
    obtain ⟨served, data, he2, hd⟩ := exec_fillSectors c1.mem c1.store d (pageLba l) 0
      (min 8 (c1.store.sectorCount d - pageLba l)) (fun _ => Image.zero) hc1.noFault (by omega)
    have hf := fresh_page hc1 c.mem.clock d (pageLba l) served data (pageLba_aligned l) hp
      hem hno (fun t ht => by rw [hd t, if_pos (by omega)])
    refine ⟨c.mem.clock, _, ?_, hf.1, hs1.trans hf.2, ?_⟩
    · dsimp only
      have hi : exec handle (request (DiskReq.info d)) c1 =
          (some (c1.store.sectorCount d), ⟨c1.mem, c1.store⟩) := rfl
      rw [exec_bind, he1, follow_some, exec_bind, hi, follow_some]
      rw [if_neg (by omega), exec_bind, he2, follow_some, exec_bind, exec_modifyMem, follow_some,
        exec_pure]
    · simp only [setEntry_entries, if_true]
      exact ⟨by simp, rfl, rfl⟩

theorem exec_fill_past (hc : Coherent c) (d l : ℕ) (hl : c.store.sectorCount d ≤ pageLba l) :
    ∃ c', exec handle (fill d l) c = (none, c') ∧ Coherent c' ∧ SameView c c' := by
  have hn : lookup c.mem d (pageLba l) = none := by
    cases hlo : lookup c.mem d (pageLba l) with
    | none => rfl
    | some i =>
      have hh := lookup_some hlo
      have hin := hc.inside i hh.1
      rw [hh.2.1, hh.2.2, pageLba_pageLba] at hin
      omega
  obtain ⟨c1, he1, hc1, hs1, -, -⟩ := exec_evict hc 31
  refine ⟨c1, ?_, hc1, hs1⟩
  have hinf : exec handle (request (DiskReq.info d)) c1 =
      (some (c1.store.sectorCount d), ⟨c1.mem, c1.store⟩) := rfl
  rw [fill, exec_bind, exec_getMem, follow_some, hn]
  dsimp only
  rw [exec_bind, he1, follow_some, exec_bind, hinf, follow_some,
    if_pos (by rw [hs1.count]; exact hl), exec_fail]

/-- The cache as it boots. -/
def bootCache : CacheMem := ⟨fun _ => emptyEntry, 0⟩

theorem coherent_boot {disk : Disk} (hf : ∀ n, disk.fault n = false) :
    Coherent ⟨bootCache, disk⟩ where
  noFault := hf
  unique := fun _ _ h => absurd rfl h
  device := fun _ h => absurd rfl h
  aligned := fun _ h => absurd rfl h
  inside := fun _ h => absurd rfl h
  span := fun _ h => absurd rfl h
  clean := nofun
  writable := nofun

theorem not_pending_boot (disk : Disk) (w : ℕ × ℕ × Sector) : ¬ Pending ⟨bootCache, disk⟩ w := by
  rintro ⟨i, hi, -⟩
  cases hi

/-- Machine whose devices are blank and have `sectors` sectors each, just booted. -/
def blankSys (sectors : ℕ) : Sys :=
  ⟨bootCache, ⟨fun _ => sectors, fun _ => false, fun _ _ => Image.zero, fun _ => false, 0, []⟩⟩

theorem coherent_blankSys (sectors : ℕ) : Coherent (blankSys sectors) :=
  coherent_boot (fun _ => rfl)

end MichCore.BlockCache
