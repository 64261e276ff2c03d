import MichCore.VolumeView

/-!
# The staging of a window

Staging a metadata block takes the entry it already has or a free one that starts as the
committed image, so an edit of one block changes the view there and nowhere else. A claim fails
when all 32 entries are taken.
-/
namespace MichCore.Adytumfs
open Routine Function List

/-- The own entries of the pool name different blocks of the volume. -/
structure StagingOk (m : Mem) : Prop where
  unique : ∀ e e', (m.staging e).device = some m.device → (m.staging e').device = some m.device →
    (m.staging e).isTable = (m.staging e').isTable →
    (m.staging e).index = (m.staging e').index → e = e'
  inside : ∀ e, (m.staging e).device = some m.device →
    (m.staging e).index.toNat < metaBlocks m.super (m.staging e).isTable

variable {m : Mem} {e : Fin 32} {index : ℕ} {isTable : Bool} {c : World}

theorem StagingOk.of_closed (h : windowOpen m = false) : StagingOk m := by
  have hno : ∀ e, (m.staging e).device ≠ some m.device := by
    intro e
    rw [windowOpen, any_eq_false] at h
    simpa using h e (mem_finRange e)
  exact ⟨fun e _ he => absurd he (hno e), fun e he => absurd he (hno e)⟩

theorem stagedAt_some (h : stagedAt m isTable index = some e) :
    (m.staging e).device = some m.device ∧
      (m.staging e).isTable = isTable ∧ (m.staging e).index.toNat = index := by
  simpa using find?_some h

theorem stagedAt_none :
    stagedAt m isTable index = none ↔ ∀ e, (m.staging e).device = some m.device →
      (m.staging e).isTable = isTable → (m.staging e).index.toNat ≠ index := by
  simp [stagedAt, find?_eq_none]

theorem StagingOk.stagedAt_eq (h : StagingOk m) (he : (m.staging e).device = some m.device) :
    stagedAt m (m.staging e).isTable (m.staging e).index.toNat = some e := by
  cases hf : stagedAt m (m.staging e).isTable (m.staging e).index.toNat with
  | none => exact absurd rfl (stagedAt_none.mp hf e he rfl)
  | some e' =>
    obtain ⟨h1, h2, h3⟩ := stagedAt_some hf
    rw [h.unique e' e h1 he h2 (UInt8.toNat_inj.mp h3)]

/-- Two memories of one volume whose stagings hold the same blocks, entry for
entry, except perhaps one block. -/
theorem stagedAt_congr (m m' : Mem) (hd : m'.device = m.device) (isTable : Bool) (index : ℕ)
    (h : ∀ e, ((m'.staging e).device = some m.device ∧ (m'.staging e).isTable = isTable ∧
        (m'.staging e).index.toNat = index) ↔
      ((m.staging e).device = some m.device ∧ (m.staging e).isTable = isTable ∧
        (m.staging e).index.toNat = index)) :
    stagedAt m' isTable index = stagedAt m isTable index := by
  rw [stagedAt, stagedAt, hd]
  congr 1
  funext e
  rw [decide_eq_decide]
  exact h e

/-- No entry for the block: its index does not fit a byte or the pool is full. -/
def Starved (m : Mem) (isTable : Bool) (index : ℕ) : Prop :=
  255 < index ∨ stagedAt m isTable index = none ∧ ∀ e, (m.staging e).device ≠ none

/-- Entry `e` now stages a block of the volume, and the view is the same. -/
structure Claimed (c : World) (m' : Mem) (isTable : Bool) (index : ℕ) (e : Fin 32) : Prop where
  device : m'.device = c.mem.device
  super : m'.super = c.mem.super
  window : StagingOk m'
  staged : stagedAt m' isTable index = some e
  image : (m'.staging e).image = viewBlock c isTable index
  others : ∀ isTable' index', ¬ (isTable' = isTable ∧ index' = index) →
    stagedAt m' isTable' index' = stagedAt c.mem isTable' index'
  entries : ∀ e', e' ≠ e → m'.staging e' = c.mem.staging e'

theorem claimed_free (hw : StagingOk c.mem) (hi : index < metaBlocks c.mem.super isTable)
    (hby : index < 256) (hno : stagedAt c.mem isTable index = none)
    (hf : (c.mem.staging e).device = none) :
    Claimed c (setStaged c.mem e ⟨some c.mem.device, isTable, UInt8.ofNat index,
      committedBlock c isTable index⟩) isTable index e := by
  set s : Staged := ⟨some c.mem.device, isTable, UInt8.ofNat index,
    committedBlock c isTable index⟩ with hs
  have hse : (setStaged c.mem e s).staging e = s := update_self ..
  have ho : ∀ e', e' ≠ e → (setStaged c.mem e s).staging e' = c.mem.staging e' :=
    fun e' he => update_of_ne he ..
  have hidx : s.index.toNat = index := by
    rw [hs, UInt8.toNat_ofNat', Nat.mod_eq_of_lt (by omega)]
  have hnew : ∀ e', (c.mem.staging e').device = some c.mem.device →
      (c.mem.staging e').isTable = isTable → (c.mem.staging e').index ≠ s.index := by
    intro e' h1 h2 h3
    exact stagedAt_none.mp hno e' h1 h2 (by rw [h3, hidx])
  have hwin : StagingOk (setStaged c.mem e s) := by
    constructor
    · intro a b ha hb ht hx
      by_cases hae : a = e <;> by_cases hbe : b = e
      · rw [hae, hbe]
      · subst hae
        rw [hse, ho b hbe] at ht hx
        rw [ho b hbe] at hb
        exact absurd hx.symm (hnew b hb ht.symm)
      · subst hbe
        rw [hse, ho a hae] at ht hx
        rw [ho a hae] at ha
        exact absurd hx (hnew a ha ht)
      · rw [ho a hae] at ha ht hx
        rw [ho b hbe] at hb ht hx
        exact hw.unique a b ha hb ht hx
    · intro a ha
      by_cases hae : a = e
      · subst hae
        rw [hse, hidx]
        exact hi
      · rw [ho a hae] at ha ⊢
        exact hw.inside a ha
  refine ⟨rfl, rfl, hwin, ?_, ?_, ?_, ho⟩
  · have := hwin.stagedAt_eq (e := e) (by rw [hse]; rfl)
    rwa [hse, hidx] at this
  · rw [hse, viewBlock, hno]
  · intro t i hne
    refine stagedAt_congr c.mem (setStaged c.mem e s) rfl t i (fun a => ?_)
    by_cases hae : a = e
    · subst hae
      rw [hse]
      refine iff_of_false ?_ (by rw [hf]; simp)
      rintro ⟨-, ht, hx⟩
      exact hne ⟨ht.symm, by rw [← hx, hidx]⟩
    · rw [ho a hae]

theorem exec_stagingClaim (h : Mounted c) (hw : StagingOk c.mem) (isTable : Bool)
    (hi : index < metaBlocks c.mem.super isTable) :
    Starved c.mem isTable index ∧ exec flatStore (stagingClaim isTable index) c = (none, c) ∨
    ∃ e m', exec flatStore (stagingClaim isTable index) c = (some e, ⟨m', c.store⟩) ∧
      Claimed c m' isTable index e := by
  rw [stagingClaim]
  split
  · next hb =>
    rw [exec_fail]
    exact .inl ⟨.inl hb, rfl⟩
  rw [exec_bind, exec_getMem, follow_some, stagingFind_eq _ _ (by omega)]
  cases hfi : stagedAt c.mem isTable index with
  | some e =>
    exact .inr ⟨e, c.mem, rfl, rfl, rfl, hw, hfi, by rw [viewBlock, hfi],
      fun _ _ _ => rfl, fun _ _ => rfl⟩
  | none =>
    dsimp only
    cases hfr : (finRange 32).find? (fun e => (c.mem.staging e).device = none) with
    | none => exact .inl ⟨.inr ⟨hfi, SlotTable.find_none hfr⟩, rfl⟩
    | some e =>
      have hdev : (c.mem.staging e).device = none := SlotTable.find_some hfr
      dsimp only
      rw [exec_bind, exec_readCommitted h isTable hi, follow_some, exec_bind, exec_modifyMem,
        follow_some, exec_pure]
      exact .inr ⟨e, _, rfl, claimed_free hw hi (by omega) hfi hdev⟩

/-- One metadata block of the window has a new image; device and counters are as
before. -/
structure Edited (c c' : World) (isTable : Bool) (index : ℕ) (image : Block) : Prop where
  device : c'.mem.device = c.mem.device
  super : c'.mem.super = c.mem.super
  store : c'.store = c.store
  window : StagingOk c'.mem
  view : ∀ isTable' index', viewBlock c' isTable' index' =
    if isTable' = isTable ∧ index' = index then image else viewBlock c isTable' index'
  staged : ∀ isTable' index', stagedAt c'.mem isTable' index' = none ↔
    stagedAt c.mem isTable' index' = none ∧ ¬ (isTable' = isTable ∧ index' = index)
  entries : ∀ e, (c'.mem.staging e).device = (c.mem.staging e).device ∨
    (c'.mem.staging e).device = some c.mem.device

theorem Claimed.edited {m' : Mem} (h : Claimed c m' isTable index e) (image : Block) :
    Edited c ⟨setStaged m' e { m'.staging e with image := image }, c.store⟩ isTable index
      image := by
  set s : Staged := { m'.staging e with image := image } with hs
  set m₁ := setStaged m' e s
  have hse : m₁.staging e = s := update_self ..
  have ho : ∀ e', e' ≠ e → m₁.staging e' = m'.staging e' :=
    fun e' he => update_of_ne he ..
  have hkey : ∀ a, (m₁.staging a).device = (m'.staging a).device ∧
      (m₁.staging a).isTable = (m'.staging a).isTable ∧
      (m₁.staging a).index = (m'.staging a).index := by
    intro a
    by_cases hae : a = e
    · subst hae
      rw [hse]
      exact ⟨rfl, rfl, rfl⟩
    · rw [ho a hae]
      exact ⟨rfl, rfl, rfl⟩
  have hf : ∀ t i, stagedAt m₁ t i = stagedAt m' t i := by
    intro t i
    refine stagedAt_congr m' m₁ rfl t i (fun a => ?_)
    obtain ⟨h1, h2, h3⟩ := hkey a
    rw [h1, h2, h3]
  obtain ⟨hdev, ht, hx⟩ := stagedAt_some h.staged
  refine ⟨h.device, h.super, rfl, ?_, ?_, ?_, ?_⟩
  · constructor
    · intro a b ha hb hab hxx
      rw [(hkey a).1] at ha
      rw [(hkey b).1] at hb
      rw [(hkey a).2.1, (hkey b).2.1] at hab
      rw [(hkey a).2.2, (hkey b).2.2] at hxx
      exact h.window.unique a b ha hb hab hxx
    · intro a ha
      rw [(hkey a).1] at ha
      rw [(hkey a).2.1, (hkey a).2.2]
      exact h.window.inside a ha
  · intro t i
    split
    · next hti =>
      rw [viewBlock, hf, hti.1, hti.2, h.staged]
      dsimp only
      rw [hse]
    next hti =>
    rw [viewBlock, hf, viewBlock, h.others t i hti]
    cases hst : stagedAt c.mem t i with
    | none =>
      change c.store.blk (slotBase m'.super t m'.super.activeSlot + i) = _
      rw [h.super]
      rfl
    | some a =>
      have hae : a ≠ e := by
        rintro rfl
        rw [← h.others t i hti] at hst
        obtain ⟨-, ht', hx'⟩ := stagedAt_some hst
        exact hti ⟨ht'.symm.trans ht, hx'.symm.trans hx⟩
      dsimp only
      rw [ho a hae, h.entries a hae]
  · intro t i
    rw [hf]
    by_cases hti : t = isTable ∧ i = index
    · rw [hti.1, hti.2, h.staged]
      simp
    · rw [h.others t i hti]
      simp [hti]
  · intro a
    by_cases hae : a = e
    · subst hae
      rw [(hkey a).1, hdev, h.device]
      exact .inr rfl
    · rw [ho a hae, h.entries a hae]
      exact .inl rfl

section Edits
variable {c : World} (h : Mounted c) (hw : StagingOk c.mem)
include h hw

theorem exec_tableStage {index : ℕ} (hi : index < metaBlocks c.mem.super true) (image : Block) :
    Starved c.mem true index ∧ exec flatStore (tableStage index image) c = (none, c) ∨
    ∃ c', exec flatStore (tableStage index image) c = (some (), c') ∧
      Edited c c' true index image := by
  rw [tableStage, exec_bind]
  rcases exec_stagingClaim h hw true hi with ⟨hs, he⟩ | ⟨e, m', he, hcl⟩
  · rw [he, follow_none]
    exact .inl ⟨hs, rfl⟩
  · rw [he, follow_some, exec_modifyMem]
    exact .inr ⟨_, rfl, hcl.edited image⟩

theorem exec_bitWrite {block : ℕ} (hi : block / 32768 < metaBlocks c.mem.super false)
    (used : Bool) :
    Starved c.mem false (block / 32768) ∧ exec flatStore (bitWrite block used) c = (none, c) ∨
    ∃ c', exec flatStore (bitWrite block used) c = (some (), c') ∧ Edited c c' false (block / 32768)
        (if used then (viewBlock c false (block / 32768)).setBit (block % 32768)
          else (viewBlock c false (block / 32768)).clearBit (block % 32768)) := by
  have hle : ¬ c.mem.super.blockBitmapBlocks.toNat ≤ block / 32768 := not_le.mpr hi
  have hmod : block / 32768 < 2 ^ 32 := by
    have h1 := h.total_lt
    have h2 := h.layout.bitmapBlocks
    change _ < c.mem.super.blockBitmapBlocks.toNat at hi
    omega
  rw [bitWrite, exec_bind, exec_getSuper, follow_some, if_neg hle, exec_bind, Nat.mod_eq_of_lt hmod]
  rcases exec_stagingClaim h hw false hi with ⟨hs, he⟩ | ⟨e, m', he, hcl⟩
  · rw [he, follow_none]
    exact .inl ⟨hs, rfl⟩
  rw [he, follow_some, exec_modifyMem]
  refine .inr ⟨_, rfl, ?_⟩
  rw [hcl.image]
  exact hcl.edited _

end Edits

/-- Every metadata block of the volume fits the pool and no other volume uses
it. -/
structure Roomy (m : Mem) : Prop where
  fits : metaBlocks m.super true + metaBlocks m.super false ≤ 32
  own : ∀ e, (m.staging e).device = none ∨ (m.staging e).device = some m.device

theorem Edited.roomy {c' : World} {image : Block} (he : Edited c c' isTable index image)
    (h : Roomy c.mem) : Roomy c'.mem := by
  refine ⟨by rw [he.super]; exact h.fits, fun e => ?_⟩
  rw [he.device]
  rcases he.entries e with h1 | h1
  · rw [h1]
    exact h.own e
  · exact .inr h1

/-- Place of a metadata block in a list of all of them. -/
def poolKey (super : Superblock) (isTable : Bool) (index : ℕ) : ℕ :=
  if isTable then index else metaBlocks super true + index

theorem poolKey_lt {super : Superblock} (h : index < metaBlocks super isTable) :
    poolKey super isTable index < metaBlocks super true + metaBlocks super false := by
  cases isTable <;> simp only [poolKey, if_true, Bool.false_eq_true, if_false] <;> omega

theorem poolKey_inj {super : Superblock} {t t' : Bool} {i i' : ℕ} (h : i < metaBlocks super t)
    (h' : i' < metaBlocks super t') (he : poolKey super t i = poolKey super t' i') :
    t = t' ∧ i = i' := by
  cases t <;> cases t' <;>
    simp only [poolKey, if_true, Bool.false_eq_true, if_false] at he
  · exact ⟨rfl, by omega⟩
  · omega
  · omega
  · exact ⟨rfl, he⟩

/-- A pool that has room for all metadata never starves. -/
theorem Roomy.not_starved (h : Roomy m) (hw : StagingOk m)
    (hi : index < metaBlocks m.super isTable) :
    ¬ Starved m isTable index := by
  have hfits := h.fits
  rintro (hbig | ⟨hn, hfu⟩)
  · cases isTable <;> omega
  · have hown : ∀ e, (m.staging e).device = some m.device :=
      fun e => (h.own e).resolve_left (hfu e)
    -- the 32 entries would have 32 different keys, none of them the wanted one
    let key : Fin 32 → Fin 32 := fun e =>
      ⟨poolKey m.super (m.staging e).isTable (m.staging e).index.toNat,
        (poolKey_lt (hw.inside e (hown e))).trans_le hfits⟩
    have hinj : Function.Injective key := by
      intro a b hab
      obtain ⟨h1, h2⟩ := poolKey_inj (hw.inside a (hown a)) (hw.inside b (hown b))
        (congrArg Fin.val hab)
      exact hw.unique a b (hown a) (hown b) h1 (UInt8.toNat_inj.mp h2)
    obtain ⟨e, he⟩ := (Finite.injective_iff_surjective.mp hinj)
      ⟨poolKey m.super isTable index, (poolKey_lt hi).trans_le hfits⟩
    obtain ⟨h1, h2⟩ := poolKey_inj (hw.inside e (hown e)) hi (congrArg Fin.val he)
    exact stagedAt_none.mp hn e (hown e) h1 h2

end MichCore.Adytumfs
