import MichCore.AdytumVerify
import MichCore.Allocation

/-!
# What the mount audit decides

The checks of `adytumfs_verify` together say that the three views of the allocation agree:
claims without overlap on set bits, as many as there are set data bits, are all of them.
-/
namespace MichCore.Adytumfs
open Routine List
open BlockCache (Coherent Sys blankSys coherent_blankSys not_pending_boot)

def extentClaims (slots : List Extent) : List Claim :=
  (slots.filter (fun e => e.length ≠ 0)).map (fun e => ⟨e.startBlock.toNat, e.length.toNat⟩)

/-- The extents `verifyExtents` accepts from a point of the list on. -/
def ExtentsOk (super : Superblock) (terminated : Bool) (slots : List Extent) : Prop :=
  (terminated = true → ∀ e ∈ slots, e.length = 0) ∧
  slots.Pairwise (fun a b => a.length = 0 → b.length = 0) ∧
  ∀ e ∈ slots, e.length ≠ 0 → inData super e.startBlock.toNat e.length.toNat

theorem length_extentClaims_le (slots : List Extent) :
    (extentClaims slots).length ≤ slots.length := by
  rw [extentClaims, length_map]
  exact length_filter_le _ _

theorem extent_check (super : Superblock) (e : Extent) (he : e.length ≠ 0) :
    (outsideData super e.startBlock.toNat = true ∨
      super.dataChecksumRegion.toNat - e.startBlock.toNat < e.length.toNat) ↔
    ¬ inData super e.startBlock.toNat e.length.toNat := by
  have hpos : 0 < e.length.toNat := by
    rcases Nat.eq_zero_or_pos e.length.toNat with h | h
    · exact absurd (UInt32.toNat_inj.mp h) he
    · exact h
  simp only [outsideData, inData, Bool.or_eq_true, decide_eq_true_eq]
  omega

theorem verifyExtents_spec (super : Superblock) (slots : List Extent) (terminated : Bool)
    (claims : List Claim) (mapped : ℕ) (hr : claims.length + slots.length ≤ 2560) :
    (ExtentsOk super terminated slots →
      verifyExtents super slots terminated claims mapped = some (claims ++ extentClaims slots,
        mapped + (slots.map (fun e => e.length.toNat)).sum)) ∧
    (¬ ExtentsOk super terminated slots →
      verifyExtents super slots terminated claims mapped = none) := by
  induction slots generalizing terminated claims mapped with
  | nil => simp [verifyExtents, ExtentsOk, extentClaims]
  | cons e rest ih =>
    by_cases he : e.length = 0
    · -- an empty slot ends the list, so the rest has to be empty as well
      have hiff : ExtentsOk super terminated (e :: rest) ↔ ExtentsOk super true rest := by
        simp only [ExtentsOk, pairwise_cons, mem_cons, forall_eq_or_imp, he]
        simp only [true_imp_iff, ne_eq, not_true_eq_false, false_imp_iff, true_and]
        tauto
      obtain ⟨h1, h2⟩ := ih true claims mapped (by simp at hr; omega)
      rw [hiff, verifyExtents, if_pos he]
      refine ⟨fun hok => ?_, h2⟩
      rw [h1 hok]
      simp [extentClaims, he]
    · have hiff : ExtentsOk super terminated (e :: rest) ↔ terminated = false ∧
          inData super e.startBlock.toNat e.length.toNat ∧ ExtentsOk super false rest := by
        simp only [ExtentsOk, pairwise_cons, mem_cons, forall_eq_or_imp, he]
        simp only [false_imp_iff, implies_true, true_and, ne_eq, Bool.false_eq_true]
        cases terminated
        · simp; tauto
        · simp
      rw [hiff, verifyExtents, if_neg he]
      cases terminated with
      | true => simp
      | false =>
        simp only [Bool.false_eq_true, if_false, true_and]
        by_cases hin : inData super e.startBlock.toNat e.length.toNat
        · rw [if_neg (by rw [extent_check super e he]; simpa using hin)]
          simp only [length_cons] at hr
          rw [if_neg (by omega)]
          obtain ⟨h1, h2⟩ := ih false (claims ++ [⟨e.startBlock.toNat, e.length.toNat⟩])
            (mapped + e.length.toNat) (by simp; omega)
          refine ⟨fun hok => ?_, fun hno => h2 (fun hok => hno ⟨hin, hok⟩)⟩
          rw [h1 hok.2]
          simp [extentClaims, he]
          omega
        · rw [if_pos ((extent_check super e he).mpr hin)]
          simp [hin]

/-- Claims of one slot of the table. -/
def slotClaims : Option Inode → List Claim
  | some inode => if inode.mode = 0 then [] else extentClaims inode.direct.slots
  | none => []

/-- What the table pass accepts in one slot. -/
def SlotOk (super : Superblock) (slot : Option Inode) : Prop :=
  ∃ inode, slot = some inode ∧
    (inode.mode ≠ 0 → plainType inode.mode = true ∧ inode.Sound super)

theorem sound_iff (super : Superblock) (inode : Inode) : inode.Sound super ↔
    ExtentsOk super false inode.direct.slots ∧
      inode.blocks.toNat = (inode.direct.slots.map (fun e => e.length.toNat)).sum :=
  ⟨fun h => ⟨⟨by simp, h.packed, h.inside⟩, h.blocks⟩, fun h => ⟨h.1.2.1, h.1.2.2, h.2⟩⟩

variable {c : World} {window : Window} {super : Superblock}

section

variable (h : Mounted c)
include h

theorem exec_verifyInodes (n k : ℕ) (claims : List Claim) (free : ℕ) (hn : 1 ≤ n)
    (hk : n + k ≤ c.mem.super.inodeCount.toNat) (hro : claims.length + 10 * k ≤ 2560) :
    ((∀ i ∈ List.range' n k, SlotOk c.mem.super (inodeAt c i)) →
      exec flatStore (verifyInodes n k claims free) c =
        (some (claims ++ (List.range' n k).flatMap (fun i => slotClaims (inodeAt c i)),
          free + (List.range' n k).countP (fun i => isFree (inodeAt c i))), c)) ∧
    (¬ (∀ i ∈ List.range' n k, SlotOk c.mem.super (inodeAt c i)) →
      exec flatStore (verifyInodes n k claims free) c = (none, c)) := by
  induction k generalizing n claims free with
  | zero => simp [verifyInodes]
  | succ k ih =>
    have hre : exec flatStore (inodeRead n) c = (inodeAt c n, c) := by
      rw [exec_inodeRead h, if_neg (by omega)]
    simp only [range'_succ, mem_cons, forall_eq_or_imp, flatMap_cons, countP_cons]
    rw [verifyInodes, exec_bind, hre]
    cases hsl : inodeAt c n with
    | none => simp [SlotOk]
    | some inode =>
      rw [follow_some]
      by_cases hm : inode.mode = 0
      · obtain ⟨h1, h2⟩ := ih (n + 1) claims (free + 1) (by omega) (by omega) (by omega)
        have hok : SlotOk c.mem.super (some inode) := ⟨inode, rfl, fun hne => absurd hm hne⟩
        rw [if_pos hm]
        refine ⟨fun hall => ?_, fun hno => h2 (fun hall => hno ⟨hok, hall⟩)⟩
        rw [h1 hall.2]
        simp [slotClaims, isFree, hm]
        omega
      · rw [if_neg hm]
        by_cases hp : plainType inode.mode = true
        · rw [if_neg (by simp [hp]), exec_bind, exec_getSuper, follow_some]
          obtain ⟨g1, g2⟩ := verifyExtents_spec c.mem.super inode.direct.slots false claims 0
            (by rw [inode.direct.size]; omega)
          have hiff : SlotOk c.mem.super (some inode) ↔ inode.Sound c.mem.super := by
            constructor
            · rintro ⟨_, ⟨⟩, hok⟩
              exact (hok hm).2
            · exact fun hs => ⟨inode, rfl, fun _ => ⟨hp, hs⟩⟩
          rw [hiff, sound_iff]
          by_cases hext : ExtentsOk c.mem.super false inode.direct.slots
          · rw [g1 hext]
            dsimp only
            by_cases hb : inode.blocks.toNat =
                (inode.direct.slots.map (fun e => e.length.toNat)).sum
            · have hlen := (length_extentClaims_le inode.direct.slots).trans inode.direct.size.le
              obtain ⟨h1, h2⟩ := ih (n + 1) (claims ++ extentClaims inode.direct.slots) free
                (by omega) (by omega) (by rw [length_append]; omega)
              rw [if_neg (by simp [hb])]
              refine ⟨fun hall => ?_, fun hno => h2 (fun hall => hno ⟨⟨hext, hb⟩, hall⟩)⟩
              rw [h1 hall.2]
              simp [slotClaims, isFree, hm]
            · rw [if_pos (by simpa using hb)]
              simp [hb]
          · rw [g2 hext]
            simp [hext]
        · rw [if_pos (by simpa using hp)]
          have hno : ¬ SlotOk c.mem.super (some inode) := by
            rintro ⟨_, he, hok⟩
            cases he
            exact hp (hok hm).1
          simp [hno]

/-- The kept bitmap block is the one on the device. -/
def Window.Ok (c : World) (window : Window) : Prop :=
  ∀ index image, window.shows index = some image → image = committedBlock c false index

theorem exec_verifyBit (hw : window.Ok c) (block : ℕ) (hb : block < c.mem.super.totalBlocks.toNat) :
    ∃ window', Window.Ok c window' ∧
      exec flatStore (verifyBit window block) c = (some (committedBit c block, window'), c) := by
  have hi := h.bitmap_index hb
  have hmod : block / 32768 % 2 ^ 32 = block / 32768 := by
    have := h.total_lt
    exact Nat.mod_eq_of_lt (by omega)
  have hok : Window.Ok c (some (block / 32768, committedBlock c false (block / 32768))) := by
    intro index image hs
    simp only [Window.shows] at hs
    split_ifs at hs with he
    cases hs
    rw [he]
  have hle : ¬ c.mem.super.blockBitmapBlocks.toNat ≤ block / 32768 := not_le.mpr hi
  refine ⟨_, hok, ?_⟩
  rw [verifyBit, exec_bind, exec_getSuper, follow_some, if_neg hle]
  cases hs : window.shows (block / 32768) with
  | some image =>
    dsimp only
    rw [exec_pure, hw _ _ hs]
    rfl
  | none =>
    dsimp only
    rw [exec_bind, hmod, exec_readCommitted h false hi, follow_some, exec_pure]
    rfl

/-- What the bitmap pass accepts: the bits of all metadata blocks are set. -/
def MetadataOk (c : World) (blocks : List ℕ) : Prop :=
  ∀ b ∈ blocks, outsideData c.mem.super b = true → committedBit c b = true

theorem exec_verifyBitmap (block n allocated : ℕ) (window : Window)
    (hw : window.Ok c) (hn : block + n ≤ c.mem.super.totalBlocks.toNat) :
    (MetadataOk c (List.range' block n) → ∃ window', Window.Ok c window' ∧
      exec flatStore (verifyBitmap block n allocated window) c =
        (some (allocated + (List.range' block n).countP
          (fun b => !outsideData c.mem.super b && committedBit c b), window'), c)) ∧
    (¬ MetadataOk c (List.range' block n) →
      exec flatStore (verifyBitmap block n allocated window) c = (none, c)) := by
  induction n generalizing block allocated window with
  | zero => exact ⟨fun _ => ⟨window, hw, rfl⟩, fun hno => absurd (by simp [MetadataOk]) hno⟩
  | succ n ih =>
    obtain ⟨window1, hw1, he⟩ := exec_verifyBit h hw block (by omega)
    have hsp : MetadataOk c (List.range' block (n + 1)) ↔
        (outsideData c.mem.super block = true → committedBit c block = true) ∧
          MetadataOk c (List.range' (block + 1) n) := by
      simp [MetadataOk, range'_succ]
    have hst : exec flatStore (verifyBitmap block (n + 1) allocated window) c =
        exec flatStore (if outsideData c.mem.super block && !committedBit c block then fail
          else verifyBitmap (block + 1) n
            (allocated + if !outsideData c.mem.super block && committedBit c block then 1 else 0)
            window1) c := by
      rw [verifyBitmap, exec_bind, exec_getSuper, follow_some, exec_bind, he, follow_some]
      dsimp only
      cases outsideData c.mem.super block <;> cases committedBit c block <;> rfl
    rw [hsp, hst]
    by_cases hbad : outsideData c.mem.super block && !committedBit c block
    · rw [if_pos hbad]
      refine ⟨fun hok => absurd hok.1 ?_, fun _ => rfl⟩
      simpa using hbad
    rw [if_neg hbad]
    obtain ⟨h1, h2⟩ := ih (block + 1) _ window1 hw1 (by omega)
    refine ⟨fun hok => ?_, fun hno => h2 (fun hok => hno ⟨by simpa using hbad, hok⟩)⟩
    obtain ⟨window', hw', he'⟩ := h1 hok.2
    refine ⟨window', hw', ?_⟩
    rw [he', range'_succ, countP_cons, Nat.add_assoc, Nat.add_comm (countP _ _)]

def RunOk (c : World) (blocks : List ℕ) : Prop := ∀ b ∈ blocks, committedBit c b = true

theorem exec_verifyRun (block n : ℕ) (hw : window.Ok c)
    (hn : block + n ≤ c.mem.super.totalBlocks.toNat) :
    (RunOk c (List.range' block n) → ∃ window', Window.Ok c window' ∧
      exec flatStore (verifyRun block n window) c = (some window', c)) ∧
    (¬ RunOk c (List.range' block n) →
      exec flatStore (verifyRun block n window) c = (none, c)) := by
  induction n generalizing block window with
  | zero => exact ⟨fun _ => ⟨window, hw, rfl⟩, fun hno => absurd (by simp [RunOk]) hno⟩
  | succ n ih =>
    obtain ⟨window1, hw1, he⟩ := exec_verifyBit h hw block (by omega)
    have hs : RunOk c (List.range' block (n + 1)) ↔
        committedBit c block = true ∧ RunOk c (List.range' (block + 1) n) := by
      simp [RunOk, range'_succ]
    rw [hs, verifyRun, exec_bind, he, follow_some]
    dsimp only
    obtain ⟨h1, h2⟩ := ih (block + 1) hw1 (by omega)
    cases hbit : committedBit c block with
    | false => simp
    | true =>
      rw [if_neg (by simp)]
      exact ⟨fun hok => h1 hok.2, fun hno => h2 (fun hok => hno ⟨rfl, hok⟩)⟩

def claimBlocks (cl : Claim) : List ℕ := List.range' cl.start cl.length

theorem exec_verifyClaims (claims : List Claim) (claimed : ℕ) (hw : window.Ok c)
    (hin : ∀ cl ∈ claims, cl.start + cl.length ≤ c.mem.super.totalBlocks.toNat) :
    (RunOk c (claims.flatMap claimBlocks) → exec flatStore (verifyClaims claims claimed window) c =
      (some (claimed + (claims.flatMap claimBlocks).length), c)) ∧
    (¬ RunOk c (claims.flatMap claimBlocks) →
      exec flatStore (verifyClaims claims claimed window) c = (none, c)) := by
  induction claims generalizing claimed window with
  | nil => exact ⟨fun _ => rfl, fun hno => absurd (by simp [RunOk]) hno⟩
  | cons cl rest ih =>
    have hs : RunOk c ((cl :: rest).flatMap claimBlocks) ↔
        RunOk c (claimBlocks cl) ∧ RunOk c (rest.flatMap claimBlocks) := by
      simp only [RunOk, flatMap_cons, mem_append, or_imp, forall_and]
    obtain ⟨g1, g2⟩ := exec_verifyRun h cl.start cl.length hw (hin cl mem_cons_self)
    rw [hs, verifyClaims, exec_bind]
    by_cases hrun : RunOk c (claimBlocks cl)
    · obtain ⟨window1, hw1, he⟩ := g1 hrun
      obtain ⟨h1, h2⟩ := ih (claimed + cl.length) hw1 (fun cl' hcl =>
        hin cl' (mem_cons_of_mem _ hcl))
      rw [he, follow_some]
      refine ⟨fun hok => ?_, fun hno => h2 (fun hok => hno ⟨hrun, hok⟩)⟩
      rw [h1 hok.2, flatMap_cons, length_append, claimBlocks, length_range', Nat.add_assoc]
    · rw [g2 hrun]
      simp [hrun]

end

theorem extentClaims_blocks (slots : List Extent) :
    (extentClaims slots).flatMap claimBlocks = slots.flatMap extentBlocks := by
  induction slots with
  | nil => rfl
  | cons e rest ih =>
    by_cases he : e.length = 0
    · rw [flatMap_cons, ← ih]
      simp [extentClaims, extentBlocks, he]
    · rw [flatMap_cons, ← ih]
      simp [extentClaims, claimBlocks, extentBlocks, he]

theorem slotClaims_blocks (slot : Option Inode) :
    (slotClaims slot).flatMap claimBlocks = ownedBlocks slot := by
  cases slot with
  | none => rfl
  | some inode =>
    by_cases hm : inode.mode = 0
    · simp [slotClaims, ownedBlocks, hm]
    · simp [slotClaims, ownedBlocks, hm, extentClaims_blocks, inodeBlocks]

theorem slotClaims_pos {slot : Option Inode} {cl : Claim} (h : cl ∈ slotClaims slot) :
    0 < cl.length := by
  cases slot with
  | none => simp [slotClaims] at h
  | some inode =>
    simp only [slotClaims] at h
    split_ifs at h
    · simp at h
    simp only [extentClaims, mem_map, mem_filter, decide_eq_true_eq] at h
    obtain ⟨e, ⟨-, hne⟩, rfl⟩ := h
    rcases Nat.eq_zero_or_pos e.length.toNat with h0 | h0
    · exact absurd (UInt32.toNat_inj.mp h0) hne
    · exact h0

theorem overlapFree_iff (claims : List Claim) :
    overlapFree claims = true ↔ claims.Pairwise (fun a b => a.overlaps b = false) := by
  induction claims with
  | nil => simp [overlapFree]
  | cons cl rest ih => simp [overlapFree, ih]

theorem overlaps_iff {a b : Claim} (ha : 0 < a.length) (hb : 0 < b.length) :
    a.overlaps b = false ↔ List.Disjoint (claimBlocks a) (claimBlocks b) := by
  simp only [Claim.overlaps, Bool.and_eq_false_iff, decide_eq_false_iff_not, not_lt, claimBlocks,
    disjoint_left, mem_range'_1]
  constructor
  · rintro (h | h) x hx <;> omega
  · intro h
    by_contra hno
    exact h (a := max a.start b.start) (by omega) (by omega)

theorem overlapFree_iff_nodup {claims : List Claim} (hpos : ∀ cl ∈ claims, 0 < cl.length) :
    overlapFree claims = true ↔ (claims.flatMap claimBlocks).Nodup := by
  rw [overlapFree_iff, nodup_flatMap]
  have hs : ∀ cl ∈ claims, (claimBlocks cl).Nodup := fun cl _ => nodup_range'
  rw [and_iff_right hs]
  constructor
  · intro h
    exact h.imp_of_mem (fun ha hb hab => (overlaps_iff (hpos _ ha) (hpos _ hb)).mp hab)
  · intro h
    exact h.imp_of_mem (fun ha hb hab => (overlaps_iff (hpos _ ha) (hpos _ hb)).mpr hab)

theorem range'_split {a b t : ℕ} (hab : a ≤ b) (hbt : b ≤ t) : List.range' 0 t =
    List.range' 0 a ++ (List.range' a (b - a) ++ List.range' b (t - b)) := by
  obtain ⟨k, rfl⟩ := Nat.exists_eq_add_of_le hab
  obtain ⟨l, rfl⟩ := Nat.exists_eq_add_of_le hbt
  have hr := range'_append_1 (s := a) (m := k) (n := l)
  have hall := range'_append_1 (s := 0) (m := a) (n := k + l)
  rw [Nat.zero_add] at hall
  rw [Nat.add_sub_cancel_left, Nat.add_sub_cancel_left, hr, hall, Nat.add_assoc]

theorem countP_volume (h : Layout super) (bit : ℕ → Bool) :
    (List.range' 0 super.totalBlocks.toNat).countP (fun b => !outsideData super b && bit b) =
      (dataBlocks super).countP bit := by
  have ht := h.tail
  have hpos := h.dataPos
  have hs : List.range' 0 super.totalBlocks.toNat = List.range' 0 super.dataStart.toNat ++
      (dataBlocks super ++ List.range' super.dataChecksumRegion.toNat
        (super.totalBlocks.toNat - super.dataChecksumRegion.toNat)) :=
    range'_split (by omega) (by omega)
  rw [hs, countP_append, countP_append]
  have hz : ∀ s n, (∀ b, s ≤ b → b < s + n → outsideData super b = true) →
      (List.range' s n).countP (fun b => !outsideData super b && bit b) = 0 := by
    intro s n hout
    rw [countP_eq_zero]
    intro b hb
    rw [mem_range'_1] at hb
    simp [hout b hb.1 hb.2]
  rw [hz 0 _ (fun b _ hb => by simp [outsideData]; omega),
    hz _ _ (fun b hb _ => by simp [outsideData]; omega), Nat.zero_add, Nat.add_zero]
  apply countP_congr
  intro b hb
  simp [(mem_dataBlocks h).mp hb]

/-- Blocks without repetition on set bits, as many as there are set data bits,
are all the blocks with a set bit. -/
theorem used_eq_allocated {bit : ℕ → Bool} {used : List ℕ} (hu : ∀ b ∈ used, b ∈ dataBlocks super) :
    ((∀ b ∈ used, bit b = true) ∧ used.Nodup ∧ used.length = (dataBlocks super).countP bit) ↔
      used.Nodup ∧ ∀ b ∈ dataBlocks super, bit b = true ↔ b ∈ used := by
  have hno : ((dataBlocks super).filter bit).Nodup := List.Nodup.filter _ nodup_range'
  rw [countP_eq_length_filter]
  constructor
  · rintro ⟨hbits, hnd, hlen⟩
    have hsub : used ⊆ (dataBlocks super).filter bit :=
      fun b hb => mem_filter.mpr ⟨hu b hb, hbits b hb⟩
    have hp := (hnd.subperm hsub).perm_of_length_le hlen.ge
    refine ⟨hnd, fun b hb => ?_⟩
    rw [hp.mem_iff, mem_filter]
    simp [hb]
  · rintro ⟨hnd, hiff⟩
    have hp : used.Perm ((dataBlocks super).filter bit) := by
      rw [perm_ext_iff_of_nodup hnd hno]
      intro b
      rw [mem_filter]
      constructor
      · intro hb
        exact ⟨hu b hb, (hiff b (hu b hb)).mpr hb⟩
      · rintro ⟨hb, hbit⟩
        exact (hiff b hb).mp hbit
    exact ⟨fun b hb => (hiff b (hu b hb)).mpr hb, hnd, hp.length_eq⟩

/-- Inode slot and allocation bit in the active metadata set of a device. -/
def slotInode (super : Superblock) (blk : ℕ → Block) (n : ℕ) : Option Inode :=
  inodeUnpack (slotBytes (blk (slotBase super true super.activeSlot + n / 16)) (n % 16))

def slotBit (super : Superblock) (blk : ℕ → Block) (b : ℕ) : Bool :=
  (blk (slotBase super false super.activeSlot + b / 32768)).testBit (b % 32768)

/-- The three views of the allocation agree, used inodes have one plain type, and
every metadata block is marked as used. -/
structure Audit (super : Superblock) (blk : ℕ → Block) : Prop where
  allocation : Allocation super (slotInode super blk) (slotBit super blk)
  types : ∀ n, 1 ≤ n → n < super.inodeCount.toNat → ∀ inode, slotInode super blk n = some inode →
    inode.mode ≠ 0 → plainType inode.mode = true
  metadata : ∀ b < super.totalBlocks.toNat, outsideData super b = true →
    slotBit super blk b = true

theorem freeBlocks_iff (h : Layout super) (bit : ℕ → Bool) :
    super.freeBlocks = super.dataChecksumRegion - super.dataStart -
        UInt64.ofNat ((dataBlocks super).countP bit) ↔
      super.freeBlocks.toNat = (dataBlocks super).countP (fun b => !bit b) := by
  have hlen : (dataBlocks super).length =
      super.dataChecksumRegion.toNat - super.dataStart.toNat := length_range'
  have hsum := length_eq_countP_add_countP bit (l := dataBlocks super)
  have hnot : (dataBlocks super).countP (fun b => decide ¬bit b = true) =
      (dataBlocks super).countP (fun b => !bit b) :=
    countP_congr (fun b _ => by cases bit b <;> simp)
  have hpos := h.dataPos
  have hlt := super.dataChecksumRegion.toNat_lt
  have ho : (UInt64.ofNat ((dataBlocks super).countP bit)).toNat =
      (dataBlocks super).countP bit := by
    rw [UInt64.toNat_ofNat', Nat.mod_eq_of_lt (by omega)]
  have hr : (super.dataChecksumRegion - super.dataStart -
      UInt64.ofNat ((dataBlocks super).countP bit)).toNat =
      super.dataChecksumRegion.toNat - super.dataStart.toNat - (dataBlocks super).countP bit := by
    rw [UInt64.toNat_sub_of_le _ _ (UInt64.le_iff_toNat_le.mpr (by rw [h.toNat_data, ho]; omega)),
      h.toNat_data, ho]
  rw [← UInt64.toNat_inj, hr]
  omega

theorem audit_iff (h : Layout super) (blk : ℕ → Block) :
    Audit super blk ↔
      (∀ n ∈ List.range' 1 (super.inodeCount.toNat - 1), SlotOk super (slotInode super blk n)) ∧
      (∀ b ∈ List.range' 0 super.totalBlocks.toNat, outsideData super b = true →
        slotBit super blk b = true) ∧
      (∀ b ∈ usedBlocks super.inodeCount.toNat (slotInode super blk), slotBit super blk b = true) ∧
      (usedBlocks super.inodeCount.toNat (slotInode super blk)).Nodup ∧
      (usedBlocks super.inodeCount.toNat (slotInode super blk)).length =
        (dataBlocks super).countP (slotBit super blk) ∧
      super.freeInodes.toNat = (List.range' 1 (super.inodeCount.toNat - 1)).countP
        (fun n => isFree (slotInode super blk n)) ∧
      super.freeBlocks.toNat = (dataBlocks super).countP (fun b => !slotBit super blk b) := by
  have hcount := h.inodePos
  have hda : (∀ n ∈ List.range' 1 (super.inodeCount.toNat - 1),
      SlotOk super (slotInode super blk n)) →
      ∀ b ∈ usedBlocks super.inodeCount.toNat (slotInode super blk), b ∈ dataBlocks super := by
    intro hok b hb
    obtain ⟨n, h1, h2, hb⟩ := mem_usedBlocks.mp hb
    obtain ⟨inode, he, hm, hb⟩ := mem_ownedBlocks.mp hb
    obtain ⟨_, he', hs⟩ := hok n (mem_range'_1.mpr ⟨h1, by omega⟩)
    rw [he] at he'
    cases he'
    exact (hs hm).2.mem_inData hb
  constructor
  · rintro ⟨⟨hso, hdis, hu, hfb, hfi⟩, ht, hme⟩
    have hsl : ∀ n ∈ List.range' 1 (super.inodeCount.toNat - 1),
        SlotOk super (slotInode super blk n) := by
      intro n hn
      rw [mem_range'_1] at hn
      obtain ⟨inode, he, hs⟩ := hso n hn.1 (by omega)
      exact ⟨inode, he, fun hm => ⟨ht n hn.1 (by omega) inode he hm, hs hm⟩⟩
    obtain ⟨hbi, hnd, hlen⟩ := (used_eq_allocated (hda hsl)).mpr ⟨hdis, hu⟩
    exact ⟨hsl, fun b hb => hme b (by have := mem_range'_1.mp hb; omega), hbi, hnd,
      hlen, hfi, hfb⟩
  · rintro ⟨hsl, hme, hbi, hnd, hlen, hfi, hfb⟩
    obtain ⟨-, hu⟩ := (used_eq_allocated (hda hsl)).mp ⟨hbi, hnd, hlen⟩
    refine ⟨⟨?_, hnd, hu, hfb, hfi⟩, ?_, fun b hb => hme b (mem_range'_1.mpr (by omega))⟩
    · intro n h1 h2
      obtain ⟨inode, he, hs⟩ := hsl n (mem_range'_1.mpr ⟨h1, by omega⟩)
      exact ⟨inode, he, fun hm => (hs hm).2⟩
    · intro n h1 h2 inode he hm
      obtain ⟨_, he', hs⟩ := hsl n (mem_range'_1.mpr ⟨h1, by omega⟩)
      rw [he] at he'
      cases he'
      exact (hs hm).1

theorem exec_verify (h : Mounted c) (hclo : windowOpen c.mem = false) :
    (Audit c.mem.super c.store.blk → exec flatStore verify c = (some (), c)) ∧
    (¬ Audit c.mem.super c.store.blk → exec flatStore verify c = (none, c)) := by
  have hL := h.layout
  have hino : ∀ n, inodeAt c n = slotInode c.mem.super c.store.blk n := by
    intro n
    rw [inodeAt, viewBlock_of_closed hclo]
    rfl
  have hr : 10 * (c.mem.super.inodeCount.toNat - 1) ≤ 2560 := by
    have := hL.inodeMax
    have := hL.tableMax
    omega
  obtain ⟨a1, a2⟩ := exec_verifyInodes h 1 (c.mem.super.inodeCount.toNat - 1) [] 0 le_rfl
    (by have := hL.inodePos; omega) (by simpa using hr)
  obtain ⟨b1, b2⟩ := exec_verifyBitmap h 0 c.mem.super.totalBlocks.toNat 0 none
    (by intro i img hs; simp [Window.shows] at hs) (by omega)
  simp only [hino] at a1 a2
  rw [audit_iff hL]
  rw [verify, exec_bind, exec_getSuper, follow_some, exec_bind]
  by_cases hsl : ∀ n ∈ List.range' 1 (c.mem.super.inodeCount.toNat - 1),
      SlotOk c.mem.super (slotInode c.mem.super c.store.blk n)
  swap
  · rw [a2 hsl]
    exact ⟨fun hall => absurd hall.1 hsl, fun _ => rfl⟩
  rw [a1 hsl, follow_some]
  dsimp only
  rw [exec_bind]
  by_cases hme : MetadataOk c (List.range' 0 c.mem.super.totalBlocks.toNat)
  swap
  · rw [b2 hme]
    exact ⟨fun hall => absurd hall.2.1 hme, fun _ => rfl⟩
  obtain ⟨window, hw, he⟩ := b1 hme
  rw [he, follow_some, countP_volume hL]
  dsimp only
  rw [exec_bind]
  set claims := (List.range' 1 (c.mem.super.inodeCount.toNat - 1)).flatMap
    (fun i => slotClaims (slotInode c.mem.super c.store.blk i)) with hcla
  have hu : claims.flatMap claimBlocks =
      usedBlocks c.mem.super.inodeCount.toNat (slotInode c.mem.super c.store.blk) := by
    rw [hcla, flatMap_assoc, usedBlocks]
    simp only [slotClaims_blocks]
  have hpos : ∀ cl ∈ claims, 0 < cl.length := by
    intro cl hcl
    obtain ⟨n, -, hn⟩ := mem_flatMap.mp hcl
    exact slotClaims_pos hn
  have hd : ∀ cl ∈ claims, cl.start + cl.length ≤ c.mem.super.totalBlocks.toNat := by
    intro cl hcl
    obtain ⟨n, hn, hcl⟩ := mem_flatMap.mp hcl
    obtain ⟨inode, hi, hs⟩ := hsl n hn
    rw [hi] at hcl
    simp only [slotClaims] at hcl
    split_ifs at hcl with hm
    · simp at hcl
    simp only [extentClaims, mem_map, mem_filter, decide_eq_true_eq] at hcl
    obtain ⟨e, ⟨he, hne⟩, rfl⟩ := hcl
    have hin := ((hs hm).2.inside e he hne).2
    have := hL.tail
    dsimp only
    omega
  obtain ⟨d1, d2⟩ := exec_verifyClaims h claims 0 hw hd
  rw [hu] at d1 d2
  rw [nil_append, Nat.zero_add, Nat.zero_add]
  by_cases hb : RunOk c (usedBlocks c.mem.super.inodeCount.toNat
      (slotInode c.mem.super c.store.blk))
  swap
  · rw [d2 hb]
    exact ⟨fun hall => absurd hall.2.2.1 hb, fun _ => rfl⟩
  rw [d1 hb, follow_some, Nat.zero_add]
  have hov := overlapFree_iff_nodup hpos
  rw [hu] at hov
  have hfb := freeBlocks_iff hL (committedBit c)
  by_cases hnd : overlapFree claims = true
  swap
  · rw [if_pos (by simpa using hnd)]
    exact ⟨fun hall => absurd (hov.mpr hall.2.2.2.1) hnd, fun _ => rfl⟩
  rw [if_neg (by simp [hnd])]
  split_ifs with h1 h2 h3
  · exact ⟨fun hall => absurd hall.2.2.2.2.1 h1, fun _ => rfl⟩
  · exact ⟨fun hall => absurd hall.2.2.2.2.2.1 h2, fun _ => rfl⟩
  · exact ⟨fun hall => absurd (hfb.mpr hall.2.2.2.2.2.2) h3, fun _ => rfl⟩
  · exact ⟨fun _ => rfl, fun hno => absurd ⟨hsl, hme, hb, hov.mp hnd, not_not.mp h1,
      not_not.mp h2, hfb.mp (not_not.mp h3)⟩ hno⟩

/-- The block a reader of a cached device gets. -/
def shownBlock (d : ℕ) (c : Sys) (b : ℕ) : Block :=
  Block.ofSectors (fun s => BlockCache.view c d (8 * b + s))

theorem mounted_of_valid {m : Mem} {f : Flat} (hn : f.sectorCount < 2 ^ 32) (hw : f.wild = false)
    (hv : superValid m.super (UInt64.ofNat (f.sectorCount / 8)) = true) : Mounted ⟨m, f⟩ := by
  have hdev : (UInt64.ofNat (f.sectorCount / 8)).toNat = f.sectorCount / 8 := by
    rw [UInt64.toNat_ofNat', Nat.mod_eq_of_lt (by omega)]
  obtain ⟨-, -, ht, hL⟩ := (superValid_iff m.super _ (by rw [hdev]; omega)).mp hv
  rw [hdev] at ht
  exact ⟨hL, ht, hn, hw⟩

/-- The mount audit returns 0 exactly on a consistent volume, for any content of
the device and any valid superblock. -/
theorem verify_iff_audit (m : Mem) (c : Sys) (hc : Coherent c)
    (hn : c.store.sectorCount m.device < 2 ^ 32)
    (hv : superValid m.super (UInt64.ofNat (c.store.sectorCount m.device / 8)) = true)
    (hclosed : windowOpen m = false) :
    (exec (cachedStore m.device) verify ⟨m, c⟩).1 = some () ↔
      Audit m.super (shownBlock m.device c) := by
  have hR := simulates_ofSys (d := m.device) hc hn
  have hm : Mounted ⟨m, Flat.ofSys m.device c⟩ := mounted_of_valid hn rfl hv
  obtain ⟨h1, h2⟩ := exec_verify hm hclosed
  by_cases ha : Audit m.super (shownBlock m.device c)
  · have he := h1 ha
    rw [(exec_cached hR verify m (by rw [he]; rfl)).1, he]
    exact iff_of_true rfl ha
  · have he := h2 ha
    rw [(exec_cached hR verify m (by rw [he]; rfl)).1, he]
    exact iff_of_false (by simp) ha

/-- Memory with a superblock and no open window. -/
def Mem.fresh (device : ℕ) (super : Superblock) : Mem :=
  ⟨device, super, fun _ => ⟨none, false, 0, Image.zero⟩⟩

theorem windowOpen_fresh (device : ℕ) (super : Superblock) :
    windowOpen (Mem.fresh device super) = false := by
  simp [windowOpen, Mem.fresh]

end MichCore.Adytumfs
