import MichCore.VolumeView

/-!
# Three views of the allocation

A volume stores its allocation in the extents of its inodes, in the bits of its bitmap and in
the counters of its superblock. `Allocation` says that the three agree.
-/
namespace MichCore.Adytumfs

open List

def extentBlocks (e : Extent) : List ℕ := range' e.startBlock.toNat e.length.toNat

/-- The blocks of an inode in the order of its extents. -/
def inodeBlocks (inode : Inode) : List ℕ := inode.direct.slots.flatMap extentBlocks

/-- The blocks a slot of the table owns: none when it is free. -/
def ownedBlocks : Option Inode → List ℕ
  | some inode => if inode.mode = 0 then [] else inodeBlocks inode
  | none => []

/-- The blocks of the used inodes below `count`, inode by inode. -/
def usedBlocks (count : ℕ) (inodes : ℕ → Option Inode) : List ℕ :=
  (range' 1 (count - 1)).flatMap (fun n => ownedBlocks (inodes n))

def inData (super : Superblock) (start length : ℕ) : Prop :=
  super.dataStart.toNat ≤ start ∧ start + length ≤ super.dataChecksumRegion.toNat

/-- A used inode whose extents are packed from the front and lie in the data
region, and whose block count is their sum. -/
structure Inode.Sound (super : Superblock) (inode : Inode) : Prop where
  packed : inode.direct.slots.Pairwise (fun a b => a.length = 0 → b.length = 0)
  inside : ∀ e ∈ inode.direct.slots, e.length ≠ 0 →
    inData super e.startBlock.toNat e.length.toNat
  blocks : inode.blocks.toNat = (inode.direct.slots.map (fun e => e.length.toNat)).sum

/-- The numbers of the data blocks. -/
def dataBlocks (super : Superblock) : List ℕ :=
  range' super.dataStart.toNat (super.dataChecksumRegion.toNat - super.dataStart.toNat)

def isFree : Option Inode → Bool
  | some inode => inode.mode = 0
  | none => false

/-- Extents, bitmap and counters agree. -/
structure Allocation (super : Superblock) (inodes : ℕ → Option Inode) (bit : ℕ → Bool) : Prop where
  sound : ∀ n, 1 ≤ n → n < super.inodeCount.toNat →
    ∃ inode, inodes n = some inode ∧ (inode.mode ≠ 0 → inode.Sound super)
  disjoint : (usedBlocks super.inodeCount.toNat inodes).Nodup
  union : ∀ b ∈ dataBlocks super, bit b = true ↔ b ∈ usedBlocks super.inodeCount.toNat inodes
  freeBlocks : super.freeBlocks.toNat = (dataBlocks super).countP (fun b => !bit b)
  freeInodes : super.freeInodes.toNat =
    (range' 1 (super.inodeCount.toNat - 1)).countP (fun n => isFree (inodes n))

variable {b : ℕ}

theorem mem_dataBlocks {super : Superblock} (h : Layout super) :
    b ∈ dataBlocks super ↔ outsideData super b = false := by
  have := h.dataPos
  simp only [dataBlocks, mem_range'_1, outsideData, Bool.or_eq_false_iff, decide_eq_false_iff_not]
  omega

theorem Inode.Sound.mem_inData {super : Superblock} {inode : Inode} (h : inode.Sound super)
    (hb : b ∈ inodeBlocks inode) : b ∈ dataBlocks super := by
  obtain ⟨e, he, hbe⟩ := mem_flatMap.mp hb
  rw [extentBlocks, mem_range'_1] at hbe
  have hne : e.length ≠ 0 := by
    intro h0
    rw [h0] at hbe
    simp at hbe
    omega
  obtain ⟨h1, h2⟩ := h.inside e he hne
  rw [dataBlocks, mem_range'_1]
  omega

theorem mem_usedBlocks {count : ℕ} {inodes : ℕ → Option Inode} :
    b ∈ usedBlocks count inodes ↔ ∃ n, 1 ≤ n ∧ n < count ∧ b ∈ ownedBlocks (inodes n) := by
  simp only [usedBlocks, mem_flatMap, mem_range'_1]
  constructor
  · rintro ⟨n, ⟨h1, h2⟩, hb⟩
    exact ⟨n, h1, by omega, hb⟩
  · rintro ⟨n, h1, h2, hb⟩
    exact ⟨n, ⟨h1, by omega⟩, hb⟩

theorem mem_ownedBlocks {slot : Option Inode} :
    b ∈ ownedBlocks slot ↔ ∃ inode, slot = some inode ∧ inode.mode ≠ 0 ∧ b ∈ inodeBlocks inode := by
  cases slot with
  | none => simp [ownedBlocks]
  | some inode =>
    by_cases hm : inode.mode = 0 <;> simp [ownedBlocks, hm]

end MichCore.Adytumfs
