import MichCore.PageAllocator

/-!
# The free pages after the boot memory map

`pmm_init` rounds usable entries inwards and the others outwards, and the low megabyte and the
kernel are reserved on top. Whatever the entries are, the free pages lie wholly inside one
usable entry and are touched by nothing else.
-/
namespace MichCore.Pmm

/-- Some byte of the page lies in `[addr, addr + len)`, the sum taken without a bound. -/
def Touches (addr len : UInt64) (page : ℕ) : Prop :=
  len ≠ 0 ∧ addr.toNat < (page + 1) * 4096 ∧ page * 4096 < addr.toNat + len.toNat
  deriving Decidable

/-- Every byte of the page lies in the entry, whose end is at most 2^64. -/
def Inside (e : E820Entry) (page : ℕ) : Prop :=
  e.addr.toNat ≤ page * 4096 ∧ (page + 1) * 4096 ≤ min (e.addr.toNat + e.len.toNat) (2 ^ 64)
  deriving Decidable

namespace State

variable (s : State)

theorem addUsable_adds (e : E820Entry) :
    Adds (fun page => page < bitmapBits ∧ Inside e page) s (s.addUsable e) := by
  unfold addUsable
  extract_lets sum regionEnd rounded stop start
  have hfo := foldl_moves Adds.none Adds.trans (pageAddresses start stop)
    (fun a _ t => addPage_adds t (a / 4096)) s
  refine hfo.congr (fun page => ?_)
  have had := e.addr.toNat_lt
  have hlen := e.len.toNat_lt
  by_cases hw : rounded < e.addr.toNat
  · -- the entry starts in the last page of the address space
    have hst : start = 2 ^ 64 - 1 := if_pos hw
    constructor
    · rintro ⟨a, ha, -, -⟩
      obtain ⟨hle, hlt, -⟩ := mem_pageAddresses.mp ha
      have hend : regionEnd < 2 ^ 64 := by
        simp only [regionEnd, sum]
        split <;> omega
      simp only [stop, pageFloor] at hlt
      omega
    · rintro ⟨hlt, hfr, -⟩
      simp only [rounded, pageFloor, bitmapBits_eq] at hw hlt
      omega
  · have hst : start = rounded := if_neg hw
    have hal : start % 4096 = 0 := by
      rw [hst]
      exact Nat.mul_mod_left _ _
    have hp := @page_of_mem_pageAddresses start stop hal page
    have hfr : start / 4096 ≤ page ↔ e.addr.toNat ≤ page * 4096 := by
      rw [hst]
      simp only [rounded, pageFloor] at hw ⊢
      omega
    have hto : page < bitmapBits → (page * 4096 < stop ↔
        (page + 1) * 4096 ≤ min (e.addr.toNat + e.len.toNat) (2 ^ 64)) := by
      intro hlt
      simp only [stop, regionEnd, sum, pageFloor, bitmapBits_eq] at hlt ⊢
      split <;> omega
    rw [Inside, ← hfr]
    constructor
    · rintro ⟨a, ha, rfl, hlt⟩
      have hsp := hp.mp ⟨a, ha, rfl⟩
      exact ⟨hlt, hsp.1, (hto hlt).mp hsp.2⟩
    · rintro ⟨hlt, hlo, hhi⟩
      obtain ⟨a, ha, rfl⟩ := hp.mpr ⟨hlo, (hto hlt).mpr hhi⟩
      exact ⟨a, ha, rfl, hlt⟩

theorem reserve_removes (addr len : UInt64) :
    Removes (fun page => len ≠ 0 ∧ addr.toNat < (page + 1) * 4096 ∧
      page * 4096 < (addr.toNat + len.toNat) % 2 ^ 64) s (s.reserve addr len) := by
  unfold reserve
  split
  · next hlen =>
    exact (Removes.none s).congr (fun page _ => by simp [hlen])
  next hlen =>
  extract_lets first sum stop
  split
  · next hhig =>
    refine (Removes.none s).congr (fun page hlt => iff_of_false not_false ?_)
    rintro ⟨-, hfr, -⟩
    simp only [first, pageFloor, managedEnd_eq, bitmapBits_eq] at hhig hlt
    omega
  · have hal : first % 4096 = 0 := Nat.mul_mod_left _ _
    have hb : ∀ a ∈ pageAddresses first (if stop > managedEnd then managedEnd else stop),
        a / 4096 < bitmapBits := by
      intro a ha
      obtain ⟨-, hlt, -⟩ := mem_pageAddresses.mp ha
      have hend : a < managedEnd := by
        split at hlt <;> omega
      simp only [managedEnd_eq, bitmapBits_eq] at hend ⊢
      omega
    have hfo := foldl_moves Removes.none Removes.trans _
      (fun a ha t => markTaken_removes t (hb a ha)) s
    refine hfo.congr (fun page hlt => ?_)
    rw [page_of_mem_pageAddresses hal]
    have hlo : first / 4096 ≤ page ↔ addr.toNat < (page + 1) * 4096 := by
      simp only [first, pageFloor]
      omega
    have hhi : page * 4096 < (if stop > managedEnd then managedEnd else stop) ↔
        page * 4096 < sum := by
      simp only [stop, pageFloor, managedEnd_eq, bitmapBits_eq] at hlt ⊢
      split <;> split <;> omega
    rw [hlo, hhi]
    exact (and_iff_right hlen).symm

theorem reserve_removes_touched {addr len : UInt64}
    (h : addr.toNat + len.toNat < 2 ^ 64) : Removes (Touches addr len) s (s.reserve addr len) := by
  have hr := reserve_removes s addr len
  rw [Nat.mod_eq_of_lt h] at hr
  exact hr

theorem addUnusable_removes (e : E820Entry) :
    Removes (fun page => e.type ≠ e820Usable ∧ Touches e.addr e.len page) s (s.addUnusable e) := by
  unfold addUnusable
  split
  · next hs =>
    refine (Removes.none s).congr (fun page hlt => iff_of_false not_false ?_)
    rintro ⟨ht, -, hf, -⟩
    have had := hs.resolve_left ht
    simp only [managedEnd_eq, bitmapBits_eq] at had hlt
    omega
  · next hs =>
    obtain ⟨ht, had⟩ := not_or.mp hs
    extract_lets length
    have hcut : length = min e.len.toNat (managedEnd - e.addr.toNat) := by
      simp only [length]
      split <;> omega
    clear_value length
    rw [managedEnd_eq] at hcut had
    have hle : (UInt64.ofNat length).toNat = length := UInt64.toNat_ofNat_of_lt' (by
      change length < 2 ^ 64
      omega)
    have hr := @reserve_removes_touched s e.addr (UInt64.ofNat length) (by
      rw [hle]
      omega)
    refine hr.congr (fun page hlt => ?_)
    -- cutting the entry at 4 GiB does not change which managed pages it touches
    rw [bitmapBits_eq] at hlt
    rw [and_iff_right ht, Touches, Touches, ne_eq, ne_eq, ← UInt64.toNat_inj,
      ← UInt64.toNat_inj, hle, UInt64.toNat_zero]
    omega

end State

/-- A page inside one usable entry, touched by no other entry, and above the low megabyte and
the kernel. -/
def Usable (all : List E820Entry) (kernelEnd : UInt64) (page : ℕ) : Prop :=
  (∃ e ∈ all, e.type = e820Usable ∧ Inside e page) ∧
  (∀ e ∈ all, e.type ≠ e820Usable → ¬ Touches e.addr e.len page) ∧
  0x100000 ≤ page * 4096 ∧ (kernelEnd.toNat + 4095) / 4096 * 4096 ≤ page * 4096
  deriving Decidable

theorem usable_entries_add (all : List E820Entry) (s : State) :
    Adds (fun page => page < bitmapBits ∧ ∃ e ∈ all, e.type = e820Usable ∧ Inside e page) s
      (all.foldl (fun s e => if e.type ≠ e820Usable then s else s.addUsable e) s) := by
  have hs : ∀ e ∈ all, ∀ t : State,
      Adds (fun page => page < bitmapBits ∧ e.type = e820Usable ∧ Inside e page) t
        (if e.type ≠ e820Usable then t else t.addUsable e) := by
    intro e _ t
    by_cases ht : e.type = e820Usable
    · rw [if_neg (not_not_intro ht)]
      exact (State.addUsable_adds t e).congr (by simp [ht])
    · rw [if_pos ht]
      exact (Adds.none t).congr (by simp [ht])
  exact (foldl_moves Adds.none Adds.trans all hs s).congr (fun page => by
    constructor
    · rintro ⟨e, he, hlt, h⟩
      exact ⟨hlt, e, he, h⟩
    · rintro ⟨hlt, e, he, h⟩
      exact ⟨e, he, hlt, h⟩)

theorem kernel_removes (s : State) (kernelEnd : UInt64) :
    Removes (fun page => page * 4096 < 0x100000 ∨
      (kernelEnd.toNat + 4095) / 4096 * 4096 > page * 4096 ∧ 0x100000 ≤ page * 4096) s
      ((s.reserve 0 0x100000).reserve 0x100000 (kernelEnd - 0x100000)) := by
  have hlow := State.reserve_removes s 0 0x100000
  have hk := State.reserve_removes (s.reserve 0 0x100000) 0x100000 (kernelEnd - 0x100000)
  refine (hlow.trans hk).congr (fun page _ => ?_)
  have hb := kernelEnd.toNat_lt
  have hsub : (kernelEnd - 0x100000).toNat = (2 ^ 64 - 0x100000 + kernelEnd.toNat) % 2 ^ 64 :=
    UInt64.toNat_sub _ _
  have hm : (0x100000 : UInt64).toNat = 0x100000 := rfl
  have hz : (0 : UInt64).toNat = 0 := rfl
  rw [ne_eq, ne_eq, ← UInt64.toNat_inj, ← UInt64.toNat_inj, hsub, hm, hz]
  omega

theorem init_spec (map : ℕ → UInt8) (length : UInt64) (entrySize : UInt32) (kernelEnd : UInt64)
    (memory : ℕ → Image 4096) (hsi : AcceptsSize length entrySize) :
    ∃ s, init map length entrySize kernelEnd memory = some s ∧
      (∀ page, Free s page ↔ page < bitmapBits ∧
        Usable (entries map length entrySize) kernelEnd page) ∧
      Counted s ∧ s.allocPageLimit ≤ bitmapBits ∧ s.pageRefs = (fun _ => 0) ∧
      s.memory = memory := by
  unfold init
  rw [if_pos hsi]
  extract_lets all first second
  have had := usable_entries_add all (State.blank memory)
  have hunu := foldl_moves Removes.none Removes.trans all
    (fun e _ t => State.addUnusable_removes t e) first
  have hk := kernel_removes second kernelEnd
  have hr := hunu.trans hk
  have hsa := had.toSameHolders.trans hr.toSameHolders
  refine ⟨_, rfl, fun page => ?_, hsa.counted (counted_blank memory), hsa.limit le_rfl,
    hsa.pageRefs, hsa.memory⟩
  rw [hr.free, had.free]
  have hb := free_blank memory page
  unfold Usable
  constructor
  · rintro ⟨hf, hg⟩
    obtain ⟨hlt, hi⟩ := hf.resolve_left hb
    obtain ⟨hunt, hab⟩ := not_or.mp hg
    refine ⟨hlt, hi, fun e he hty hto => hunt ⟨e, he, hty, hto⟩, ?_⟩
    omega
  · rintro ⟨hlt, hi, hunt, hab⟩
    refine ⟨Or.inr ⟨hlt, hi⟩, not_or.mpr ⟨?_, by omega⟩⟩
    rintro ⟨e, he, hty, hto⟩
    exact hunt e he hty hto

/-- After `pmm_init` the free pages are the usable ones, and the counter counts them. -/
theorem boot_free_pages (map : ℕ → UInt8) (length : UInt64) (entrySize : UInt32)
    (kernelEnd : UInt64) (memory : ℕ → Image 4096) (hsize : AcceptsSize length entrySize) :
    ∃ s, init map length entrySize kernelEnd memory = some s ∧
      (∀ page, page < bitmapBits → (s.bitmap.testBit page = false ↔
        Usable (entries map length entrySize) kernelEnd page)) ∧
      s.freePages = ((Finset.range bitmapBits).filter
        (Usable (entries map length entrySize) kernelEnd)).card := by
  obtain ⟨s, hs, hf, hc, -⟩ := init_spec map length entrySize kernelEnd memory hsize
  have hbit : ∀ page, page < bitmapBits → (s.bitmap.testBit page = false ↔
      Usable (entries map length entrySize) kernelEnd page) := by
    intro page hlt
    have hp := hf page
    rw [Free, and_iff_right hlt, and_iff_right hlt] at hp
    exact hp
  refine ⟨s, hs, hbit, hc.trans (congrArg Finset.card ?_)⟩
  exact Finset.filter_congr (fun page hp =>
    (hf page).trans (and_iff_right (Finset.mem_range.mp hp)))

/-- Usable memory from `0x200800` to `0x204800` and from `0x203000` to `0x205800`, and two
reserved bytes on both sides of `0x202000`. -/
def overlappingMap : ℕ → UInt8 := fun i =>
  [0, 0x08, 0x20, 0, 0, 0, 0, 0, 0, 0x40, 0, 0, 0, 0, 0, 0, 1, 0, 0, 0,
    0, 0x30, 0x20, 0, 0, 0, 0, 0, 0, 0x28, 0, 0, 0, 0, 0, 0, 1, 0, 0, 0,
    0xFF, 0x1F, 0x20, 0, 0, 0, 0, 0, 2, 0, 0, 0, 0, 0, 0, 0, 2, 0, 0, 0].getD i 0

theorem usable_overlappingMap (page : ℕ) :
    Usable (entries overlappingMap 60 20) 0x100000 page ↔ page = 0x203 ∨ page = 0x204 := by
  have he : entries overlappingMap 60 20 =
      [⟨0x200800, 0x4000, 1⟩, ⟨0x203000, 0x2800, 1⟩, ⟨0x201FFF, 2, 2⟩] := by decide
  rw [he]
  simp only [Usable, Inside, Touches, e820Usable, List.mem_cons, List.not_mem_nil, or_false,
    exists_eq_or_imp, exists_eq_left, forall_eq_or_imp, forall_eq, UInt64.reduceToNat]
  simp
  omega

/-- Only the two pages that lie in the second entry and in no reserved one are free. -/
theorem boot_free_pages_overlapping :
    ∃ s, init overlappingMap 60 20 0x100000 (fun _ => Image.zero) = some s ∧
      (∀ page, page < bitmapBits →
        (s.bitmap.testBit page = false ↔ page = 0x203 ∨ page = 0x204)) ∧ s.freePages = 2 := by
  obtain ⟨s, hs, hf, hcount⟩ := boot_free_pages overlappingMap 60 20 0x100000
    (fun _ => Image.zero) (by decide)
  simp only [usable_overlappingMap] at hf hcount
  refine ⟨s, hs, hf, hcount.trans ?_⟩
  have hp : (Finset.range bitmapBits).filter (fun page => page = 0x203 ∨ page = 0x204) =
      {0x203, 0x204} := by
    ext page
    simp only [Finset.mem_filter, Finset.mem_range, Finset.mem_insert, Finset.mem_singleton,
      bitmapBits_eq]
    omega
  rw [hp]
  rfl

end MichCore.Pmm
