import MichCore.ByteImage

/-!
# The physical page allocator

`core/pmm.c`: a bitmap with one bit for each page below 4 GiB, a 16-bit reference count for each
page and a counter of free pages. A panic is `none`.
-/
namespace MichCore.Pmm

open Function Finset

/-- `BITMAP_BITS`: the pages below 4 GiB. -/
def bitmapBits : ℕ := 0x100000

def managedEnd : ℕ := bitmapBits * 4096

theorem bitmapBits_eq : bitmapBits = 1048576 := rfl

theorem managedEnd_eq : managedEnd = 4294967296 := rfl

/-- The static data of the allocator, and the pages it hands out. -/
structure State where
  bitmap : Image 0x20000
  pageRefs : ℕ → ℕ
  freePages : ℕ
  maxPage : ℕ
  allocPageLimit : ℕ
  memory : ℕ → Image 4096

/-- `addr & ~(PAGE_SIZE - 1)`. -/
def pageFloor (addr : ℕ) : ℕ := addr / 4096 * 4096

/-- The addresses of `for (a = first; a < stop; a += PAGE_SIZE)`. -/
def pageAddresses (first stop : ℕ) : List ℕ := List.range' first ((stop - first + 4095) / 4096) 4096

/-- One struct e820_entry, without the attribute word nothing reads. -/
structure E820Entry where
  addr : UInt64
  len : UInt64
  type : UInt32
deriving DecidableEq

def e820Usable : UInt32 := 1

def entryAt (map : ℕ → UInt8) (offset : ℕ) : E820Entry :=
  ⟨readLe64 map offset, readLe64 map (offset + 8), readLe32 map (offset + 16)⟩

namespace State

/-- Nothing is usable before the memory map is read. -/
def blank (memory : ℕ → Image 4096) : State where
  bitmap := fun _ => 0xFF
  pageRefs := fun _ => 0
  freePages := 0
  maxPage := 0
  allocPageLimit := bitmapBits
  memory := memory

/-- Clear the bit of a page and count it in, if it was set. -/
def markFree (s : State) (page : ℕ) : State :=
  if s.bitmap.testBit page then
    { s with bitmap := s.bitmap.clearBit page, freePages := (s.freePages + 1) % 2 ^ 32 }
  else s

def raiseMaxPage (s : State) (page : ℕ) : State :=
  if page > s.maxPage then { s with maxPage := page } else s

/-- Body of the first pass of pmm_init, for the page at an address of a usable entry. -/
def addPage (s : State) (page : ℕ) : State :=
  if page < bitmapBits then (s.markFree page).raiseMaxPage page else s

def addUsable (s : State) (e : E820Entry) : State :=
  let sum := (e.addr.toNat + e.len.toNat) % 2 ^ 64
  let regionEnd := if sum < e.addr.toNat then 2 ^ 64 - 1 else sum
  let rounded := pageFloor ((e.addr.toNat + 4095) % 2 ^ 64)
  let stop := pageFloor regionEnd
  let start := if rounded < e.addr.toNat then 2 ^ 64 - 1 else rounded
  (pageAddresses start stop).foldl (fun s a => s.addPage (a / 4096)) s

/-- Set the bit of a page and count it out, if it was clear. -/
def markTaken (s : State) (page : ℕ) : State :=
  if s.bitmap.testBit page then s
  else { s with bitmap := s.bitmap.setBit page, freePages := (s.freePages + (2 ^ 32 - 1)) % 2 ^ 32 }

def reserve (s : State) (addr len : UInt64) : State :=
  if len = 0 then s
  else
    let first := pageFloor addr.toNat
    let sum := (addr.toNat + len.toNat) % 2 ^ 64
    let stop := if sum > 2 ^ 64 - 1 - 4095 then 2 ^ 64 - 1 else pageFloor (sum + 4095)
    if first ≥ managedEnd then s
    else
      (pageAddresses first (if stop > managedEnd then managedEnd else stop)).foldl
        (fun s a => s.markTaken (a / 4096)) s

/-- Body of the second pass of pmm_init. -/
def addUnusable (s : State) (e : E820Entry) : State :=
  if e.type = e820Usable ∨ e.addr.toNat ≥ managedEnd then s
  else
    let length := if e.len.toNat > managedEnd - e.addr.toNat then managedEnd - e.addr.toNat
      else e.len.toNat
    s.reserve e.addr (UInt64.ofNat length)

def setAllocLimit (s : State) (stop : UInt64) : State :=
  let pages := if stop.toNat / 4096 > bitmapBits then bitmapBits else stop.toNat / 4096
  (List.range' pages (bitmapBits - pages)).foldl markTaken { s with allocPageLimit := pages }

/-- The loop that looks for a page with a clear bit. -/
def scan (s : State) (first limit : ℕ) : Option ℕ :=
  (List.range' first (limit - first)).find? (fun page => !s.bitmap.testBit page)

def takePage (s : State) (page : ℕ) : State × ℕ :=
  ({ s with
      bitmap := s.bitmap.setBit page
      pageRefs := update s.pageRefs page 1
      freePages := (s.freePages + (2 ^ 32 - 1)) % 2 ^ 32
      memory := update s.memory page Image.zero }, page * 4096)

/-- Take the first page a scan finds; address zero when it finds none. -/
def takeFound (s : State) (found : Option ℕ) : State × ℕ :=
  match found with
  | some page => s.takePage page
  | none => (s, 0)

def allocPageRange (s : State) (start stop : UInt64) : State × ℕ :=
  if stop ≤ start then (s, 0)
  else if start.toNat > 2 ^ 64 - 1 - 4095 then (s, 0)
  else
    let first := (start.toNat + 4095) / 4096
    let limit := min (min (stop.toNat / 4096) s.allocPageLimit) (s.maxPage + 1)
    if first ≥ bitmapBits then (s, 0)
    else s.takeFound (s.scan (if first < 1 then 1 else first) limit)

/-- `0x1000000 / PAGE_SIZE`: pages below 16 MiB are kept for callers that need them. -/
def highStart : ℕ := 4096

/-- The pages from 16 MiB are looked at first, those below when none of them is clear. -/
def allocPage (s : State) : State × ℕ :=
  let limit := min (s.maxPage + 1) s.allocPageLimit
  s.takeFound ((s.scan highStart limit).or (s.scan 1 (min highStart limit)))

def allocPageLow (s : State) : State × ℕ :=
  s.takeFound (s.scan 1 (min (min highStart s.allocPageLimit) (s.maxPage + 1)))

/-- The run of clear pages: `run` pages from `start` are clear so far. -/
def findRun (s : State) (pages : ℕ) : List ℕ → ℕ → ℕ → Option ℕ
  | [], _, _ => none
  | page :: rest, run, start =>
    if s.bitmap.testBit page then s.findRun pages rest 0 start
    else
      let start := if run = 0 then page else start
      if run + 1 = pages then some start else s.findRun pages rest (run + 1) start

/-- Body of the loop that takes a run: bit and count, without the counter and the contents. -/
def holdPage (s : State) (page : ℕ) : State :=
  { s with
    bitmap := s.bitmap.setBit page
    pageRefs := update s.pageRefs page 1 }

def allocContiguous (s : State) (pages : UInt32) (maxAddr : UInt64) : State × ℕ :=
  if pages = 0 ∨ pages.toNat > s.freePages then (s, 0)
  else
    let addressLimit := (maxAddr.toNat + 1) % 2 ^ 64
    let given := if addressLimit ≠ 0 then addressLimit / 4096 % 2 ^ 32 else s.allocPageLimit
    let limit := min (min given s.allocPageLimit) (s.maxPage + 1)
    if pages.toNat > limit then (s, 0)
    else
      match s.findRun pages.toNat (List.range' 1 (limit - 1)) 0 0 with
      | none => (s, 0)
      | some start =>
        let held := (List.range' start pages.toNat).foldl holdPage s
        ({ held with freePages := (held.freePages + (2 ^ 32 - pages.toNat)) % 2 ^ 32 },
          start * 4096 % 2 ^ 32)

def freePage (s : State) (addr : UInt64) : Option State :=
  let page := addr.toNat / 4096
  if addr.toNat % 4096 ≠ 0 then none
  else if page = 0 ∨ page ≥ bitmapBits then none
  else if s.pageRefs page = 0 then none
  else
    let refs := s.pageRefs page - 1
    let s := { s with pageRefs := update s.pageRefs page refs }
    if refs = 0 then
      some { s with bitmap := s.bitmap.clearBit page, freePages := (s.freePages + 1) % 2 ^ 32 }
    else some s

/-- The answer is whether a reference was taken. -/
def retainPage (s : State) (addr : UInt64) : State × Bool :=
  let page := addr.toNat / 4096
  if addr.toNat % 4096 ≠ 0 ∨ page ≥ bitmapBits then (s, false)
  else if s.pageRefs page = 0 ∨ s.pageRefs page = 0xFFFF then (s, false)
  else ({ s with pageRefs := update s.pageRefs page (s.pageRefs page + 1) }, true)

end State

/-- The size check of pmm_init. -/
def AcceptsSize (length : UInt64) (entrySize : UInt32) : Prop :=
  ¬ (entrySize < 20 ∨ length = 0 ∨ length.toNat % entrySize.toNat ≠ 0)
  deriving Decidable

def entries (map : ℕ → UInt8) (length : UInt64) (entrySize : UInt32) : List E820Entry :=
  (List.range (length.toNat / entrySize.toNat)).map
    (fun index => entryAt map (index * entrySize.toNat))

/-- `pmm_init` over the bytes of the firmware's map; the pages keep what they held. -/
def init (map : ℕ → UInt8) (length : UInt64) (entrySize : UInt32) (kernelEnd : UInt64)
    (memory : ℕ → Image 4096) : Option State :=
  if AcceptsSize length entrySize then
    let all := entries map length entrySize
    let s := all.foldl (fun s e => if e.type ≠ e820Usable then s else s.addUsable e)
      (State.blank memory)
    let s := all.foldl State.addUnusable s
    some ((s.reserve 0 0x100000).reserve 0x100000 (kernelEnd - 0x100000))
  else none

/-! What the loops do to the set of free pages and to the counter. -/

/-- A page below 4 GiB whose bit is clear. -/
def Free (s : State) (page : ℕ) : Prop := page < bitmapBits ∧ s.bitmap.testBit page = false

instance (s : State) : DecidablePred (Free s) := fun _ => instDecidableAnd

/-- The counter is the number of clear bits. -/
def Counted (s : State) : Prop :=
  s.freePages = ((Finset.range bitmapBits).filter (Free s)).card

variable {s s' s'' : State} {page : ℕ} {p q : ℕ → Prop}

theorem Counted.lt (h : Counted s) : s.freePages < 2 ^ 32 - 1 := by
  have hle : s.freePages ≤ bitmapBits := by
    rw [h]
    exact (card_filter_le _ _).trans (card_range _).le
  exact hle.trans_lt (by decide)

theorem free_blank (memory : ℕ → Image 4096) (page : ℕ) : ¬ Free (State.blank memory) page := by
  rintro ⟨hlt, hc⟩
  have hby : (State.blank memory).bitmap.byte (page / 8) = 0xFF := by
    have hin : page / 8 < 0x20000 := by
      rw [bitmapBits_eq] at hlt
      omega
    simp [State.blank, Image.byte, hin]
  rw [Image.testBit, hby] at hc
  have hbit : page % 8 < 8 := Nat.mod_lt _ (by norm_num)
  have ho : (0xFF : UInt8).toNat = 2 ^ 8 - 1 := rfl
  rw [ho, Nat.testBit_two_pow_sub_one] at hc
  simp [hbit] at hc

theorem counted_blank (memory : ℕ → Image 4096) : Counted (State.blank memory) := by
  unfold Counted
  rw [filter_false_of_mem (fun page _ => free_blank memory page)]
  rfl

theorem page_in_bitmap (h : page < bitmapBits) : page < 8 * 0x20000 := h

theorem counted_of_erase (hs : Counted s) (hpa : Free s page)
    (hf : ∀ q, Free s' q ↔ Free s q ∧ q ≠ page)
    (hcount : s'.freePages = (s.freePages + (2 ^ 32 - 1)) % 2 ^ 32) : Counted s' := by
  have hset : (Finset.range bitmapBits).filter (Free s') =
      ((Finset.range bitmapBits).filter (Free s)).erase page := by
    ext q
    rw [mem_erase, mem_filter, mem_filter, hf, and_comm (a := q ≠ page), and_assoc]
  have hmem : page ∈ (Finset.range bitmapBits).filter (Free s) :=
    mem_filter.mpr ⟨mem_range.mpr hpa.1, hpa⟩
  have hpos := card_pos.mpr ⟨page, hmem⟩
  have hlt := hs.lt
  unfold Counted at hs ⊢
  rw [hset, card_erase_of_mem hmem, hcount, ← hs]
  rw [← hs] at hpos
  omega

theorem counted_of_insert (hs : Counted s) (hlt : page < bitmapBits) (hp : ¬ Free s page)
    (hf : ∀ q, Free s' q ↔ Free s q ∨ q = page)
    (hcount : s'.freePages = (s.freePages + 1) % 2 ^ 32) : Counted s' := by
  have hset : (Finset.range bitmapBits).filter (Free s') =
      insert page ((Finset.range bitmapBits).filter (Free s)) := by
    ext q
    simp only [mem_filter, mem_insert, mem_range, hf]
    constructor
    · rintro ⟨hq, h | h⟩
      · exact Or.inr ⟨hq, h⟩
      · exact Or.inl h
    · rintro (rfl | ⟨hq, h⟩)
      · exact ⟨hlt, Or.inr rfl⟩
      · exact ⟨hq, Or.inl h⟩
  have hnot : page ∉ (Finset.range bitmapBits).filter (Free s) :=
    fun h => hp (mem_filter.mp h).2
  have hb := hs.lt
  unfold Counted at hs ⊢
  rw [hset, card_insert_of_notMem hnot, hcount, ← hs]
  omega

theorem free_of_setBit (s s' : State) (hlt : page < bitmapBits)
    (h : s'.bitmap = s.bitmap.setBit page) (q : ℕ) : Free s' q ↔ Free s q ∧ q ≠ page := by
  unfold Free
  rw [h, Image.testBit_setBit _ (page_in_bitmap hlt)]
  by_cases hq : q = page <;> simp [hq]

theorem free_of_clearBit (s s' : State) (hlt : page < bitmapBits)
    (h : s'.bitmap = s.bitmap.clearBit page) (q : ℕ) : Free s' q ↔ Free s q ∨ q = page := by
  unfold Free
  rw [h, Image.testBit_clearBit _ (page_in_bitmap hlt)]
  by_cases hq : q = page <;> simp [hq, hlt]

/-- Only the bitmap, the counter and the limits differ, and the counter still counts. -/
structure SameHolders (s s' : State) : Prop where
  counted : Counted s → Counted s'
  limit : s.allocPageLimit ≤ bitmapBits → s'.allocPageLimit ≤ bitmapBits
  pageRefs : s'.pageRefs = s.pageRefs
  memory : s'.memory = s.memory

theorem SameHolders.refl (s : State) : SameHolders s s := ⟨id, id, rfl, rfl⟩

theorem SameHolders.trans (h : SameHolders s s') (h' : SameHolders s' s'') : SameHolders s s'' :=
  ⟨fun hs => h'.counted (h.counted hs), fun hs => h'.limit (h.limit hs),
    h'.pageRefs.trans h.pageRefs, h'.memory.trans h.memory⟩

/-- The free pages of `s` without those of `gone`. -/
structure Removes (gone : ℕ → Prop) (s s' : State) : Prop extends SameHolders s s' where
  free : ∀ q, Free s' q ↔ Free s q ∧ ¬ gone q

/-- The free pages of `s` and those of `added`. -/
structure Adds (added : ℕ → Prop) (s s' : State) : Prop extends SameHolders s s' where
  free : ∀ q, Free s' q ↔ Free s q ∨ added q

theorem Removes.trans (h : Removes p s s') (h' : Removes q s' s'') :
    Removes (fun page => p page ∨ q page) s s'' where
  toSameHolders := h.toSameHolders.trans h'.toSameHolders
  free page := by rw [h'.free, h.free, and_assoc, not_or]

theorem Removes.congr (h : Removes p s s') (hpq : ∀ page, page < bitmapBits → (p page ↔ q page)) :
    Removes q s s' where
  toSameHolders := h.toSameHolders
  free page := by
    rw [h.free]
    exact and_congr_right (fun hf => not_congr (hpq page hf.1))

theorem Removes.none (s : State) : Removes (fun _ => False) s s where
  toSameHolders := SameHolders.refl s
  free _ := by simp

theorem Adds.none (s : State) : Adds (fun _ => False) s s where
  toSameHolders := SameHolders.refl s
  free _ := by simp

theorem Adds.trans (h : Adds p s s') (h' : Adds q s' s'') :
    Adds (fun page => p page ∨ q page) s s'' where
  toSameHolders := h.toSameHolders.trans h'.toSameHolders
  free page := by rw [h'.free, h.free, or_assoc]

theorem Adds.congr (h : Adds p s s') (hpq : ∀ page, p page ↔ q page) : Adds q s s' where
  toSameHolders := h.toSameHolders
  free page := by rw [h.free, hpq]

theorem foldl_moves {R : (ℕ → Prop) → State → State → Prop} (hn : ∀ s, R (fun _ => False) s s)
    (ht : ∀ {p q s s' s''}, R p s s' → R q s' s'' → R (fun page => p page ∨ q page) s s'')
    {α : Type} {f : State → α → State} {moved : α → ℕ → Prop} (l : List α)
    (hf : ∀ a ∈ l, ∀ s, R (moved a) s (f s a)) (s : State) :
    R (fun page => ∃ a ∈ l, moved a page) s (l.foldl f s) := by
  induction l generalizing s with
  | nil => simpa using hn s
  | cons a rest ih =>
    have hfi := hf a List.mem_cons_self s
    have hr := ih (fun b hb => hf b (List.mem_cons_of_mem a hb)) (f s a)
    simpa using ht hfi hr

theorem mem_pageAddresses {first stop a : ℕ} :
    a ∈ pageAddresses first stop ↔ first ≤ a ∧ a < stop ∧ (a - first) % 4096 = 0 := by
  rw [pageAddresses, List.mem_range']
  constructor
  · rintro ⟨i, hi, rfl⟩
    have hlt : first + 4096 * i < stop := by omega
    exact ⟨by omega, hlt, by omega⟩
  · rintro ⟨hf, hsto, hste⟩
    exact ⟨(a - first) / 4096, by omega, by omega⟩

theorem page_of_mem_pageAddresses {first stop : ℕ} (hf : first % 4096 = 0) (page : ℕ) :
    (∃ a ∈ pageAddresses first stop, page = a / 4096) ↔
      first / 4096 ≤ page ∧ page * 4096 < stop := by
  constructor
  · rintro ⟨a, ha, rfl⟩
    obtain ⟨hle, hlt, hs⟩ := mem_pageAddresses.mp ha
    omega
  · rintro ⟨hle, hlt⟩
    exact ⟨page * 4096, mem_pageAddresses.mpr (by omega), by omega⟩

namespace State

theorem markTaken_removes (s : State) {page : ℕ} (hlt : page < bitmapBits) :
    Removes (· = page) s (s.markTaken page) := by
  unfold markTaken
  split
  · next hbit =>
    refine ⟨SameHolders.refl s, fun q => ⟨fun hq => ⟨hq, ?_⟩, And.left⟩⟩
    rintro rfl
    rw [hq.2] at hbit
    exact Bool.false_ne_true hbit
  · next hbit =>
    have hp : Free s page := ⟨hlt, by simpa using hbit⟩
    have hf := free_of_setBit s { s with
      bitmap := s.bitmap.setBit page
      freePages := (s.freePages + (2 ^ 32 - 1)) % 2 ^ 32 } hlt rfl
    exact ⟨⟨fun hs => counted_of_erase hs hp hf rfl, id, rfl, rfl⟩, hf⟩

theorem markFree_adds (s : State) {page : ℕ} (hlt : page < bitmapBits) :
    Adds (· = page) s (s.markFree page) := by
  unfold markFree
  split
  · next hbit =>
    have hnot : ¬ Free s page := fun h => Bool.false_ne_true (h.2.symm.trans hbit)
    have hf := free_of_clearBit s
      { s with bitmap := s.bitmap.clearBit page, freePages := (s.freePages + 1) % 2 ^ 32 } hlt rfl
    exact ⟨⟨fun hs => counted_of_insert hs hlt hnot hf rfl, id, rfl, rfl⟩, hf⟩
  · next hbit =>
    have hp : Free s page := ⟨hlt, by simpa using hbit⟩
    refine ⟨SameHolders.refl s, fun q => ⟨Or.inl, ?_⟩⟩
    rintro (h | rfl)
    · exact h
    · exact hp

theorem raiseMaxPage_adds (s : State) (page : ℕ) :
    Adds (fun _ => False) s (s.raiseMaxPage page) := by
  unfold raiseMaxPage
  split
  · exact ⟨⟨id, id, rfl, rfl⟩, fun _ => (or_iff_left not_false).symm⟩
  · exact Adds.none s

theorem addPage_adds (s : State) (page : ℕ) :
    Adds (fun q => q = page ∧ page < bitmapBits) s (s.addPage page) := by
  unfold addPage
  split
  · next hlt =>
    exact ((markFree_adds s hlt).trans (raiseMaxPage_adds _ page)).congr (by simp [hlt])
  · next hlt =>
    exact (Adds.none s).congr (by simp [hlt])

end State

end MichCore.Pmm
