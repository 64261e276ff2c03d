import MichCore.BootMemory

/-!
# Bitmap, reference counts and free counter agree

Over every run of allocations, retains and frees a bit is set exactly when its page is reserved
or referenced, and the counter counts the clear bits. Reservations are exact as long as they end
within the 64-bit address space; one that wraps takes out nothing.
-/
namespace MichCore.Pmm

open Function Option List

/-- Calls made between `pmm_init` and the first allocation. -/
inductive BootCall where
  | reserve (addr len : UInt64)
  | setAllocLimit (stop : UInt64)
deriving DecidableEq

/-- The page is one the call was asked to keep from being allocated. -/
def BootCall.Withholds : BootCall → ℕ → Prop
  | .reserve addr len, page => Touches addr len page
  | .setAllocLimit stop, page => stop.toNat / 4096 ≤ page

/-- The pages whose bit the call sets: the end of a reservation is a 64-bit sum. -/
def BootCall.Sets : BootCall → ℕ → Prop
  | .reserve addr len, page => len ≠ 0 ∧ addr.toNat < (page + 1) * 4096 ∧
      page * 4096 < (addr.toNat + len.toNat) % 2 ^ 64
  | .setAllocLimit stop, page => stop.toNat / 4096 ≤ page

instance (c : BootCall) (page : ℕ) : Decidable (c.Withholds page) :=
  match c with
  | .reserve addr len => inferInstanceAs (Decidable (Touches addr len page))
  | .setAllocLimit stop => inferInstanceAs (Decidable (stop.toNat / 4096 ≤ page))

def BootCall.perform (s : State) : BootCall → State
  | .reserve addr len => s.reserve addr len
  | .setAllocLimit stop => s.setAllocLimit stop

def boot (s : State) (calls : List BootCall) : State := calls.foldl BootCall.perform s

/-- The pages boot keeps: not usable, or withheld by a call. -/
def Reserved (all : List E820Entry) (kernelEnd : UInt64) (calls : List BootCall) (page : ℕ) :
    Prop :=
  ¬ Usable all kernelEnd page ∨ ∃ c ∈ calls, c.Withholds page

inductive Call where
  | allocPage
  | allocPageLow
  | allocPageRange (start stop : UInt64)
  | allocContiguous (pages : UInt32) (maxAddr : UInt64)
  | retainPage (addr : UInt64)
  | freePage (addr : UInt64)

inductive Answer where
  | address (addr : ℕ)
  | retained (ok : Bool)
  | freed

/-- One call; `none` is a panic. -/
def Call.perform (s : State) : Call → Option (State × Answer)
  | .allocPage => some (s.allocPage.1, .address s.allocPage.2)
  | .allocPageLow => some (s.allocPageLow.1, .address s.allocPageLow.2)
  | .allocPageRange start stop =>
    some ((s.allocPageRange start stop).1, .address (s.allocPageRange start stop).2)
  | .allocContiguous pages maxAddr =>
    some ((s.allocContiguous pages maxAddr).1, .address (s.allocContiguous pages maxAddr).2)
  | .retainPage addr => some ((s.retainPage addr).1, .retained (s.retainPage addr).2)
  | .freePage addr => (s.freePage addr).map (fun s' => (s', .freed))

/-- The pages an answered call hands to its caller. -/
def taken : Call → Answer → List ℕ
  | .allocContiguous pages _, .address addr =>
    if addr = 0 then [] else List.range' (addr / 4096) pages.toNat
  | _, .address addr => if addr = 0 then [] else [addr / 4096]
  | _, _ => []

/-- The page ends below every limit the caller and the boot code gave. -/
def Call.Permits (s : State) (page : ℕ) : Call → Prop
  | .allocPageLow => page < s.allocPageLimit ∧ (page + 1) * 4096 ≤ 0x1000000
  | .allocPageRange start stop =>
    page < s.allocPageLimit ∧ start.toNat ≤ page * 4096 ∧ (page + 1) * 4096 ≤ stop.toNat
  | .allocContiguous _ maxAddr =>
    page < s.allocPageLimit ∧ (page + 1) * 4096 ≤ maxAddr.toNat + 1
  | _ => page < s.allocPageLimit

/-- Calls one after the other, with what each of them answered. -/
def run : List Call → State → Option (State × List (Call × Answer))
  | [], s => some (s, [])
  | c :: rest, s => do
    let (s', answer) ← c.perform s
    let (last, log) ← run rest s'
    return (last, (c, answer) :: log)

/-- The event is a reference the page gained after its allocation. -/
def retains (page : ℕ) : Call × Answer → Bool
  | (.retainPage addr, .retained ok) => ok && addr.toNat / 4096 == page
  | _ => false

def frees (page : ℕ) : Call × Answer → Bool
  | (.freePage addr, .freed) => addr.toNat / 4096 == page
  | _ => false

/-- The structures agree, with the pages of `reserved` kept out. -/
structure Sound (reserved : ℕ → Prop) (s : State) : Prop where
  free : ∀ page, page < bitmapBits → (Free s page ↔ ¬ reserved page ∧ s.pageRefs page = 0)
  held : ∀ page, s.pageRefs page ≠ 0 → page < bitmapBits ∧ ¬ reserved page
  counted : Counted s
  limit : s.allocPageLimit ≤ bitmapBits

namespace State

theorem setAllocLimit_removes (s : State) (stop : UInt64) :
    Removes (fun page => stop.toNat / 4096 ≤ page) s (s.setAllocLimit stop) := by
  unfold setAllocLimit
  extract_lets pages
  have hcut : pages ≤ bitmapBits := by
    simp only [pages]
    split <;> omega
  have hli : Removes (fun _ => False) s { s with allocPageLimit := pages } :=
    ⟨⟨id, fun _ => hcut, rfl, rfl⟩, fun _ => (and_iff_left not_false).symm⟩
  have hb : ∀ page ∈ List.range' pages (bitmapBits - pages), page < bitmapBits := by
    intro page hpage
    have hmem := mem_range'_1.mp hpage
    omega
  have hf := foldl_moves Removes.none Removes.trans (List.range' pages (bitmapBits - pages))
    (fun page hpage t => markTaken_removes t (hb page hpage)) { s with allocPageLimit := pages }
  refine (hli.trans hf).congr (fun page hlt => ?_)
  have hpages : pages ≤ page ↔ stop.toNat / 4096 ≤ page := by
    simp only [pages]
    split <;> omega
  rw [false_or, ← hpages]
  constructor
  · rintro ⟨q, hq, rfl⟩
    exact (mem_range'_1.mp hq).1
  · intro hle
    exact ⟨page, mem_range'_1.mpr (by omega), rfl⟩

theorem scan_some {s : State} {first limit page : ℕ} (h : s.scan first limit = some page) :
    first ≤ page ∧ page < limit ∧ s.bitmap.testBit page = false := by
  have hmem := mem_range'_1.mp (mem_of_find?_eq_some h)
  have hc := find?_some h
  exact ⟨hmem.1, by omega, by simpa using hc⟩

theorem highStart_pos : 1 ≤ highStart := by
  unfold highStart
  norm_num

theorem allocPage_eq (s : State) :
    s.allocPage = s.takeFound ((s.scan highStart (min (s.maxPage + 1) s.allocPageLimit)).or
      (s.scan 1 (min highStart (min (s.maxPage + 1) s.allocPageLimit)))) := rfl

theorem findRun_some {s : State} {pages limit : ℕ} (page run start : ℕ) {found : ℕ}
    (hrun : run < pages) (hbel : run ≠ 0 → start + run = page ∧ 1 ≤ start)
    (hc : ∀ q, start ≤ q → q < start + run → s.bitmap.testBit q = false) (hpage : 1 ≤ page)
    (h : s.findRun pages (List.range' page (limit - page)) run start = some found) :
    1 ≤ found ∧ found + pages ≤ limit ∧
      ∀ q, found ≤ q → q < found + pages → s.bitmap.testBit q = false := by
  generalize hn : limit - page = n at h
  induction n generalizing page run start with
  | zero => simp [findRun] at h
  | succ n ih =>
    rw [range'_succ, findRun] at h
    split at h
    · exact ih (page + 1) 0 start (by omega) (by simp) (by omega) (by omega) (by omega) h
    next hbit =>
    have hpagec : s.bitmap.testBit page = false := by simpa using hbit
    -- the run ends at this page, wherever it began
    have hbeg : (if run = 0 then page else start) + run = page ∧
        1 ≤ (if run = 0 then page else start) := by
      split
      · omega
      · exact hbel ‹_›
    have hg : ∀ q, (if run = 0 then page else start) ≤ q →
        q < (if run = 0 then page else start) + (run + 1) → s.bitmap.testBit q = false := by
      intro q hlo hhi
      by_cases hq : q = page
      · rw [hq, hpagec]
      by_cases hz : run = 0
      · rw [if_pos hz] at hlo hhi hbeg
        omega
      · rw [if_neg hz] at hlo hhi hbeg
        exact hc q hlo (by omega)
    dsimp only at h
    by_cases hd : run + 1 = pages
    · rw [if_pos hd, some_inj] at h
      rw [h] at hbeg hg
      exact ⟨hbeg.2, by omega, fun q hlo hhi => hg q hlo (by omega)⟩
    · rw [if_neg hd] at h
      exact ih (page + 1) (run + 1) _ (by omega) (fun _ => ⟨by omega, hbeg.2⟩) hg
        (by omega) (by omega) h

theorem holdPages_spec (s : State) (start n : ℕ) (hn : start + n ≤ bitmapBits) :
    let s' := (List.range' start n).foldl holdPage s
    (∀ q, Free s' q ↔ Free s q ∧ ¬ (start ≤ q ∧ q < start + n)) ∧
    (∀ q, s'.pageRefs q = if start ≤ q ∧ q < start + n then 1 else s.pageRefs q) ∧
    s'.freePages = s.freePages ∧ s'.allocPageLimit = s.allocPageLimit := by
  induction n generalizing s start with
  | zero => simp
  | succ n ih =>
    rw [range'_succ, foldl_cons]
    obtain ⟨hfr, hr, hcount, hl⟩ := ih (s.holdPage start) (start + 1) (by omega)
    have hfi := free_of_setBit s (s.holdPage start) (show start < bitmapBits by omega) rfl
    refine ⟨fun q => ?_, fun q => ?_, hcount, hl⟩
    · rw [hfr, hfi, and_assoc]
      refine and_congr_right (fun _ => ?_)
      omega
    · rw [hr]
      change (if _ then 1 else update s.pageRefs start 1 q) = _
      by_cases hq : q = start
      · rw [hq, update_self, if_neg (by omega), if_pos (by omega)]
      · rw [update_of_ne hq]
        exact if_congr (by omega) rfl rfl

end State

namespace Sound
variable {reserved : ℕ → Prop} {s : State}

variable {page : ℕ}

section

variable (h : Sound reserved s)
include h

theorem free_of_clear (hl : page < s.allocPageLimit)
    (hc : s.bitmap.testBit page = false) : Free s page :=
  ⟨hl.trans_le h.limit, hc⟩

theorem unheld (hz : reserved 0) (hp : Free s page) :
    page ≠ 0 ∧ ¬ reserved page ∧ s.pageRefs page = 0 := by
  have hf := (h.free page hp.1).mp hp
  refine ⟨?_, hf⟩
  rintro rfl
  exact hf.1 hz

theorem takePage (hp : Free s page) : Sound reserved (s.takePage page).1 := by
  have hu := (h.free page hp.1).mp hp
  have hf := free_of_setBit s (s.takePage page).1 hp.1 rfl
  refine ⟨fun q hq => ?_, fun q hq => ?_, counted_of_erase h.counted hp hf rfl, h.limit⟩
  · rw [hf, h.free q hq]
    change _ ↔ _ ∧ update s.pageRefs page 1 q = 0
    by_cases heq : q = page
    · simp [heq]
    · rw [update_of_ne heq, and_iff_left heq]
  · change update s.pageRefs page 1 q ≠ 0 at hq
    by_cases heq : q = page
    · rw [heq]
      exact ⟨hp.1, hu.1⟩
    · rw [update_of_ne heq] at hq
      exact h.held q hq

theorem allocContiguous_found {start n : ℕ} (hn : start + n ≤ bitmapBits)
    (hcl : ∀ q, start ≤ q → q < start + n → Free s q) :
    Sound reserved { (List.range' start n).foldl State.holdPage s with
      freePages := (((List.range' start n).foldl State.holdPage s).freePages +
        (2 ^ 32 - n)) % 2 ^ 32 } := by
  obtain ⟨hf, hr, hcount, hli⟩ := State.holdPages_spec s start n hn
  generalize (List.range' start n).foldl State.holdPage s = held at *
  refine ⟨fun q hq => ?_, fun q hq => ?_, ?_, hli.trans_le h.limit⟩
  · change Free held q ↔ _ ∧ held.pageRefs q = 0
    rw [hf, h.free q hq, hr]
    by_cases hin : start ≤ q ∧ q < start + n
    · simp [hin]
    · rw [if_neg hin, and_iff_left hin]
  · change held.pageRefs q ≠ 0 at hq
    rw [hr] at hq
    by_cases hin : start ≤ q ∧ q < start + n
    · have hp := hcl q hin.1 hin.2
      exact ⟨hp.1, ((h.free q hp.1).mp hp).1⟩
    · rw [if_neg hin] at hq
      exact h.held q hq
  · have hset : (Finset.range bitmapBits).filter (Free held) =
        (Finset.range bitmapBits).filter (Free s) \ Finset.Ico start (start + n) := by
      ext q
      rw [Finset.mem_sdiff, Finset.mem_filter, Finset.mem_filter, hf, Finset.mem_Ico, and_assoc]
    have hsub : Finset.Ico start (start + n) ⊆ (Finset.range bitmapBits).filter (Free s) := by
      intro q hq
      obtain ⟨hlo, hhi⟩ := Finset.mem_Ico.mp hq
      have hp := hcl q hlo hhi
      exact Finset.mem_filter.mpr ⟨Finset.mem_range.mpr hp.1, hp⟩
    have hca := Finset.card_sdiff_of_subset hsub
    have hle := Finset.card_le_card hsub
    rw [← h.counted, Nat.card_Ico, Nat.add_sub_cancel_left] at hca hle
    have hlt := h.counted.lt
    change (held.freePages + (2 ^ 32 - n)) % 2 ^ 32 = (Finset.filter (Free held) _).card
    rw [hset, hca, hcount]
    omega

end

end Sound

/-- The structures still agree, the pages handed out were free, and the references of every
other page move by the call's own retain or free. -/
structure Step (reserved : ℕ → Prop) (s : State) (c : Call) (s' : State) (answer : Answer) :
    Prop where
  sound : Sound reserved s'
  given : ∀ page ∈ taken c answer, Free s page ∧ c.Permits s page
  once : ∀ page ∈ taken c answer, s'.pageRefs page = 1
  others : ∀ page, page ∉ taken c answer →
    s'.pageRefs page + (frees page (c, answer)).toNat =
      s.pageRefs page + (retains page (c, answer)).toNat

/-- The calls that take one page. -/
inductive Call.Single : Call → Prop where
  | allocPage : Single .allocPage
  | allocPageLow : Single .allocPageLow
  | allocPageRange (start stop : UInt64) : Single (.allocPageRange start stop)

variable {c : Call} {last s : State} {log : List (Call × Answer)} {reserved : ℕ → Prop}

theorem Call.Single.taken (h : c.Single) (addr : ℕ) :
    Pmm.taken c (.address addr) = if addr = 0 then [] else [addr / 4096] := by
  cases h <;> rfl

theorem Call.Single.uncounted (h : c.Single) (page addr : ℕ) :
    frees page (c, .address addr) = false ∧ retains page (c, .address addr) = false := by
  cases h <;> exact ⟨rfl, rfl⟩

namespace Step
variable {reserved : ℕ → Prop} {s : State}

variable {c : Call}

section

variable (h : Sound reserved s)
include h

theorem refl {answer : Answer} (ht : taken c answer = [])
    (hc : ∀ page, frees page (c, answer) = false ∧ retains page (c, answer) = false) :
    Step reserved s c s answer where
  sound := h
  given page hp := by simp [ht] at hp
  once page hp := by simp [ht] at hp
  others page _ := by rw [(hc page).1, (hc page).2]

theorem takeFound (hc : c.Single) {found : Option ℕ}
    (hfo : ∀ page, found = some page → 1 ≤ page ∧ Free s page ∧ c.Permits s page) :
    Step reserved s c (s.takeFound found).1 (.address (s.takeFound found).2) := by
  cases found with
  | none => exact refl h (hc.taken 0) (fun page => hc.uncounted page 0)
  | some page =>
    obtain ⟨hpos, hfr, hpe⟩ := hfo page rfl
    have ht : ∀ q, q ∈ Pmm.taken c (.address (page * 4096)) ↔ q = page := fun q => by
      rw [hc.taken, if_neg (by omega), Nat.mul_div_cancel _ (by norm_num), mem_singleton]
    refine ⟨h.takePage hfr, fun q hq => ?_, fun q hq => ?_, fun q hq => ?_⟩
    · obtain rfl := (ht q).mp hq
      exact ⟨hfr, hpe⟩
    · obtain rfl := (ht q).mp hq
      exact update_self q 1 s.pageRefs
    · rw [(hc.uncounted q _).1, (hc.uncounted q _).2]
      exact congrArg (· + 0) (update_of_ne (fun heq => hq ((ht q).mpr heq)) 1 s.pageRefs)

theorem allocPage : Step reserved s .allocPage s.allocPage.1 (.address s.allocPage.2) := by
  rw [State.allocPage_eq]
  refine takeFound h .allocPage (fun page hp => ?_)
  have hs : ∃ first limit, 1 ≤ first ∧ limit ≤ s.allocPageLimit ∧
      s.scan first limit = some page := by
    rcases or_eq_some_iff.mp hp with hhig | ⟨-, hlow⟩
    · exact ⟨_, _, State.highStart_pos, min_le_right _ _, hhig⟩
    · exact ⟨_, _, le_rfl, (min_le_right _ _).trans (min_le_right _ _), hlow⟩
  obtain ⟨first, limit, hfi, hli, hfo⟩ := hs
  obtain ⟨hlo, hhi, hc⟩ := State.scan_some hfo
  exact ⟨hfi.trans hlo, h.free_of_clear (hhi.trans_le hli) hc, hhi.trans_le hli⟩

theorem allocPageLow :
    Step reserved s .allocPageLow s.allocPageLow.1 (.address s.allocPageLow.2) := by
  refine takeFound h .allocPageLow (fun page hp => ?_)
  obtain ⟨hlo, hhi, hc⟩ := State.scan_some hp
  have hli : page < s.allocPageLimit := by omega
  refine ⟨hlo, h.free_of_clear hli hc, hli, ?_⟩
  have hhig : page < State.highStart := by omega
  unfold State.highStart at hhig
  omega

theorem allocPageRange (start stop : UInt64) :
    Step reserved s (.allocPageRange start stop) (s.allocPageRange start stop).1
      (.address (s.allocPageRange start stop).2) := by
  have hn : Step reserved s (.allocPageRange start stop) s (.address 0) :=
    refl h rfl (fun _ => ⟨rfl, rfl⟩)
  unfold State.allocPageRange
  split
  · exact hn
  split
  · exact hn
  extract_lets first limit
  split
  · exact hn
  refine takeFound h (.allocPageRange start stop) (fun page hp => ?_)
  obtain ⟨hlo, hhi, hc⟩ := State.scan_some hp
  have hf : 1 ≤ page ∧ first ≤ page := by
    split at hlo <;> omega
  simp only [limit] at hhi
  have hli : page < s.allocPageLimit := by omega
  refine ⟨hf.1, h.free_of_clear hli hc, hli, ?_⟩
  simp only [first] at hf
  omega

theorem allocContiguous (pages : UInt32) (maxAddr : UInt64) :
    Step reserved s (.allocContiguous pages maxAddr) (s.allocContiguous pages maxAddr).1
      (.address (s.allocContiguous pages maxAddr).2) := by
  have hno : Step reserved s (.allocContiguous pages maxAddr) s (.address 0) :=
    refl h rfl (fun _ => ⟨rfl, rfl⟩)
  unfold State.allocContiguous
  split
  · exact hno
  next hman =>
  extract_lets addressLimit given limit
  split
  · exact hno
  have hpa : 0 < pages.toNat := by
    have hne : pages.toNat ≠ 0 := fun hz => (not_or.mp hman).1 (UInt32.toNat_inj.mp hz)
    omega
  split
  · exact hno
  rename_i start hrun
  obtain ⟨hpos, hend, hcl⟩ := State.findRun_some 1 0 0 hpa (by simp) (by omega) le_rfl hrun
  have hal : limit ≤ s.allocPageLimit := (min_le_left _ _).trans (min_le_right _ _)
  have hbi := h.limit
  have hf : ∀ q, start ≤ q → q < start + pages.toNat → Free s q := fun q hlo hhi =>
    h.free_of_clear (by omega) (hcl q hlo hhi)
  have had : start * 4096 % 2 ^ 32 = start * 4096 := by
    rw [bitmapBits_eq] at hbi
    omega
  have hg : limit * 4096 ≤ maxAddr.toNat + 1 := by
    have hmax := maxAddr.toNat_lt
    have hcut : limit ≤ given := (min_le_left _ _).trans (min_le_left _ _)
    rw [bitmapBits_eq] at hbi
    simp only [given, addressLimit] at hcut
    split at hcut <;> omega
  have ht : taken (.allocContiguous pages maxAddr) (.address (start * 4096 % 2 ^ 32)) =
      List.range' start pages.toNat := by
    rw [had, taken, if_neg (by omega), Nat.mul_div_cancel _ (by norm_num)]
  obtain ⟨-, hre, -⟩ := State.holdPages_spec s start pages.toNat (by omega)
  refine ⟨h.allocContiguous_found (by omega) hf, fun q hq => ?_, fun q hq => ?_, fun q hq => ?_⟩
  · rw [ht] at hq
    have hin := mem_range'_1.mp hq
    have hbe : q < limit := by omega
    exact ⟨hf q hin.1 hin.2, hbe.trans_le hal,
      (Nat.mul_le_mul_right 4096 hbe).trans hg⟩
  · rw [ht] at hq
    exact (hre q).trans (if_pos (mem_range'_1.mp hq))
  · rw [ht] at hq
    exact congrArg (· + 0) ((hre q).trans (if_neg (fun hin => hq (mem_range'_1.mpr hin))))

theorem retainPage (addr : UInt64) :
    Step reserved s (.retainPage addr) (s.retainPage addr).1 (.retained (s.retainPage addr).2) := by
  have hn : Step reserved s (.retainPage addr) s (.retained false) :=
    refl h rfl (fun _ => ⟨rfl, rfl⟩)
  unfold State.retainPage
  extract_lets page
  split
  · exact hn
  split
  · exact hn
  next hr =>
  have hh := (not_or.mp hr).1
  have hz : ∀ q, update s.pageRefs page (s.pageRefs page + 1) q = 0 ↔ s.pageRefs q = 0 := by
    intro q
    by_cases hq : q = page
    · rw [hq, update_self]
      omega
    · rw [update_of_ne hq]
  refine ⟨⟨fun q hq => ?_, fun q hq => ?_, h.counted, h.limit⟩, by simp [taken], by simp [taken],
    fun q _ => ?_⟩
  · change Free s q ↔ _ ∧ update s.pageRefs page (s.pageRefs page + 1) q = 0
    rw [hz, h.free q hq]
  · exact h.held q (fun hq0 => hq ((hz q).mpr hq0))
  · change update s.pageRefs page (s.pageRefs page + 1) q + 0 =
      _ + (true && page == q).toNat
    by_cases hq : q = page
    · simp [hq]
    · rw [update_of_ne hq]
      simp [Ne.symm hq]

theorem freePage {addr : UInt64} {s' : State}
    (hfreed : s.freePage addr = some s') : Step reserved s (.freePage addr) s' .freed := by
  unfold State.freePage at hfreed
  extract_lets page refs t at hfreed
  by_cases hal : addr.toNat % 4096 ≠ 0
  · simp [hal] at hfreed
  rw [if_neg hal] at hfreed
  by_cases hr : page = 0 ∨ page ≥ bitmapBits
  · simp [hr] at hfreed
  rw [if_neg hr] at hfreed
  by_cases hh : s.pageRefs page = 0
  · simp [hh] at hfreed
  rw [if_neg hh] at hfreed
  have hm : ∀ q, s'.pageRefs = update s.pageRefs page refs →
      s'.pageRefs q + (frees q (.freePage addr, .freed)).toNat = s.pageRefs q + 0 := by
    intro q hs'
    rw [hs']
    change update s.pageRefs page refs q + (page == q).toNat = _
    by_cases hq : q = page
    · rw [hq, update_self]
      simp only [refs, BEq.rfl, Bool.toNat_true]
      omega
    · rw [update_of_ne hq]
      simp [Ne.symm hq]
  have hp := h.held page hh
  have hk : ∀ q, update s.pageRefs page refs q ≠ 0 → q < bitmapBits ∧ ¬ reserved q := by
    intro q hq
    by_cases heq : q = page
    · rw [heq]
      exact hp
    · rw [update_of_ne heq] at hq
      exact h.held q hq
  have hnot : ¬ Free s page := fun hf => hh ((h.free page hp.1).mp hf).2
  by_cases hl : refs = 0
  · rw [if_pos hl, some_inj] at hfreed
    subst hfreed
    have hfree := free_of_clearBit s
      { t with bitmap := s.bitmap.clearBit page, freePages := (s.freePages + 1) % 2 ^ 32 }
      hp.1 rfl
    refine ⟨⟨fun q hq => ?_, hk, ?_, h.limit⟩, by simp [taken], by simp [taken],
      fun q _ => hm q rfl⟩
    · refine (hfree q).trans ?_
      change _ ↔ _ ∧ update s.pageRefs page refs q = 0
      by_cases heq : q = page
      · rw [heq, update_self]
        simp [hp.2, hl]
      · rw [update_of_ne heq, h.free q hq, or_iff_left heq]
    · exact counted_of_insert h.counted hp.1 hnot hfree rfl
  · rw [if_neg hl, some_inj] at hfreed
    subst hfreed
    refine ⟨⟨fun q hq => ?_, hk, h.counted, h.limit⟩, by simp [taken], by simp [taken],
      fun q _ => hm q rfl⟩
    change Free s q ↔ _ ∧ update s.pageRefs page refs q = 0
    rw [h.free q hq]
    by_cases heq : q = page
    · rw [heq, update_self]
      simp [hh, hl]
    · rw [update_of_ne heq]

theorem of_perform {s' : State} {answer : Answer}
    (hc : c.perform s = some (s', answer)) : Step reserved s c s' answer := by
  cases c with
  | allocPage =>
    obtain ⟨rfl, rfl⟩ := Prod.mk.inj (some_inj.mp hc)
    exact allocPage h
  | allocPageLow =>
    obtain ⟨rfl, rfl⟩ := Prod.mk.inj (some_inj.mp hc)
    exact allocPageLow h
  | allocPageRange start stop =>
    obtain ⟨rfl, rfl⟩ := Prod.mk.inj (some_inj.mp hc)
    exact allocPageRange h start stop
  | allocContiguous pages maxAddr =>
    obtain ⟨rfl, rfl⟩ := Prod.mk.inj (some_inj.mp hc)
    exact allocContiguous h pages maxAddr
  | retainPage addr =>
    obtain ⟨rfl, rfl⟩ := Prod.mk.inj (some_inj.mp hc)
    exact retainPage h addr
  | freePage addr =>
    obtain ⟨t, ht, hp⟩ := map_eq_some_iff.mp hc
    cases hp
    exact freePage h ht

end

end Step

theorem run_cons {rest : List Call} (h : run (c :: rest) s = some (last, log)) :
    ∃ s' answer tail, c.perform s = some (s', answer) ∧ run rest s' = some (last, tail) ∧
      log = (c, answer) :: tail := by
  rw [run] at h
  obtain ⟨⟨s', answer⟩, hf, h⟩ := bind_eq_some_iff.mp h
  obtain ⟨⟨last', tail⟩, hr, h⟩ := bind_eq_some_iff.mp h
  obtain ⟨rfl, rfl⟩ := Prod.mk.inj (some_inj.mp h)
  exact ⟨s', answer, tail, hf, hr, rfl⟩

section

variable (h : Sound reserved s)
include h

theorem Sound.run {calls : List Call} (hrun : run calls s = some (last, log)) :
    Sound reserved last := by
  induction calls generalizing s log with
  | nil =>
    cases hrun
    exact h
  | cons c rest ih =>
    obtain ⟨s', answer, tail, hf, hre, -⟩ := run_cons hrun
    exact ih (Step.of_perform h hf).sound hre

/-- References come from successful retains and go by frees, while the page stays with its
holder. -/
theorem run_refs {calls : List Call} (hrun : run calls s = some (last, log))
    (page : ℕ) (hk : ∀ e ∈ log, page ∉ taken e.1 e.2) :
    last.pageRefs page + log.countP (frees page) = s.pageRefs page + log.countP (retains page) := by
  induction calls generalizing s log with
  | nil =>
    cases hrun
    rfl
  | cons c rest ih =>
    obtain ⟨s', answer, tail, hfi, hre, rfl⟩ := run_cons hrun
    have hs := Step.of_perform h hfi
    have hm := hs.others page (hk (c, answer) mem_cons_self)
    have ht := ih hs.sound hre (fun e he => hk e (mem_cons_of_mem _ he))
    rw [countP_cons, countP_cons]
    cases hf : frees page (c, answer) <;> cases hr : retains page (c, answer) <;>
      simp only [hf, hr, Bool.toNat_true, Bool.toNat_false, if_true, if_false,
        Bool.false_eq_true] at hm ⊢ <;> omega

/-- What the allocator promises from a booted state on, with the pages of `reserved` kept out. -/
structure AllocatorSound (reserved : ℕ → Prop) (booted : State) : Prop where
  /-- A bit is set exactly for the reserved and the referenced pages, and the rest is counted. -/
  agree : ∀ calls s log, run calls booted = some (s, log) →
    (∀ page, page < bitmapBits →
      (s.bitmap.testBit page = true ↔ reserved page ∨ 0 < s.pageRefs page)) ∧
    s.freePages = ((Finset.range bitmapBits).filter
      (fun page => s.bitmap.testBit page = false)).card
  /-- Allocations hand out pages that nobody has, within the limits. -/
  allocated : ∀ calls s log c s' answer, run calls booted = some (s, log) →
    c.perform s = some (s', answer) → ∀ page ∈ taken c answer,
      page ≠ 0 ∧ ¬ reserved page ∧ s.pageRefs page = 0 ∧ c.Permits s page
  /-- A page that was handed out is free again after one more free than successful retains. -/
  again : ∀ calls s log c s' answer page, run calls booted = some (s, log) →
    c.perform s = some (s', answer) → page ∈ taken c answer →
    ∀ later last log', run later s' = some (last, log') → (∀ e ∈ log', page ∉ taken e.1 e.2) →
      (last.bitmap.testBit page = false ↔ log'.countP (frees page) = log'.countP (retains page) + 1)
  /-- Only a held page can be freed. -/
  misfree : ∀ calls s log addr, run calls booted = some (s, log) →
    (addr.toNat % 4096 ≠ 0 ∨ addr.toNat / 4096 ≥ bitmapBits ∨ reserved (addr.toNat / 4096) ∨
      s.pageRefs (addr.toNat / 4096) = 0) → s.freePage addr = none

theorem Sound.testBit {page : ℕ} (hlt : page < bitmapBits) :
    s.bitmap.testBit page = false ↔ ¬ reserved page ∧ s.pageRefs page = 0 := by
  have hf := h.free page hlt
  rwa [Free, and_iff_right hlt] at hf

theorem Sound.freePage_eq_none {addr : UInt64}
    (hbad : addr.toNat % 4096 ≠ 0 ∨ addr.toNat / 4096 ≥ bitmapBits ∨
      reserved (addr.toNat / 4096) ∨ s.pageRefs (addr.toNat / 4096) = 0) :
    s.freePage addr = none := by
  unfold State.freePage
  extract_lets page refs t
  by_cases hal : addr.toNat % 4096 ≠ 0
  · rw [if_pos hal]
  rw [if_neg hal]
  by_cases hr : page = 0 ∨ page ≥ bitmapBits
  · rw [if_pos hr]
  rw [if_neg hr]
  have hu : s.pageRefs page = 0 := by
    by_contra hh
    obtain ⟨hlt, ho⟩ := h.held page hh
    rcases hbad with hbad | hbad | hbad | hbad
    · exact hal hbad
    · exact hr (Or.inr hbad)
    · exact ho hbad
    · exact hh hbad
  rw [if_pos hu]

end

theorem Sound.allocatorSound {booted : State} (h : Sound reserved booted) (hz : reserved 0) :
    AllocatorSound reserved booted where
  agree calls s log hrun := by
    have hs := h.run hrun
    refine ⟨fun page hlt => ?_, ?_⟩
    · have hbit := hs.testBit hlt
      rw [← Bool.not_eq_false, hbit, not_and_or, not_not, Nat.pos_iff_ne_zero]
    · refine hs.counted.trans (congrArg Finset.card (Finset.filter_congr (fun page hpa => ?_)))
      rw [Free, and_iff_right (Finset.mem_range.mp hpa)]
  allocated calls s log c s' answer hrun hc page hpa := by
    have hs := h.run hrun
    obtain ⟨hf, hpe⟩ := (Step.of_perform hs hc).given page hpa
    obtain ⟨hne, ho, hu⟩ := hs.unheld hz hf
    exact ⟨hne, ho, hu, hpe⟩
  again calls s log c s' answer page hrun hc hpa later last log' hla hk := by
    have hs := h.run hrun
    have hst := Step.of_perform hs hc
    obtain ⟨hf, -⟩ := hst.given page hpa
    have ho := ((hs.free page hf.1).mp hf).1
    have hre := run_refs hst.sound hla page hk
    rw [hst.once page hpa] at hre
    rw [(hst.sound.run hla).testBit hf.1, and_iff_right ho]
    omega
  misfree calls s log addr hrun hbad := (h.run hrun).freePage_eq_none hbad

theorem boot_removes (s : State) (calls : List BootCall) :
    Removes (fun page => ∃ c ∈ calls, c.Sets page) s (boot s calls) := by
  refine foldl_moves Removes.none Removes.trans calls (fun c _ t => ?_) s
  cases c with
  | reserve addr len => exact State.reserve_removes t addr len
  | setAllocLimit stop => exact State.setAllocLimit_removes t stop

theorem boot_sound {map : ℕ → UInt8} {length : UInt64} {entrySize : UInt32} {kernelEnd : UInt64}
    {memory : ℕ → Image 4096} (hi : init map length entrySize kernelEnd memory = some s)
    (calls : List BootCall) :
    Sound (fun page => ¬ Usable (entries map length entrySize) kernelEnd page ∨
      ∃ c ∈ calls, c.Sets page) (boot s calls) ∧ ∀ page, (boot s calls).pageRefs page = 0 := by
  have hs : AcceptsSize length entrySize := by
    by_contra hs
    simp [init, hs] at hi
  obtain ⟨t, ht, hf, hc, hli, hr, -⟩ :=
    init_spec map length entrySize kernelEnd memory hs
  obtain rfl : s = t := some_inj.mp (hi.symm.trans ht)
  have hb := boot_removes s calls
  have hn : ∀ page, (boot s calls).pageRefs page = 0 := by
    intro page
    rw [hb.pageRefs, hr]
  refine ⟨⟨fun page hlt => ?_, fun page hh => absurd (hn page) hh,
    hb.counted hc, hb.limit hli⟩, hn⟩
  rw [hb.free, hf, and_iff_right hlt, and_iff_left (hn page), not_or, not_not]

theorem Sound.congr {p q : ℕ → Prop} (h : Sound p s)
    (hpq : ∀ page, page < bitmapBits → (p page ↔ q page)) : Sound q s where
  free page hlt := by rw [h.free page hlt, hpq page hlt]
  held page hh := by
    obtain ⟨hlt, ho⟩ := h.held page hh
    exact ⟨hlt, fun hq => ho ((hpq page hlt).mpr hq)⟩
  counted := h.counted
  limit := h.limit

theorem BootCall.withholds_iff_sets {c : BootCall}
    (h : ∀ addr len, c = .reserve addr len → addr.toNat + len.toNat < 2 ^ 64) (page : ℕ) :
    c.Withholds page ↔ c.Sets page := by
  cases c with
  | reserve addr len =>
    have hsum := h addr len rfl
    simp only [Withholds, Sets, Touches, Nat.mod_eq_of_lt hsum]
  | setAllocLimit stop => rfl

theorem BootCall.withholds_of_sets {c : BootCall} {page : ℕ} (h : c.Sets page) :
    c.Withholds page := by
  cases c with
  | reserve addr len =>
    obtain ⟨hlen, hf, hto⟩ := h
    exact ⟨hlen, hf, hto.trans_le (Nat.mod_le _ _)⟩
  | setAllocLimit stop => exact h

/-- The allocator keeps its promises exactly when the pages that a wrapping reservation asked
for are kept out for another reason. -/
theorem allocator_sound_iff {map : ℕ → UInt8} {length : UInt64} {entrySize : UInt32}
    {kernelEnd : UInt64} {memory : ℕ → Image 4096} {s : State}
    (hinit : init map length entrySize kernelEnd memory = some s) (calls : List BootCall) :
    AllocatorSound (Reserved (entries map length entrySize) kernelEnd calls) (boot s calls) ↔
      ∀ addr len, .reserve addr len ∈ calls → 2 ^ 64 ≤ addr.toNat + len.toNat →
        ∀ page, page < bitmapBits → Touches addr len page →
          ¬ Usable (entries map length entrySize) kernelEnd page ∨ ∃ c ∈ calls, c.Sets page := by
  obtain ⟨hbo, hn⟩ := boot_sound hinit calls
  constructor
  · intro hso addr len hca _ page hlt ht
    have hr : Reserved (entries map length entrySize) kernelEnd calls page :=
      Or.inr ⟨_, hca, ht⟩
    have hbit := ((hso.agree [] _ _ rfl).1 page hlt).mpr (Or.inl hr)
    by_contra ho
    have hcl := (hbo.testBit hlt).mpr ⟨ho, hn page⟩
    rw [hbit] at hcl
    exact Bool.noConfusion hcl
  · intro hwr
    refine (hbo.congr (fun page hlt => ?_)).allocatorSound (Or.inl (fun h => ?_))
    · constructor
      · rintro (hu | ⟨c, hc, hse⟩)
        · exact Or.inl hu
        · exact Or.inr ⟨c, hc, BootCall.withholds_of_sets hse⟩
      · rintro (hu | ⟨c, hc, hwi⟩)
        · exact Or.inl hu
        · by_cases hsum : ∀ addr len, c = .reserve addr len → addr.toNat + len.toNat < 2 ^ 64
          · exact Or.inr ⟨c, hc, (BootCall.withholds_iff_sets hsum page).mp hwi⟩
          · push Not at hsum
            obtain ⟨addr, len, rfl, hle⟩ := hsum
            exact hwr addr len hc hle page hlt hwi
    · have hab := h.2.2.1
      omega

/-- One usable page at 2 MiB. -/
def onePageMap : ℕ → UInt8 := fun i =>
  [0, 0, 0x20, 0, 0, 0, 0, 0, 0, 0x10, 0, 0, 0, 0, 0, 0, 1, 0, 0, 0].getD i 0

/-- A reservation of everything from 3 MiB, which ends within the address space. -/
theorem allocator_sound_bounded :
    ∃ s, init onePageMap 20 20 0x100000 (fun _ => Image.zero) = some s ∧
      AllocatorSound (Reserved (entries onePageMap 20 20) 0x100000
        [.reserve 0x300000 0xFFFFFFFFFFCFFFFF])
        (boot s [.reserve 0x300000 0xFFFFFFFFFFCFFFFF]) := by
  obtain ⟨s, hs, -⟩ := init_spec onePageMap 20 20 0x100000 (fun _ => Image.zero) (by decide)
  refine ⟨s, hs, (allocator_sound_iff hs _).mpr (fun addr len hc hw => ?_)⟩
  obtain ⟨rfl, rfl⟩ := BootCall.reserve.inj (mem_singleton.mp hc)
  exact absurd hw (by decide)

/-- A reservation of everything from 2 MiB wraps to zero and sets no bit, so the page at 2 MiB
can still be allocated. -/
theorem wrapped_reservation_ignored :
    ∃ s, init onePageMap 20 20 0x100000 (fun _ => Image.zero) = some s ∧
      ¬ AllocatorSound (Reserved (entries onePageMap 20 20) 0x100000
        [.reserve 0x200000 0xFFFFFFFFFFE00000])
        (boot s [.reserve 0x200000 0xFFFFFFFFFFE00000]) := by
  obtain ⟨s, hs, -⟩ := init_spec onePageMap 20 20 0x100000 (fun _ => Image.zero) (by decide)
  refine ⟨s, hs, fun hso => ?_⟩
  obtain ⟨hb, hn⟩ := boot_sound hs [.reserve 0x200000 0xFFFFFFFFFFE00000]
  have hlt : 512 < bitmapBits := by decide
  have hr : Reserved (entries onePageMap 20 20) 0x100000
      [.reserve 0x200000 0xFFFFFFFFFFE00000] 512 :=
    Or.inr ⟨_, mem_singleton_self _, by decide⟩
  have hset := ((hso.agree [] _ _ rfl).1 512 hlt).mpr (Or.inl hr)
  have hcl := (hb.testBit hlt).mpr ⟨?_, hn 512⟩
  · rw [hset] at hcl
    exact Bool.noConfusion hcl
  · rintro (hu | ⟨c, hc, hsets⟩)
    · exact hu (by decide)
    · rw [mem_singleton.mp hc] at hsets
      exact absurd hsets.2.2 (by decide)

end MichCore.Pmm
