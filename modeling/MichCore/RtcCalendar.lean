import Mathlib.Tactic

/-!
# The calendar of the real-time clock

`days_from_civil` and `rtc64_unix_seconds` of `arch/x86_64/platform/rtc64.c`, against a calendar
that is stepped day by day.
-/
namespace MichCore.Rtc

def daysFromCivil (year month day : UInt32) : UInt64 :=
  let shifted := year - if month ≤ 2 then 1 else 0
  let era := shifted / 400
  let yearOfEra := shifted - era * 400
  let dayOfYear := (153 * (month + if month > 2 then -3 else 9) + 2) / 5 + day - 1
  let dayOfEra := yearOfEra * 365 + yearOfEra / 4 - yearOfEra / 100 + dayOfYear
  era.toUInt64 * 146097 + dayOfEra.toUInt64 - 719468

/-- `rtc64_unix_seconds` -/
def unixSeconds (year month day hour minute second : UInt32) : UInt64 :=
  if year < 1970 ∨ month < 1 ∨ month > 12 ∨ day < 1 ∨ day > 31 ∨
      hour > 23 ∨ minute > 59 ∨ second > 60 then 0
  else
    daysFromCivil year month day * 86400 + hour.toUInt64 * 3600 + minute.toUInt64 * 60 +
      second.toUInt64

/-- A date of the proleptic Gregorian calendar. -/
@[ext]
structure Date where
  year : ℕ
  month : ℕ
  day : ℕ

def monthLength (year month : ℕ) : ℕ :=
  if month = 2 then if year % 4 = 0 ∧ (year % 100 ≠ 0 ∨ year % 400 = 0) then 29 else 28
  else if month = 4 ∨ month = 6 ∨ month = 9 ∨ month = 11 then 30 else 31

theorem monthLength_bounds (year month : ℕ) :
    1 ≤ monthLength year month ∧ monthLength year month ≤ 31 := by
  unfold monthLength
  split_ifs <;> omega

/-- The days before March of a year, counted from the year 0. -/
def yearDays (year : ℕ) : ℕ := 365 * year + year / 4 - year / 100 + year / 400

/-- The days before a month, where the months are counted from March of the year 0. -/
def daysBefore (index : ℕ) : ℕ := yearDays (index / 12) + (153 * (index % 12) + 2) / 5

theorem yearDays_succ (year : ℕ) :
    yearDays (year + 1) = yearDays year + 337 + monthLength (year + 1) 2 := by
  have h₁ : (year + 1) % 400 = 0 → (year + 1) % 100 = 0 := by omega
  have h₂ : (year + 1) % 100 = 0 → (year + 1) % 4 = 0 := by omega
  have hl : year / 100 ≤ year / 4 := by omega
  unfold yearDays monthLength
  simp only [Nat.succ_div, Nat.dvd_iff_mod_eq_zero]
  generalize (year + 1) % 4 = a, (year + 1) % 100 = b, (year + 1) % 400 = c,
    year / 4 = p, year / 100 = q, year / 400 = r at *
  split_ifs <;> omega

theorem yearDays_eq (year : ℕ) {r : ℕ} (hr : r = year - year / 400 * 400) :
    year / 400 * 146097 + (r * 365 + r / 4 - r / 100) = yearDays year := by
  have h₁ : year / 4 = 100 * (year / 400) + r / 4 := by omega
  have h₂ : year / 100 = 4 * (year / 400) + r / 100 := by omega
  unfold yearDays
  omega

theorem daysBefore_mono : Monotone daysBefore := by
  refine monotone_nat_of_le_succ fun index => ?_
  have := yearDays_succ (index / 12)
  have := monthLength_bounds (index / 12 + 1) 2
  unfold daysBefore
  by_cases h : index % 12 = 11
  · rw [show (index + 1) / 12 = index / 12 + 1 by omega]
    omega
  · rw [show (index + 1) / 12 = index / 12 by omega]
    omega

namespace Date

structure Valid (d : Date) : Prop where
  year : 1970 ≤ d.year
  month : 1 ≤ d.month ∧ d.month ≤ 12
  day : 1 ≤ d.day ∧ d.day ≤ monthLength d.year d.month

def next (d : Date) : Date :=
  if d.day < monthLength d.year d.month then ⟨d.year, d.month, d.day + 1⟩
  else if d.month < 12 then ⟨d.year, d.month + 1, 1⟩
  else ⟨d.year + 1, 1, 1⟩

def epoch : Date := ⟨1970, 1, 1⟩

def index (d : Date) : ℕ := 12 * d.year + d.month - 3

def number (d : Date) : ℕ := daysBefore d.index + d.day - 1

variable {d e : Date}

theorem Valid.daysBefore_succ (h : d.Valid) :
    daysBefore (d.index + 1) = daysBefore d.index + monthLength d.year d.month := by
  obtain ⟨hy, ⟨h₁, h₁₂⟩, -⟩ := h
  have hi : d.index = 12 * d.year + d.month - 3 := rfl
  unfold daysBefore
  by_cases hfeb : d.month = 2
  · rw [hfeb, show (d.index + 1) / 12 = d.index / 12 + 1 by omega, yearDays_succ,
      show d.index / 12 + 1 = d.year by omega]
    omega
  · have hs : (153 * ((d.month + 9) % 12 + 1) + 2) / 5 =
        (153 * ((d.month + 9) % 12) + 2) / 5 + monthLength d.year d.month := by
      generalize d.month = m at *
      interval_cases m <;> first | rfl | contradiction
    rw [show (d.index + 1) / 12 = d.index / 12 by omega,
      show (d.index + 1) % 12 = (d.month + 9) % 12 + 1 by omega, hs,
      show d.index % 12 = (d.month + 9) % 12 by omega, add_assoc]

theorem Valid.next (h : d.Valid) : d.next.Valid ∧ d.next.number = d.number + 1 := by
  have hs := h.daysBefore_succ
  obtain ⟨hy, hm, hday⟩ := h
  -- the first day of the following month
  have hf : ∀ e : Date, e.index = d.index + 1 → e.day = 1 →
      ¬ d.day < monthLength d.year d.month → e.number = d.number + 1 := by
    intro e hi hone hla
    rw [number, number, hi, hone]
    omega
  unfold Date.next
  split
  · next hlt =>
    refine ⟨⟨hy, hm, Nat.le_add_left _ _, hlt⟩, ?_⟩
    simp only [number, index]
    omega
  next hla =>
  split
  · next hlt =>
    refine ⟨⟨hy, ⟨Nat.le_add_left _ _, hlt⟩, le_rfl, (monthLength_bounds _ _).1⟩,
      hf _ ?_ rfl hla⟩
    simp only [index]
    omega
  · refine ⟨⟨Nat.le_succ_of_le hy, ⟨le_rfl, Nat.le_add_left 1 11⟩, le_rfl,
      (monthLength_bounds _ _).1⟩, hf _ ?_ rfl hla⟩
    simp only [index]
    omega

theorem Valid.number_lt (h : d.Valid) (he : e.Valid)
    (hlt : [d.year, d.month, d.day] < [e.year, e.month, e.day]) : d.number < e.number := by
  have hs := h.daysBefore_succ
  obtain ⟨hy, hm, hday⟩ := h
  obtain ⟨hy', hm', hday'⟩ := he
  simp only [List.cons_lt_cons_iff, List.not_lt_nil, and_false, or_false] at hlt
  unfold number
  by_cases hi : d.index = e.index
  · rw [hi]
    unfold index at hi
    omega
  · have hle : d.index + 1 ≤ e.index := by
      unfold index at *
      omega
    have := daysBefore_mono hle
    omega

theorem iterate_next (k : ℕ) :
    (Date.next^[k] epoch).Valid ∧ (Date.next^[k] epoch).number = epoch.number + k := by
  induction k with
  | zero => exact ⟨⟨le_rfl, by decide, by decide⟩, rfl⟩
  | succ k ih =>
    rw [Function.iterate_succ_apply', ih.1.next.2, ih.2]
    exact ⟨ih.1.next.1, add_assoc ..⟩

/-- The date that is reached after `k` days is the one with the number `k`. -/
theorem Valid.iterate_next_iff (h : d.Valid) (k : ℕ) :
    Date.next^[k] epoch = d ↔ epoch.number + k = d.number := by
  obtain ⟨hv, hn⟩ := iterate_next k
  rw [← hn]
  generalize Date.next^[k] epoch = e at *
  refine ⟨fun heq => heq ▸ rfl, fun heq => ?_⟩
  rcases lt_trichotomy [e.year, e.month, e.day] [d.year, d.month, d.day] with hlt | hs | hlt
  · exact absurd heq (hv.number_lt h hlt).ne
  · simp only [List.cons.injEq, and_true] at hs
    exact Date.ext hs.1 hs.2.1 hs.2.2
  · exact absurd heq (h.number_lt hv hlt).ne'

end Date

/-- The six registers of the clock. -/
structure Reading where
  year : UInt32
  month : UInt32
  day : UInt32
  hour : UInt32
  minute : UInt32
  second : UInt32

namespace Reading

def date (r : Reading) : Date := ⟨r.year.toNat, r.month.toNat, r.day.toNat⟩

def secondOfDay (r : Reading) : ℕ := 3600 * r.hour.toNat + 60 * r.minute.toNat + r.second.toNat

def fields (r : Reading) : List ℕ := [r.year.toNat, r.month.toNat, r.day.toNat,
  r.hour.toNat, r.minute.toNat, r.second.toNat]

def unix (r : Reading) : UInt64 := unixSeconds r.year r.month r.day r.hour r.minute r.second

structure Valid (r : Reading) : Prop where
  date : r.date.Valid
  hour : r.hour.toNat < 24
  minute : r.minute.toNat < 60
  second : r.second.toNat < 60

variable {r : Reading}

/-- No operation on 32 bits wraps but the shift of the month, and that one is undone. -/
theorem Valid.daysFromCivil_toNat (h : r.Valid) :
    (daysFromCivil r.year r.month r.day).toNat + Date.epoch.number = r.date.number := by
  obtain ⟨hy, hm, hday⟩ := h.date
  have hlen := monthLength_bounds r.date.year r.date.month
  have hw := r.year.toNat_lt
  have hi : r.date.index = 12 * r.year.toNat + r.month.toNat - 3 := rfl
  have he : Date.epoch.number = 719468 := rfl
  change 1970 ≤ r.year.toNat at hy
  change 1 ≤ r.month.toNat ∧ r.month.toNat ≤ 12 at hm
  change 1 ≤ r.day.toNat ∧ r.day.toNat ≤ _ at hday
  have hf : 719468 ≤ daysBefore r.date.index :=
    daysBefore_mono (show 23638 ≤ r.date.index by omega)
  have hdays := yearDays_eq (r.date.index / 12) rfl
  have hsh : (r.year - if r.month ≤ 2 then 1 else 0).toNat = r.date.index / 12 ∧
      (r.month + if r.month > 2 then -3 else 9).toNat = r.date.index % 12 := by
    have hneg : (-3 : UInt32).toNat = 2 ^ 32 - 3 := by decide
    simp only [gt_iff_lt, ← UInt32.not_le, UInt32.le_iff_toNat_le, UInt32.reduceToNat]
    split
    · simp only [UInt32.toNat_sub, UInt32.toNat_add, UInt32.reduceToNat]
      omega
    · simp only [UInt32.toNat_add, UInt32.sub_zero, hneg]
      omega
  have hsub : ∀ {a b : ℕ}, b ≤ a → a < 2 ^ 32 → (2 ^ 32 - b + a) % 2 ^ 32 = a - b := by omega
  rw [he, Date.number]
  unfold daysBefore at *
  have hles : r.date.index / 12 < 2 ^ 32 := by omega
  have hp : r.date.index % 12 < 12 := by omega
  have ht : r.date.day = r.day.toNat := rfl
  rw [ht]
  generalize r.date.index / 12 = s, r.date.index % 12 = i at *
  simp (disch := omega) only [daysFromCivil, UInt64.toNat_sub, UInt64.toNat_add, UInt64.toNat_mul,
    UInt32.toNat_toUInt64, UInt32.toNat_add, UInt32.toNat_sub, UInt32.toNat_mul, UInt32.toNat_div,
    UInt32.reduceToNat, UInt64.reduceToNat, hsh, hsub, Nat.mod_eq_of_lt]
  omega

theorem Valid.unix_toNat (h : r.Valid) : Date.epoch.number ≤ r.date.number ∧
    r.unix.toNat = 86400 * (r.date.number - Date.epoch.number) + r.secondOfDay := by
  have hdays := h.daysFromCivil_toNat
  obtain ⟨⟨hyear, hmo, hday⟩, hh, hmi, hse⟩ := h
  have hl := monthLength_bounds r.date.year r.date.month
  change 1970 ≤ r.year.toNat at hyear
  change 1 ≤ r.month.toNat ∧ r.month.toNat ≤ 12 at hmo
  have hsm : r.date.number < 2 ^ 42 := by
    have hyears : yearDays (r.date.index / 12) ≤ 366 * (r.date.index / 12) := by
      unfold yearDays
      omega
    have hi : r.date.index = 12 * r.year.toNat + r.month.toNat - 3 := rfl
    have := r.year.toNat_lt
    unfold Date.number daysBefore
    omega
  change 1 ≤ r.day.toNat ∧ r.day.toNat ≤ _ at hday
  have hac : ¬ (r.year < 1970 ∨ r.month < 1 ∨ r.month > 12 ∨ r.day < 1 ∨ r.day > 31 ∨
      r.hour > 23 ∨ r.minute > 59 ∨ r.second > 60) := by
    simp only [UInt32.lt_iff_toNat_lt, gt_iff_lt, UInt32.reduceToNat]
    omega
  rw [unix, unixSeconds, if_neg hac, secondOfDay]
  simp (disch := omega) only [UInt64.toNat_add, UInt64.toNat_mul, UInt32.toNat_toUInt64,
    UInt64.reduceToNat, Nat.mod_eq_of_lt]
  omega

/-- The count of days is that of the calendar, and later readings give later seconds. -/
theorem unix_calendar (h : r.Valid) :
    (∃ k, (∀ j, Date.next^[j] Date.epoch = r.date ↔ j = k) ∧
      r.unix.toNat = 86400 * k + r.secondOfDay) ∧
    ∀ later : Reading, later.Valid → r.fields < later.fields → r.unix < later.unix := by
  obtain ⟨hle, hu⟩ := h.unix_toNat
  refine ⟨⟨r.date.number - Date.epoch.number, fun j => ?_, hu⟩, fun later hla hlt => ?_⟩
  · rw [h.date.iterate_next_iff]
    omega
  obtain ⟨hle', hu'⟩ := hla.unix_toNat
  obtain ⟨hd, hh, hm, hse⟩ := h
  rw [UInt64.lt_iff_toNat_lt, hu, hu']
  unfold secondOfDay
  simp only [fields, List.cons_lt_cons_iff, List.not_lt_nil, and_false, or_false] at hlt
  by_cases hsa : r.date = later.date
  · rw [hsa]
    simp only [date, Date.mk.injEq] at hsa
    omega
  · have hb : r.date.number < later.date.number := by
      refine hd.number_lt hla.date ?_
      simp only [date, Date.mk.injEq] at hsa
      simp only [date, List.cons_lt_cons_iff, List.not_lt_nil, and_false, or_false]
      omega
    omega

/-- The last second of the leap day of 2000, 11016 days after the epoch. -/
theorem unix_calendar_leapDay :
    let r : Reading := ⟨2000, 2, 29, 23, 59, 59⟩
    r.Valid ∧ r.unix = 951868799 ∧ (∀ j, Date.next^[j] Date.epoch = r.date ↔ j = 11016) ∧
      r.unix < unix ⟨2000, 3, 1, 0, 0, 0⟩ := by
  have hv : Valid ⟨2000, 2, 29, 23, 59, 59⟩ :=
    ⟨⟨by decide, by decide, by decide⟩, by decide, by decide, by decide⟩
  have hm : Valid ⟨2000, 3, 1, 0, 0, 0⟩ :=
    ⟨⟨by decide, by decide, by decide⟩, by decide, by decide, by decide⟩
  obtain ⟨⟨k, hd, hu⟩, hl⟩ := unix_calendar hv
  have hk : k = 11016 := by
    rw [show unix ⟨2000, 2, 29, 23, 59, 59⟩ = 951868799 by decide, secondOfDay] at hu
    simp only [UInt64.reduceToNat, UInt32.reduceToNat] at hu
    omega
  exact ⟨hv, by decide, hk ▸ hd, hl _ hm (by decide)⟩

end Reading
end MichCore.Rtc
