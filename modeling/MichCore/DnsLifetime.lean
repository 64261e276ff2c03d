import MichCore.DnsMessage

/-!
# How long a reply may be kept

The loop over the answers keeps the shortest time of the records it used, with 0 for no record
so far. A record of time 0 is therefore forgotten by the next one.
-/
namespace MichCore.Dns

open BoundedBytes BoundedBytes.Buffer List

/-- The record is an alias, or an address of the type that was asked for. -/
def Record.Counts (r : Record) (type : ℕ) : Prop :=
  r.type = 5 ∨ r.type = 1 ∧ type = 1 ∨ r.type = 28 ∧ type = 28
  deriving Decidable

/-- The time of the record of one turn, if the record has the wanted name and counts. -/
def turnTtl (m : Buffer) (type : ℕ) (scratch : Memory) (s : Scan) : List ℕ :=
  match skipName m s.cursor (some scratch) 256 with
  | .ok (some (next, owner)) =>
    match readRecord m next with
    | .ok (some r) =>
      if r.klass = 1 ∧ namesEqual (owner.getD scratch) s.wanted ∧ r.Counts type then [r.ttl] else []
    | _ => []
  | _ => []

/-- The times of the records used, in the order of the message. -/
def scanTtls (m : Buffer) (type : ℕ) (scratch : Memory) : ℕ → Scan → List ℕ
  | 0, _ => []
  | answers + 1, s => turnTtl m type scratch s ++
    match scanAnswer m type scratch s with
    | .ok (some s') => scanTtls m type scratch answers s'
    | _ => []

def replyTtls (m : Buffer) (name : List UInt8) (type : ℕ) (scratch : Memory) : List ℕ :=
  match questionMatches m (cString name) type scratch with
  | .ok (some cursor) =>
    scanTtls m type scratch (m.word16 6) ⟨cursor, copyName name, 0, ⟨[], [], 0⟩⟩
  | _ => []

def shorter (ttl next : ℕ) : ℕ := if ttl = 0 ∨ next < ttl then next else ttl

theorem shorter_eq_zero {ttl next : ℕ} : shorter ttl next = 0 ↔ next = 0 := by
  unfold shorter
  split <;> omega

theorem foldl_shorter_eq_zero (ttls : List ℕ) (last : ℕ) :
    (ttls ++ [last]).foldl shorter 0 = 0 ↔ last = 0 := by
  rw [foldl_append]
  exact shorter_eq_zero

theorem foldl_shorter {ttls : List ℕ} (hpos : 0 ∉ ttls) {first : ℕ} (hf : first ≠ 0) :
    ttls.foldl shorter first = ttls.foldl min first := by
  induction ttls generalizing first with
  | nil => rfl
  | cons ttl rest ih =>
    rw [mem_cons, not_or] at hpos
    have hs : shorter first ttl = min first ttl := by
      unfold shorter
      split <;> omega
    rw [foldl_cons, foldl_cons, hs]
    exact ih hpos.2 (by omega)

theorem foldl_shorter_min_iff {ttls : List ℕ} (hne : ttls ≠ []) :
    ttls.min? = some (ttls.foldl shorter 0) ↔ (0 ∈ ttls → ttls.getLast? = some 0) := by
  by_cases hz : 0 ∈ ttls
  · have hmin : ttls.min? = some 0 := List.min?_eq_some_iff.mpr ⟨hz, fun _ _ => Nat.zero_le _⟩
    obtain ⟨front, last, rfl⟩ := (eq_nil_or_concat ttls).resolve_left hne
    rw [concat_eq_append] at *
    rw [hmin, Option.some_inj, eq_comm, foldl_shorter_eq_zero, getLast?_concat, Option.some_inj]
    exact ⟨fun h _ => h, fun h => h hz⟩
  · refine iff_of_true ?_ fun h => absurd h hz
    cases ttls with
    | nil => exact absurd rfl hne
    | cons first rest =>
      rw [mem_cons, not_or] at hz
      rw [min?_cons', foldl_cons, ← foldl_shorter hz.2 (Ne.symm hz.1)]
      rfl

variable {m : Buffer} {type : ℕ} {scratch : Memory} {s s' : Scan}

theorem ok_of_bind {α β : Type} {x : Except Fault α} {f : α → Except Fault β} {b : β}
    (h : x >>= f = .ok b) : ∃ a, x = .ok a ∧ f a = .ok b := by
  cases x with
  | error fault => cases h
  | ok a => exact ⟨a, rfl, h⟩

theorem useRecord_ttl {r : Record} (h : useRecord m type s r = .ok (some s')) :
    (r.Counts type → s'.result.ttl = shorter s.result.ttl r.ttl) ∧ (¬ r.Counts type → s' = s) := by
  unfold useRecord at h
  split at h
  · next hal =>
    refine ⟨fun _ => ?_, fun hnot => absurd (.inl hal) hnot⟩
    split at h
    · cases h
    obtain ⟨_ | found, -, h⟩ := ok_of_bind h
    · cases h
    cases h
    rfl
  split at h
  · next had =>
    refine ⟨fun _ => ?_, fun hnot => absurd (.inr (.inl had)) hnot⟩
    split at h
    · cases h
    split at h
    · obtain ⟨address, -, h⟩ := ok_of_bind h
      cases h
      rfl
    · cases h
      rfl
  split at h
  · next had =>
    refine ⟨fun _ => ?_, fun hnot => absurd (.inr (.inr had)) hnot⟩
    split at h
    · cases h
    split at h
    · obtain ⟨address, -, h⟩ := ok_of_bind h
      cases h
      rfl
    · cases h
      rfl
  · next hal hv4 hv6 =>
    cases h
    exact ⟨fun hc => absurd hc (not_or.mpr ⟨hal, not_or.mpr ⟨hv4, hv6⟩⟩), fun _ => rfl⟩

theorem scanAnswer_ttl (h : scanAnswer m type scratch s = .ok (some s')) :
    s'.result.ttl = (turnTtl m type scratch s).foldl shorter s.result.ttl ∧
      (turnTtl m type scratch s = [] → s'.result = s.result) := by
  obtain ⟨_ | found, hn, h⟩ := ok_of_bind h
  · cases h
  obtain ⟨_ | r, hre, h⟩ := ok_of_bind h
  · cases h
  simp only [turnTtl, hn, hre]
  simp only at h
  split at h
  · next hp =>
    cases h
    rw [if_neg fun hu => hp.elim (fun hkl => hkl hu.1) fun ho => by simp [hu.2.1] at ho]
    exact ⟨rfl, fun _ => rfl⟩
  · next hw =>
    rw [not_or, not_ne_iff, Bool.not_eq_false] at hw
    obtain ⟨hc, hke⟩ := useRecord_ttl h
    by_cases hr : r.Counts type
    · rw [if_pos ⟨hw.1, hw.2, hr⟩]
      exact ⟨hc hr, nofun⟩
    · rw [if_neg fun hu => hr hu.2.2, hke hr]
      exact ⟨rfl, fun _ => rfl⟩

theorem scanAnswers_ttl {answers : ℕ} (h : scanAnswers m type scratch answers s = .ok (some s')) :
    s'.result.ttl = (scanTtls m type scratch answers s).foldl shorter s.result.ttl ∧
      (scanTtls m type scratch answers s = [] → s'.result = s.result) := by
  induction answers generalizing s with
  | zero =>
    cases h
    exact ⟨rfl, fun _ => rfl⟩
  | succ answers ih =>
    obtain ⟨_ | next, ht, h⟩ := ok_of_bind h
    · cases h
    obtain ⟨hfirst, hfirstK⟩ := scanAnswer_ttl ht
    obtain ⟨hrest, hrestK⟩ := ih h
    simp only [scanTtls, ht, foldl_append, append_eq_nil_iff]
    exact ⟨hfirst ▸ hrest, fun hnil => (hrestK hnil.2).trans (hfirstK hnil.1)⟩

theorem accepted_scan {name : List UInt8} {transaction : ℕ} {result : Result}
    (h : parseReply m name type transaction scratch = .ok (.accepted result)) :
    result.ttl = (replyTtls m name type scratch).foldl shorter 0 ∧
      replyTtls m name type scratch ≠ [] := by
  unfold parseReply at h
  split at h
  · cases h
  rw [be16_of_lt (by omega), be16_of_lt (by omega), be16_of_lt (by omega),
    be16_of_lt (by omega)] at h
  -- the five checks of the header
  obtain ⟨id, -, h⟩ := ok_of_bind h
  split at h
  · cases h
  obtain ⟨flags, -, h⟩ := ok_of_bind h
  split at h
  · cases h
  split at h
  · cases h
  split at h
  · cases h
  obtain ⟨questions, -, h⟩ := ok_of_bind h
  split at h
  · cases h
  change questionMatches m (cString name) type scratch >>= _ = _ at h
  obtain ⟨_ | cursor, hq, h⟩ := ok_of_bind h
  · cases h
  obtain ⟨_ | s, hs, h⟩ := ok_of_bind h
  · cases h
  simp only at h
  split at h
  · cases h
  · next hf =>
    cases h
    obtain ⟨httl, hk⟩ := scanAnswers_ttl hs
    simp only [replyTtls, hq]
    refine ⟨httl, fun hnil => hf ?_⟩
    rw [hk hnil]
    exact ⟨rfl, rfl⟩

/-- The time of an accepted reply is the shortest of the times it depends on, exactly if a
time of 0 among them comes last. -/
theorem ttl_minimum_iff {name : List UInt8} {transaction : ℕ} {result : Result}
    (h : parseReply m name type transaction scratch = .ok (.accepted result)) :
    (replyTtls m name type scratch).min? = some result.ttl ↔
      (0 ∈ replyTtls m name type scratch → (replyTtls m name type scratch).getLast? = some 0) := by
  obtain ⟨httl, hne⟩ := accepted_scan h
  rw [httl]
  exact foldl_shorter_min_iff hne

/-- A reply to the query for `a.b`, with two addresses and their times. -/
def twoAddresses (first second : UInt8) : List UInt8 :=
  [0, 7, 0x80, 0, 0, 1, 0, 2, 0, 0, 0, 0, 1, 0x61, 1, 0x62, 0, 0, 1, 0, 1,
    0xC0, 12, 0, 1, 0, 1, 0, 0, 0, first, 0, 4, 10, 0, 0, 1,
    0xC0, 12, 0, 1, 0, 1, 0, 0, 0, second, 0, 4, 10, 0, 0, 2]

theorem ttl_minimum_sixty :
    (replyTtls (ofList (twoAddresses 60 30)) [0x61, 0x2E, 0x62] 1 (fun _ => 0)).min? = some 30 :=
  have h : parseReply (ofList (twoAddresses 60 30)) [0x61, 0x2E, 0x62] 1 7 (fun _ => 0) =
      .ok (.accepted ⟨[0x0A000001, 0x0A000002], [], 30⟩) := by decide +kernel
  (ttl_minimum_iff h).mpr (by decide +kernel)

theorem ttl_zero_lost :
    parseReply (ofList (twoAddresses 0 30)) [0x61, 0x2E, 0x62] 1 7 (fun _ => 0) =
        .ok (.accepted ⟨[0x0A000001, 0x0A000002], [], 30⟩) ∧
      (replyTtls (ofList (twoAddresses 0 30)) [0x61, 0x2E, 0x62] 1 (fun _ => 0)).min? = some 0 := by
  decide +kernel

end MichCore.Dns
