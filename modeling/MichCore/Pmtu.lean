import MichCore.SlotTable

/-!
# The path MTU cache

`net/pmtu.c`: sixteen entries, each with the smallest MTU that was reported for its destination.
A destination without an entry gets one that is free, or the one that expires first.
-/
namespace MichCore.Pmtu

abbrev Address6 := Vector UInt8 16

def Address6.zero : Address6 := Vector.replicate 16 0

open Function List

inductive Destination where
  | ipv4 (address : UInt32)
  | ipv6 (address : Address6)
deriving DecidableEq

/-- The family and the two addresses of the source are one field, `none` for family 0. -/
structure Entry where
  destination : Option Destination
  mtu : UInt32
  expires : UInt32
  active : Bool

structure Cache where
  entries : Fin 16 → Entry
  now : UInt32
  ttl : UInt32

/-- `pmtu_init`, which refuses a `ttl` of 0 -/
def init (ttl : UInt32) : Cache := ⟨fun _ => ⟨none, 0, 0, false⟩, 0, ttl⟩

def clampMtu (mtu ceiling minimum : UInt32) : UInt32 :=
  let mtu := if mtu = 0 then minimum else mtu
  let mtu := if ceiling < mtu then ceiling else mtu
  let mtu := if mtu < minimum then minimum else mtu
  if ceiling < mtu then ceiling else mtu

namespace Cache

def setEntry (c : Cache) (i : Fin 16) (e : Entry) : Cache :=
  { c with entries := update c.entries i e }

/-- The signed difference `now - expires` is not negative. -/
def tick (c : Cache) (now : UInt32) : Cache :=
  { c with
    now := now
    entries := fun i =>
      if now - (c.entries i).expires < 0x80000000 then { c.entries i with active := false }
      else c.entries i }

/-- `find4` and `find6` -/
def find (c : Cache) (d : Destination) : Option (Fin 16) :=
  (finRange 16).find? fun i => (c.entries i).active && (c.entries i).destination = some d

/-- The first entry that is not active, else the one that expires first. -/
def allocateEntry (c : Cache) : Fin 16 :=
  match (finRange 16).find? fun i => !(c.entries i).active with
  | some i => i
  | none => (finRange 16).foldl (fun oldest i =>
      if 0x80000000 ≤ (c.entries i).expires - (c.entries oldest).expires then i else oldest) 0

def store (c : Cache) (i : Fin 16) (mtu : UInt32) : Cache × ℤ :=
  let e := { c.entries i with expires := c.now + c.ttl }
  if e.active ∧ e.mtu ≤ mtu then (c.setEntry i e, 1)
  else (c.setEntry i { e with mtu := mtu, active := true }, 0)

/-- What the two updates share once the arguments are checked. -/
def update (c : Cache) (d : Destination) (mtu : UInt32) : Cache × ℤ :=
  match c.find d with
  | some i => c.store i mtu
  | none =>
    let i := c.allocateEntry
    (c.setEntry i { c.entries i with destination := some d }).store i mtu

def lookup (c : Cache) (d : Destination) (ceiling : UInt32) : Cache × UInt32 :=
  match c.find d with
  | none => (c, ceiling)
  | some i =>
    let e := c.entries i
    if c.now - e.expires < 0x80000000 then (c.setEntry i { e with active := false }, ceiling)
    else (c, if e.mtu < ceiling then e.mtu else ceiling)

end Cache

/-- The calls of the module. -/
inductive Call where
  | tick (now : UInt32)
  | update4 (destination mtu ceiling : UInt32)
  | update6 (destination : Address6) (mtu ceiling : UInt32)
  | lookup4 (destination ceiling : UInt32)
  | lookup6 (destination : Address6) (ceiling : UInt32)

/-- What an update that is not refused reports; `PMTU_IPV4_MIN` is 576, `PMTU_IPV6_MIN` 1280. -/
def Call.report : Call → Option (Destination × UInt32)
  | .update4 destination mtu ceiling =>
    if destination = 0 ∨ ceiling = 0 then none
    else some (.ipv4 destination, clampMtu mtu ceiling 576)
  | .update6 destination mtu ceiling =>
    if destination = .zero ∨ destination[0] = 0xFF ∨ ceiling = 0 then none
    else some (.ipv6 destination, clampMtu mtu ceiling 1280)
  | _ => none

namespace Cache

/-- `pmtu_update4` and `pmtu_update6` -/
def performUpdate (c : Cache) (call : Call) : Cache × ℤ :=
  match call.report with
  | none => (c, -1)
  | some (d, mtu) => c.update d mtu

def lookup4 (c : Cache) (destination ceiling : UInt32) : Cache × UInt32 :=
  if destination = 0 ∨ ceiling = 0 then (c, ceiling) else c.lookup (.ipv4 destination) ceiling

def lookup6 (c : Cache) (destination : Address6) (ceiling : UInt32) : Cache × UInt32 :=
  if destination = .zero ∨ ceiling = 0 then (c, ceiling) else c.lookup (.ipv6 destination) ceiling

def perform (c : Cache) : Call → Cache
  | .tick now => c.tick now
  | .lookup4 destination ceiling => (c.lookup4 destination ceiling).1
  | .lookup6 destination ceiling => (c.lookup6 destination ceiling).1
  | call => (c.performUpdate call).1

end Cache

/-- The MTUs reported for each destination since its entry was created. -/
abbrev Log := Destination → List UInt32

def Log.note (log : Log) (c : Cache) (call : Call) : Log :=
  match call.report with
  | none => log
  | some (d, mtu) => update log d (if c.find d = none then [mtu] else mtu :: log d)

def run : Cache × Log → List Call → Cache × Log
  | s, [] => s
  | (c, log), call :: rest => run (c.perform call, log.note c call) rest

/-- The answer is the ceiling, or the smaller of it and the smallest report. -/
def Log.Explains (log : Log) (d : Destination) (ceiling answer : UInt32) : Prop :=
  answer = ceiling ∨
    ∃ m ∈ log d, (∀ x ∈ log d, m ≤ x) ∧ answer = if m < ceiling then m else ceiling

instance (log : Log) (d : Destination) (ceiling answer : UInt32) :
    Decidable (log.Explains d ceiling answer) :=
  have (m : UInt32) : Decidable (∀ x ∈ log d, m ≤ x) := List.decidableBAll _ _
  inferInstanceAs (Decidable (_ ∨ _))

/-- An update finds the destination's entry, or a free one, or one with a larger MTU. -/
def Cache.clean (c : Cache) (call : Call) : Bool :=
  match call.report with
  | none => true
  | some (d, mtu) => (c.find d).isSome || !(c.entries c.allocateEntry).active ||
      mtu < (c.entries c.allocateEntry).mtu

def Cache.cleanRun : Cache → List Call → Bool
  | _, [] => true
  | c, call :: rest => c.clean call && (c.perform call).cleanRun rest

/-- No two entries in use have one destination, and each holds the smallest of its reports. -/
structure Isolated (c : Cache) (log : Log) : Prop where
  unique : ∀ i j d, (c.entries i).active → (c.entries j).active →
    (c.entries i).destination = some d → (c.entries j).destination = some d → i = j
  least : ∀ i d, (c.entries i).active → (c.entries i).destination = some d →
    (c.entries i).mtu ∈ log d ∧ ∀ x ∈ log d, (c.entries i).mtu ≤ x

namespace Isolated

variable {c c' : Cache} {log : Log} {d : Destination} {mtu : UInt32}

theorem of_kept (h : Isolated c log) (hk : ∀ i, (c'.entries i).active →
    (c.entries i).active ∧ (c'.entries i).destination = (c.entries i).destination ∧
      (c'.entries i).mtu = (c.entries i).mtu) : Isolated c' log where
  unique i j d hi hj hdi hdj := by
    obtain ⟨hi', hdi', -⟩ := hk i hi
    obtain ⟨hj', hdj', -⟩ := hk j hj
    exact h.unique i j d hi' hj' (hdi' ▸ hdi) (hdj' ▸ hdj)
  least i d hi hd := by
    obtain ⟨hi', hd', hmtu⟩ := hk i hi
    rw [hmtu]
    exact h.least i d hi' (hd' ▸ hd)

variable {i : Fin 16}

theorem find_some (h : c.find d = some i) :
    (c.entries i).active ∧ (c.entries i).destination = some d := by
  simpa [Cache.find] using List.find?_some h

theorem find_none (h : c.find d = none) (i : Fin 16) (hi : (c.entries i).active) :
    (c.entries i).destination ≠ some d := by
  have hnot := find?_eq_none.mp h i (mem_finRange i)
  simpa [hi] using hnot

section

variable (h : Isolated c log)
include h

theorem tick (now : UInt32) : Isolated (c.tick now) log := by
  refine h.of_kept fun i hi => ?_
  simp only [Cache.tick] at hi ⊢
  split at hi
  · cases hi
  · next hlive => simp only [if_neg hlive, hi, and_self]

theorem lookup (d : Destination) (ceiling : UInt32) : Isolated (c.lookup d ceiling).1 log := by
  unfold Cache.lookup
  split
  · exact h
  · simp only
    split
    · refine h.of_kept fun j hj => ?_
      simp only [Cache.setEntry, update_apply] at hj ⊢
      grind
    · exact h

theorem of_written {e : Entry} (hd : e.destination = some d)
    (hot : ∀ j ≠ i, (c.entries j).active → (c.entries j).destination ≠ some d)
    {reports : List UInt32} (hl : e.mtu ∈ reports ∧ ∀ x ∈ reports, e.mtu ≤ x) :
    Isolated (c.setEntry i e) (update log d reports) where
  unique j k d' hj hk hdj hdk := by
    have hold := h.unique j k d'
    simp only [Cache.setEntry, update_apply] at hj hk hdj hdk
    grind
  least j d' hj hdj := by
    have hold := h.least j d'
    simp only [Cache.setEntry, update_apply] at hj hdj ⊢
    grind

theorem store_found (hf : c.find d = some i) :
    Isolated (c.store i mtu).1 (update log d (mtu :: log d)) := by
  obtain ⟨hac, hd⟩ := find_some hf
  obtain ⟨hmem, hlea⟩ := h.least i d hac hd
  have ho : ∀ j ≠ i, (c.entries j).active → (c.entries j).destination ≠ some d :=
    fun j hji hj hdj => hji (h.unique j i d hj hac hdj hd)
  unfold Cache.store
  simp only
  split
  · next hk =>
    refine h.of_written (e := { c.entries i with expires := c.now + c.ttl }) hd ho
      ⟨mem_cons_of_mem _ hmem, forall_mem_cons.mpr ⟨hk.2, hlea⟩⟩
  · next hlo =>
    refine h.of_written (e := ⟨_, mtu, c.now + c.ttl, true⟩) hd ho
      ⟨mem_cons_self, forall_mem_cons.mpr ⟨UInt32.le_refl _, fun x hx => ?_⟩⟩
    have hlt : mtu < (c.entries i).mtu := UInt32.not_le.mp fun hle => hlo ⟨hac, hle⟩
    exact UInt32.le_trans (UInt32.le_of_lt hlt) (hlea x hx)

theorem store_new (hnew : c.find d = none) (i : Fin 16)
    (hc : (c.entries i).active → mtu < (c.entries i).mtu) :
    Isolated ((c.setEntry i { c.entries i with destination := some d }).store i mtu).1
      (update log d [mtu]) := by
  have hw : ((c.setEntry i { c.entries i with destination := some d }).store i mtu).1 =
      c.setEntry i ⟨some d, mtu, c.now + c.ttl, true⟩ := by
    unfold Cache.store
    rw [if_neg]
    · simp [Cache.setEntry]
    · rintro ⟨hac, hle⟩
      simp only [Cache.setEntry, update_self] at hac hle
      exact UInt32.not_le.mpr (hc hac) hle
  rw [hw]
  refine h.of_written rfl (fun j _ => find_none hnew j) ⟨mem_singleton_self _, fun x hx => ?_⟩
  rw [mem_singleton.mp hx]
  exact UInt32.le_refl _

theorem performUpdate {call : Call} (hc : c.clean call) :
    Isolated (c.performUpdate call).1 (log.note c call) := by
  unfold Cache.performUpdate Log.note
  unfold Cache.clean at hc
  split at hc
  · exact h
  · next d mtu hs =>
    simp only [Cache.update]
    cases hf : c.find d with
    | some i => exact h.store_found hf
    | none =>
      refine h.store_new hf _ fun ha => ?_
      simpa [hf, ha] using hc

theorem perform {call : Call} (hc : c.clean call) :
    Isolated (c.perform call) (log.note c call) := by
  cases call with
  | tick now => exact h.tick now
  | update4 destination mtu ceiling | update6 destination mtu ceiling =>
    exact h.performUpdate hc
  | lookup4 destination ceiling =>
    simp only [Cache.perform, Cache.lookup4]
    split
    · exact h
    · exact h.lookup _ _
  | lookup6 destination ceiling =>
    simp only [Cache.perform, Cache.lookup6]
    split
    · exact h
    · exact h.lookup _ _

theorem run {calls : List Call} (hc : c.cleanRun calls) :
    Isolated (run (c, log) calls).1 (Pmtu.run (c, log) calls).2 := by
  induction calls generalizing c log with
  | nil => exact h
  | cons call rest ih =>
    rw [Cache.cleanRun, Bool.and_eq_true] at hc
    exact ih (h.perform hc.1) hc.2

theorem explains_lookup (d : Destination) (ceiling : UInt32) :
    log.Explains d ceiling (c.lookup d ceiling).2 := by
  unfold Cache.lookup
  split
  · exact .inl rfl
  · next i hf =>
    obtain ⟨ha, hd⟩ := find_some hf
    obtain ⟨hmem, hl⟩ := h.least i d ha hd
    simp only
    split
    · exact .inl rfl
    · exact .inr ⟨_, hmem, hl, rfl⟩

end

end Isolated

theorem isolated_init (ttl : UInt32) : Isolated (init ttl) fun _ => [] := ⟨nofun, nofun⟩

/-- Every lookup is explained by the reports for its own destination, in every run in which no
entry in use is given to another destination together with an MTU that is too small for it. -/
theorem lookups_isolated (ttl : UInt32) (calls : List Call) (hclean : (init ttl).cleanRun calls)
    (address4 : UInt32) (address6 : Address6) (ceiling : UInt32) :
    let s := run (init ttl, fun _ => []) calls
    s.2.Explains (.ipv4 address4) ceiling (s.1.lookup4 address4 ceiling).2 ∧
      s.2.Explains (.ipv6 address6) ceiling (s.1.lookup6 address6 ceiling).2 := by
  intro s
  have h : Isolated s.1 s.2 := (isolated_init ttl).run hclean
  constructor
  · unfold Cache.lookup4
    split
    · exact .inl rfl
    · exact h.explains_lookup _ _
  · unfold Cache.lookup6
    split
    · exact .inl rfl
    · exact h.explains_lookup _ _

/-- Sixteen destinations at 576 bytes, then a seventeenth at 1400. -/
def crowd : List Call :=
  (List.range 17).map fun n => .update4 (UInt32.ofNat (n + 1)) (if n = 16 then 1400 else 576) 1500

theorem lookups_isolated_sixteen :
    (init 60000).cleanRun (crowd.take 16) = true ∧
      let s := run (init 60000, fun _ => []) (crowd.take 16)
      s.2.Explains (.ipv4 16) 1500 (s.1.lookup4 16 1500).2 :=
  have h : (init 60000).cleanRun (crowd.take 16) = true := by decide +kernel
  ⟨h, (lookups_isolated 60000 _ h 16 .zero 1500).1⟩

theorem recycled_mtu :
    let s := run (init 60000, fun _ => []) crowd
    s.2 (.ipv4 17) = [1400] ∧ (s.1.lookup4 17 1500).2 = 576 ∧
      ¬ s.2.Explains (.ipv4 17) 1500 (s.1.lookup4 17 1500).2 := by
  decide +kernel

end MichCore.Pmtu
