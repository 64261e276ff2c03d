import Mathlib.Logic.Relation
import MichCore.TcpReceive

/-!
# What the receive buffer and the out-of-order table do

A receiver whose grants lie inside their pages takes all the bytes it is given or is left as it
was. Merging is a chain of single merges that ends when no waiting segment continues the stream,
or when the next one does not fit.
-/
namespace MichCore.Tcp

open List

/-- A grant with room left, inside its pages. -/
structure Grant.Inside (g : Grant) : Prop where
  open_ : g.position < g.length
  paged : g.offset + g.length ≤ g.pages * 4096

def spaceOf (grants : List Grant) : ℕ := (grants.map (fun g => g.length - g.position)).sum

theorem Grant.Inside.write_eq {g : Grant} (h : g.Inside) {n : ℕ} (hn : n ≤ g.length - g.position) :
    g.write n = n := by
  have := h.open_
  have := h.paged
  exact min_eq_left (by omega)

/-- The grant loop with every grant inside its pages: all writes land, and bytes are left over
only when the queue was used up. -/
structure Filled (grants : List Grant) (data : List UInt8) (out : Fill) : Prop where
  ok : out.ok = true
  split : out.written ++ out.rest = data
  inside : ∀ g ∈ out.grants, g.Inside
  space : out.written.length + spaceOf out.grants = spaceOf grants
  spilled : out.rest ≠ [] → out.grants = []
  written : out.written ≠ [] → grants ≠ []

theorem fillGrants_filled (grants : List Grant) (data : List UInt8)
    (h : ∀ g ∈ grants, g.Inside) : Filled grants data (fillGrants grants data) := by
  induction grants generalizing data with
  | nil => exact ⟨rfl, rfl, by simp [fillGrants], rfl, fun _ => rfl, by simp [fillGrants]⟩
  | cons g gs ih =>
    rcases data with _ | ⟨byte, bytes⟩
    · exact ⟨rfl, rfl, h, by simp [fillGrants], by simp [fillGrants], by simp [fillGrants]⟩
    have hg : g.Inside := h g (by simp)
    have hgs : ∀ x ∈ gs, x.Inside := fun x hx => h x (by simp [hx])
    simp only [fillGrants]
    generalize hd : byte :: bytes = data
    set chunk := min data.length (g.length - g.position) with hc
    rw [if_neg (not_not.mpr (hg.write_eq (by omega)))]
    have ho := hg.open_
    have hlen : (data.take chunk).length = chunk := by simp; omega
    split
    · have hr := ih (data.drop chunk) hgs
      refine ⟨hr.ok, ?_, hr.inside, ?_, hr.spilled, by simp⟩
      · rw [append_assoc, hr.split, take_append_drop]
      · have := hr.space
        simp only [length_append, hlen, spaceOf, map_cons, sum_cons] at this ⊢
        omega
    · have hall : chunk = data.length := by omega
      refine ⟨rfl, take_append_drop _ _, ?_, ?_, ?_, by simp⟩
      · exact forall_mem_cons.mpr ⟨⟨by dsimp only; omega, hg.paged⟩, hgs⟩
      · simp only [hlen, spaceOf, map_cons, sum_cons]
        omega
      · intro hne
        exact absurd (by simp [hall]) hne

namespace Receiver

/-- Grants lie inside their pages, and bytes in grants are older than bytes in the buffer. -/
structure Sound (r : Receiver) : Prop where
  inside : ∀ g ∈ r.grants, g.Inside
  older : r.grants ≠ [] → r.buffer = []
  fits : r.buffer.length ≤ 16384

/-- How many bytes the next segment may carry. -/
def room (r : Receiver) : ℕ := r.grantSpace + 16384 - r.buffer.length

theorem fresh_sound (next : UInt32) : (fresh next).Sound :=
  ⟨by simp [fresh], by simp [fresh], by simp [fresh]⟩

/-- `r'` is `r` with `data` taken at the end of the stream. -/
structure Takes (r : Receiver) (data : List UInt8) (r' : Receiver) : Prop where
  split : ∃ written rest, data = written ++ rest ∧ r'.granted = r.granted ++ written ∧
    r'.buffer = r.buffer ++ rest ∧ (written ≠ [] → r.buffer = [])
  receiveNext : r'.receiveNext = r.receiveNext
  eof : r'.eof = r.eof
  outOfOrder : r'.outOfOrder = r.outOfOrder
  sound : r'.Sound
  room : r'.room + data.length = r.room

variable {r r' : Receiver}

theorem appendReceive_full {data : List UInt8} (h : r.room < data.length) :
    r.appendReceive data = (false, r) := if_pos h

theorem appendReceive_takes (hr : r.Sound) {data : List UInt8} (h : data.length ≤ r.room) :
    ∃ r', r.appendReceive data = (true, r') ∧ Takes r data r' := by
  have hfil := fillGrants_filled r.grants data hr.inside
  set out := fillGrants r.grants data with hout
  have hap : r.appendReceive data = (true, { r with
      grants := out.grants
      granted := r.granted ++ out.written
      buffer := r.buffer ++ out.rest }) := by
    unfold appendReceive
    have hspar : ¬ r.grantSpace + 16384 - r.buffer.length < data.length := Nat.not_lt.mpr h
    rw [if_neg hspar, ← hout]
    simp only [hfil.ok, if_true]
  have hspl : out.written.length + out.rest.length = data.length := by
    rw [← length_append, hfil.split]
  have hspac : r.grantSpace = spaceOf r.grants := rfl
  have hm := hfil.space
  have hro : r.room = spaceOf r.grants + 16384 - r.buffer.length := rfl
  have hfits := hr.fits
  -- Bytes are left over only once no grant is left.
  have hspi : out.rest ≠ [] → spaceOf out.grants = 0 := fun hne => by
    rw [hfil.spilled hne]
    rfl
  have hb : (r.buffer ++ out.rest).length ≤ 16384 := by
    rw [length_append]
    by_cases hne : out.rest = []
    · simpa [hne] using hfits
    · have := hspi hne
      omega
  refine ⟨_, hap, ⟨out.written, out.rest, hfil.split.symm, rfl, rfl, ?_⟩, rfl, rfl, rfl,
    ⟨hfil.inside, ?_, hb⟩, ?_⟩
  · exact fun hne => hr.older (hfil.written hne)
  · intro hne
    have hre : out.rest = [] := by
      by_contra hre
      exact hne (hfil.spilled hre)
    have hg : r.grants ≠ [] := by
      intro hnil
      have : out.grants = [] := by rw [hout, hnil]; rfl
      exact hne this
    simp only [hr.older hg, hre, append_nil]
  · change spaceOf out.grants + 16384 - (r.buffer ++ out.rest).length + data.length = r.room
    rw [length_append] at hb ⊢
    omega

theorem appendReceive_cases (hr : r.Sound) (data : List UInt8) :
    (r.room < data.length ∧ r.appendReceive data = (false, r)) ∨
      ∃ r', r.appendReceive data = (true, r') ∧ Takes r data r' := by
  by_cases h : r.room < data.length
  · exact .inl ⟨h, appendReceive_full h⟩
  · exact .inr (appendReceive_takes hr (Nat.not_lt.mp h))

theorem appendReceive_outOfOrder (r : Receiver) (data : List UInt8) :
    (r.appendReceive data).2.outOfOrder = r.outOfOrder := by
  unfold appendReceive
  by_cases hf : r.grantSpace + 16384 - r.buffer.length < data.length
  · rw [if_pos hf]
  · rw [if_neg hf]
    by_cases hok : (fillGrants r.grants data).ok <;> simp [hok]

/-- One merge: a waiting segment that continues the stream is taken. -/
def Merges (r r' : Receiver) : Prop :=
  ∃ i e taken, r.outOfOrder i = some e ∧ e.sequence = r.receiveNext ∧
    r.appendReceive e.data = (true, taken) ∧
    r' = (taken.advance e.data.length e.flags.fin).setSlot i none

/-- The merge that ends early: the waiting segment does not fit. -/
def Blocked (r r' : Receiver) : Prop :=
  ∃ i e, r.outOfOrder i = some e ∧ e.sequence = r.receiveNext ∧
    r.appendReceive e.data = (false, r')

/-- No waiting segment continues the stream. -/
def Settled (r : Receiver) : Prop :=
  ∀ i e, r.outOfOrder i = some e → e.sequence ≠ r.receiveNext

open Relation

theorem mergePass_cases (is : List (Fin 8)) (progress : Bool) (r : Receiver) :
    (∃ r₁ r', ReflTransGen Merges r r₁ ∧ Blocked r₁ r' ∧ mergePass is progress r = (none, r')) ∨
    (∃ r', TransGen Merges r r' ∧ mergePass is progress r = (some true, r')) ∨
    (mergePass is progress r = (some progress, r) ∧
      ∀ i ∈ is, ∀ e, r.outOfOrder i = some e → e.sequence ≠ r.receiveNext) := by
  induction is generalizing progress r with
  | nil => exact .inr (.inr ⟨rfl, by simp⟩)
  | cons i is ih =>
    by_cases hre : ∃ e, r.outOfOrder i = some e ∧ e.sequence = r.receiveNext
    · obtain ⟨e, hsl, hseq⟩ := hre
      rcases hap : r.appendReceive e.data with ⟨ok, taken⟩
      cases ok with
      | false =>
        refine .inl ⟨r, taken, .refl, ⟨i, e, hsl, hseq, hap⟩, ?_⟩
        simp only [mergePass, hsl, hseq, ne_eq, not_true_eq_false, if_false, hap]
        rfl
      | true =>
        have hm : Merges r ((taken.advance e.data.length e.flags.fin).setSlot i none) :=
          ⟨i, e, taken, hsl, hseq, hap, rfl⟩
        have hst : mergePass (i :: is) progress r = mergePass is true
            ((taken.advance e.data.length e.flags.fin).setSlot i none) := by
          simp only [mergePass, hsl, hseq, ne_eq, not_true_eq_false, if_false, hap]
          rfl
        rw [hst]
        rcases ih true _ with ⟨r₁, r', hrun, hb, heq⟩ | ⟨r', hrun, heq⟩ | ⟨heq, -⟩
        · exact .inl ⟨r₁, r', .head hm hrun, hb, heq⟩
        · exact .inr (.inl ⟨r', .head hm hrun, heq⟩)
        · exact .inr (.inl ⟨_, .single hm, heq⟩)
    · -- A free slot is passed over, and one whose bytes are not next.
      have hsk : mergePass (i :: is) progress r = mergePass is progress r := by
        rcases hsl : r.outOfOrder i with _ | e
        · simp only [mergePass, hsl]
        · have hseq : e.sequence ≠ r.receiveNext := fun h => hre ⟨e, hsl, h⟩
          simp only [mergePass, hsl, ne_eq, hseq, not_false_eq_true, if_true]
      rw [hsk]
      rcases ih progress r with h | h | ⟨heq, hn⟩
      · exact .inl h
      · exact .inr (.inl h)
      · exact .inr (.inr ⟨heq, forall_mem_cons.mpr
          ⟨fun e hsl hseq => hre ⟨e, hsl, hseq⟩, hn⟩⟩)

/-- The slots in use; every merge frees one. -/
def occupied (r : Receiver) : Finset (Fin 8) :=
  Finset.univ.filter (fun i => (r.outOfOrder i).isSome)

@[simp] theorem mem_occupied {i : Fin 8} : i ∈ r.occupied ↔ (r.outOfOrder i).isSome := by
  simp only [occupied, Finset.mem_filter_univ]

theorem Merges.occupied_lt (h : Merges r r') : r'.occupied.card < r.occupied.card := by
  obtain ⟨i, e, taken, hs, -, hap, rfl⟩ := h
  have ht : taken.outOfOrder = r.outOfOrder := by
    have := appendReceive_outOfOrder r e.data
    rwa [hap] at this
  apply Finset.card_lt_card
  rw [Finset.ssubset_iff_of_subset]
  · exact ⟨i, by simp [hs], by simp [setSlot]⟩
  · intro j hj
    by_cases hji : j = i
    · subst hji
      simp [setSlot] at hj
    · simpa [setSlot, advance, Function.update_of_ne hji, ht] using hj

theorem occupied_lt_of_merges (h : TransGen Merges r r') : r'.occupied.card < r.occupied.card := by
  induction h with
  | single h => exact h.occupied_lt
  | tail _ h ih => exact h.occupied_lt.trans ih

theorem mergeLoop_spec (fuel : ℕ) (r : Receiver) (h : r.occupied.card < fuel) :
    ∃ r₁, ReflTransGen Merges r r₁ ∧
      (Blocked r₁ (mergeLoop fuel r) ∨ (mergeLoop fuel r = r₁ ∧ Settled r₁)) := by
  induction fuel generalizing r with
  | zero => omega
  | succ fuel ih =>
    rcases mergePass_cases (List.finRange 8) false r with
      ⟨r₁, r', hrun, hb, heq⟩ | ⟨r', hrun, heq⟩ | ⟨heq, hn⟩
    · exact ⟨r₁, hrun, .inl (by simpa only [mergeLoop, heq] using hb)⟩
    · have hf := occupied_lt_of_merges hrun
      obtain ⟨r₁, hre, hend⟩ := ih r' (by omega)
      refine ⟨r₁, hrun.to_reflTransGen.trans hre, ?_⟩
      simpa only [mergeLoop, heq] using hend
    · refine ⟨r, .refl, .inr ⟨by simp only [mergeLoop, heq], ?_⟩⟩
      exact fun i e he => hn i (mem_finRange i) e he

theorem mergeOutOfOrder_spec (r : Receiver) :
    ∃ r₁, ReflTransGen Merges r r₁ ∧
      (Blocked r₁ r.mergeOutOfOrder ∨ (r.mergeOutOfOrder = r₁ ∧ Settled r₁)) := by
  apply mergeLoop_spec
  have : r.occupied.card ≤ 8 := r.occupied.card_le_univ
  omega

theorem mergeOutOfOrder_settled (h : r.Settled) : r.mergeOutOfOrder = r := by
  obtain ⟨r₁, hrun, hend⟩ := r.mergeOutOfOrder_spec
  obtain rfl : r = r₁ := by
    rcases hrun.cases_head with rfl | ⟨_, ⟨i, e, _, hsl, hseq, -⟩, -⟩
    · rfl
    · exact absurd hseq (h i e hsl)
  rcases hend with ⟨i, e, hsl, hseq, -⟩ | ⟨heq, -⟩
  · exact absurd hseq (h i e hsl)
  · exact heq

theorem Merges.takes (hr : r.Sound) (h : Merges r r') :
    ∃ i e taken, r.outOfOrder i = some e ∧ e.sequence = r.receiveNext ∧ Takes r e.data taken ∧
      r' = (taken.advance e.data.length e.flags.fin).setSlot i none := by
  obtain ⟨i, e, taken, hsl, hseq, ha, rfl⟩ := h
  rcases appendReceive_cases hr e.data with ⟨-, hf⟩ | ⟨taken', hok, ht⟩
  · rw [ha] at hf
    cases hf
  · rw [ha] at hok
    cases hok
    exact ⟨i, e, taken, hsl, hseq, ht, rfl⟩

theorem Blocked.eq (hr : r.Sound) (h : Blocked r r') : r' = r := by
  obtain ⟨i, e, -, -, hf⟩ := h
  rcases appendReceive_cases hr e.data with ⟨-, heq⟩ | ⟨taken, hok, -⟩
  · rw [hf] at heq
    cases heq
    rfl
  · rw [hf] at hok
    cases hok

theorem queueScan_cases (s : SegmentView) (is : List (Fin 8)) (r : Receiver) :
    queueScan s is r = r ∨ ∃ i, r.outOfOrder i = none ∧
      queueScan s is r = r.setSlot i (some ⟨s.sequence, s.flags, s.payload⟩) := by
  induction is with
  | nil => exact .inl rfl
  | cons i is ih =>
    rcases hsl : r.outOfOrder i with _ | e
    · exact .inr ⟨i, hsl, by simp only [queueScan, hsl]⟩
    · by_cases hseq : e.sequence = s.sequence
      · exact .inl (by simp only [queueScan, hsl, hseq, if_true])
      · simpa only [queueScan, hsl, hseq, if_false] using ih

theorem queueOutOfOrder_cases (r : Receiver) (s : SegmentView) :
    r.queueOutOfOrder s = r ∨ ∃ i, r.outOfOrder i = none ∧
      r.queueOutOfOrder s = r.setSlot i (some ⟨s.sequence, s.flags, s.payload⟩) := by
  unfold queueOutOfOrder
  by_cases hl : 1460 < s.payload.length
  · exact .inl (if_pos hl)
  · rw [if_neg hl]
    exact queueScan_cases s _ r

/-- The receiver after the bytes of an in-order segment, before merging. -/
def stepOver (taken : Receiver) (s : SegmentView) : Receiver :=
  { taken.advance s.payload.length s.flags.fin with eof := taken.eof || s.flags.fin }

theorem inputPayload_cases (hr : r.Sound) (s : SegmentView) :
    ((r.inputPayload s).1 ≠ .fin ∧ (r.inputPayload s).2 = r) ∨
    (sequenceAfter s.sequence r.receiveNext ∧ s.flags.syn = false ∧
      r.inputPayload s = (.processed, r.queueOutOfOrder s)) ∨
    (¬ sequenceAfter s.sequence r.receiveNext ∧ ¬ sequenceBefore s.sequence r.receiveNext ∧
      s.flags.syn = false ∧ ∃ taken, Takes r s.payload taken ∧ r.inputPayload s =
          (if s.flags.fin then .fin else .processed, (taken.stepOver s).mergeOutOfOrder)) := by
  unfold inputPayload
  by_cases hfl : s.flags.ack = false ∨ s.flags.syn = true
  · rw [if_pos hfl]
    exact .inl ⟨by simp, rfl⟩
  have hsyn : s.flags.syn = false := by
    rcases hs : s.flags.syn with _ | _
    · rfl
    · exact absurd (.inr hs) hfl
  rw [if_neg hfl]
  split
  · next haf =>
    exact .inr (.inl ⟨haf, hsyn, rfl⟩)
  next haf =>
  split
  · exact .inl ⟨by simp, rfl⟩
  next hb =>
  rcases appendReceive_cases hr s.payload with ⟨-, hfa⟩ | ⟨taken, hok, ht⟩
  · rw [hfa]
    exact .inl ⟨by simp, rfl⟩
  · rw [hok]
    exact .inr (.inr ⟨haf, hb, hsyn, taken, ht, rfl⟩)

theorem Sound.receiveData (hr : r.Sound) (capacity : ℕ) : (r.receiveData capacity).2.Sound := by
  unfold Receiver.receiveData
  split
  · assumption
  split
  · assumption
  next he =>
  refine ⟨hr.inside, fun hg => absurd (hr.older hg) he, ?_⟩
  have := hr.fits
  simp only [length_drop]
  omega

theorem inputPayload_inOrder {taken : Receiver} (s : SegmentView) (hack : s.flags.ack = true)
    (hsyn : s.flags.syn = false) (hseq : s.sequence = r.receiveNext)
    (hap : r.appendReceive s.payload = (true, taken)) :
    r.inputPayload s =
      (if s.flags.fin then .fin else .processed, (taken.stepOver s).mergeOutOfOrder) := by
  unfold inputPayload
  rw [if_neg (by simp [hack, hsyn]), hseq, if_neg (by simp [sequenceAfter]),
    if_neg (by simp [sequenceBefore]), hap]
  rfl

theorem inputPayload_ahead {s : SegmentView} (hack : s.flags.ack = true)
    (hsyn : s.flags.syn = false) (haf : sequenceAfter s.sequence r.receiveNext) :
    r.inputPayload s = (.processed, r.queueOutOfOrder s) := by
  unfold inputPayload
  rw [if_neg (by simp [hack, hsyn]), if_pos haf]

end Receiver

namespace Connection

section

variable (c : Connection)

variable (s : SegmentView)

@[simp] theorem note_state : (c.note s).state = c.state := rfl

@[simp] theorem note_receiver :
    (c.note s).receiver = c.receiver := rfl

@[simp] theorem acknowledge_state : (c.acknowledge s).state = c.state := by
  unfold acknowledge
  split <;> rfl

@[simp] theorem acknowledge_receiver : (c.acknowledge s).receiver = c.receiver := by
  unfold acknowledge
  split <;> rfl

end

theorem tcpInput_established {c : Connection} (h : c.state = .established) {s : SegmentView}
    (hrst : s.flags.rst = false) :
    (c.tcpInput s).2.receiver = (c.receiver.inputPayload s).2 ∧ (c.tcpInput s).2.state =
        if (c.receiver.inputPayload s).1 = .fin then .closeWait else .established := by
  unfold tcpInput
  rw [if_neg (by simp [hrst])]
  dsimp only
  generalize hc₁ : (if s.flags.ack = true then (c.note s).acknowledge s else c.note s) = c₁
  have hs : c₁.state = .established := by rw [← h, ← hc₁]; split <;> simp
  have hre : c₁.receiver = c.receiver := by rw [← hc₁]; split <;> simp
  have hcl : c₁.inputClosing s = none := by simp only [inputClosing, hs]
  simp only [hs, hcl, reduceCtorEq, false_and, if_false, if_true, inputPayload, hre]
  by_cases hfin : (c.receiver.inputPayload s).1 = .fin <;> simp [hfin]

theorem queueReceivePages_sound {c : Connection} (hr : c.receiver.Sound)
    (pages offset length : ℕ) (live pinned : Bool) :
    (c.queueReceivePages pages offset length live pinned).2.receiver.Sound := by
  unfold queueReceivePages
  dsimp only
  split_ifs with hre
  · exact hr
  push Not at hre
  obtain ⟨-, -, -, hl, ho, hi, he, -⟩ := hre
  refine ⟨?_, fun _ => he, hr.fits⟩
  intro g hg
  rcases mem_append.mp hg with hg | hg
  · exact hr.inside g hg
  · obtain rfl := mem_singleton.mp hg
    exact ⟨Nat.pos_of_ne_zero hl, by dsimp only; omega⟩

end Connection

/-- An established connection of a peer whose SYN was numbered `iss`. -/
def established (iss : UInt32) : Connection where
  active := true
  generation := 1
  family := .ipv4
  localAddress := 1
  remoteAddress := 2
  localPort := 80
  remotePort := 4000
  state := .established
  sendUnacknowledged := 0
  sendNext := 0
  sendWindow := 65535
  remoteMss := 1460
  peerSack := false
  error := 0
  detached := false
  passive := false
  accepted := false
  parentListener := 0
  listenBacklog := 0
  receiver := Receiver.fresh (iss + 1)

end MichCore.Tcp
