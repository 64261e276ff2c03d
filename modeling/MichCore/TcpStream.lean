import MichCore.SerialNumber
import MichCore.TcpMerging

/-!
# The bytes an application receives

Segments of one byte stream arrive in any order, overlapping, repeated or never, between reads and
page grants. `Tracks` ties the receiver to a position in the stream: every byte before it was
handed out or is in the buffer, and every waiting segment belongs to a later place.

Waiting segments are only dropped when they are merged. One that others have overtaken stays, and
its 32-bit number comes up again after `2^32` bytes.
-/
namespace MichCore.Tcp

open SerialNumber Relation List Function Option
open Receiver (advance setSlot stepOver)

/-- `data` stands at `off` in the stream, and a FIN ends it. -/
structure Carries (stream : List UInt8) (off : ℤ) (data : List UInt8) (fin : Bool) : Prop where
  bytes : data ≠ [] → ∃ n : ℕ, off = n ∧ data <+: stream.drop n
  last : fin = true → off + data.length = stream.length

variable {data : List UInt8} {fin : Bool} {off : ℤ} {base : UInt32} {s : SegmentView}

theorem Carries.le {stream : List UInt8} (h : Carries stream off data fin)
    (hne : data ≠ [] ∨ fin = true) :
    off + data.length ≤ stream.length ∧ (fin = false → off < stream.length) := by
  rcases eq_or_ne data [] with rfl | hd
  · have hfin : fin = true := by simpa using hne
    have := h.last hfin
    exact ⟨this.le, by simp [hfin]⟩
  obtain ⟨n, rfl, hs⟩ := h.bytes hd
  have hlen := hs.length_le
  have hpos := length_pos_of_ne_nil hd
  rw [length_drop] at hlen
  exact ⟨by omega, by omega⟩

theorem Carries.take_eq {stream : List UInt8} {pos : ℕ} (h : Carries stream pos data fin) :
    stream.take (pos + data.length + fin.toNat) = stream.take pos ++ data := by
  have hd : stream.take (pos + data.length) = stream.take pos ++ data := by
    rcases eq_or_ne data [] with rfl | hne
    · simp
    · obtain ⟨n, hn, hs⟩ := h.bytes hne
      obtain rfl : pos = n := by exact_mod_cast hn
      rw [take_add, ← prefix_iff_eq_take.mp hs]
  cases fin with
  | false => simpa using hd
  | true =>
    have hl : pos + data.length = stream.length := by exact_mod_cast h.last rfl
    rw [← hd, hl, take_length]
    exact take_of_length_le (by simp)

theorem Carries.bound {stream : List UInt8} {pos : ℕ} (h : Carries stream pos data fin)
    (hpos : pos ≤ stream.length + 1) : pos + data.length + fin.toNat ≤ stream.length + 1 := by
  by_cases hne : data ≠ [] ∨ fin = true
  · have hle := (h.le hne).1
    cases fin <;> simp <;> omega
  · push Not at hne
    obtain ⟨rfl, hfin⟩ := hne
    cases fin <;> simp_all

theorem Carries.ended {stream : List UInt8} {pos : ℕ} (h : Carries stream pos data fin)
    (hfin : fin = false) (hend : pos + data.length + fin.toNat = stream.length + 1) :
    pos = stream.length + 1 := by
  subst hfin
  rcases eq_or_ne data [] with rfl | hne
  · simpa using hend
  · have hle := (h.le (.inl hne)).1
    simp only [Bool.toNat_false] at hend
    omega

theorem after_offset {pos : ℤ} (hn : |off - pos| ≤ 2 ^ 31)
    (h : sequenceAfter (wordAt base off) (wordAt base pos)) : pos < off := by
  obtain ⟨hlo, hhi⟩ := h
  have hsub := wordAt_sub base off pos
  have hn' := abs_le.mp hn
  omega

theorem inOrder_offset {pos : ℤ} (hnea : |off - pos| ≤ 2 ^ 31)
    (haf : ¬ sequenceAfter (wordAt base off) (wordAt base pos))
    (hb : ¬ sequenceBefore (wordAt base off) (wordAt base pos)) : off = pos := by
  have hsub := wordAt_sub base off pos
  have hnea' := abs_le.mp hnea
  simp only [sequenceAfter, sequenceBefore, not_and, not_lt, not_le] at haf hb
  have hz : (wordAt base off - wordAt base pos).toNat = 0 := by
    by_contra hne
    have := haf (Nat.pos_of_ne_zero hne)
    omega
  omega

/-- `log` is what the application had before, `seen` the bytes its grants held then. -/
structure Tracks (stream : List UInt8) (iss : UInt32) (log : List UInt8) (seen : ℕ)
    (finSeen : Bool) (pos : ℕ) (r : Receiver) : Prop where
  sound : r.Sound
  next : r.receiveNext = wordAt (iss + 1) pos
  logged : seen ≤ r.granted.length
  bytes : log ++ r.granted.drop seen ++ r.buffer = stream.take pos
  bound : pos ≤ stream.length + 1
  ended : pos = stream.length + 1 → finSeen = true
  waiting : ∀ i e, r.outOfOrder i = some e → ∃ off : ℤ, 1 ≤ off ∧
    e.sequence = wordAt (iss + 1) off ∧ Carries stream off e.data e.flags.fin ∧
    (e.flags.fin = true → finSeen = true)

variable {stream : List UInt8} {iss : UInt32} {log : List UInt8} {seen pos : ℕ}
  {finSeen : Bool} {r r' : Receiver}

theorem advance_word {pos : ℕ} {r : Receiver} (h : r.receiveNext = wordAt base pos) (length : ℕ)
    (fin : Bool) :
    (r.advance length fin).receiveNext = wordAt base (pos + length + fin.toNat : ℕ) := by
  have hone : (if fin then 1 else 0 : UInt32) = UInt32.ofNat fin.toNat := by cases fin <;> rfl
  simp only [advance, h, hone, wordAt_add]
  push_cast
  rfl

section

variable (h : Tracks stream iss log seen finSeen pos r)
include h

theorem Tracks.takes {taken : Receiver} (ht : r.Takes data taken) (hc : Carries stream pos data fin)
    (hfin : fin = true → finSeen = true) :
    Tracks stream iss log seen finSeen (pos + data.length + fin.toNat)
      (taken.advance data.length fin) := by
  obtain ⟨written, rest, hd, hg, hb, hem⟩ := ht.split
  refine ⟨⟨ht.sound.inside, ht.sound.older, ht.sound.fits⟩, ?_, ?_, ?_,
    hc.bound h.bound, ?_, ?_⟩
  · exact advance_word (ht.receiveNext.trans h.next) data.length fin
  · change seen ≤ taken.granted.length
    rw [hg, length_append]
    exact h.logged.trans (Nat.le_add_right _ _)
  · change log ++ taken.granted.drop seen ++ taken.buffer = _
    rw [hc.take_eq, ← h.bytes, hg, hb, drop_append_of_le_length h.logged, hd]
    -- Bytes reach a grant only while the buffer is empty.
    rcases eq_or_ne written [] with rfl | hne
    · simp
    · simp [hem hne]
  · intro hend
    cases hf : fin with
    | true => exact hfin hf
    | false => exact h.ended (hc.ended hf hend)
  · intro i e he
    exact h.waiting i e (by rw [← ht.outOfOrder]; exact he)

theorem Tracks.setSlot_none (i : Fin 8) :
    Tracks stream iss log seen finSeen pos (r.setSlot i none) := by
  refine ⟨⟨h.sound.inside, h.sound.older, h.sound.fits⟩, h.next, h.logged, h.bytes, h.bound,
    h.ended, ?_⟩
  intro j e he
  by_cases hji : j = i
  · subst hji
    simp [setSlot] at he
  · exact h.waiting j e (by simpa [setSlot, update_of_ne hji] using he)

theorem Tracks.eof (eof : Bool) : Tracks stream iss log seen finSeen pos { r with eof := eof } :=
  ⟨⟨h.sound.inside, h.sound.older, h.sound.fits⟩, h.next, h.logged, h.bytes, h.bound, h.ended,
    h.waiting⟩

theorem Tracks.finSeen_or (fin : Bool) : Tracks stream iss log seen (finSeen || fin) pos r := by
  refine ⟨h.sound, h.next, h.logged, h.bytes, h.bound, fun hend => by simp [h.ended hend], ?_⟩
  intro i e he
  obtain ⟨off, hoff, hseq, hc, hfin⟩ := h.waiting i e he
  exact ⟨off, hoff, hseq, hc, fun hf => by simp [hfin hf]⟩

end

section

variable (hshort : stream.length < 2 ^ 32)
include hshort

/-- In a stream of less than `2^32` bytes a waiting segment that is merged belongs at the
position, unless it is empty. -/
theorem Tracks.merges (h : Tracks stream iss log seen finSeen pos r) (hm : r.Merges r') :
    ∃ pos', Tracks stream iss log seen finSeen pos' r' := by
  obtain ⟨i, e, taken, hsl, hseq, ht, rfl⟩ := hm.takes h.sound
  obtain ⟨off, hoff, hw, hc, hfin⟩ := h.waiting i e hsl
  have hsa : (off - pos) % 2 ^ 32 = 0 := by
    rw [← wordAt_eq_iff (iss + 1), ← hw, hseq, h.next]
  have hb := h.bound
  have hat : Carries stream pos e.data e.flags.fin := by
    by_cases hne : e.data ≠ [] ∨ e.flags.fin = true
    · have hle := (hc.le hne).1
      have hpos : off = pos := by omega
      rwa [← hpos]
    · push Not at hne
      exact ⟨fun hd => absurd hne.1 hd, fun hf => absurd hf hne.2⟩
  exact ⟨_, (h.takes ht hat hfin).setSlot_none i⟩

theorem Tracks.mergeOutOfOrder (h : Tracks stream iss log seen finSeen pos r) :
    ∃ pos', Tracks stream iss log seen finSeen pos' r.mergeOutOfOrder := by
  obtain ⟨r₁, hrun, hend⟩ := r.mergeOutOfOrder_spec
  have hk : ∃ pos', Tracks stream iss log seen finSeen pos' r₁ := by
    clear hend
    induction hrun with
    | refl => exact ⟨pos, h⟩
    | tail _ hm ih =>
      obtain ⟨pos', h'⟩ := ih
      exact h'.merges hshort hm
  obtain ⟨pos', h'⟩ := hk
  rcases hend with hb | ⟨heq, -⟩
  · exact ⟨pos', by rwa [hb.eq h'.sound]⟩
  · exact ⟨pos', by rwa [heq]⟩

/-- A segment that agrees with the stream, seen from a receiver at `pos`. -/
def Agrees (stream : List UInt8) (iss : UInt32) (pos : ℕ) (s : SegmentView) : Prop :=
  s.flags.syn = true ∨ ∃ off : ℤ, s.sequence = wordAt (iss + 1) off ∧ |off - pos| ≤ 2 ^ 31 ∧
    Carries stream off s.payload s.flags.fin

theorem Tracks.inputPayload
    (h : Tracks stream iss log seen finSeen pos r) (hs : Agrees stream iss pos s) :
    ∃ pos', Tracks stream iss log seen (finSeen || s.flags.fin) pos' (r.inputPayload s).2 := by
  have hg := h.finSeen_or s.flags.fin
  rcases Receiver.inputPayload_cases h.sound s with
    ⟨-, heq⟩ | ⟨haf, hsyn, heq⟩ | ⟨haf, hb, hsyn, taken, ht, heq⟩
  · exact ⟨pos, by rwa [heq]⟩
  · obtain ⟨off, hw, hn, hc⟩ := hs.resolve_left (by simp [hsyn])
    rw [hw, h.next] at haf
    have hl := after_offset hn haf
    rw [heq]
    rcases r.queueOutOfOrder_cases s with hsa | ⟨i, -, hset⟩
    · exact ⟨pos, by rwa [hsa]⟩
    refine ⟨pos, ?_⟩
    rw [hset]
    refine ⟨⟨h.sound.inside, h.sound.older, h.sound.fits⟩, h.next, h.logged, h.bytes, h.bound,
      hg.ended, ?_⟩
    intro j e he
    by_cases hji : j = i
    · subst hji
      obtain rfl : ⟨s.sequence, s.flags, s.payload⟩ = e := by
        simpa [setSlot] using he
      refine ⟨off, by omega, hw, hc, fun hf => ?_⟩
      rw [show s.flags.fin = true from hf, Bool.or_true]
    · apply hg.waiting j e
      simpa [setSlot, update_of_ne hji] using he
  · obtain ⟨off, hw, hn, hc⟩ := hs.resolve_left (by simp [hsyn])
    rw [hw, h.next] at haf hb
    obtain rfl := inOrder_offset hn haf hb
    rw [heq]
    have ho := (hg.takes ht hc (fun hf => by simp [hf])).eof
      (taken.eof || s.flags.fin)
    exact ho.mergeOutOfOrder hshort

end

inductive Event where
  | segment (s : SegmentView)
  | read (capacity : ℕ)
  | grant (pages offset length : ℕ) (live pinned : Bool)

/-- A connection with the bytes handed out so far, in the order they were written to
grants or returned, and whether a FIN has arrived. -/
structure Trace where
  connection : Connection
  output : List UInt8
  finSeen : Bool

namespace Trace

def start (c : Connection) : Trace := ⟨c, [], false⟩

def step (t : Trace) : Event → Trace
  | .segment s =>
    let after := (t.connection.tcpInput s).2
    ⟨after, t.output ++ after.receiver.granted.drop t.connection.receiver.granted.length,
      t.finSeen || s.flags.fin⟩
  | .read capacity =>
    let out := t.connection.receiveData capacity
    ⟨out.2, t.output ++ (out.1.map Prod.snd).getD [], t.finSeen⟩
  | .grant pages offset length live pinned =>
    ⟨(t.connection.queueReceivePages pages offset length live pinned).2, t.output, t.finSeen⟩

def run (t : Trace) (events : List Event) : Trace := events.foldl step t

/-- The bytes accepted so far, handed out or still in the buffer. -/
def accepted (t : Trace) : ℕ := t.output.length + t.connection.receiver.buffer.length

/-- The position of `receive_next` in the stream: the FIN counts once it is consumed. -/
def position (t : Trace) (iss : UInt32) : ℕ :=
  t.accepted + if t.connection.receiver.receiveNext = wordAt (iss + 1) t.accepted then 0 else 1

/-- Every segment of the run agrees with the stream and is numbered within `2^31` of the
position it meets. -/
def AgreeingRun (stream : List UInt8) (iss : UInt32) : Trace → List Event → Prop
  | _, [] => True
  | t, .segment s :: events =>
    Agrees stream iss (t.position iss) s ∧ AgreeingRun stream iss (t.step (.segment s)) events
  | t, event :: events => AgreeingRun stream iss (t.step event) events

/-- What the application got is a prefix of the stream, and `receive_next` counts the accepted
bytes, and the FIN once consumed. -/
def Integrity (stream : List UInt8) (iss : UInt32) (t : Trace) : Prop :=
  t.output <+: stream ∧ ∃ fin : Bool,
    (fin = true → t.finSeen = true ∧ t.accepted = stream.length) ∧
    t.connection.receiver.receiveNext = wordAt (iss + 1) (t.accepted + fin.toNat : ℕ)

end Trace

/-- A connection that has the peer's initial sequence number and no byte yet. -/
structure Synchronised (iss : UInt32) (c : Connection) : Prop where
  state : c.state ≠ .synSent
  receiver : c.receiver = Receiver.fresh (iss + 1)

theorem synchronised_of_synAck {c : Connection} {next : UInt32} (hst : c.state = .synSent)
    (hre : c.receiver = Receiver.fresh next) (hrst : s.flags.rst = false)
    (hsyn : s.flags.syn = true) (hack : s.flags.ack = true)
    (hn : s.acknowledgement = c.sendNext) : Synchronised s.sequence (c.tcpInput s).2 := by
  have hse : ((c.note s).acknowledge s).sendNext = c.sendNext := by
    unfold Connection.acknowledge
    split <;> rfl
  have ho : ((c.note s).acknowledge s).state = .synSent ∧ s.flags.syn = true ∧
      s.flags.ack = true ∧ s.acknowledgement = ((c.note s).acknowledge s).sendNext :=
    ⟨by simpa using hst, hsyn, hack, by rw [hse, hn]⟩
  have hi : (c.tcpInput s).2 = { (c.note s).acknowledge s with
      receiver := { c.receiver with receiveNext := s.sequence + 1 }
      sendUnacknowledged := s.acknowledgement
      state := .established } := by
    unfold Connection.tcpInput
    rw [if_neg (by simp [hrst])]
    simp only [hack, if_true]
    rw [if_pos (by simpa [hack] using ho)]
    simp
  rw [hi]
  exact ⟨by simp, by simp [hre, Receiver.fresh]⟩

theorem synchronised_of_openPassive {ctx ctx' : Context} {listener : Fin 32}
    {source destination isn : UInt32}
    (h : ctx.openPassive listener source destination s isn = (true, ctx')) :
    ∃ i, (ctx.connections i).active = false ∧ Synchronised s.sequence (ctx'.connections i) := by
  unfold Context.openPassive at h
  dsimp only at h
  split at h
  · cases h
  rcases hs : (List.finRange 32).find? (fun i => (ctx.connections i).active = false) with
    _ | slot
  · simp only [hs] at h
    cases h
  simp only [hs] at h
  cases h
  exact ⟨slot, by simpa using find?_some hs, by simp [Context.set],
    by simp [Context.set]⟩

namespace Connection

/-- What a segment can do to the receiving side once the connection is synchronised. -/
structure Receives (c : Connection) (s : SegmentView) (c' : Connection) : Prop where
  state : c'.state ≠ .synSent
  receiver : c'.receiver = c.receiver ∨ c'.receiver = { c.receiver with eof := true } ∨
    c'.receiver = (c.receiver.inputPayload s).2

variable {c : Connection}

theorem inputFinWait_receives (h : c.state = .finWait1 ∨ c.state = .finWait2) (s : SegmentView) :
    c.Receives s (c.inputFinWait s) := by
  unfold inputFinWait inputPayload
  split
  · by_cases hfin : (c.receiver.inputPayload s).1 = .fin <;>
      exact ⟨by simp [hfin], by simp [hfin]⟩
  · by_cases hfin : (c.receiver.inputPayload s).1 = .fin <;>
      rcases h with h | h <;> exact ⟨by simp [hfin, h], by simp [hfin]⟩

theorem inputClosing_receives {c' : Connection} (s : SegmentView) (h : c.inputClosing s = some c') :
    c.Receives s c' := by
  unfold inputClosing at h
  cases hs : c.state <;> simp only [hs] at h
  case closeWait | timeWait =>
    cases h
    exact ⟨by simp [hs], .inl rfl⟩
  case lastAck | closing =>
    cases h
    by_cases ha : c.ourFinAcked s = true <;>
      exact ⟨by simp [ha, hs, retire], .inl (by simp [ha, retire])⟩
  case finWait1 =>
    cases h
    exact inputFinWait_receives (.inl hs) s
  case finWait2 =>
    cases h
    exact inputFinWait_receives (.inr hs) s
  all_goals cases h

theorem inputReset_receives (h : c.state ≠ .synSent) (s : SegmentView) :
    c.Receives s (c.inputReset s).2 := by
  unfold inputReset
  rw [if_neg h]
  split
  · by_cases hd : c.detached = true <;>
      exact ⟨by simp [hd, retire], by simp [hd, retire]⟩
  · exact ⟨h, .inl rfl⟩

theorem tcpInput_receives (h : c.state ≠ .synSent) (s : SegmentView) :
    c.Receives s (c.tcpInput s).2 := by
  unfold tcpInput
  split
  · exact inputReset_receives h s
  dsimp only
  -- The head of the function leaves the state and the receiver alone.
  generalize hc₁ : (if s.flags.ack = true then (c.note s).acknowledge s else c.note s) = c₁
  have hst : c₁.state = c.state := by rw [← hc₁]; split <;> simp
  have hreceiver : c₁.receiver = c.receiver := by rw [← hc₁]; split <;> simp
  rw [← hst] at h
  suffices hreceives : c₁.Receives s _ by
    exact ⟨hreceives.state, by rw [← hreceiver]; exact hreceives.receiver⟩
  rw [if_neg (fun hsyn => h hsyn.1)]
  split
  · exact ⟨by simp, .inl rfl⟩
  rcases hcl : c₁.inputClosing s with _ | c₂
  · by_cases hest : c₁.state = .established
    · simp only [hest, if_true, inputPayload]
      by_cases hfin : (c₁.receiver.inputPayload s).1 = .fin <;>
        exact ⟨by simp [hfin], by simp [hfin]⟩
    · simp only [hest, if_false]
      exact ⟨h, .inl rfl⟩
  · exact inputClosing_receives s hcl

end Connection

namespace Trace

/-- The invariant of a run. -/
def Follows (stream : List UInt8) (iss : UInt32) (t : Trace) : Prop :=
  t.connection.state ≠ .synSent ∧
    ∃ pos, Tracks stream iss t.output t.connection.receiver.granted.length t.finSeen pos
      t.connection.receiver

theorem Follows.start {c : Connection} (h : Synchronised iss c) : Follows stream iss (start c) := by
  refine ⟨h.state, 0, ?_⟩
  simp only [Trace.start, h.receiver]
  refine ⟨Receiver.fresh_sound _, ?_, le_rfl, by simp [Receiver.fresh], by omega, by omega, ?_⟩
  · exact (wordAt_zero _).symm
  · intro i e he
    cases he

variable {t : Trace}

section

variable (h : Tracks stream iss t.output t.connection.receiver.granted.length t.finSeen pos
  t.connection.receiver)
include h

theorem accepted_eq : t.accepted = min pos stream.length := by
  have := congrArg List.length h.bytes
  simpa [accepted] using this

theorem position_eq : t.position iss = pos := by
  have hb := h.bound
  unfold position
  rw [accepted_eq h, h.next]
  rcases Nat.lt_or_ge stream.length pos with hend | hi
  · have hd : wordAt (iss + 1) (pos : ℤ) ≠
        wordAt (iss + 1) ((min pos stream.length : ℕ) : ℤ) := by
      rw [ne_eq, wordAt_eq_iff]
      omega
    rw [if_neg hd]
    omega
  · rw [min_eq_left hi, if_pos rfl, Nat.add_zero]

end

theorem Follows.integrity (h : Follows stream iss t) : Integrity stream iss t := by
  obtain ⟨-, pos, h⟩ := h
  have hacc := accepted_eq h
  have hbo := h.bound
  refine ⟨?_, decide (pos = stream.length + 1), ?_, ?_⟩
  · have hby := h.bytes
    rw [drop_length, append_nil] at hby
    exact (hby ▸ prefix_append _ _ : t.output <+: stream.take pos).trans (List.take_prefix _ _)
  · intro hend
    have hpos : pos = stream.length + 1 := by simpa using hend
    exact ⟨h.ended hpos, by omega⟩
  · rw [h.next]
    congr 2
    by_cases hpos : pos = stream.length + 1
    · simp only [hpos, decide_true, Bool.toNat_true, hacc]
      omega
    · simp only [hpos, decide_false, Bool.toNat_false, hacc]
      omega

theorem Follows.segment (hshort : stream.length < 2 ^ 32) (h : Follows stream iss t)
    {s : SegmentView} (hs : Agrees stream iss (t.position iss) s) :
    Follows stream iss (t.step (.segment s)) := by
  obtain ⟨hst, pos, h⟩ := h
  rw [position_eq h] at hs
  have hr := Connection.tcpInput_receives hst s
  refine ⟨hr.state, ?_⟩
  suffices hk : ∃ pos', Tracks stream iss t.output t.connection.receiver.granted.length
      (t.finSeen || s.flags.fin) pos' (t.connection.tcpInput s).2.receiver by
    -- The bytes that landed in grants move to the output.
    obtain ⟨pos', h'⟩ := hk
    refine ⟨pos', h'.sound, h'.next, le_rfl, ?_, h'.bound, h'.ended, h'.waiting⟩
    simpa [step] using h'.bytes
  have hg := h.finSeen_or s.flags.fin
  rcases hr.receiver with heq | heq | heq <;> rw [heq]
  · exact ⟨pos, hg⟩
  · exact ⟨pos, hg.eof true⟩
  · exact h.inputPayload hshort hs

theorem Follows.read (h : Follows stream iss t) (capacity : ℕ) :
    Follows stream iss (t.step (.read capacity)) := by
  obtain ⟨hst, pos, h⟩ := h
  refine ⟨hst, pos, ?_⟩
  simp only [step, Connection.receiveData, Receiver.receiveData]
  by_cases hz : capacity = 0
  · simpa only [hz, if_true, map_none, getD_none, append_nil] using h
  by_cases he : t.connection.receiver.buffer = []
  · simpa only [hz, he, if_true, if_false, map_some, getD_some, append_nil] using h
  simp only [hz, he, if_false, map_some, getD_some]
  have hso := h.sound.receiveData capacity
  simp only [Receiver.receiveData, hz, he, if_false] at hso
  refine ⟨hso, h.next, le_rfl, ?_, h.bound, h.ended, h.waiting⟩
  simpa using h.bytes

theorem Follows.grant (h : Follows stream iss t) (pages offset length : ℕ) (live pinned : Bool) :
    Follows stream iss (t.step (.grant pages offset length live pinned)) := by
  obtain ⟨hst, pos, h⟩ := h
  have hso := Connection.queueReceivePages_sound h.sound pages offset length live pinned
  revert hso
  simp only [step, Connection.queueReceivePages]
  split_ifs with hr
  · exact fun _ => ⟨hst, pos, h⟩
  · exact fun hso =>
      ⟨hst, pos, hso, h.next, le_rfl, h.bytes, h.bound, h.ended, h.waiting⟩

theorem Follows.run (hshort : stream.length < 2 ^ 32) (events : List Event)
    (h : Follows stream iss t) (ha : AgreeingRun stream iss t events) :
    Follows stream iss (t.run events) := by
  induction events generalizing t with
  | nil => exact h
  | cons event events ih =>
    cases event with
    | segment s => exact ih (h.segment hshort ha.1) ha.2
    | read capacity => exact ih (h.read capacity) ha
    | grant pages offset length live pinned =>
      exact ih (h.grant pages offset length live pinned) ha

end Trace

namespace Receiver

/-- An empty buffer at a position of the stream, with the given segments waiting. -/
def idleAt (next : UInt32) (table : Fin 8 → Option OutOfOrder) : Receiver :=
  ⟨next, false, [], [], [], table⟩

end Receiver

/-- The segment of the stream with `count` bytes at `off`. -/
def streamSegment (stream : List UInt8) (iss : UInt32) (off count : ℕ) (fin : Bool) :
    SegmentView where
  sourcePort := 4000
  destinationPort := 80
  sequence := wordAt (iss + 1) off
  acknowledgement := 0
  flags := ⟨fin, false, false, true⟩
  window := 65535
  mss := 0
  sackPermitted := false
  payload := (stream.drop off).take count

theorem streamSegment_carries (stream : List UInt8) (iss : UInt32) (off count : ℕ) (fin : Bool)
    (h : fin = true → off + count = stream.length) :
    Carries stream off (streamSegment stream iss off count fin).payload fin := by
  refine ⟨fun _ => ⟨off, rfl, take_prefix _ _⟩, fun hfin => ?_⟩
  have := h hfin
  simp only [streamSegment, length_take, length_drop]
  omega

namespace Trace

/-- A run in which every byte before `pos` was read. -/
structure ReadTo (stream : List UInt8) (iss : UInt32) (table : Fin 8 → Option OutOfOrder)
    (pos : ℕ) (t : Trace) : Prop where
  state : t.connection.state = .established
  receiver : t.connection.receiver = Receiver.idleAt (wordAt (iss + 1) pos) table
  output : t.output = stream.take pos
  inside : pos ≤ stream.length

variable {table : Fin 8 → Option OutOfOrder} {t : Trace}

theorem ReadTo.position (h : ReadTo stream iss table pos t) : t.position iss = pos := by
  have hi := h.inside
  have hacc : t.accepted = pos := by
    simp [accepted, h.output, h.receiver, Receiver.idleAt, hi]
  simp [Trace.position, hacc, h.receiver, Receiver.idleAt]

theorem ReadTo.agrees (h : ReadTo stream iss table pos t) {off count : ℕ} {fin : Bool}
    (hoff : off = pos ∨ off = pos + 1) (hfin : fin = true → off + count = stream.length) :
    Agrees stream iss (t.position iss) (streamSegment stream iss off count fin) := by
  refine .inr ⟨off, rfl, ?_, streamSegment_carries stream iss off count fin hfin⟩
  rw [h.position, abs_le]
  omega

end Trace

namespace Receiver

/-- An empty buffer takes the segment that is next, and then what waits behind it. -/
theorem idleAt_inputPayload (stream : List UInt8) (iss : UInt32)
    (table : Fin 8 → Option OutOfOrder) (pos count : ℕ) (fin : Bool) (h : count ≤ 16384) :
    let s := streamSegment stream iss pos count fin
    (idleAt (wordAt (iss + 1) pos) table).inputPayload s = (if fin then .fin else .processed,
      mergeOutOfOrder ⟨wordAt (iss + 1) (pos + s.payload.length + fin.toNat : ℕ), fin, s.payload,
        [],
        [], table⟩) := by
  intro s
  set taken : Receiver := ⟨wordAt (iss + 1) pos, false, s.payload, [], [], table⟩ with ht
  have hap : (idleAt (wordAt (iss + 1) pos) table).appendReceive s.payload = (true, taken) := by
    have hlen : s.payload.length ≤ 16384 := (length_take_le _ _).trans h
    unfold appendReceive
    rw [if_neg (by simpa [idleAt, grantSpace] using hlen)]
    rfl
  have hw : (taken.advance s.payload.length fin).receiveNext = _ :=
    advance_word (r := taken) rfl s.payload.length fin
  rw [inputPayload_inOrder s rfl rfl rfl hap, ← hw]
  rfl

end Receiver

namespace Trace

variable {table : Fin 8 → Option OutOfOrder} {t : Trace}

/-- A segment in order, and the read of all its bytes. -/
def takeEvents (stream : List UInt8) (iss : UInt32) (pos count : ℕ) : List Event :=
  [.segment (streamSegment stream iss pos count false), .read count]

theorem ReadTo.take (h : ReadTo stream iss table pos t) (count : ℕ) (hcount : 0 < count)
    (hsm : count ≤ 16384) (hi : pos + count ≤ stream.length)
    (hq : ∀ i e, table i = some e → e.sequence ≠ wordAt (iss + 1) (pos + count : ℕ)) :
    AgreeingRun stream iss t (takeEvents stream iss pos count) ∧
      ReadTo stream iss table (pos + count) (t.run (takeEvents stream iss pos count)) := by
  refine ⟨⟨h.agrees (.inl rfl) (by simp), trivial⟩, ?_⟩
  set s := streamSegment stream iss pos count false with hs
  have hlen : s.payload.length = count := by
    simp only [hs, streamSegment, length_take, length_drop]
    omega
  have hne : s.payload ≠ [] := ne_nil_of_length_pos (by omega)
  -- The bytes go to the buffer, and no waiting segment continues them.
  have hp : t.connection.receiver.inputPayload s =
      (.processed, ⟨wordAt (iss + 1) (pos + count : ℕ), false, s.payload, [], [], table⟩) := by
    have hse : Receiver.Settled
        ⟨wordAt (iss + 1) (pos + count : ℕ), false, s.payload, [], [], table⟩ := hq
    rw [h.receiver, hs, Receiver.idleAt_inputPayload _ _ _ _ _ _ hsm, ← hs, hlen]
    exact congrArg (Prod.mk _) (Receiver.mergeOutOfOrder_settled hse)
  obtain ⟨hr, hst⟩ := Connection.tcpInput_established h.state (s := s) rfl
  rw [hp] at hr hst
  simp only [run, takeEvents, foldl_cons, foldl_nil, step, Connection.receiveData,
    Receiver.receiveData, ← hs, hr, hcount.ne', hne, if_false, map_some, getD_some]
  refine ⟨hst, ?_, ?_, hi⟩
  · simp [Receiver.idleAt, hlen]
  · have ht : s.payload.take count = s.payload := take_of_length_le (by omega)
    rw [ht, h.output]
    simp [hs, streamSegment, take_add]

theorem run_append (t : Trace) (first second : List Event) :
    t.run (first ++ second) = (t.run first).run second := foldl_append

theorem AgreeingRun.append {t : Trace} {first second : List Event}
    (hf : AgreeingRun stream iss t first) (hs : AgreeingRun stream iss (t.run first) second) :
    AgreeingRun stream iss t (first ++ second) := by
  induction first generalizing t with
  | nil => exact hs
  | cons event first ih =>
    cases event with
    | segment s => exact ⟨hf.1, ih hf.2 hs⟩
    | read capacity => exact ih hf hs
    | grant pages offset length live pinned => exact ih hf hs

theorem ReadTo.takeBytes (h : ReadTo stream iss table pos t) (k : ℕ) (hi : pos + k ≤ stream.length)
    (hq : ∀ j, pos < j → j ≤ pos + k → ∀ i e, table i = some e → e.sequence ≠ wordAt (iss + 1) j) :
    ∃ events, AgreeingRun stream iss t events ∧
      ReadTo stream iss table (pos + k) (t.run events) := by
  induction k with
  | zero => exact ⟨[], trivial, h⟩
  | succ k ih =>
    obtain ⟨events, ha, hr⟩ := ih (by omega)
      (fun j hlo hhi => hq j hlo (by omega))
    obtain ⟨hla, hend⟩ := hr.take 1 one_pos (by omega) (by omega)
      (fun i e he => hq (pos + k + 1) (by omega) (by omega) i e he)
    refine ⟨events ++ takeEvents stream iss (pos + k) 1, ha.append hla, ?_⟩
    rwa [run_append]

/-- The table with one waiting byte of the stream. -/
def waitingByte (stream : List UInt8) (iss : UInt32) (off : ℕ) : Fin 8 → Option OutOfOrder :=
  update (fun _ => none) 0
    (some ⟨wordAt (iss + 1) off, ⟨false, false, false, true⟩, (stream.drop off).take 1⟩)

theorem waitingByte_some {off : ℕ} {i : Fin 8} {e : OutOfOrder}
    (h : waitingByte stream iss off i = some e) :
    i = 0 ∧ e = ⟨wordAt (iss + 1) off, ⟨false, false, false, true⟩, (stream.drop off).take 1⟩ := by
  by_cases hi : i = 0
  · subst hi
    exact ⟨rfl, by simpa [waitingByte] using h.symm⟩
  · simp [waitingByte, update_of_ne hi] at h

theorem ReadTo.wait (h : ReadTo stream iss (fun _ => none) pos t) :
    ReadTo stream iss (waitingByte stream iss (pos + 1)) pos
      (t.step (.segment (streamSegment stream iss (pos + 1) 1 false))) := by
  set s := streamSegment stream iss (pos + 1) 1 false with hs
  have haf : sequenceAfter s.sequence t.connection.receiver.receiveNext := by
    have hsub := wordAt_sub (iss + 1) (pos + 1 : ℕ) pos
    rw [h.receiver]
    change 0 < (wordAt _ _ - wordAt _ _).toNat ∧ (wordAt _ _ - wordAt _ _).toNat < _
    omega
  have hq : t.connection.receiver.queueOutOfOrder s =
      Receiver.idleAt (wordAt (iss + 1) pos) (waitingByte stream iss (pos + 1)) := by
    rw [h.receiver]
    unfold Receiver.queueOutOfOrder
    rw [if_neg (by simp only [hs, streamSegment, length_take]; omega)]
    rfl
  obtain ⟨hr, hst⟩ := Connection.tcpInput_established h.state (s := s) rfl
  rw [Receiver.inputPayload_ahead rfl rfl haf, hq] at hr
  rw [Receiver.inputPayload_ahead rfl rfl haf] at hst
  refine ⟨hst, hr, ?_, h.inside⟩
  simp [step, hr, Receiver.idleAt, h.output]

/-- The FIN takes `receive_next` to the number of a byte that was read `2^32` bytes ago and
still waits: it is merged and read once more. -/
theorem ReadTo.readAgain {off : ℕ} (hend : stream.length + 1 = off + 2 ^ 32)
    (h : ReadTo stream iss (waitingByte stream iss off) stream.length t) :
    (t.run [.segment (streamSegment stream iss stream.length 0 true), .read 1]).output.length =
      stream.length + 1 := by
  set s := streamSegment stream iss stream.length 0 true with hs
  have hem : s.payload = [] := by simp [hs, streamSegment]
  set past : Receiver := ⟨wordAt (iss + 1) (stream.length + 1 : ℕ), true, [], [], [],
    waitingByte stream iss off⟩ with ho
  have hb : ((stream.drop off).take 1).length = 1 := by
    simp only [length_take, length_drop]
    omega
  have hw : wordAt (iss + 1) off = past.receiveNext := by
    rw [ho, wordAt_eq_iff]
    omega
  -- The only merge there is takes the waiting byte, and nothing waits after it.
  have hm : past.mergeOutOfOrder.buffer = (stream.drop off).take 1 ∧
      past.mergeOutOfOrder.granted = [] := by
    have hap : past.appendReceive ((stream.drop off).take 1) =
        (true, { past with buffer := (stream.drop off).take 1 }) := by
      unfold Receiver.appendReceive
      rw [if_neg (by simp only [hb, ho, Receiver.grantSpace, map_nil, sum_nil, length_nil]; omega)]
      rfl
    obtain ⟨r₁, hrun, hl⟩ := past.mergeOutOfOrder_spec
    rcases hrun.cases_head with rfl | ⟨r₂, ⟨i, e, taken, hsl, -, htak, rfl⟩, hres⟩
    · exfalso
      have hsl : past.outOfOrder 0 = some ⟨wordAt (iss + 1) off, ⟨false, false, false, true⟩,
        (stream.drop off).take 1⟩ := by simp [ho, waitingByte]
      rcases hl with ⟨i, e, hi, -, hf⟩ | ⟨-, hse⟩
      · obtain ⟨-, rfl⟩ := waitingByte_some hi
        rw [hap] at hf
        cases hf
      · exact hse 0 _ hsl hw
    · obtain ⟨rfl, rfl⟩ := waitingByte_some hsl
      rw [hap] at htak
      cases htak
      generalize hr₂ : setSlot _ _ _ = r₂ at hres
      have htab : ∀ j, r₂.outOfOrder j = none := by
        intro j
        rw [← hr₂]
        by_cases hj : j = 0
        · subst hj
          simp [setSlot]
        · simp [setSlot, advance, ho, waitingByte]
      have hr₁ : r₁ = r₂ := by
        rcases hres.cases_head with rfl | ⟨_, ⟨j, e, _, hj, -⟩, -⟩
        · rfl
        · rw [htab j] at hj
          cases hj
      subst hr₁
      rcases hl with ⟨j, e, hj, -⟩ | ⟨heq, -⟩
      · rw [htab j] at hj
        cases hj
      · rw [heq, ← hr₂]
        exact ⟨rfl, rfl⟩
  have hp : (t.connection.receiver.inputPayload s).2 = past.mergeOutOfOrder := by
    rw [h.receiver, hs, Receiver.idleAt_inputPayload _ _ _ _ _ _ (Nat.zero_le _), ← hs, hem]
    rfl
  obtain ⟨hrec, -⟩ := Connection.tcpInput_established h.state (s := s) rfl
  rw [hp] at hrec
  have hne : (stream.drop off).take 1 ≠ [] := ne_nil_of_length_pos (by omega)
  simp only [run, foldl_cons, foldl_nil, step, Connection.receiveData, Receiver.receiveData, hrec,
    one_ne_zero, if_false, hm.1, hm.2, h.output, drop_nil]
  rw [if_neg hne]
  simp only [map_some, getD_some, take_length, append_nil, length_append, take_take, min_self, hb]

theorem exists_broken (stream : List UInt8) (iss : UInt32) (h : 2 ^ 32 ≤ stream.length) :
    ∃ events, AgreeingRun stream iss (start (established iss)) events ∧
      ¬ Integrity stream iss ((start (established iss)).run events) := by
  obtain ⟨n, hn⟩ : ∃ n, stream.length = n + 2 ^ 32 := ⟨stream.length - 2 ^ 32, by omega⟩
  have hs : ReadTo stream iss (fun _ => none) 0 (start (established iss)) := by
    refine ⟨rfl, ?_, by simp [start], by omega⟩
    change Receiver.fresh (iss + 1) = Receiver.idleAt (wordAt (iss + 1) (0 : ℤ)) _
    rw [wordAt_zero]
    rfl
  -- Up to `n`, then the byte at `n + 1` ahead of its turn.
  obtain ⟨first, hfir, hat⟩ := hs.takeBytes n (by omega) (by simp)
  rw [Nat.zero_add] at hat
  have hw := hat.wait
  have hea : AgreeingRun stream iss _ [.segment (streamSegment stream iss (n + 1) 1 false)] :=
    ⟨hat.agrees (.inr rfl) (by simp), trivial⟩
  -- A segment of two bytes overtakes it.
  have hq : ∀ j : ℕ, n + 1 < j → j ≤ stream.length → ∀ i e,
      waitingByte stream iss (n + 1) i = some e → e.sequence ≠ wordAt (iss + 1) j := by
    intro j hlo hhi i e he
    obtain ⟨-, rfl⟩ := waitingByte_some he
    rw [ne_eq, wordAt_eq_iff]
    omega
  obtain ⟨hpai, hpas⟩ := hw.take 2 (by omega) (by omega) (by omega)
    (hq (n + 2) (by omega) (by omega))
  obtain ⟨rest, hr, hla⟩ := hpas.takeBytes (2 ^ 32 - 2) (by omega)
    (fun j hlo hhi => hq j (by omega) (by omega))
  have hlen : n + 2 + (2 ^ 32 - 2) = stream.length := by omega
  rw [hlen] at hla
  have hfin := hla.readAgain (by omega)
  have hc : AgreeingRun stream iss _
      [.segment (streamSegment stream iss stream.length 0 true), .read 1] :=
    ⟨hla.agrees (.inl rfl) (fun _ => Nat.add_zero _), trivial⟩
  refine ⟨first ++ ([_] ++ (takeEvents stream iss n 2 ++ (rest ++ [_, _]))),
    hfir.append (hea.append (hpai.append (hr.append hc))), ?_⟩
  intro hi
  have hs := hi.1.length_le
  rw [run_append, run_append, run_append, run_append] at hs
  have hbad : stream.length + 1 ≤ stream.length := by
    rw [← hfin]
    exact hs
  omega

/-- The bytes an application receives are a prefix of the peer's stream, and the sequence
number counts them, in every run exactly when the stream is shorter than the number space. -/
theorem streamIntegrity_iff (stream : List UInt8) (iss : UInt32) :
    (∀ c events, Synchronised iss c → AgreeingRun stream iss (start c) events →
      Integrity stream iss ((start c).run events)) ↔ stream.length < 2 ^ 32 := by
  constructor
  · intro hall
    by_contra hl
    obtain ⟨events, hag, hb⟩ := exists_broken stream iss (Nat.not_lt.mp hl)
    exact hb (hall (established iss) events ⟨by simp [established], rfl⟩ hag)
  · intro hshort c events hc hag
    exact ((Follows.start hc).run hshort events hag).integrity

/-- A stream of `2^32` zero bytes whose reader gets one byte too many. -/
theorem zeroStream_readAgain :
    ∃ events, AgreeingRun (List.replicate (2 ^ 32) 0) 0 (start (established 0)) events ∧
      ¬ Integrity (List.replicate (2 ^ 32) 0) 0 ((start (established 0)).run events) :=
  exists_broken _ 0 (by rw [length_replicate])

/-- Once a SYN opened the connection, or a SYN and ACK answered ours, the application gets a
prefix of the stream. -/
theorem opened_delivers_stream (stream : List UInt8) (s : SegmentView)
    (hshort : stream.length < 2 ^ 32) :
    (∀ (ctx ctx' : Context) (listener : Fin 32) (source destination isn : UInt32),
      ctx.openPassive listener source destination s isn = (true, ctx') →
      ∃ i, (ctx.connections i).active = false ∧ ∀ events,
        AgreeingRun stream s.sequence (start (ctx'.connections i)) events →
        Integrity stream s.sequence ((start (ctx'.connections i)).run events)) ∧
    ∀ (c : Connection) (next : UInt32) (events : List Event), c.state = .synSent →
      c.receiver = Receiver.fresh next → s.flags = ⟨false, true, false, true⟩ →
      s.acknowledgement = c.sendNext →
        AgreeingRun stream s.sequence (start (c.tcpInput s).2) events →
      Integrity stream s.sequence ((start (c.tcpInput s).2).run events) := by
  refine ⟨fun ctx ctx' listener source destination isn ho => ?_,
    fun c next events hst hr hfl hn hag => ?_⟩
  · obtain ⟨i, hfr, hsy⟩ := synchronised_of_openPassive ho
    exact ⟨i, hfr, fun events hag =>
      ((Follows.start hsy).run hshort events hag).integrity⟩
  · have hsy := synchronised_of_synAck hst hr (by rw [hfl]) (by rw [hfl])
      (by rw [hfl]) hn
    exact ((Follows.start hsy).run hshort events hag).integrity

/-- The handshake ends, and the second byte of two comes before the first. -/
def swapped : List Event :=
  [.segment (streamSegment [7, 8] 0 0 0 false), .segment (streamSegment [7, 8] 0 1 1 false),
    .segment (streamSegment [7, 8] 0 0 1 false), .read 2]

theorem swapped_agrees {t : Trace} (h : t.position 0 ≤ 2 ^ 30)
    (h' : (t.run (swapped.take 1)).position 0 ≤ 2 ^ 30)
    (h'' : (t.run (swapped.take 2)).position 0 ≤ 2 ^ 30) : AgreeingRun [7, 8] 0 t swapped := by
  have hn {off pos count : ℕ} (hoff : off ≤ 1) (hpos : pos ≤ 2 ^ 30) :
      Agrees [7, 8] 0 pos (streamSegment [7, 8] 0 off count false) := by
    refine .inr ⟨off, rfl, ?_, streamSegment_carries _ 0 off count false nofun⟩
    rw [abs_le]
    omega
  exact ⟨hn zero_le_one h, hn le_rfl h', hn zero_le_one h'', trivial⟩

/-- Listeners with room for one connection, in every slot but one. -/
def oneFree : Context :=
  ⟨fun i => { established 0 with active := i ≠ 1, state := .listen, listenBacklog := 1 }⟩

/-- A SYN, or a SYN and ACK, with the number 0. -/
def opening (ack : Bool) : SegmentView :=
  { streamSegment [] 0 0 0 false with sequence := 0, flags := ⟨false, true, false, ack⟩ }

theorem opened_delivers_stream_read :
    let passive := ((oneFree.openPassive 0 2 1 (opening false) (-1)).2.connections 1)
    let answered := (Connection.tcpInput { established 0 with state := .synSent } (opening true)).2
    (Integrity [7, 8] 0 ((start passive).run swapped) ∧
        ((start passive).run swapped).output = [7, 8]) ∧
      Integrity [7, 8] 0 ((start answered).run swapped) ∧
        ((start answered).run swapped).output = [7, 8] := by
  refine ⟨⟨?_, by decide +kernel⟩, ?_, by decide +kernel⟩
  · obtain ⟨i, hf, hd⟩ := (opened_delivers_stream [7, 8] (opening false)
      (by decide)).1 oneFree _ 0 2 1 (-1) rfl
    obtain rfl : i = 1 := by simpa [oneFree] using hf
    exact hd swapped
      (swapped_agrees (by decide +kernel) (by decide +kernel) (by decide +kernel))
  · exact (opened_delivers_stream [7, 8] (opening true) (by decide)).2 _ 1 swapped rfl rfl rfl rfl
      (swapped_agrees (by decide +kernel) (by decide +kernel) (by decide +kernel))

end Trace

end MichCore.Tcp
