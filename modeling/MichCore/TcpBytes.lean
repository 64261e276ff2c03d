import MichCore.SerialNumber
import MichCore.TcpLog

/-!
# Sequence numbers name bytes

Queued bytes are cut into segments from the front, and each segment keeps its place through
acknowledgements, resends and the cut that a smaller path MTU makes. A byte that is sent at
number `q` is the byte of the queue at a position that is `q - isn - 1` modulo `2^32`.
-/
namespace MichCore.Tcp

open Endpoint SerialNumber Function List

/-- The states in which bytes can still be cut into segments, now or later. -/
def TcpState.filling : TcpState → Bool
  | .synSent | .synReceived | .established | .closeWait => true
  | _ => false

variable {s : Segment}

namespace Sender

/-- A segment with bytes stands at `position` of the queue, when `count` bytes of the queue
are in segments. -/
structure Held (isn : UInt32) (queued : List UInt8) (count : ℕ) (finOut : Bool) (position : ℕ)
    (p : Piece) : Prop where
  sequence : p.sequence = wordAt isn (1 + position)
  endSequence : p.endSequence =
    wordAt isn (1 + position + p.data.length + p.flags.fin.toNat)
  data : p.data <+: queued.drop position
  short : p.data.length ≤ 1460
  before : position + p.data.length ≤ count
  near : count ≤ position + p.data.length + 2 ^ 17
  fin : p.flags.fin → finOut ∧ position + p.data.length = count

/-- What holds as long as more bytes can be cut. -/
structure Filling (queued : List UInt8) (x : Sender) (count : ℕ) (finOut : Bool)
    (place : Fin 8 → ℕ) : Prop where
  fin : finOut = false
  unsent : x.unsent = queued.drop count
  le : count ≤ queued.length
  ahead : x.flight.toNat < 2 ^ 31 → ∀ i p, x.pieces i = some p → p.data ≠ [] →
    count ≤ place i + p.data.length + x.flight.toNat

/-- Each segment of the table has its place in the queue. -/
structure Placed (isn : UInt32) (queued : List UInt8) (x : Sender) (count : ℕ)
    (finOut : Bool) (place : Fin 8 → ℕ) : Prop where
  next : x.sendNext = wordAt isn (1 + count + finOut.toNat)
  window : x.sendWindow.toNat ≤ 65535
  offset : x.sendBufferOffset ≤ x.sendBuffer.length
  held : ∀ i p, x.pieces i = some p → p.data ≠ [] → Held isn queued count finOut (place i) p
  apart : ∀ i k p q, i ≠ k → x.pieces i = some p → x.pieces k = some q → p.data ≠ [] →
    q.data ≠ [] → place i + p.data.length ≤ place k ∨ place k + q.data.length ≤ place i
  filling : x.state.filling → Filling queued x count finOut place
  opening : x.state = .synSent ∨ x.state = .synReceived → queued = []

variable {isn : UInt32} {queued : List UInt8} {x y : Sender} {count : ℕ} {finOut : Bool}
  {place : Fin 8 → ℕ}

theorem Placed.fewer (h : x.Placed isn queued count finOut place) (hn : y.sendNext = x.sendNext)
    (hw : y.sendWindow.toNat ≤ 65535) (hof : y.sendBufferOffset ≤ y.sendBuffer.length)
    (hpi : ∀ i p, y.pieces i = some p → x.pieces i = some p)
    (hf : y.state.filling → Filling queued y count finOut place)
    (hop : y.state = .synSent ∨ y.state = .synReceived → queued = []) :
    y.Placed isn queued count finOut place where
  next := hn.trans h.next
  window := hw
  offset := hof
  held i p hp := h.held i p (hpi i p hp)
  apart i k p q hik hp hq := h.apart i k p q hik (hpi i p hp) (hpi k q hq)
  filling := hf
  opening := hop

theorem Placed.retune (h : x.Placed isn queued count finOut place) (mss : UInt16) (fin : Bool) :
    ({ x with remoteMss := mss, sendFin := fin } : Sender).Placed
      isn queued count finOut place := by
  refine h.fewer rfl h.window h.offset (fun i p hp => hp) (fun hf => ?_) h.opening
  obtain ⟨hfin, hu, hle, ha⟩ := h.filling hf
  exact ⟨hfin, hu, hle, ha⟩

theorem not_filling_closed : ¬ TcpState.closed.filling := by decide

theorem Placed.shut (h : x.Placed isn queued count finOut place) (hn : y.sendNext = x.sendNext)
    (hw : y.sendWindow = x.sendWindow) (ho : y.sendBufferOffset ≤ y.sendBuffer.length)
    (hp : ∀ i p, y.pieces i = some p → x.pieces i = some p) (hs : y.state = .closed) :
    y.Placed isn queued count finOut place := by
  refine h.fewer hn (hw ▸ h.window) ho hp ?_ ?_
  · rw [hs]
    exact fun h => absurd h not_filling_closed
  · rw [hs]
    rintro (h | h) <;> cases h

variable {i : Fin 8} {p : Piece}

section

variable (h : x.Placed isn queued count finOut place)
include h

theorem Placed.ahead_of_after (hfin : finOut = false)
    {una : UInt32} (hp : x.pieces i = some p) (hda : p.data ≠ [])
    (haf : sequenceAfter p.endSequence una) (hne : (x.sendNext - una).toNat < 2 ^ 31) :
    count ≤ place i + p.data.length + (x.sendNext - una).toNat := by
  have hh := h.held i p hp hda
  have hbe := hh.before
  have hc := hh.near
  have hno : p.flags.fin = false := by
    by_contra hset
    exact absurd (hh.fin (by simpa using hset)).1 (by simp [hfin])
  have hdi : ((x.sendNext - p.endSequence).toNat : ℤ) =
      (count - (place i + p.data.length : ℤ)) % 2 ^ 32 := by
    rw [h.next, hh.endSequence, wordAt_sub, hfin, hno]
    congr 1
    simp
    omega
  have hvia := sub_via x.sendNext p.endSequence una
  have hba := sub_via p.endSequence p.endSequence x.sendNext
  have huna := sub_via una una x.sendNext
  simp only [UInt32.sub_self, UInt32.toNat_zero] at hba huna
  unfold sequenceAfter at haf
  omega

theorem Placed.hear (s : Segment) : (x.hear s).Placed isn queued count finOut place := by
  obtain ⟨una, mss, pieces, heq, hpi⟩ := x.hear_eq s
  rw [heq]
  have hw : s.window.toUInt32.toNat ≤ 65535 := by
    have := s.window.toNat_lt
    simp
    omega
  refine h.fewer rfl hw h.offset (fun i p hp => (hpi i p hp).1) ?_ h.opening
  intro hs
  obtain ⟨hfin, hu, hle, hah⟩ := h.filling hs
  refine ⟨hfin, hu, hle, fun hn i p hp hd => ?_⟩
  obtain ⟨hp', rfl | haf⟩ := hpi i p hp
  · exact hah hn i p hp' hd
  · exact h.ahead_of_after hfin hp' hd haf hn

theorem Placed.no_data
    (ho : x.state = .synSent ∨ x.state = .synReceived) (hp : x.pieces i = some p) :
    p.data = [] := by
  by_contra hd
  have hf : x.state.filling := by rcases ho with h | h <;> rw [h] <;> rfl
  have hle := (h.filling hf).le
  have hb := (h.held i p hp hd).before
  rw [h.opening ho, length_nil] at hle
  have := length_pos_iff.mpr hd
  omega

end

theorem moves_filling {acked : Prop} {state state' : TcpState} (h : Moves acked state state')
    (hf : state'.filling) : state.filling := by
  cases h <;> exact hf

theorem moves_opening {acked : Prop} {state state' : TcpState} (h : Moves acked state state')
    (ho : state' = .synSent ∨ state' = .synReceived) :
    state = .synSent ∨ state = .synReceived := by
  cases h <;> first | exact ho | (rcases ho with h | h <;> cases h)

theorem Placed.input (h : x.Placed isn queued count finOut place) (hi : x.Input s y) :
    y.Placed isn queued count finOut place := by
  cases hi with
  | ignored => exact h
  | reset => exact h.shut rfl rfl h.offset (fun i p hp => hp) rfl
  | synchronized hrst hac hs =>
    have hh := h.hear s
    have hk := x.hear_state s
    have hfilli : (x.hear s).state.filling := by
      rw [hk]
      rcases hs with h | h <;> rw [h] <;> rfl
    have hfill := hh.filling hfilli
    refine hh.fewer rfl hh.window hh.offset (fun i p hp => hp) (fun _ => ?_) ?_
    · refine ⟨hfill.fin, hfill.unsent, hfill.le, fun _ i p hp hd => ?_⟩
      exact absurd (hh.no_data (hk ▸ hs) hp) hd
    · rintro (h | h) <;> cases h
  | heard state hrst hm =>
    have hh := h.hear s
    have hk := x.hear_state s
    refine hh.fewer rfl hh.window hh.offset (fun i p hp => hp) (fun hf => ?_) ?_
    · obtain ⟨hfin, hu, hle, hah⟩ :=
        hh.filling (by rw [hk]; exact moves_filling hm hf)
      exact ⟨hfin, hu, hle, hah⟩
    · exact fun ho => h.opening (moves_opening hm ho)

theorem sends_filling (h : x.Sends) : x.state.filling := by
  rcases h with h | h <;> rw [h] <;> rfl

theorem sends_not_opening (h : x.Sends) : ¬ (x.state = .synSent ∨ x.state = .synReceived) := by
  rcases h with h | h <;> rw [h] <;> decide

theorem Held.append {position : ℕ} (h : Held isn queued count finOut position p)
    (bytes : List UInt8) : Held isn (queued ++ bytes) count finOut position p := by
  refine ⟨h.sequence, h.endSequence, ?_, h.short, h.before, h.near, h.fin⟩
  exact h.data.trans (List.IsPrefix.drop (prefix_append _ _) _)

theorem Placed.queue (h : x.Placed isn queued count finOut place) (hse : x.Sends)
    {bytes : List UInt8} (hn : y.sendNext = x.sendNext)
    (huna : y.sendUnacknowledged = x.sendUnacknowledged) (hw : y.sendWindow = x.sendWindow)
    (hpi : y.pieces = x.pieces) (hst : y.state = x.state)
    (hof : y.sendBufferOffset ≤ y.sendBuffer.length) (huns : y.unsent = x.unsent ++ bytes) :
    y.Placed isn (queued ++ bytes) count finOut place := by
  have hfi := h.filling (sends_filling hse)
  refine ⟨hn.trans h.next, hw ▸ h.window, hof, ?_, ?_, fun _ => ?_, ?_⟩
  · intro i p hp hd
    exact (h.held i p (hpi ▸ hp) hd).append bytes
  · rw [hpi]
    exact h.apart
  · refine ⟨hfi.fin, ?_, ?_, ?_⟩
    · rw [huns, hfi.unsent, drop_append_of_le_length hfi.le]
    · have := hfi.le
      rw [length_append]
      omega
    · have hfl : y.flight = x.flight := by rw [Sender.flight, hn, huna, Sender.flight]
      rw [hfl, hpi]
      exact hfi.ahead
  · rw [hst]
    exact fun hop => absurd hop (sends_not_opening hse)

theorem finState_not_filling (x : Sender) : ¬ x.finState.filling := by
  unfold Sender.finState
  split <;> decide

theorem finState_not_opening (x : Sender) :
    ¬ (x.finState = .synSent ∨ x.finState = .synReceived) := by
  unfold Sender.finState
  split <;> decide

/-- One entry of the table is replaced; the segments of the others end before it. -/
theorem Placed.set {q : Piece} {count' : ℕ} {finOut' : Bool} {place' : Fin 8 → ℕ}
    (h : x.Placed isn queued count finOut place) (hpi : y.pieces = update x.pieces i (some q))
    (hpl : ∀ k, k ≠ i → place' k = place k)
    (hnew : q.data ≠ [] → Held isn queued count' finOut' (place' i) q)
    (hold : ∀ k r, k ≠ i → x.pieces k = some r → r.data ≠ [] →
      Held isn queued count' finOut' (place k) r ∧
        (q.data ≠ [] → place k + r.data.length ≤ place' i))
    (hnex : y.sendNext = wordAt isn (1 + count' + finOut'.toNat))
    (hw : y.sendWindow = x.sendWindow) (hof : y.sendBufferOffset ≤ y.sendBuffer.length)
    (hf : y.state.filling → Filling queued y count' finOut' place')
    (hop : y.state = .synSent ∨ y.state = .synReceived → queued = []) :
    y.Placed isn queued count' finOut' place' := by
  refine ⟨hnex, hw ▸ h.window, hof, ?_, ?_, hf, hop⟩
  · intro k r hr hne
    rcases update_pieces (hpi ▸ hr) with ⟨rfl, ⟨⟩⟩ | ⟨hk, hr'⟩
    · exact hnew hne
    · rw [hpl k hk]
      exact (hold k r hk hr' hne).1
  · intro k m r u hkm hr hu hrne hune
    rcases update_pieces (hpi ▸ hr) with ⟨rfl, ⟨⟩⟩ | ⟨hk, hr'⟩
    · rcases update_pieces (hpi ▸ hu) with ⟨rfl, -⟩ | ⟨hm, hu'⟩
      · exact absurd rfl hkm
      · rw [hpl m hm]
        exact .inr ((hold m u hm hu' hune).2 hrne)
    · rw [hpl k hk]
      rcases update_pieces (hpi ▸ hu) with ⟨rfl, ⟨⟩⟩ | ⟨hm, hu'⟩
      · exact .inl ((hold k r hk hr' hrne).2 hune)
      · rw [hpl m hm]
        exact h.apart k m r u hkm hr' hu' hrne hune

theorem ofBool_toNat (b : Bool) : (if b then 1 else 0 : UInt32) = UInt32.ofNat b.toNat := by
  cases b <;> rfl

theorem Placed.sent_data (h : x.Placed isn queued count finOut place) {length : ℕ} {last : Bool}
    (hsen : x.Sends) (hlen : length ≤ x.unsent.length) (hmax : length ≤ 1460)
    (hwind : x.flight.toNat + length ≤ x.sendWindow.toNat)
    (hp : y.pieces = update x.pieces i (some (x.dataPiece length last)))
    (hnex : y.sendNext = (x.dataPiece length last).endSequence)
    (huns : y.unsent = x.unsent.drop length) (hof : y.sendBufferOffset ≤ y.sendBuffer.length)
    (hst : y.state = if last then x.finState else x.state)
    (huna : y.sendUnacknowledged = x.sendUnacknowledged) (hwin : y.sendWindow = x.sendWindow) :
    y.Placed isn queued (count + length) last (update place i count) := by
  have hfil := h.filling (sends_filling hsen)
  have hwind' := h.window
  have hd : (x.dataPiece length last).data.length = length := by
    simp only [dataPiece, length_take]
    omega
  have hend : (x.dataPiece length last).endSequence =
      wordAt isn (1 + (count + length : ℕ) + last.toNat) := by
    simp only [dataPiece, h.next, hfil.fin, ofBool_toNat, wordAt_add]
    congr 1
    simp
    omega
  have hah := hfil.ahead (by omega)
  refine h.set hp (fun k hk => update_of_ne hk _ _) (fun _ => ?_) (fun k q hk hq hne => ?_)
    (hnex.trans hend) hwin hof ?_ ?_
  · rw [update_self]
    refine ⟨?_, ?_, ?_, hd.trans_le hmax, ?_, ?_, ?_⟩
    · simp only [dataPiece, h.next, hfil.fin]
      simp
    · rw [hend, hd]
      congr 1
      simp [dataPiece]
      omega
    · rw [← hfil.unsent]
      exact take_prefix _ _
    · rw [hd]
    · rw [hd]
      omega
    · intro hfin
      exact ⟨hfin, by rw [hd]⟩
  · have hh := h.held k q hq hne
    have hk' := hah k q hq hne
    have hb := hh.before
    refine ⟨⟨hh.sequence, hh.endSequence, hh.data, hh.short, by omega, by omega,
      fun hfin => ?_⟩, fun _ => by rwa [update_self]⟩
    exact absurd (hh.fin hfin).1 (by simp [hfil.fin])
  · intro hf
    have hopen : last = false := by
      by_contra hset
      rw [Bool.not_eq_false] at hset
      rw [hst, if_pos hset] at hf
      exact finState_not_filling x hf
    have hfl : y.flight.toNat = x.flight.toNat + length := by
      have hsub : y.flight = x.flight + UInt32.ofNat length := by
        simp only [Sender.flight, hnex, huna, dataPiece, hopen]
        grind
      rw [hsub, UInt32.toNat_add, UInt32.toNat_ofNat']
      omega
    have hqu : x.unsent.length = queued.length - count := by
      rw [hfil.unsent, length_drop]
    have hle := hfil.le
    refine ⟨hopen, ?_, by omega, fun _ k q hq hne => ?_⟩
    · rw [huns, hfil.unsent, drop_drop]
    · rw [hp] at hq
      rw [hfl]
      rcases update_pieces hq with ⟨rfl, ⟨⟩⟩ | ⟨hk, hq'⟩
      · rw [update_self, hd]
        omega
      · rw [update_of_ne hk]
        have := hah k q hq' hne
        omega
  · intro hopeni
    exfalso
    rw [hst] at hopeni
    split at hopeni
    · exact finState_not_opening x hopeni
    · exact sends_not_opening hsen hopeni

theorem Placed.sent (h : x.Placed isn queued count finOut place) (hsent : x.Sent y) :
    ∃ count finOut place, y.Placed isn queued count finOut place := by
  cases hsent with
  | nothing => exact ⟨count, finOut, place, h⟩
  | syn i hst hno =>
    refine ⟨count, finOut, place, h.set rfl (fun _ _ => rfl) (absurd rfl)
      (fun k q _ hq => absurd hq (by simp [hno])) h.next rfl h.offset (fun hf => ?_) h.opening⟩
    obtain ⟨hfin, hu, hle, hah⟩ := h.filling hf
    refine ⟨hfin, hu, hle, fun hnea k p hp hd => ?_⟩
    rcases update_pieces hp with ⟨-, ⟨⟩⟩ | ⟨-, hp'⟩
    · exact absurd rfl hd
    · exact absurd hp' (by simp [hno])
  | fin i hsend hfin he hfr =>
    have hfil := h.filling (sends_filling hsend)
    refine ⟨count, true, place, h.set rfl (fun _ _ => rfl) (absurd rfl)
      (fun k q _ hq hne => ⟨?_, absurd rfl⟩) ?_ rfl h.offset
      (fun hf => absurd hf (finState_not_filling x))
      fun hop => absurd hop (finState_not_opening x)⟩
    · have hh := h.held k q hq hne
      exact ⟨hh.sequence, hh.endSequence, hh.data, hh.short, hh.before, hh.near,
        fun hset => ⟨rfl, (hh.fin hset).2⟩⟩
    · simp only [h.next, hfil.fin]
      exact wordAt_add _ _ 1
  | data i length last y hsend hpos hlen hmax hw hla hfr hpi hnex hu hof
      hst hr =>
    exact ⟨_, _, _, h.sent_data hsend hlen hmax hw hpi hnex hu
      (hof h.offset) hst hr.1 hr.2.1⟩

theorem rewind_unsent (hl : x.loans = []) (ho : x.sendBufferOffset ≤ x.sendBuffer.length) :
    (x.rewind i p).unsent = p.data.drop x.remoteMss.toNat ++ x.unsent := by
  have ht : (x.sendBuffer.take x.sendBufferOffset).length = x.sendBufferOffset := by
    rw [length_take]
    omega
  simp only [rewind, Sender.unsent, setPiece, hl, map_nil, flatten_nil, append_nil, append_assoc]
  exact drop_left' ht

/-- The segment that is cut is the last one, so its tail goes back in front of what waits. -/
theorem Placed.rewind (h : x.Placed isn queued count finOut place) (hp : x.pieces i = some p)
    (hrew : x.Rewinds p) :
    (x.rewind i p).Placed isn queued (place i + x.remoteMss.toNat) false place := by
  obtain ⟨hlon, hloa, hnew, -⟩ := hrew
  have hda : p.data ≠ [] := length_pos_iff.mp (by omega)
  have hheld := h.held i p hp hda
  have hbe := hheld.before
  have hcl := hheld.near
  have hwo := hnew
  rw [h.next, hheld.endSequence, wordAt_eq_iff] at hwo
  have hla : count = place i + p.data.length ∧ finOut = p.flags.fin := by
    cases hset : p.flags.fin with
    | true =>
      obtain ⟨hout, hcount⟩ := hheld.fin hset
      exact ⟨hcount.symm, hout⟩
    | false =>
      rw [hset] at hwo
      cases finOut with
      | true =>
        simp at hwo
        omega
      | false =>
        simp at hwo
        exact ⟨by omega, rfl⟩
  obtain ⟨hcount, hout⟩ := hla
  have hsp : queued.drop (place i) = p.data ++ queued.drop count := by
    obtain ⟨rest, hres⟩ := hheld.data
    rw [hcount, ← drop_drop, ← hres, drop_left]
  have hdr : queued.drop (place i + x.remoteMss.toNat) =
      p.data.drop x.remoteMss.toNat ++ queued.drop count := by
    rw [← drop_drop, hsp, drop_append_of_le_length (by omega)]
  have hke : (p.data.take x.remoteMss.toNat).length = x.remoteMss.toNat := by
    rw [length_take]
    omega
  have hshort := hheld.short
  have hnex : (x.rewind i p).sendNext = wordAt isn (1 + (place i + x.remoteMss.toNat : ℕ)) := by
    have hwh : (1 + count + finOut.toNat : ℤ) = 1 + (place i + x.remoteMss.toNat : ℕ) +
        (p.data.length - x.remoteMss.toNat : ℕ) + p.flags.fin.toNat := by
      rw [hcount, hout]
      omega
    simp only [Sender.rewind, setPiece, ofBool_toNat, h.next, hwh, wordAt_sub_ofNat]
  -- Every other segment ends before this one starts.
  have hot : ∀ k q, k ≠ i → x.pieces k = some q → q.data ≠ [] →
      place k + q.data.length ≤ place i := by
    intro k q hk hq hne
    have hq' := (h.held k q hq hne).before
    have hpos := length_pos_iff.mpr hne
    rcases h.apart k i q p hk hq hp hne hda with h | h <;> omega
  refine h.set rfl (fun _ _ => rfl) (fun _ => ?_) (fun k q hk hq hne => ?_) ?_ rfl ?_ ?_ h.opening
  · refine ⟨hheld.sequence, ?_, (List.take_prefix _ _).trans hheld.data, ?_, ?_, ?_, ?_⟩
    · simp only [hheld.sequence, hke, wordAt_add]
      congr 1
    · simp only [hke]
      omega
    · simp only [hke, Nat.le_refl]
    · simp only [hke]
      omega
    · exact fun hfin => absurd hfin Bool.false_ne_true
  · have hheldq := h.held k q hq hne
    have hend := hot k q hk hq hne
    have hnearq := hheldq.near
    refine ⟨⟨hheldq.sequence, hheldq.endSequence, hheldq.data, hheldq.short, by omega, by omega,
      fun hfin => ?_⟩, fun _ => hend⟩
    have := (hheldq.fin hfin).2
    have := length_pos_iff.mpr hda
    omega
  · rw [hnex]
    simp
  · have hof := h.offset
    simp only [Sender.rewind, setPiece, length_append, length_take, length_drop]
    omega
  · intro hf
    obtain ⟨hfin, hu, hle, hah⟩ := h.filling hf
    refine ⟨rfl, ?_, by omega, fun hnear k q hq hne => ?_⟩
    · rw [rewind_unsent hloa h.offset, hdr, hu]
    · rcases update_pieces hq with ⟨rfl, ⟨⟩⟩ | ⟨hk, hq'⟩
      · simp only [hke]
        omega
      have hnearq := (h.held k q hq' hne).near
      have hend := hot k q hk hq' hne
      have hfl : x.flight.toNat =
          (x.rewind i p).flight.toNat + (p.data.length - x.remoteMss.toNat) := by
        have hba : x.sendNext = (x.rewind i p).sendNext +
            UInt32.ofNat (p.data.length - x.remoteMss.toNat) := by
          rw [hnex, wordAt_add, h.next, hfin, hcount]
          congr 1
          simp
          omega
        have hsum : x.flight = (x.rewind i p).flight +
            UInt32.ofNat (p.data.length - x.remoteMss.toNat) := by
          unfold Sender.flight
          rw [hba]
          change _ - x.sendUnacknowledged = _ - x.sendUnacknowledged + _
          grind
        rw [hsum, UInt32.toNat_add, UInt32.toNat_ofNat']
        omega
      -- A flight that long leaves the whole table behind `send_next` anyway.
      by_cases hlt : x.flight.toNat < 2 ^ 31
      · have := hah hlt k q hq' hne
        omega
      · omega

theorem Placed.resent (h : x.Placed isn queued count finOut place) (hp : x.pieces i = some p)
    (hres : x.Resent i p y) : ∃ count finOut, y.Placed isn queued count finOut place := by
  cases hres with
  | whole mss => exact ⟨count, finOut, h.retune mss x.sendFin⟩
  | shortened mss hmss hrew => exact ⟨_, _, (h.retune mss x.sendFin).rewind hp hrew⟩

theorem Started.placed (h : x.Started) : x.Placed (x.sendNext - 1) [] 0 false (fun _ => 0) := by
  have hn : x.sendNext = wordAt (x.sendNext - 1) (1 + (0 : ℕ) + false.toNat) := by
    have hone := wordAt_add (x.sendNext - 1) 0 1
    rw [wordAt_zero] at hone
    have hba : x.sendNext - 1 + UInt32.ofNat 1 = x.sendNext := UInt32.sub_add_cancel _ _
    rw [hba] at hone
    exact hone
  have hbl : x.Blank := by cases h <;> assumption
  have he : ∀ i p, x.pieces i = some p → p.data = [] := by
    intro i p hp
    cases h with
    | listening _ _ _ hpi | connecting _ _ _ hpi => rw [hpi] at hp; cases hp
    | answering _ _ _ k hpi =>
      rw [hpi] at hp
      rcases update_pieces hp with ⟨-, ⟨⟩⟩ | ⟨-, ⟨⟩⟩
      rfl
  refine ⟨hn, hbl.sendWindow, ?_, ?_, ?_, fun _ => ⟨rfl, ?_, Nat.le_refl _, ?_⟩, fun _ => rfl⟩
  · rw [hbl.sendBufferOffset]
    exact Nat.zero_le _
  · exact fun i p hp hd => absurd (he i p hp) hd
  · exact fun i k p q _ hp _ hd => absurd (he i p hp) hd
  · simp [Sender.unsent, hbl.sendBuffer, hbl.loans]
  · exact fun _ i p hp hd => absurd (he i p hp) hd

end Sender

namespace Log

/-- Each byte that was sent is the byte of the queue that its sequence number names. -/
def Honest (log : Log) : Prop :=
  ∀ q b, (q, b) ∈ log.sent → ∃ n : ℕ, q = wordAt log.isn (1 + n) ∧ log.queued[n]? = some b

/-- Every segment in the table stands in the queue. -/
def Describes (log : Log) (x : Sender) : Prop :=
  ∃ count finOut place, x.Placed log.isn log.queued count finOut place

end Log

namespace Stack

variable {call : Call} {j : Fin 32} {log : Log} {stack : Stack} {x : Sender} {b : UInt8}
  {n : UInt32} {c : Endpoint} {env : Env}

theorem changes_describes {y : Sender} {bytes : List UInt8} (h : Changes stack call j x bytes y)
    (hlog : log.Describes x) : ({ log with queued := log.queued ++ bytes } : Log).Describes y := by
  obtain ⟨count, finOut, place, hpl⟩ := hlog
  have hsa : ({ log with queued := log.queued ++ [] } : Log) = log := by
    rw [append_nil]
  cases h with
  | queued data hsend hfin hloa =>
    refine ⟨count, finOut, place, hpl.queue hsend rfl rfl rfl rfl rfl ?_ ?_⟩
    · exact hpl.offset.trans (by simp)
    · simp only [Sender.unsent, hloa, map_nil, flatten_nil, append_nil]
      exact drop_append_of_le_length hpl.offset
  | lent loan hsend hfin hpo =>
    refine ⟨count, finOut, place, hpl.queue hsend rfl rfl rfl rfl rfl hpl.offset ?_⟩
    simp [Sender.unsent, Loan.rest, hpo]
  | same =>
    rw [hsa]
    exact ⟨count, finOut, place, hpl⟩
  | slower mss hmss =>
    rw [hsa]
    exact ⟨count, finOut, place, hpl.retune mss x.sendFin⟩
  | input s ht y hi =>
    rw [hsa]
    exact ⟨count, finOut, place, hpl.input hi⟩
  | sent y hsent =>
    rw [hsa]
    exact hpl.sent hsent
  | closing y hsend hfin hsent =>
    rw [hsa]
    exact (hpl.retune x.remoteMss true).sent hsent
  | resent i p y hpi hfir hr =>
    rw [hsa]
    obtain ⟨count, finOut, hpl⟩ := hpl.resent hpi hr
    exact ⟨count, finOut, place, hpl⟩
  | exhausted i =>
    rw [hsa]
    refine ⟨count, finOut, place, hpl.shut rfl rfl hpl.offset (fun k p hp => ?_) rfl⟩
    rcases Sender.update_pieces hp with ⟨-, ⟨⟩⟩ | ⟨-, hp⟩
    exact hp
  | aborted =>
    rw [hsa]
    exact ⟨count, finOut, place, hpl.shut rfl rfl hpl.offset
      (fun k p hp => by cases hp) rfl⟩

theorem transmit_placed {t : Transmit} (h : (stack.perform call).1.transmit = some t)
    (hid : stack.byId t.connectionId = some j)
    (hbe : log.Describes (stack.connections j).sender)
    (haf : ((stack.perform call).2.connections j).active →
      log.Describes ((stack.perform call).2.connections j).sender)
    (hd : t.segment.payload ≠ []) :
    ∃ n : ℕ, t.segment.sequence = wordAt log.isn (1 + n) ∧
      t.segment.payload <+: log.queued.drop n := by
  obtain ⟨k, hk, hpa⟩ := perform_transmit h
  obtain rfl : k = j := Option.some.inj (hk.symm.trans hid)
  rcases hpa with hnil | ⟨hsen, hseq, hst⟩ | ⟨hac, i, e, he, hseq, hby⟩
  · exact absurd hnil hd
  · obtain ⟨count, finOut, place, hpl⟩ := hbe
    obtain ⟨hfin, hu, -, -⟩ := hpl.filling (Sender.sends_filling hsen)
    refine ⟨count, ?_, ?_⟩
    · rw [hseq]
      refine Eq.trans hpl.next ?_
      rw [hfin]
      simp
    · rwa [← hu]
  · obtain ⟨count, finOut, place, hpl⟩ := haf hac
    have hpi : ((stack.perform call).2.connections k).sender.pieces i = some e.piece := by
      simp [sender, he]
    have hh := hpl.held i e.piece hpi (by rw [hby] at hd; exact hd)
    refine ⟨place i, ?_, ?_⟩
    · rw [hseq]
      exact hh.sequence
    · rw [hby]
      exact hh.data

theorem accepts_of_transmit {t : Transmit} (h : (stack.perform call).1.transmit = some t)
    (j : Fin 32) : stack.accepts call j = [] := by
  cases call with
  | queueSend id data => cases h
  | queueSendPages id pages offset bytes live pinned => cases h
  | _ => rfl

theorem mem_carries {q : UInt32} (h : (q, b) ∈ stack.carries call j) :
    ∃ t, (stack.perform call).1.transmit = some t ∧ stack.byId t.connectionId = some j ∧
      (q, b) ∈ t.segment.numbered := by
  unfold carries at h
  split at h
  · next t ht =>
    split at h
    · next hid => exact ⟨t, ht, hid, h⟩
    · cases h
  · cases h

/-- The record is honest about every slot, and describes the slots in use. -/
def Recorded (stack : Stack) (logs : Fin 32 → Log) : Prop :=
  ∀ j, (logs j).Honest ∧
    ((stack.connections j).active → (logs j).Describes (stack.connections j).sender)

theorem carries_honest
    (hlog : (stack.connections j).active → log.Describes (stack.connections j).sender) {q : UInt32}
    (h : (q, b) ∈ stack.carries call j) :
    ∃ n : ℕ, q = wordAt log.isn (1 + n) ∧ log.queued[n]? = some b := by
  obtain ⟨t, ht, hid, hmem⟩ := mem_carries h
  obtain ⟨k, hk, rfl⟩ := Segment.mem_numbered.mp hmem
  have hac := (byId_some hid).1
  have haf : ((stack.perform call).2.connections j).active →
      log.Describes ((stack.perform call).2.connections j).sender := by
    intro hac'
    have hde := changes_describes (perform_changes hac hac') (hlog hac)
    rw [accepts_of_transmit ht, append_nil] at hde
    exact hde
  have hda : t.segment.payload ≠ [] := by
    rintro hnil
    rw [hnil] at hk
    cases hk
  obtain ⟨n, hs, rest, hr⟩ := transmit_placed ht hid (hlog hac) haf hda
  refine ⟨n + k, ?_, ?_⟩
  · rw [hs, wordAt_add]
    congr 1
    omega
  · rw [← getElem?_drop, ← hr, ← hk]
    exact getElem?_append_left (List.getElem?_eq_some_iff.mp hk).1

theorem Recorded.perform {logs : Fin 32 → Log} (h : stack.Recorded logs) (call : Call) :
    (stack.perform call).2.Recorded (fun j => (logs j).after stack call j) := by
  intro j
  obtain ⟨hh, hd⟩ := h j
  simp only [Log.after]
  split
  · next ht =>
    refine ⟨fun q b hq => (by cases hq), fun hac => ?_⟩
    rcases does_active (perform_does stack call j) hac with hbe | ho
    · exact absurd hbe (by simp [ht.1])
    · exact ⟨_, _, _, (opens_started ho).placed⟩
  · next ht =>
    refine ⟨fun q b hq => ?_, fun hac => ?_⟩
    · have hna : ∃ n : ℕ, q = wordAt (logs j).isn (1 + n) ∧ (logs j).queued[n]? = some b :=
        (mem_append.mp hq).elim (hh q b) (carries_honest hd)
      obtain ⟨n, hn, hb⟩ := hna
      refine ⟨n, hn, ?_⟩
      rw [← hb]
      exact getElem?_append_left (List.getElem?_eq_some_iff.mp hb).1
    · have hbe : (stack.connections j).active := by
        by_contra hf
        exact ht ⟨by simpa using hf, hac⟩
      exact changes_describes (perform_changes hbe hac) (hd hbe)

/-- In every run, each byte that was sent on a connection is the byte of its queue at a
position that agrees with the sequence number modulo `2^32`. As long as the queue is no
longer, the position is `q - isn - 1`, and no two bytes share a number. Every segment that is
handed out names a connection. -/
theorem sent_bytes_run (memory : Fin 32 → Endpoint) (calls : List Call) :
    (∀ j, (history memory calls j).Honest) ∧
    (∀ j, (history memory calls j).queued.length ≤ 2 ^ 32 →
      ∀ q b, (q, b) ∈ (history memory calls j).sent →
        (history memory calls j).queued[(q - (history memory calls j).isn - 1).toNat]? = some b ∧
          ∀ b', (q, b') ∈ (history memory calls j).sent → b' = b) ∧
    ∀ call t, (((tcpInit memory).run calls).perform call).1.transmit = some t →
      ∃ j, ((tcpInit memory).run calls).byId t.connectionId = some j := by
  have hr : ((tcpInit memory).run calls).Recorded (history memory calls) := by
    refine watch_induction (fun stack logs call _ h => h.perform call) calls _ _
      (eachCall_true _ calls) ?_
    exact fun j => ⟨fun q b hq => (by cases hq), fun hac => absurd hac Bool.false_ne_true⟩
  refine ⟨fun j => (hr j).1, fun j hle q b hq => ?_, fun call t ht => ?_⟩
  · have hna : ∀ b', (q, b') ∈ (history memory calls j).sent →
        (history memory calls j).queued[(q - (history memory calls j).isn - 1).toNat]? =
          some b' := by
      intro b' hq'
      obtain ⟨n, hn, hb⟩ := (hr j).1 q b' hq'
      have hlt := (List.getElem?_eq_some_iff.mp hb).1
      have hp : (q - (history memory calls j).isn - 1).toNat = n := by
        have hone : wordAt (history memory calls j).isn 1 = (history memory calls j).isn + 1 := rfl
        have hsub := wordAt_sub (history memory calls j).isn (1 + n) 1
        rw [← hn, hone] at hsub
        have hsp : q - (history memory calls j).isn - 1 =
            q - ((history memory calls j).isn + 1) := by grind
        rw [hsp]
        omega
      rw [hp, hb]
    refine ⟨hna b hq, fun b' hq' => ?_⟩
    exact Option.some.inj ((hna b' hq').symm.trans (hna b hq))
  · obtain ⟨j, hj, -⟩ := perform_transmit ht
    exact ⟨j, hj⟩

/-- The first connection of a context, from our port 1000 to port 80 of the peer. It will send
one byte after another until the numbers come back to the first one. -/
def firstIdentity : Identity where
  active := true
  generation := 1
  family := .ipv4
  localAddress := 1
  remoteAddress := 2
  localAddress6 := Vector.replicate 16 0
  remoteAddress6 := Vector.replicate 16 0
  localPort := 1000
  remotePort := 80
  timerVersion := 1
  passive := false
  accepted := false
  parentListener := 0
  detached := false
  listenBacklog := 0

/-- The peer closed its side, nothing waits, and all that was sent before `n` is acknowledged. -/
def quiet (n : UInt32) : Sender where
  state := .closeWait
  sendUnacknowledged := n
  sendNext := n
  sendWindow := 60000
  remoteMss := 1460
  sendFin := false
  sendBuffer := []
  sendBufferOffset := 0
  loans := []
  pieces _ := none

/-- The same with one byte in flight. -/
def quietAfter (n : UInt32) (b : UInt8) : Sender :=
  { quiet n with
    sendNext := n + 1
    pieces := update (fun _ => none) 0 (some ⟨n, n + 1, ackFlags, [b]⟩) }

/-- The first connection is in that state, under Reno. -/
structure Carrying (stack : Stack) (x : Sender) : Prop where
  ops : stack.ops = tcpCcReno
  identity : (stack.connections 0).identity = firstIdentity
  sender : (stack.connections 0).sender = x
  window : 0 < (stack.connections 0).congestion.congestionWindow ∧
    (stack.connections 0).congestion.congestionWindow ≤ 65535

theorem Carrying.byId (h : stack.Carrying x) : stack.byId firstId = some 0 := by
  have hac : (stack.connections 0).active = true := congrArg Identity.active h.identity
  have hg : (stack.connections 0).generation = 1 :=
    congrArg Identity.generation h.identity
  refine byId_iff.mpr ⟨hac, by decide, ?_⟩
  rw [hg]
  decide

/-- Queue a byte, send it, and have it acknowledged. -/
def oneByte (n : UInt32) (b : UInt8) : List Call :=
  [.queueSend firstId [b], .prepareTransmit firstId 0, arrive (fromPeer 501 (n + 1) ackFlags [])]

theorem queueSend_carrying (h : stack.Carrying (quiet n)) (b : UInt8) :
    (stack.perform (.queueSend firstId [b])).2.Carrying { quiet n with sendBuffer := [b] } := by
  have hc : (stack.perform (.queueSend firstId [b])).2.connections 0 =
      ((stack.connections 0).queueSend [b]).2 := onId_connections h.byId _
  have hs := h.sender
  simp only [sender, quiet, Sender.mk.injEq] at hs
  have hq : ((stack.connections 0).queueSend [b]).2 =
      { stack.connections 0 with sendBuffer := [b] } := by
    simp [queueSend, hs, Sends]
  refine ⟨?_, ?_, ?_, ?_⟩
  · simpa [perform, tcpQueueSend, onId, h.byId, put] using h.ops
  · rw [hc, hq]
    exact h.identity
  · rw [hc, hq]
    have hv : ({ stack.connections 0 with sendBuffer := [b] } : Endpoint).sender =
        { (stack.connections 0).sender with sendBuffer := [b] } := rfl
    rw [hv, h.sender]
  · rw [hc, hq]
    exact h.window

theorem prepareData_one {id : UInt64} (h : c.sender = { quiet n with sendBuffer := [b] }) :
    let out := c.prepareData env id ⟨[b], 0, 1, false, none⟩ 1
    out.endpoint.sender = quietAfter n b ∧ out.endpoint.congestion = c.congestion ∧
      ∃ t, out.transmit = some t ∧
        t.connectionId = id ∧ t.segment.sequence = n ∧ t.segment.payload = [b] := by
  simp only [sender, quiet, Sender.mk.injEq] at h
  obtain ⟨hst, huna, hne, hse, hmss, hfin, hb, ho, hl, hp⟩ := h
  have hno : ∀ i, c.retransmissions i = none := by
    intro i
    have hi := congrFun hp i
    simpa using hi
  have hfr : c.firstFree = some 0 := by
    simp [firstFree, finRange_succ, hno]
  simp only [prepareData, trackRetransmission, hfr]
  simp only [hfin, Bool.false_and, one_ne_zero, if_false, Bool.false_eq_true]
  refine ⟨?_, ?_, _, rfl, rfl, hne, rfl⟩
  · simp only [consume, setEntry, hb, ho, length_singleton, Nat.zero_lt_one, if_true, Nat.zero_add,
      sender, quietAfter, quiet, hst, huna, hne, hse, hmss, hfin, hl, Sender.mk.injEq, true_and]
    refine ⟨by simp, ?_⟩
    funext i
    by_cases hi : i = 0
    · subst hi
      simp [Retransmission.piece, Flags.span, ackFlags]
    · simp [update_of_ne hi, hno]
  · simp only [consume, setEntry, hb, ho, length_singleton, Nat.zero_lt_one, if_true, Nat.zero_add]

theorem prepareTransmit_one (env : Env) (id : UInt64)
    (h : c.sender = { quiet n with sendBuffer := [b] }) (hw : 0 < c.congestion.congestionWindow) :
    (c.prepareTransmit env id).endpoint.sender = quietAfter n b ∧
      (c.prepareTransmit env id).endpoint.congestion = c.congestion ∧
      ∃ t, (c.prepareTransmit env id).transmit = some t ∧ t.connectionId = id ∧
        t.segment.sequence = n ∧ t.segment.payload = [b] := by
  set c₁ : Endpoint := { c with persistDeadline := 0, persistInterval := 100 } with hc₁
  have hfi := h
  simp only [sender, quiet, Sender.mk.injEq] at hfi
  obtain ⟨hst, huna, hn, hsend, hmss, -, hb, ho, hlo, -⟩ := hfi
  have hso : c.source = some ⟨[b], 0, 1, false, none⟩ := by
    simp [source, hb, ho, hlo]
  have hfl : c₁.flight = 0 := by simp [hc₁, Endpoint.flight, huna, hn]
  have hli : 0 < c₁.limit := by
    simp only [limit]
    split
    · rw [hsend]
      decide
    · exact hw
  have hle : c₁.segmentLength ⟨[b], 0, 1, false, none⟩ = 1 := by
    have hr : 0 < (c₁.limit - c₁.flight).toNat := by
      rw [hfl, UInt32.sub_zero]
      exact UInt32.lt_iff_toNat_lt.mp hli
    have hmss' : c₁.remoteMss.toNat = 1460 := congrArg UInt16.toNat hmss
    simp only [segmentLength, hmss', length_singleton]
    omega
  have hp : c.prepareTransmit env id = c₁.prepareData env id ⟨[b], 0, 1, false, none⟩ 1 := by
    have hsyn : c.state ≠ .synSent := by rw [hst]; decide
    have hsends : ¬ ¬ c.Sends := fun h => h (.inr hst)
    have hz : c.sendWindow ≠ 0 := by rw [hsend]; decide
    unfold prepareTransmit
    rw [if_neg hsyn, if_neg hsends, hso]
    simp only
    rw [if_neg hz, hfl, if_neg (UInt32.not_le.mpr hli), hle]
  rw [hp]
  exact prepareData_one (c := c₁) h

theorem prepareTransmit_carrying (h : stack.Carrying { quiet n with sendBuffer := [b] }) :
    (stack.perform (.prepareTransmit firstId 0)).2.Carrying (quietAfter n b) ∧
      stack.carries (.prepareTransmit firstId 0) 0 = [(n, b)] := by
  obtain ⟨hsen, hcong, t, ht, hid, hseq, hp⟩ :=
    prepareTransmit_one ({ stack with now := 0 } : Stack).env firstId h.sender h.window.1
  have hide := (prepareTransmit_steady ({ stack with now := 0 } : Stack).env
    (stack.connections 0) firstId).identity
  have hconn : (stack.perform (.prepareTransmit firstId 0)).2.connections 0 =
      ((stack.connections 0).prepareTransmit ({ stack with now := 0 } : Stack).env
        firstId).endpoint := by
    simp only [perform, tcpPrepareTransmit, h.byId, settle, pushAll_connections,
      put_connections_self]
  have htr : (stack.perform (.prepareTransmit firstId 0)).1.transmit = some t := by
    simp only [perform, tcpPrepareTransmit, h.byId]
    exact ht
  refine ⟨⟨?_, ?_, ?_, ?_⟩, ?_⟩
  · have hops : (stack.perform (.prepareTransmit firstId 0)).2.ops = stack.ops := by
      simp only [perform, tcpPrepareTransmit, h.byId, settle, pushAll_ops, put]
    rw [hops, h.ops]
  · rw [hconn, hide, h.identity]
  · rw [hconn, hsen]
  · rw [hconn, hcong]
    exact h.window
  · simp only [carries, htr, hid, h.byId, if_true, Segment.numbered, hseq, hp]
    simp

theorem quietAfter_ackValid (n : UInt32) (b : UInt8) : (quietAfter n b).AckValid (n + 1) := by
  have hone : (n + 1 - n).toNat = 1 := by
    have hsub : n + 1 - n = 1 := by grind
    rw [hsub]
    decide
  refine ⟨?_, ?_⟩
  · change 0 < (n + 1 - n).toNat ∧ (n + 1 - n).toNat < 2 ^ 31
    omega
  · change ¬ (0 < (n + 1 - (n + 1)).toNat ∧ _)
    simp

theorem quietAfter_hear (n : UInt32) (b : UInt8) :
    (quietAfter n b).hear (fromPeer 501 (n + 1) ackFlags []) = quiet (n + 1) := by
  have hv : (((quietAfter n b).note (fromPeer 501 (n + 1) ackFlags [])).retireSacked
      []).AckValid (n + 1) := quietAfter_ackValid n b
  have hh : (quietAfter n b).hear (fromPeer 501 (n + 1) ackFlags []) =
      ((quietAfter n b).note (fromPeer 501 (n + 1) ackFlags [])).acknowledge [] (n + 1) := rfl
  rw [hh, Sender.acknowledge, if_pos hv]
  simp only [Sender.retireSacked, Sender.note, quietAfter, quiet, fromPeer, Sender.mk.injEq,
    true_and]
  refine ⟨by decide, by simp [ackFlags], ?_⟩
  funext i
  by_cases hi : i = 0
  · subst hi
    simp [sequenceAfter, Option.filter, Piece.Sacked]
  · simp [update_of_ne hi]

theorem grown_window {window : UInt32} (increase : UInt32) (h : 0 < window ∧ window ≤ 65535) :
    0 < (if 65535 - window < increase then 65535 else window + increase) ∧
      (if 65535 - window < increase then 65535 else window + increase) ≤ 65535 := by
  split
  · decide
  · next hr =>
    rw [UInt32.not_lt] at hr
    have hsub : (65535 - window).toNat = 65535 - window.toNat := UInt32.toNat_sub_of_le _ _ h.2
    have hf : (65535 : UInt32).toNat = 65535 := by decide
    have hz : (0 : UInt32).toNat = 0 := by decide
    simp only [UInt32.lt_iff_toNat_lt, UInt32.le_iff_toNat_le, UInt32.toNat_add] at *
    omega

theorem sampleAll_congestion (hops : env.ops = tcpCcReno) (acknowledgement : UInt32)
    (slots : List (Fin 8)) (c : Endpoint) :
    (slots.foldl (sampleEntry env acknowledgement) c).congestion = c.congestion := by
  induction slots generalizing c with
  | nil => rfl
  | cons i is ih =>
    rw [foldl_cons, ih]
    unfold sampleEntry
    split
    · split
      · rfl
      · simp only [rttSample, updateRtt, hops, tcpCcReno]
    · rfl

theorem acknowledge_window (hops : env.ops = tcpCcReno) (hv : c.AckValid s.acknowledgement)
    (h : 0 < c.congestion.congestionWindow ∧ c.congestion.congestionWindow ≤ 65535) :
    0 < (c.acknowledge env s).1.congestion.congestionWindow ∧
      (c.acknowledge env s).1.congestion.congestionWindow ≤ 65535 := by
  have hv' : (c.retireSacked s.sackBlocks).AckValid s.acknowledgement := hv
  unfold acknowledge
  simp only
  rw [if_pos hv']
  simp only [acknowledgeNew, hops, tcpCcReno, Reno.onAck]
  refine grown_window _ ?_
  rw [sampleAll_congestion hops]
  exact h

theorem tcpInput_closeWait (env : Env) (hs : c.state = .closeWait)
    (hrst : s.flags.rst = false) (hack : s.flags.ack) :
    (c.tcpInput env s).2.endpoint = ((c.note s).acknowledge env s).1 := by
  have hk : ((c.note s).acknowledge env s).1.state = .closeWait := by
    have hv := congrArg Sender.state (acknowledge_sender env (c.note s) s)
    refine hv.trans ?_
    unfold Sender.acknowledge
    simp only
    split <;> exact hs
  unfold tcpInput
  rw [if_neg (by simp [hrst])]
  simp only [hack, if_true]
  generalize ((c.note s).acknowledge env s).1 = d at *
  simp [inputState, inputClosing, hk]

theorem Carrying.target (h : stack.Carrying x) (sequence acknowledgement : UInt32) (flags : Flags)
    (payload : List UInt8) :
    stack.target (arrive (fromPeer sequence acknowledgement flags payload)) =
      some (0, fromPeer sequence acknowledgement flags payload) := by
  have hm : Context.Matches 2 1 (fromPeer sequence acknowledgement flags payload).toSegmentView
      (stack.connections 0).toConnection :=
    ⟨⟨congrArg Identity.active h.identity, congrArg Identity.family h.identity,
        congrArg Identity.localPort h.identity⟩,
      congrArg Identity.remotePort h.identity, congrArg Identity.localAddress h.identity,
      congrArg Identity.remoteAddress h.identity⟩
  simp [Stack.target, arrive, finRange_succ, hm]

theorem arrive_carrying (h : stack.Carrying (quietAfter n b)) :
    (stack.perform (arrive (fromPeer 501 (n + 1) ackFlags []))).2.Carrying (quiet (n + 1)) := by
  have hp := (perform_target (h.target 501 (n + 1) ackFlags [])).1
  have hc := input_connections stack 0 (fromPeer 501 (n + 1) ackFlags [])
  have hs : (stack.connections 0).state = .closeWait := congrArg Sender.state h.sender
  have hi := tcpInput_closeWait stack.env hs (s := fromPeer 501 (n + 1) ackFlags []) rfl rfl
  have hvi : (stack.connections 0).sender.hear (fromPeer 501 (n + 1) ackFlags []) =
      quiet (n + 1) := by
    rw [h.sender]
    exact quietAfter_hear n b
  rw [hp]
  refine ⟨?_, ?_, ?_, ?_⟩
  · simp only [input, pushAll_ops, put]
    exact h.ops
  · rw [hc, hi, (acknowledge_steady _ _ _).identity]
    exact h.identity
  · rw [hc, hi, acknowledge_sender]
    exact hvi
  · rw [hc, hi]
    have hva : (stack.connections 0).sender.AckValid (n + 1) := by
      rw [h.sender]
      exact quietAfter_ackValid n b
    exact acknowledge_window (c := (stack.connections 0).note _) h.ops hva h.window

theorem after_sent (h : (stack.connections j).active) (log : Log) :
    (log.after stack call j).sent = log.sent ++ stack.carries call j := by
  have hk : ¬ stack.Taken call j := fun ht => absurd ht.1 (by simp [h])
  rw [Log.after, if_neg hk]

theorem oneByte_carrying (h : stack.Carrying (quiet n)) (b : UInt8) (logs : Fin 32 → Log) :
    (stack.run (oneByte n b)).Carrying (quiet (n + 1)) ∧
      (n, b) ∈ (stack.watch logs (oneByte n b) 0).sent ∧
      ∀ x ∈ (logs 0).sent, x ∈ (stack.watch logs (oneByte n b) 0).sent := by
  have hq := queueSend_carrying h b
  obtain ⟨hs, hc⟩ := prepareTransmit_carrying hq
  have hlog : (stack.watch logs (oneByte n b) 0).sent = (((logs 0).sent ++
      stack.carries (.queueSend firstId [b]) 0) ++ [(n, b)]) ++
      ((stack.perform (.queueSend firstId [b])).2.perform (.prepareTransmit firstId 0)).2.carries
        (arrive (fromPeer 501 (n + 1) ackFlags [])) 0 := by
    have hac : ∀ {stack : Stack} {x : Sender}, stack.Carrying x →
        (stack.connections 0).active := fun h => congrArg Identity.active h.identity
    simp only [watch, oneByte]
    rw [after_sent (hac hs), after_sent (hac hq), after_sent (hac h), hc]
  rw [hlog]
  exact ⟨arrive_carrying hs, by simp, fun x hx => by simp [hx]⟩

/-- `k` zeroes, from sequence number 102 on. -/
def zeroes (k : ℕ) : List Call :=
  (List.range k).flatMap (fun i => oneByte (102 + UInt32.ofNat i) 0)

theorem watch_append (stack : Stack) (logs : Fin 32 → Log) (first second : List Call) :
    stack.watch logs (first ++ second) =
      (stack.run first).watch (stack.watch logs first) second := by
  induction first generalizing stack logs with
  | nil => rfl
  | cons call calls ih => exact ih _ _

theorem run_append (stack : Stack) (first second : List Call) :
    stack.run (first ++ second) = (stack.run first).run second := foldl_append

theorem zeroes_carrying (h : stack.Carrying (quiet 102)) (logs : Fin 32 → Log) (k : ℕ) :
    (stack.run (zeroes k)).Carrying (quiet (102 + UInt32.ofNat k)) ∧
      ∀ x ∈ (logs 0).sent, x ∈ (stack.watch logs (zeroes k) 0).sent := by
  induction k with
  | zero => exact ⟨h, fun x hx => hx⟩
  | succ k ih =>
    have hs : zeroes (k + 1) = zeroes k ++ oneByte (102 + UInt32.ofNat k) 0 := by
      simp [zeroes, range_succ]
    have hn : (102 + UInt32.ofNat (k + 1) : UInt32) = 102 + UInt32.ofNat k + 1 := by
      rw [UInt32.ofNat_add, UInt32.add_assoc]
      rfl
    obtain ⟨hc, -, hk⟩ := oneByte_carrying ih.1 0 (stack.watch logs (zeroes k))
    rw [hs, hn, run_append, watch_append]
    exact ⟨hc, fun x hx => hk x (ih.2 x hx)⟩

/-- A connection that the peer has closed, under Reno. -/
def halfClosed : List Call :=
  .setCc tcpCcReno :: handshake 1460 ++ [arrive (fromPeer 501 101 finAckFlags [])]

theorem halfClosed_carrying : (boot.run halfClosed).Carrying (quiet 101) := by
  have hp : ∀ i, ((boot.run halfClosed).connections 0).sender.pieces i = none := by
    decide +kernel
  have hf : let c := (boot.run halfClosed).connections 0
      c.state = .closeWait ∧ c.sendUnacknowledged = 101 ∧ c.sendNext = 101 ∧
      c.sendWindow = 60000 ∧ c.remoteMss = 1460 ∧ c.sendFin = false ∧ c.sendBuffer = [] ∧
      c.sendBufferOffset = 0 ∧ c.loans = [] := by decide +kernel
  obtain ⟨h₁, h₂, h₃, h₄, h₅, h₆, h₇, h₈, h₉⟩ := hf
  refine ⟨rfl, by decide +kernel, ?_, by decide +kernel⟩
  simp only [sender, quiet, Sender.mk.injEq]
  exact ⟨h₁, h₂, h₃, h₄, h₅, h₆, h₇, h₈, h₉, funext hp⟩

/-- A one and then `2^32` zeroes: the last zero goes out under the number of the one. -/
theorem same_number_other_byte : ∃ calls,
    (101, 1) ∈ (history (fun _ => zeroed) calls 0).sent ∧
      (101, 0) ∈ (history (fun _ => zeroed) calls 0).sent := by
  obtain ⟨k, hk⟩ : ∃ k : ℕ, (102 + UInt32.ofNat k : UInt32) = 101 := ⟨2 ^ 32 - 1, by decide⟩
  let logs := boot.watch (fun _ => Log.empty) halfClosed
  let logs₁ := (boot.run halfClosed).watch logs (oneByte 101 1)
  let logs₂ := ((boot.run halfClosed).run (oneByte 101 1)).watch logs₁ (zeroes k)
  obtain ⟨hone, hf, -⟩ := oneByte_carrying halfClosed_carrying 1 logs
  obtain ⟨hz, hke⟩ := zeroes_carrying hone logs₁ k
  rw [hk] at hz
  obtain ⟨-, hla, hke'⟩ := oneByte_carrying hz 0 logs₂
  refine ⟨halfClosed ++ (oneByte 101 1 ++ (zeroes k ++ oneByte 101 0)), ?_⟩
  have hlo : history (fun _ => zeroed)
      (halfClosed ++ (oneByte 101 1 ++ (zeroes k ++ oneByte 101 0))) =
      (((boot.run halfClosed).run (oneByte 101 1)).run (zeroes k)).watch logs₂ (oneByte 101 0) := by
    change boot.watch (fun _ => Log.empty) _ = _
    rw [watch_append, watch_append, watch_append]
  rw [hlo]
  exact ⟨hke' _ (hke _ hf), hla⟩

end Stack

end MichCore.Tcp
