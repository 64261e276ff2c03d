import MichCore.SerialNumber
import MichCore.TcpSender

/-!
# What was sent is kept

A number between `send_unacknowledged` and `send_next` belongs to a segment that was sent and not
acknowledged yet. The retransmission table holds it in every run in which no SACK block retires a
segment ahead of the cumulative acknowledgement and no resend takes `send_next` back too far.
-/
namespace MichCore.Tcp

open Endpoint SerialNumber Function

/-- `q` is one of the sequence numbers from `first` up to `last`, `last` excluded. -/
def Within (first last q : UInt32) : Prop := (q - first).toNat < (last - first).toNat
  deriving Decidable

/-- Every sequence number that is in flight is in the table. -/
def Endpoint.Retained (c : Endpoint) : Prop :=
  ∀ q, Within c.sendUnacknowledged c.sendNext q →
    ∃ i e, c.retransmissions i = some e ∧ Within e.sequence e.endSequence q

/-- An open that we start counts its SYN before the first transmission. -/
def Endpoint.Launched (c : Endpoint) : Prop :=
  c.state = .synSent → ∃ i e, c.retransmissions i = some e

/-- `send_unacknowledged` after a segment. -/
def Endpoint.acknowledgedBy (c : Endpoint) (s : Segment) : UInt32 :=
  if c.AckValid s.acknowledgement then s.acknowledgement else c.sendUnacknowledged

/-- No SACK block of an acknowledging segment retires an entry that the cumulative acknowledgement
does not cover. -/
def Stack.SacksCovered (stack : Stack) (call : Call) : Prop :=
  ∀ j s, stack.target call = some (j, s) → s.flags.rst = false → s.flags.ack → ∀ i e,
    (stack.connections j).retransmissions i = some e → Sacked s.sackBlocks e →
      ¬ sequenceAfter e.endSequence ((stack.connections j).acknowledgedBy s)

instance (stack : Stack) (call : Call) : Decidable (stack.SacksCovered call) :=
  decidable_of_iff (∀ x ∈ stack.target call, x.2.flags.rst = false → x.2.flags.ack → ∀ i,
      ∀ e ∈ (stack.connections x.1).retransmissions i, Sacked x.2.sackBlocks e →
        ¬ sequenceAfter e.endSequence ((stack.connections x.1).acknowledgedBy x.2))
    ⟨fun h j s htarget => h (j, s) htarget, fun h x htarget => h x.1 x.2 htarget⟩

/-- If the entry that a tick resends will be cut, the part that is kept reaches
`send_unacknowledged`. -/
def Stack.RewindsAhead (stack : Stack) (call : Call) : Prop :=
  ∀ j e, stack.dueEntry call = some (j, e) → (stack.connections j).Cuts e →
    ¬ sequenceAfter (stack.connections j).sendUnacknowledged ((stack.connections j).cutNext e)

instance (stack : Stack) (call : Call) : Decidable (stack.RewindsAhead call) :=
  decidable_of_iff (∀ x ∈ stack.dueEntry call, (stack.connections x.1).Cuts x.2 →
      ¬ sequenceAfter (stack.connections x.1).sendUnacknowledged
        ((stack.connections x.1).cutNext x.2))
    ⟨fun h j e hdue => h (j, e) hdue, fun h x hdue => h x.1 x.2 hdue⟩

namespace Piece

/-- An entry of the table covers its bytes, a SYN and a FIN; a SYN has no bytes. -/
structure Formed (p : Piece) : Prop where
  endSequence : p.endSequence = p.sequence + UInt32.ofNat p.data.length + p.flags.span
  syn : p.data ≠ [] → p.flags.syn = false
  length : p.data.length ≤ 1460

theorem Formed.span {p : Piece} (h : p.Formed) : (p.endSequence - p.sequence).toNat ≤ 1462 := by
  have hsub : p.endSequence - p.sequence = UInt32.ofNat p.data.length + p.flags.span := by
    rw [h.endSequence]
    grind
  have hf : p.flags.span.toNat ≤ 2 := by
    unfold Flags.span
    split <;> split <;> decide
  have hl := h.length
  rw [hsub, UInt32.toNat_add, UInt32.toNat_ofNat']
  omega

end Piece

namespace Sender

def Retained (x : Sender) : Prop :=
  ∀ q, Within x.sendUnacknowledged x.sendNext q →
    ∃ i p, x.pieces i = some p ∧ Within p.sequence p.endSequence q

def Launched (x : Sender) : Prop := x.state = .synSent → ∃ i p, x.pieces i = some p

theorem retained_iff (c : Endpoint) : c.sender.Retained ↔ c.Retained := by
  refine forall_congr' fun q => imp_congr_right fun _ => exists_congr fun i => ?_
  constructor
  · rintro ⟨p, hp, hq⟩
    obtain ⟨e, he, rfl⟩ := Option.map_eq_some_iff.mp hp
    exact ⟨e, he, hq⟩
  · rintro ⟨e, he, hq⟩
    exact ⟨e.piece, by simp [sender, he], hq⟩

theorem launched_of {c : Endpoint} (h : c.Launched) : c.sender.Launched := by
  intro hs
  obtain ⟨i, e, he⟩ := h hs
  exact ⟨i, e.piece, by simp [sender, he]⟩

/-- How much can be in flight: a SYN, then what the window lets through, then a FIN. -/
def flightBound : TcpState → ℕ
  | .synSent | .synReceived => 1
  | .established | .closeWait => 65535
  | _ => 65536

/-- The table of a connection that is open. -/
structure Tidy (x : Sender) : Prop where
  formed : ∀ i p, x.pieces i = some p → p.Formed
  window : x.sendWindow.toNat ≤ 65535
  flight : x.flight.toNat ≤ flightBound x.state
  retained : x.Launched → x.Retained

theorem flightBound_le (state : TcpState) : flightBound state ≤ 65536 := by
  cases state <;> decide

variable {p : Piece} {x y : Sender} {s : Segment} {i : Fin 8}

theorem after_of_within {first q : UInt32} (hp : p.Formed) (hn : (q - first).toNat < 2 ^ 17)
    (hq : Within p.sequence p.endSequence q) : sequenceAfter p.endSequence first := by
  have hs := hp.span
  unfold Within at hq
  have h₁ := sub_via p.sequence p.endSequence q
  have h₂ := sub_via q p.endSequence first
  have h₃ := sub_via q q first
  have h₄ := sub_via first q q
  have hlt := (first - q).toNat_lt
  have hlt' := (p.endSequence - q).toNat_lt
  simp only [UInt32.sub_self, UInt32.toNat_zero] at h₁ h₂ h₃ h₄
  unfold sequenceAfter
  omega

theorem ackValid_flight {acknowledgement : UInt32} (hf : x.flight.toNat ≤ 65536)
    (h : x.AckValid acknowledgement) :
    (acknowledgement - x.sendUnacknowledged).toNat ≤ x.flight.toNat ∧
      (x.sendNext - acknowledgement).toNat =
        x.flight.toNat - (acknowledgement - x.sendUnacknowledged).toNat := by
  obtain ⟨haf, hnot⟩ := h
  unfold sequenceAfter at haf hnot
  unfold Sender.flight at hf ⊢
  have h₁ := sub_via x.sendUnacknowledged acknowledgement x.sendNext
  have h₂ := sub_via x.sendUnacknowledged x.sendNext acknowledgement
  omega

/-- The segment takes nothing from the table that is still in flight. -/
def Covered (x : Sender) (s : Segment) : Prop :=
  ∀ i p, x.pieces i = some p → p.Sacked s.sackBlocks →
    ¬ sequenceAfter p.endSequence
      (if x.AckValid s.acknowledgement then s.acknowledgement else x.sendUnacknowledged)

theorem Tidy.acknowledge (h : x.Tidy) (hcovere : x.Covered s) :
    (x.acknowledge s.sackBlocks s.acknowledgement).Tidy := by
  obtain ⟨hnex, hst, hw, huna, hk⟩ := acknowledge_spec x s
  have hf : x.flight.toNat ≤ 65536 := h.flight.trans (flightBound_le _)
  refine ⟨fun i p hp => h.formed i p (acknowledge_pieces hp), ?_, ?_, ?_⟩
  · rw [hw]
    exact h.window
  · rw [hst]
    refine le_trans ?_ h.flight
    unfold Sender.flight
    rw [hnex, huna]
    split
    · next hva =>
      have hle := (ackValid_flight hf hva).2
      unfold Sender.flight at hle
      omega
    · exact Nat.le_refl _
  · intro hla q hq
    have hla' : x.Launched := by
      intro hsyn
      rw [← hst] at hsyn
      obtain ⟨i, p, hp⟩ := hla hsyn
      exact ⟨i, p, acknowledge_pieces hp⟩
    -- The number was in flight before, so a piece of the old table covers it.
    rw [hnex, huna] at hq
    have hbe : Within x.sendUnacknowledged x.sendNext q := by
      split at hq
      · next hva =>
        have hle := ackValid_flight hf hva
        have hvia := sub_via s.acknowledgement q x.sendUnacknowledged
        have hba := sub_via x.sendUnacknowledged x.sendUnacknowledged s.acknowledgement
        simp only [UInt32.sub_self, UInt32.toNat_zero] at hba
        unfold Within at hq ⊢
        unfold Sender.flight at hle hf
        have := (s.acknowledgement - x.sendUnacknowledged).toNat_lt
        omega
      · exact hq
    obtain ⟨i, p, hp, hcover⟩ := h.retained hla' q hbe
    have hnea : (q - (if x.AckValid s.acknowledgement then s.acknowledgement
        else x.sendUnacknowledged)).toNat < 2 ^ 17 := by
      unfold Within at hq
      split at hq
      · next hva =>
        rw [if_pos hva]
        have hle := ackValid_flight hf hva
        omega
      · next hva =>
        rw [if_neg hva]
        unfold Sender.flight at hf
        omega
    have haf := after_of_within (h.formed i p hp) hnea hcover
    refine ⟨i, p, hk i p hp (fun hsa => hcovere i p hp hsa haf) ?_, hcover⟩
    intro hva
    rwa [if_pos hva] at haf

theorem Retained.extend (h : x.Retained) (hfr : x.pieces i = none) (hp : p.sequence = x.sendNext)
    (hpi : y.pieces = update x.pieces i (some p))
    (huna : y.sendUnacknowledged = x.sendUnacknowledged) (hn : y.sendNext = p.endSequence)
    (hr : x.flight.toNat + (p.endSequence - p.sequence).toNat < 2 ^ 32) :
    y.Retained ∧ y.flight.toNat = x.flight.toNat + (p.endSequence - p.sequence).toNat := by
  have hfl : y.flight.toNat = x.flight.toNat + (p.endSequence - p.sequence).toNat := by
    have hvia := sub_via x.sendNext p.endSequence x.sendUnacknowledged
    have hb := sub_via x.sendUnacknowledged x.sendUnacknowledged x.sendNext
    have hlt := (x.sendNext - x.sendUnacknowledged).toNat_lt
    simp only [UInt32.sub_self, UInt32.toNat_zero] at hb
    unfold Sender.flight at hr ⊢
    rw [hp] at hr ⊢
    rw [hn, huna]
    omega
  refine ⟨fun q hq => ?_, hfl⟩
  by_cases hold : Within x.sendUnacknowledged x.sendNext q
  · obtain ⟨k, p', hp', hc⟩ := h q hold
    refine ⟨k, p', ?_, hc⟩
    have hk : k ≠ i := fun hk => by rw [hk, hfr] at hp'; cases hp'
    rw [hpi, update_of_ne hk]
    exact hp'
  · refine ⟨i, p, by rw [hpi, update_self], ?_⟩
    have hvia := sub_via x.sendUnacknowledged q x.sendNext
    have hq' : (q - x.sendUnacknowledged).toNat < y.flight.toNat := by
      unfold Within at hq
      unfold Sender.flight
      rw [huna] at hq ⊢
      exact hq
    rw [hfl] at hq'
    unfold Within at hold ⊢
    unfold Sender.flight at hq'
    rw [hp] at hq' ⊢
    have hlt := (q - x.sendUnacknowledged).toNat_lt
    omega

theorem sends_bound (h : x.Tidy) (hse : x.Sends) : x.flight.toNat ≤ 65535 := by
  have hf := h.flight
  rcases hse with hs | hs <;> rwa [hs] at hf

theorem sends_launched (hse : x.Sends) : x.Launched := by
  intro hsyn
  rcases hse with hs | hs <;> rw [hs] at hsyn <;> cases hsyn

theorem finState_bound (x : Sender) : flightBound x.finState = 65536 := by
  unfold Sender.finState
  split <;> rfl

theorem update_formed (h : x.Tidy) (hp : p.Formed) :
    ∀ k p', update x.pieces i (some p) k = some p' → p'.Formed := by
  intro k p' hp'
  rcases update_pieces hp' with ⟨-, ⟨⟩⟩ | ⟨-, hp'⟩
  · exact hp
  · exact h.formed k p' hp'

variable (sequence : UInt32)

theorem synPiece_formed : (⟨sequence, sequence + 1, synFlags, []⟩ :
    Piece).Formed := ⟨by simp [synFlags, Flags.span], fun h => absurd rfl h, by simp⟩

theorem synAckPiece_formed : (⟨sequence, sequence + 1, synAckFlags, []⟩ :
    Piece).Formed := ⟨by simp [synAckFlags, Flags.span], fun h => absurd rfl h, by simp⟩

theorem finPiece_formed : (⟨sequence, sequence + 1, finAckFlags, []⟩ :
    Piece).Formed := ⟨by simp [finAckFlags, Flags.span], fun h => absurd rfl h, by simp⟩

theorem dataPiece_formed {length : ℕ} (last : Bool) (hl : length ≤ x.unsent.length)
    (hmax : length ≤ 1460) : (x.dataPiece length last).Formed := by
  have hd : (x.dataPiece length last).data.length = length := by
    simp only [dataPiece, List.length_take]
    omega
  refine ⟨?_, fun _ => rfl, by rw [hd]; exact hmax⟩
  rw [hd]
  cases last <;> simp [dataPiece, Flags.span]

theorem succ_sub_self (a : UInt32) : (a + 1 - a).toNat = 1 := by
  have hsub : a + 1 - a = 1 := by grind
  rw [hsub]
  rfl

theorem dataPiece_span (x : Sender) {length : ℕ} (last : Bool) (hmax : length ≤ 1460) :
    ((x.dataPiece length last).endSequence - (x.dataPiece length last).sequence).toNat =
      length + if last then 1 else 0 := by
  have hsub : (x.dataPiece length last).endSequence - (x.dataPiece length last).sequence =
      UInt32.ofNat length + if last then 1 else 0 := by
    simp only [dataPiece]
    grind
  rw [hsub, UInt32.toNat_add, UInt32.toNat_ofNat']
  cases last
  · simp only [Bool.false_eq_true, if_false, UInt32.toNat_zero]
    omega
  · simp only [if_true, UInt32.toNat_one]
    omega

theorem Tidy.sent (h : x.Tidy) (hsent : x.Sent y) : y.Tidy := by
  cases hsent with
  | nothing => exact h
  | syn i hst hno =>
    refine ⟨update_formed h (synPiece_formed _), h.window, h.flight, fun _ q hq => ?_⟩
    refine ⟨i, _, update_self .., ?_⟩
    have hfl := h.flight
    unfold Within at hq ⊢
    rw [hst] at hfl
    unfold Sender.flight at hfl
    simp only [setPiece] at hq
    simp only [succ_sub_self]
    change _ ≤ 1 at hfl
    omega
  | fin i hsend hfin he hfr =>
    have hb := sends_bound h hsend
    have hsp := succ_sub_self x.sendNext
    obtain ⟨hret, hfl⟩ := Retained.extend (h.retained (sends_launched hsend)) hfr
      (y := { x.setPiece i (some ⟨x.sendNext, x.sendNext + 1, finAckFlags, []⟩) with
        sendNext := x.sendNext + 1, state := x.finState })
      (p := ⟨x.sendNext, x.sendNext + 1, finAckFlags, []⟩) rfl rfl rfl rfl
      (by simp only [hsp]; omega)
    refine ⟨update_formed h (finPiece_formed _), h.window, ?_, fun _ => hret⟩
    rw [hfl, finState_bound]
    simp only [hsp]
    omega
  | data i length last y hsend hpos hle hmax hwind hla hfr hpi hne hu ho
      hst hres =>
    have hb := sends_bound h hsend
    have hsp := x.dataPiece_span last hmax
    obtain ⟨hret, hfl⟩ := Retained.extend (h.retained (sends_launched hsend)) hfr rfl
      hpi hres.1 hne (by rw [hsp]; split <;> omega)
    have hwin := h.window
    refine ⟨?_, by rw [hres.2.1]; exact h.window, ?_, fun _ => hret⟩
    · rw [hpi]
      exact update_formed h (dataPiece_formed last hle hmax)
    · rw [hfl, hsp, hst]
      cases last
      · have hb' : flightBound x.state = 65535 := by
          rcases hsend with hs | hs <;> rw [hs] <;> rfl
        simp only [Bool.false_eq_true, if_false, hb']
        omega
      · simp only [if_true, finState_bound]
        omega

theorem rewind_sendNext (hp : p.Formed) (h : x.Rewinds p) :
    (x.rewind i p).sendNext = p.sequence + UInt32.ofNat x.remoteMss.toNat := by
  obtain ⟨hl, -, hend, -⟩ := h
  have hsyn : p.flags.syn = false := hp.syn fun hnil => by simp [hnil] at hl
  have hsp : UInt32.ofNat p.data.length =
      UInt32.ofNat (p.data.length - x.remoteMss.toNat) + UInt32.ofNat x.remoteMss.toNat := by
    rw [← UInt32.ofNat_add]
    congr 1
    omega
  simp only [rewind, hend, hp.endSequence, Flags.span, hsyn, hsp]
  split <;> grind

theorem Tidy.rewind (h : x.Tidy) (hp : x.pieces i = some p) (hr : x.Rewinds p)
    (hah : ¬ sequenceAfter x.sendUnacknowledged (x.rewind i p).sendNext) :
    (x.rewind i p).Tidy := by
  have hfo := h.formed i p hp
  have hne := rewind_sendNext (i := i) hfo hr
  have hfli := h.flight.trans (flightBound_le _)
  have hsp := hfo.span
  have hlo := hr.1
  have hmax := hfo.length
  -- The new end lies inside the piece, and not before `send_unacknowledged`.
  have hke : ((x.rewind i p).sendNext - p.sequence).toNat = x.remoteMss.toNat := by
    have hsub : (x.rewind i p).sendNext - p.sequence = UInt32.ofNat x.remoteMss.toNat := by
      rw [hne]
      grind
    rw [hsub, UInt32.toNat_ofNat']
    omega
  have hend : x.remoteMss.toNat < (p.endSequence - p.sequence).toNat := by
    have hsub : p.endSequence - p.sequence = UInt32.ofNat p.data.length + p.flags.span := by
      rw [hfo.endSequence]
      grind
    have hfla : p.flags.span.toNat ≤ 2 := by
      unfold Flags.span
      split <;> split <;> decide
    rw [hsub, UInt32.toNat_add, UInt32.toNat_ofNat']
    omega
  have hsh : (x.rewind i p).flight.toNat ≤ x.flight.toNat := by
    have h₁ := sub_via x.sendUnacknowledged x.sendUnacknowledged (x.rewind i p).sendNext
    have h₂ := sub_via p.sequence (x.rewind i p).sendNext x.sendUnacknowledged
    have h₃ := sub_via p.sequence p.endSequence x.sendUnacknowledged
    simp only [UInt32.sub_self, UInt32.toNat_zero] at h₁
    unfold sequenceAfter at hah
    unfold Sender.flight at hfli ⊢
    rw [hr.2.2.1] at hfli ⊢
    change ((x.rewind i p).sendNext - x.sendUnacknowledged).toNat ≤ _
    have hlt := ((x.rewind i p).sendNext - x.sendUnacknowledged).toNat_lt
    omega
  have hcut : ∀ k p', (x.rewind i p).pieces k = some p' →
      (k = i ∧ p'.sequence = p.sequence ∧ p'.endSequence = (x.rewind i p).sendNext ∧
        p'.Formed) ∨ x.pieces k = some p' := by
    intro k p' hp'
    rcases update_pieces hp' with ⟨rfl, ⟨⟩⟩ | ⟨-, hp'⟩
    · refine .inl ⟨rfl, rfl, hne.symm, ?_, ?_, ?_⟩
      · simp only [Flags.span, List.length_take, Nat.min_eq_left hlo.le, Bool.false_eq_true,
          if_false]
        have hsyn : p.flags.syn = false := hfo.syn fun hnil => by simp [hnil] at hlo
        simp [hsyn]
      · intro _
        exact hfo.syn fun hnil => by simp [hnil] at hlo
      · simp only [List.length_take]
        omega
    · exact .inr hp'
  refine ⟨?_, h.window, hsh.trans h.flight, ?_⟩
  · intro k p' hp'
    rcases hcut k p' hp' with ⟨-, -, -, hfo'⟩ | hold
    · exact hfo'
    · exact h.formed k p' hold
  · intro _ q hq
    have hla : x.Launched := fun _ => ⟨i, p, hp⟩
    have hq' : (q - x.sendUnacknowledged).toNat < (x.rewind i p).flight.toNat := hq
    have hold : Within x.sendUnacknowledged x.sendNext q := by
      unfold Within
      exact hq'.trans_le hsh
    obtain ⟨k, p', hp', hco⟩ := h.retained hla q hold
    by_cases hk : k = i
    · subst hk
      rw [hp] at hp'
      cases hp'
      refine ⟨k, _, update_self .., ?_⟩
      unfold Within at hco ⊢
      simp only
      have h₁ := sub_via p.sequence q x.sendUnacknowledged
      have h₂ := sub_via p.sequence (x.rewind k p).sendNext x.sendUnacknowledged
      have h₃ := sub_via p.sequence p.endSequence x.sendUnacknowledged
      rw [← hne, hke]
      unfold Sender.flight at hq' hfli hsh
      rw [hr.2.2.1] at hfli hsh
      change ((x.rewind k p).sendNext - x.sendUnacknowledged).toNat ≤ _ at hsh
      change _ < ((x.rewind k p).sendNext - x.sendUnacknowledged).toNat at hq'
      have hlt := (x.sendUnacknowledged - p.sequence).toNat_lt
      omega
    · refine ⟨k, p', ?_, hco⟩
      simp only [Sender.rewind, setPiece, update_of_ne hk]
      exact hp'

theorem Tidy.not_ahead (h : x.Tidy) : ¬ sequenceAfter x.sendUnacknowledged x.sendNext := by
  have hf := h.flight.trans (flightBound_le _)
  have hb := sub_via x.sendUnacknowledged x.sendUnacknowledged x.sendNext
  rw [UInt32.sub_self, UInt32.toNat_zero] at hb
  unfold Sender.flight at hf
  unfold sequenceAfter
  omega

theorem Tidy.hear (h : x.Tidy) (hc : s.flags.ack → x.Covered s) : (x.hear s).Tidy := by
  have hn : (x.note s).Tidy := by
    have hlt := s.window.toNat_lt
    refine ⟨h.formed, ?_, h.flight, h.retained⟩
    simp only [note, UInt16.toNat_toUInt32]
    omega
  unfold Sender.hear
  split
  · next hack => exact hn.acknowledge (hc hack)
  · exact hn

theorem flightBound_moves {acked : Prop} {state state' : TcpState}
    (h : Moves acked state state') : flightBound state ≤ flightBound state' := by
  cases h with
  | stay => exact Nat.le_refl _
  | _ => decide

theorem moves_synSent {acked : Prop} {state state' : TcpState} (h : Moves acked state state') :
    state' = .synSent ↔ state = .synSent := by
  cases h <;> simp

theorem hear_keeps (x : Sender) (s : Segment) :
    (x.hear s).sendNext = x.sendNext ∧ (x.hear s).state = x.state := by
  unfold Sender.hear
  split
  · obtain ⟨hn, hs, -⟩ := acknowledge_spec (x.note s) s
    exact ⟨hn, hs⟩
  · exact ⟨rfl, rfl⟩

theorem Tidy.input (h : x.Tidy) (hi : x.Input s y)
    (hc : s.flags.rst = false → s.flags.ack → x.Covered s) (hopen : y.state ≠ .closed) :
    y.Tidy := by
  obtain ⟨hn, hst⟩ := hear_keeps x s
  cases hi with
  | ignored => exact h
  | reset => exact absurd rfl hopen
  | synchronized hrst hac hopeni =>
    have hh := h.hear (s := s) (hc hrst)
    -- Our SYN was acknowledged, so nothing is in flight.
    have hz : (x.hear s).sendNext - s.acknowledgement = 0 := by
      rw [hn, hac.2, UInt32.sub_self]
    refine ⟨hh.formed, hh.window, ?_, fun _ q hq => ?_⟩
    · simp only [Sender.flight, hz, UInt32.toNat_zero]
      exact Nat.zero_le _
    · unfold Within at hq
      simp only [hz, UInt32.toNat_zero] at hq
      omega
  | heard state hrst hm =>
    have hh := h.hear (s := s) (hc hrst)
    refine ⟨hh.formed, hh.window, ?_, fun hl => hh.retained ?_⟩
    · refine hh.flight.trans ?_
      rw [hst]
      exact flightBound_moves hm
    · intro hsyn
      rw [hst] at hsyn
      exact hl ((moves_synSent hm).mpr hsyn)

theorem Started.tidy (h : x.Started) : x.Tidy := by
  cases h with
  | listening hb hs hn hpi =>
    have hz : x.sendNext - x.sendUnacknowledged = 0 := by rw [hn, UInt32.sub_self]
    refine ⟨fun i p hp => by simp [hpi] at hp, hb.sendWindow, ?_, fun _ q hq => ?_⟩
    · simp only [Sender.flight, hz, UInt32.toNat_zero]
      exact Nat.zero_le _
    · unfold Within at hq
      simp only [hz, UInt32.toNat_zero] at hq
      omega
  | connecting hb hs hn hpi =>
    refine ⟨fun i p hp => by simp [hpi] at hp, hb.sendWindow, ?_, fun hl => ?_⟩
    · simp only [Sender.flight, hn, succ_sub_self, hs]
      exact Nat.le_refl 1
    · obtain ⟨i, p, hp⟩ := hl hs
      simp [hpi] at hp
  | answering hb hs hn i hpi =>
    refine ⟨fun k p hp => ?_, hb.sendWindow, ?_, fun _ q hq => ?_⟩
    · rw [hpi] at hp
      rcases update_pieces hp with ⟨-, ⟨⟩⟩ | ⟨-, ⟨⟩⟩
      exact synAckPiece_formed _
    · simp only [Sender.flight, hn, succ_sub_self, hs]
      exact Nat.le_refl 1
    · rw [hn] at hq
      exact ⟨i, ⟨x.sendUnacknowledged, x.sendUnacknowledged + 1, synAckFlags, []⟩,
        by rw [hpi, update_self], hq⟩

/-- A segment with data in the table was there, perhaps longer, or it is made of the bytes that
waited, in order, and the window has room for it next to the bytes in flight. -/
def Accounts (x : Sender) (i : Fin 8) (p : Piece) : Prop :=
  (∃ q, x.pieces i = some q ∧ p.sequence = q.sequence ∧ p.data <+: q.data) ∨
    p.sequence = x.sendNext ∧ p.data <+: x.unsent ∧ p.data.length ≤ 1460 ∧
      x.flight.toNat + p.data.length ≤ x.sendWindow.toNat

theorem Accounts.of_mem (h : x.pieces i = some p) : x.Accounts i p :=
  .inl ⟨p, h, rfl, List.prefix_rfl⟩

theorem Sent.accounts (h : x.Sent y) (hp : y.pieces i = some p) (hd : p.data ≠ []) :
    x.Accounts i p := by
  cases h with
  | nothing => exact .of_mem hp
  | syn k | fin k =>
    rcases update_pieces hp with ⟨-, ⟨⟩⟩ | ⟨-, hp⟩
    · exact absurd rfl hd
    · exact .of_mem hp
  | data k length last _ hs hpos hleng hmax hw hla hf hpi =>
    rcases update_pieces (hpi ▸ hp) with ⟨-, ⟨⟩⟩ | ⟨-, hp⟩
    · have hlen : (x.dataPiece length last).data.length = length := List.length_take_of_le hleng
      exact .inr ⟨rfl, List.take_prefix _ _, by rwa [hlen], by rwa [hlen]⟩
    · exact .of_mem hp

end Sender

namespace Stack

variable {call : Call} {j : Fin 32} {stack : Stack}

theorem changes_closed {x y : Sender} {bytes : List UInt8} (h : Changes stack call j x bytes y)
    (hc : x.state = .closed) : y.state = .closed := by
  have hsend : ∀ z : Sender, z.state = .closed → ¬ z.Sends := by
    intro z hz hs
    rcases hs with hs | hs <;> rw [hz] at hs <;> cases hs
  have hsent : ∀ z y : Sender, z.state = .closed → z.Sent y → y.state = .closed := by
    intro z y hz hsent
    cases hsent with
    | nothing => exact hz
    | syn i hst => rw [hz] at hst; cases hst
    | fin i hs | data i length last y hs => exact absurd hs (hsend z hz)
  cases h with
  | same | slower | queued | lent => exact hc
  | exhausted | aborted => rfl
  | sent y hs => exact hsent x y hc hs
  | closing y hs => exact absurd hs (hsend x hc)
  | resent i p y hp hf hre =>
    cases hre with
    | whole | shortened => exact hc
  | input s ht y hi =>
    cases hi with
    | ignored => exact hc
    | reset => rfl
    | synchronized hrst hac ho =>
      rw [hc] at ho
      rcases ho with h | h <;> cases h
    | heard state hrst hm =>
      rw [hc] at hm
      cases hm
      rfl

theorem covered_of {s : Segment} (h : stack.SacksCovered call)
    (ht : stack.target call = some (j, s)) (hrst : s.flags.rst = false)
    (hack : s.flags.ack) : (stack.connections j).sender.Covered s := by
  intro i p hp hs
  obtain ⟨e, he, rfl⟩ := Option.map_eq_some_iff.mp hp
  exact h j s ht hrst hack i e he hs

theorem changes_tidy {y : Sender} {bytes : List UInt8}
    (hco : stack.SacksCovered call ∧ stack.RewindsAhead call)
    (h : Changes stack call j (stack.connections j).sender bytes y)
    (hti : (stack.connections j).sender.Tidy) (ho : y.state ≠ .closed) : y.Tidy := by
  cases h with
  | same => exact hti
  | slower | queued | lent => exact ⟨hti.formed, hti.window, hti.flight, hti.retained⟩
  | exhausted | aborted => exact absurd rfl ho
  | sent y hsent => exact hti.sent hsent
  | closing y hsend hfin hsent =>
    have hsh : ({ (stack.connections j).sender with sendFin := true } : Sender).Tidy :=
      ⟨hti.formed, hti.window, hti.flight, hti.retained⟩
    exact hsh.sent hsent
  | input s hta y hi =>
    exact hti.input hi (covered_of hco.1 hta) ho
  | resent i p y hp hfir hres =>
    obtain ⟨d, ended, hfir, rfl, hk, -, hy⟩ := hfir
    obtain ⟨e, hdue, hn⟩ := fires_sendNext hfir hk
    rw [show ended.endpoint.sendNext = y.sendNext from congrArg Sender.sendNext hy] at hn
    cases hres with
    | whole mss => exact ⟨hti.formed, hti.window, hti.flight, hti.retained⟩
    | shortened mss hmss hrew =>
      have hsl : ({ (stack.connections d.slot).sender with remoteMss := mss } : Sender).Tidy :=
        ⟨hti.formed, hti.window, hti.flight, hti.retained⟩
      refine hsl.rewind hp hrew ?_
      split at hn
      · next hcut =>
        rw [hn]
        exact hco.2 d.slot e hdue hcut
      · rw [hn]
        exact hsl.not_ahead

/-- In every run in which SACK blocks retire only what is acknowledged and no tick takes
`send_next` back behind `send_unacknowledged`, all that is in flight is in the table. -/
theorem retained_run (memory : Fin 32 → Endpoint) (calls : List Call)
    (hrun : EachCall (fun stack call => stack.SacksCovered call ∧ stack.RewindsAhead call)
      (tcpInit memory) calls) (j : Fin 32)
    (hactive : (((tcpInit memory).run calls).connections j).active)
    (hopen : (((tcpInit memory).run calls).connections j).state ≠ .closed)
    (hlaunched : (((tcpInit memory).run calls).connections j).Launched) :
    (((tcpInit memory).run calls).connections j).Retained := by
  have ht : Everywhere (fun c => c.state ≠ .closed → c.sender.Tidy)
      ((tcpInit memory).run calls) := by
    refine everywhere_run (P := fun c => c.state ≠ .closed → c.sender.Tidy)
      (fun stack c c' h _ => (opens_started h).tidy) ?_ memory calls hrun
    intro stack call j hco hb haf ht hopen
    have hch := perform_changes hb haf
    exact changes_tidy hco hch
      (ht fun hcl => hopen (changes_closed hch hcl)) hopen
  rw [← Sender.retained_iff]
  exact (ht j hactive hopen).retained (Sender.launched_of hlaunched)

/-- The connection sends five bytes, the peer acknowledges two of them, and the segment is sent
again. -/
theorem retained_run_partial : ((boot.run (handshake 1460 ++
    [.queueSend firstId [1, 2, 3, 4, 5], .prepareTransmit firstId 0,
      arrive (fromPeer 501 103 ackFlags []), .tick 100])).connections 0).Retained :=
  retained_run _ _ (by decide +kernel) 0 (by decide +kernel) (by decide +kernel)
    fun hs => absurd hs (by decide +kernel)

/-- Three bytes are in flight and a SACK block takes them out of the table, although they were
not acknowledged. -/
theorem not_retained_sacked : ¬ ((boot.run (handshake 1460 ++ [.queueSend firstId [1, 2, 3],
    .prepareTransmit firstId 0, arrive { fromPeer 501 101 ackFlags [] with
      sackBlocks := [(101, 104)] }])).connections 0).Retained := by
  intro h
  obtain ⟨i, e, he, -⟩ := h 101 (by decide +kernel)
  have hn : ∀ i, ((boot.run (handshake 1460 ++ [.queueSend firstId [1, 2, 3],
    .prepareTransmit firstId 0, arrive { fromPeer 501 101 ackFlags [] with
      sackBlocks := [(101, 104)] }])).connections 0).retransmissions i = none := by decide +kernel
  rw [hn] at he
  cases he

theorem tracked_data_fits (call : Call) (hactive : (stack.connections j).active)
    (hactive' : ((stack.perform call).2.connections j).active) (i : Fin 8) (p : Piece)
    (hp : ((stack.perform call).2.connections j).sender.pieces i = some p) (hdata : p.data ≠ []) :
    (stack.connections j).sender.Accounts i p := by
  have h := perform_changes hactive hactive'
  generalize ((stack.perform call).2.connections j).sender = y, stack.accepts call j = bytes at h hp
  cases h with
  | same | slower | queued | lent => exact .of_mem hp
  | sent _ h | closing _ _ _ h => exact h.accounts hp hdata
  | input s ht _ h =>
    obtain ⟨una, mss, pieces, heq, hk⟩ := (stack.connections j).sender.hear_eq s
    cases h with
    | ignored | reset => exact .of_mem hp
    | synchronized | heard =>
      rw [heq] at hp
      exact .of_mem (hk i p hp).1
  | resent k q _ hq _ h =>
    cases h with
    | whole => exact .of_mem hp
    | shortened =>
      rcases Sender.update_pieces hp with ⟨rfl, ⟨⟩⟩ | ⟨-, hp⟩
      · exact .inl ⟨q, hq, rfl, List.take_prefix _ _⟩
      · exact .of_mem hp
  | exhausted k =>
    rcases Sender.update_pieces hp with ⟨-, ⟨⟩⟩ | ⟨-, hp⟩
    exact .of_mem hp
  | aborted => cases hp

theorem tracked_data_fits_three :
    (((boot.run (handshake 1460 ++ [.queueSend firstId [1, 2, 3]])).connections 0).sender).Accounts
      0 ⟨101, 104, ackFlags, [1, 2, 3]⟩ :=
  tracked_data_fits (.prepareTransmit firstId 0) (by decide +kernel) (by decide +kernel) 0 _
    (by decide +kernel) (by simp)

end Stack

end MichCore.Tcp
