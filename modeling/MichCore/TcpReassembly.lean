import MichCore.SerialNumber
import MichCore.TcpMerging

/-!
# Segments delivered out of order

Whatever the order in which a batch of contiguous segments is delivered, the receiver takes them
as they stand in the stream: `Progress` says that the first `m` were taken and that the others
that arrived wait in the table, beside those that waited before. What waits behind the batch is
merged after it, in the one way that `Ends` leaves.

A FIN is acted on where a segment arrives in order, not where one is merged. So the orders that
end like the delivery in order are those that deliver the FIN last.
-/
namespace MichCore.Tcp

open SerialNumber Relation List

/-- The entry that a waiting segment leaves in the table. -/
def SegmentView.held (s : SegmentView) : OutOfOrder := ⟨s.sequence, s.flags, s.payload⟩

/-- How many bytes stand before the `k`-th segment. -/
def offsetOf (segs : List SegmentView) (k : ℕ) : ℕ :=
  ((segs.map (fun s => s.payload.length)).take k).sum

theorem offsetOf_succ (segs : List SegmentView) (k : ℕ) (hk : k < segs.length) :
    offsetOf segs (k + 1) = offsetOf segs k + segs[k].payload.length := by
  unfold offsetOf
  rw [sum_take_succ _ k (by simpa using hk)]
  simp

namespace Receiver

/-- Two receivers with the same bytes at the same place of the stream. -/
structure SameBytes (a b : Receiver) : Prop where
  grants : a.grants = b.grants
  granted : a.granted = b.granted
  buffer : a.buffer = b.buffer
  receiveNext : a.receiveNext = b.receiveNext

variable {a b : Receiver}

theorem SameBytes.append (h : SameBytes a b) (data : List UInt8) :
    SameBytes (a.appendReceive data).2 (b.appendReceive data).2 := by
  have hs : a.grantSpace = b.grantSpace := by unfold grantSpace; rw [h.grants]
  unfold appendReceive
  rw [hs, h.buffer, h.grants]
  by_cases hf : b.grantSpace + 16384 - b.buffer.length < data.length
  · rw [if_pos hf, if_pos hf]
    exact h
  rw [if_neg hf, if_neg hf]
  by_cases hok : (fillGrants b.grants data).ok = true
  · simp only [hok, if_true]
    exact ⟨rfl, by simp [h.granted], by simp, h.receiveNext⟩
  · simp only [hok, if_false, Bool.false_eq_true]
    exact ⟨rfl, by simp [h.granted], rfl, h.receiveNext⟩

theorem SameBytes.advance (h : SameBytes a b) (length : ℕ) (fin : Bool) :
    SameBytes (a.advance length fin) (b.advance length fin) :=
  ⟨h.grants, h.granted, h.buffer, by simp only [Receiver.advance, h.receiveNext]⟩

/-- The segments taken in order, with no table. -/
def absorb (r : Receiver) (segs : List SegmentView) : Receiver :=
  segs.foldl (fun r s => (r.appendReceive s.payload).2.advance s.payload.length s.flags.fin) r

theorem absorb_take_succ (r : Receiver) (segs : List SegmentView) (m : ℕ) (hm : m < segs.length) :
    r.absorb (segs.take (m + 1)) =
      ((r.absorb (segs.take m)).appendReceive segs[m].payload).2.advance
        segs[m].payload.length segs[m].flags.fin := by
  rw [take_succ_eq_append_getElem hm]
  simp only [absorb, foldl_append, foldl_cons, foldl_nil]

theorem Merges.eof (ha : a.Sound) (h : Merges a b) : b.eof = a.eof := by
  obtain ⟨i, e, taken, -, -, ht, rfl⟩ := h.takes ha
  exact ht.eof

/-- The waiting segments have different sequence numbers. -/
def Distinct (r : Receiver) : Prop :=
  ∀ i j e f, r.outOfOrder i = some e → r.outOfOrder j = some f → e.sequence = f.sequence → i = j

theorem Distinct.entry_eq (hd : a.Distinct) {i j : Fin 8} {e f : OutOfOrder}
    (he : a.outOfOrder i = some e) (hf : a.outOfOrder j = some f)
    (hseq : e.sequence = f.sequence) : i = j ∧ e = f := by
  obtain rfl := hd i j e f he hf hseq
  exact ⟨rfl, Option.some.inj (he.symm.trans hf)⟩

theorem Distinct.merges (hd : a.Distinct) (h : Merges a b) : b.Distinct := by
  obtain ⟨i, e, taken, -, -, hap, rfl⟩ := h
  have ht : taken.outOfOrder = a.outOfOrder := by
    have hke := appendReceive_outOfOrder a e.data
    rwa [hap] at hke
  have hold : ∀ j f, ((taken.advance e.data.length e.flags.fin).setSlot i none).outOfOrder j =
      some f → a.outOfOrder j = some f := by
    intro j f hj
    by_cases hji : j = i
    · subst hji
      simp [setSlot] at hj
    · simpa [setSlot, advance, Function.update_of_ne hji, ht] using hj
  exact fun j k f g hj hk => hd j k f g (hold j f hj) (hold k g hk)

/-- The merges from a receiver, up to the first that does not fit or the last there is. -/
def Ends (k last : Receiver) : Prop :=
  ∃ x, ReflTransGen Merges k x ∧ (Blocked x last ∨ last = x ∧ Settled x)

/-- Only one waiting segment continues the stream, so the merges end in one way. -/
theorem Ends.unique {k : Receiver} (hd : k.Distinct) (ha : Ends k a) (hb : Ends k b) : a = b := by
  let Step (x y : Receiver) := x.Distinct ∧ Merges x y
  have hu : Relator.RightUnique Step := by
    rintro x y z ⟨hx, i, e, taken, he, hseq, hap, rfl⟩
      ⟨-, j, f, taken', hf, hseq', hap', rfl⟩
    obtain ⟨rfl, rfl⟩ := hx.entry_eq he hf (hseq.trans hseq'.symm)
    cases hap.symm.trans hap'
    rfl
  have hste : ∀ x, ReflTransGen Merges k x → ReflTransGen Step k x ∧ x.Distinct := by
    intro x hrun
    induction hrun with
    | refl => exact ⟨.refl, hd⟩
    | tail _ hm ih => exact ⟨ih.1.tail ⟨ih.2, hm⟩, ih.2.merges hm⟩
  have hsto : ∀ x last, Blocked x last ∨ last = x ∧ Settled x → ∀ y, ¬ Step x y := by
    rintro x last hend y ⟨hx, i, e, taken, he, hseq, hap, -⟩
    rcases hend with ⟨j, f, hf, hseq', hfa⟩ | ⟨-, hset⟩
    · obtain ⟨rfl, rfl⟩ := hx.entry_eq he hf (hseq.trans hseq'.symm)
      cases hap.symm.trans hfa
    · exact hset i e he hseq
  obtain ⟨x, hx, hxe⟩ := ha
  obtain ⟨y, hy, hye⟩ := hb
  obtain ⟨hx, hxd⟩ := hste x hx
  obtain ⟨hy, -⟩ := hste y hy
  obtain rfl : x = y := by
    rcases ReflTransGen.total_of_right_unique hu hx hy with h | h
    · exact h.cases_head.resolve_right fun ⟨z, hz, _⟩ => hsto x a hxe z hz
    · exact (h.cases_head.resolve_right fun ⟨z, hz, _⟩ => hsto y b hye z hz).symm
  rcases hxe with ⟨i, e, he, hseq, hfa⟩ | ⟨rfl, hset⟩ <;>
    rcases hye with ⟨j, f, hf, hseq', hfa'⟩ | ⟨rfl, hset'⟩
  · obtain ⟨rfl, rfl⟩ := hxd.entry_eq he hf (hseq.trans hseq'.symm)
    cases hfa.symm.trans hfa'
    rfl
  · exact absurd hseq (hset' i e he)
  · exact absurd hseq' (hset j f hf)
  · rfl

end Receiver

/-- Contiguous segments from `receive_next` on that fit the receive buffer and, with those that
wait already, the table; only the last one may carry a FIN. They and the waiting ones have
different sequence numbers. -/
structure Batch (r : Receiver) (segs : List SegmentView) : Prop where
  count : segs.length + r.occupied.card ≤ 8
  mss : ∀ s ∈ segs, s.payload.length ≤ 1460
  plain : ∀ s ∈ segs, s.flags.ack = true ∧ s.flags.syn = false ∧ s.flags.rst = false
  contiguous : ∀ k (h : k < segs.length), segs[k].sequence = wordAt r.receiveNext (offsetOf segs k)
  last : ∀ k (h : k < segs.length), segs[k].flags.fin = true → k + 1 = segs.length
  fits : offsetOf segs segs.length ≤ r.room
  index_eq : ∀ j k (hj : j < segs.length) (hk : k < segs.length),
    segs[j].sequence = segs[k].sequence → j = k
  apart : ∀ i e, r.outOfOrder i = some e → ∀ s ∈ segs, e.sequence ≠ s.sequence
  waiting : r.Distinct

section Offsets

variable {r : Receiver} {segs : List SegmentView}

theorem offsetOf_mono (segs : List SegmentView) {j k : ℕ} (hjk : j ≤ k) (hk : k ≤ segs.length) :
    offsetOf segs j ≤ offsetOf segs k := by
  induction k with
  | zero => rw [Nat.le_zero.mp hjk]
  | succ k ih =>
    have hs := offsetOf_succ segs k (by omega)
    rcases Nat.lt_or_ge j (k + 1) with hlt | hge
    · have := ih (by omega) (by omega)
      omega
    · rw [show j = k + 1 by omega]

theorem Batch.offset_lt (hb : Batch r segs) {j k : ℕ} (hjk : j < k) (hk : k < segs.length) :
    offsetOf segs j < offsetOf segs k := by
  refine lt_of_le_of_ne (offsetOf_mono segs hjk.le hk.le) fun heq => ?_
  have hs := hb.index_eq j k (hjk.trans hk) hk
    (by rw [hb.contiguous j (hjk.trans hk), hb.contiguous k hk, heq])
  omega

theorem Batch.nodup (hb : Batch r segs) : segs.Nodup := by
  rw [nodup_iff_injective_get]
  intro j k h
  apply Fin.ext
  exact hb.index_eq j k j.isLt k.isLt (congrArg SegmentView.sequence h)

end Offsets

/-- The first `m` segments were taken; the others of `given` wait, and so does what waited
before. -/
structure Progress (r : Receiver) (segs given : List SegmentView) (m : ℕ) (cur : Receiver) :
    Prop where
  le : m ≤ segs.length
  bytes : cur.SameBytes (r.absorb (segs.take m))
  sound : cur.Sound
  space : cur.room + offsetOf segs m = r.room
  next : m < segs.length → cur.receiveNext = wordAt r.receiveNext (offsetOf segs m)
  taken : ∀ k (h : k < segs.length), k < m → segs[k] ∈ given
  waiting : ∀ i e, cur.outOfOrder i = some e → r.outOfOrder i = some e ∨
    ∃ k, ∃ h : k < segs.length, m ≤ k ∧ segs[k] ∈ given ∧ e = segs[k].held
  old : ∀ i e, r.outOfOrder i = some e → cur.outOfOrder i = some e
  kept : ∀ k (h : k < segs.length), m ≤ k → segs[k] ∈ given →
    ∃ i, cur.outOfOrder i = some segs[k].held
  distinct : cur.Distinct

/-- The next segment of the stream has not arrived. -/
def Missing (segs given : List SegmentView) (m : ℕ) : Prop :=
  ∀ h : m < segs.length, segs[m] ∉ given

section Steps

variable {r cur taken : Receiver} {segs given : List SegmentView} {m : ℕ}

theorem Progress.start (hr : r.Sound) (hb : Batch r segs) : Progress r segs [] 0 r where
  le := Nat.zero_le _
  bytes := ⟨rfl, rfl, rfl, rfl⟩
  sound := hr
  space := by simp [offsetOf]
  next := fun _ => by simp [offsetOf, wordAt_zero]
  taken := by simp
  waiting := fun i e he => .inl he
  old := fun i e he => he
  kept := by simp
  distinct := hb.waiting

section

variable (hb : Batch r segs)
include hb

theorem Progress.bytes_succ (h : Progress r segs given m cur)
    (hm : m < segs.length) (hap : cur.appendReceive segs[m].payload = (true, taken))
    (ht : cur.Takes segs[m].payload taken) :
    (taken.advance segs[m].payload.length segs[m].flags.fin).SameBytes
        (r.absorb (segs.take (m + 1))) ∧
      taken.room + offsetOf segs (m + 1) = r.room ∧
      (m + 1 < segs.length → (taken.advance segs[m].payload.length segs[m].flags.fin).receiveNext =
          wordAt r.receiveNext (offsetOf segs (m + 1))) := by
  have hst := offsetOf_succ segs m hm
  refine ⟨?_, ?_, ?_⟩
  · rw [Receiver.absorb_take_succ r segs m hm]
    have hsa := (h.bytes.append segs[m].payload).advance segs[m].payload.length segs[m].flags.fin
    rwa [hap] at hsa
  · have := ht.room
    have := h.space
    omega
  · intro hlt
    have hfin : segs[m].flags.fin = false := by
      by_contra hfin
      have := hb.last m hm (by simpa using hfin)
      omega
    simp only [Receiver.advance, ht.receiveNext, h.next hm, hfin, wordAt_add]
    rw [hst]
    push_cast
    exact UInt32.add_zero _

theorem Progress.room_le (h : Progress r segs given m cur)
    (hm : m < segs.length) : segs[m].payload.length ≤ cur.room := by
  have hs := offsetOf_succ segs m hm
  have hmo := offsetOf_mono segs (show m + 1 ≤ segs.length from hm) le_rfl
  have := hb.fits
  have := h.space
  omega

/-- While a segment of the batch is missing, what waits at `receive_next` is of the batch. -/
theorem Progress.index_of_next (h : Progress r segs given m cur) (hm : m < segs.length) {i : Fin 8}
    {e : OutOfOrder} (hsl : cur.outOfOrder i = some e) (hseq : e.sequence = cur.receiveNext) :
    segs[m] ∈ given ∧ e = segs[m].held := by
  have hn : e.sequence = segs[m].sequence := by
    rw [hb.contiguous m hm, ← h.next hm, hseq]
  rcases h.waiting i e hsl with hold | ⟨k, hk, -, hg, rfl⟩
  · exact absurd hn (hb.apart i e hold segs[m] (getElem_mem hm))
  · obtain rfl := hb.index_eq k m hk hm hn
    exact ⟨hg, rfl⟩

theorem Progress.merges (h : Progress r segs given m cur) (hm : m < segs.length) {cur' : Receiver}
    (hme : cur.Merges cur') : Progress r segs given (m + 1) cur' := by
  have hd := h.distinct.merges hme
  obtain ⟨i, e, taken, hsl, hseq, hap, rfl⟩ := hme
  obtain ⟨hgi, rfl⟩ := h.index_of_next hb hm hsl hseq
  have htak : cur.Takes segs[m].payload taken := by
    obtain ⟨taken', hok, htak⟩ := Receiver.appendReceive_takes h.sound (h.room_le hb hm)
    have heq : (true, taken) = (true, taken') := by rw [← hok, ← hap]; rfl
    cases heq
    exact htak
  obtain ⟨hby, hsp, hn⟩ := h.bytes_succ hb hm hap htak
  have htab : taken.outOfOrder = cur.outOfOrder := htak.outOfOrder
  have hot : ∀ j, j ≠ i → ((taken.advance segs[m].payload.length
      segs[m].flags.fin).setSlot i none).outOfOrder j = cur.outOfOrder j := by
    intro j hji
    simp [Receiver.setSlot, Receiver.advance, Function.update_of_ne hji, htab]
  have hfr : ((taken.advance segs[m].payload.length
      segs[m].flags.fin).setSlot i none).outOfOrder i = none := by
    simp [Receiver.setSlot]
  refine ⟨hm, ⟨hby.grants, hby.granted, hby.buffer, hby.receiveNext⟩,
    ⟨htak.sound.inside, htak.sound.older, htak.sound.fits⟩, hsp, hn, ?_, ?_, ?_, ?_,
    hd⟩
  · intro j hj hlt
    rcases Nat.lt_or_ge j m with hjk | hjk
    · exact h.taken j hj hjk
    · obtain rfl : j = m := by omega
      exact hgi
  · intro j e he
    by_cases hji : j = i
    · subst hji
      cases hfr.symm.trans he
    have he' := (hot j hji).symm.trans he
    rcases h.waiting j e he' with hold | ⟨l, hl, hkl, hin, rfl⟩
    · exact .inl hold
    refine .inr ⟨l, hl, ?_, hin, rfl⟩
    -- The next segment waits in one slot only.
    rcases Nat.lt_or_ge m l with hlt | hge
    · exact hlt
    · obtain rfl : l = m := by omega
      exact absurd (h.distinct j i _ _ he' hsl rfl) hji
  · intro j f hf
    have hji : j ≠ i := by
      rintro rfl
      have heq : segs[m].held = f := Option.some.inj (hsl.symm.trans (h.old j f hf))
      exact hb.apart j f hf segs[m] (getElem_mem hm) (by rw [← heq]; rfl)
    exact (hot j hji).trans (h.old j f hf)
  · intro l hl hkl hin
    obtain ⟨j, hj⟩ := h.kept l hl (by omega) hin
    have hji : j ≠ i := by
      rintro rfl
      have heq : segs[l].held = segs[m].held := Option.some.inj (hj.symm.trans hsl)
      have := hb.index_eq l m hl hm (congrArg OutOfOrder.sequence heq)
      omega
    exact ⟨j, (hot j hji).trans hj⟩

/-- Where merging ends: in front of the missing segment, or with the whole batch taken and then
what waited behind it. -/
theorem Progress.mergeOutOfOrder (h : Progress r segs given m cur) :
    (∃ m', ∃ _ : m' < segs.length, Progress r segs given m' cur.mergeOutOfOrder ∧
      Missing segs given m' ∧ cur.mergeOutOfOrder.eof = cur.eof) ∨
    ∃ k, Progress r segs given segs.length k ∧ k.eof = cur.eof ∧ k.Ends cur.mergeOutOfOrder := by
  obtain ⟨last, hrun, hend⟩ := cur.mergeOutOfOrder_spec
  have hpa : (∃ m' < segs.length, Progress r segs given m' last ∧ last.eof = cur.eof) ∨
      ∃ k, Progress r segs given segs.length k ∧ k.eof = cur.eof ∧
        ReflTransGen Receiver.Merges k last := by
    clear hend
    have hpl : ∀ {m' x}, Progress r segs given m' x → x.eof = cur.eof →
        (∃ m' < segs.length, Progress r segs given m' x ∧ x.eof = cur.eof) ∨
        ∃ k, Progress r segs given segs.length k ∧ k.eof = cur.eof ∧
          ReflTransGen Receiver.Merges k x := by
      intro m' x hx heof
      rcases Nat.lt_or_eq_of_le hx.le with hlt | rfl
      · exact .inl ⟨m', hlt, hx, heof⟩
      · exact .inr ⟨x, hx, heof, .refl⟩
    induction hrun with
    | refl => exact hpl h rfl
    | tail _ hme ih =>
      rcases ih with ⟨m', hm', h', heof⟩ | ⟨k, hk, heof, hc⟩
      · exact hpl (h'.merges hb hm' hme) ((hme.eof h'.sound).trans heof)
      · exact .inr ⟨k, hk, heof, hc.tail hme⟩
  rcases hpa with ⟨m', hm, h', heof⟩ | ⟨k, hk, heof, hc⟩
  · rcases hend with ⟨i, e, hsl, hseq, hf⟩ | ⟨heq, hset⟩
    · -- The rest of the batch fits, so no merge is blocked.
      obtain ⟨-, rfl⟩ := h'.index_of_next hb hm hsl hseq
      obtain ⟨taken, hok, -⟩ := Receiver.appendReceive_takes h'.sound (h'.room_le hb hm)
      have heq : (false, cur.mergeOutOfOrder) = (true, taken) := by rw [← hok, ← hf]; rfl
      cases heq
    · rw [heq]
      refine .inl ⟨m', hm, h', fun _ hin => ?_, heof⟩
      obtain ⟨i, hi⟩ := h'.kept m' hm le_rfl hin
      apply hset i _ hi
      rw [h'.next hm, ← hb.contiguous m' hm]
      rfl
  · exact .inr ⟨k, hk, heof, last, hc, hend⟩

theorem Progress.free (h : Progress r segs given m cur)
    (hmissi : Missing segs given m) (hm : m < segs.length) : ∃ i, cur.outOfOrder i = none := by
  by_contra hfu
  push Not at hfu
  have hs : Nonempty (Fin segs.length) := ⟨⟨m, hm⟩⟩
  have hen : ∀ i ∉ r.occupied, ∃ k : Fin segs.length, segs[k] ∈ given ∧
      cur.outOfOrder i = some segs[k].held := by
    intro i hi
    obtain ⟨e, he⟩ := Option.ne_none_iff_exists'.mp (hfu i)
    rcases h.waiting i e he with hold | ⟨k, hk, -, hin, rfl⟩
    · exact absurd (by simp [hold]) hi
    · exact ⟨⟨k, hk⟩, hin, he⟩
  choose! f hin hf using hen
  have hinj : Set.InjOn f (r.occupiedᶜ : Finset (Fin 8)) := by
    intro i hi j hj hij
    rw [Finset.mem_coe, Finset.mem_compl] at hi hj
    exact h.distinct i j _ _ (hf i hi) (hf j hj) (by rw [hij])
  have hmiss : ∀ i ∈ r.occupiedᶜ, f i ∈ Finset.univ.erase (⟨m, hm⟩ : Fin segs.length) := by
    intro i hi
    refine Finset.mem_erase.mpr ⟨fun heq => ?_, Finset.mem_univ _⟩
    have hg := hin i (Finset.mem_compl.mp hi)
    rw [heq] at hg
    exact hmissi hm hg
  have hc := Finset.card_le_card_of_injOn f hmiss hinj
  rw [Finset.card_erase_of_mem (Finset.mem_univ _), Finset.card_compl] at hc
  simp only [Finset.card_univ, Fintype.card_fin] at hc
  have := hb.count
  omega

end

end Steps

/-- The segments one after the other. -/
def Connection.deliver (c : Connection) (order : List SegmentView) : Connection :=
  order.foldl (fun c s => (c.tcpInput s).2) c

section Deliveries

variable {c : Connection} {segs given : List SegmentView}

end Deliveries

namespace Context

/-- The segments as IPv4 packets with good checksums. -/
def deliver (ctx : Context) (source destination isn : UInt32) (order : List SegmentView) :
    Context :=
  order.foldl (fun ctx s => (ctx.tcpReceiveIpv4 source destination (some s) true isn).2) ctx

end Context

namespace Connection

/-- The fields that decide where a segment goes. -/
structure SameEnds (c c' : Connection) : Prop where
  active : c'.active = c.active
  family : c'.family = c.family
  localAddress : c'.localAddress = c.localAddress
  remoteAddress : c'.remoteAddress = c.remoteAddress
  localPort : c'.localPort = c.localPort
  remotePort : c'.remotePort = c.remotePort

theorem SameEnds.trans {a b c : Connection} (h : a.SameEnds b) (h' : b.SameEnds c) : a.SameEnds c :=
  ⟨h'.active.trans h.active, h'.family.trans h.family, h'.localAddress.trans h.localAddress,
    h'.remoteAddress.trans h.remoteAddress, h'.localPort.trans h.localPort,
    h'.remotePort.trans h.remotePort⟩

end Connection

section Table

variable {ctx : Context} {i : Fin 32} {source destination : UInt32} {segs : List SegmentView}

end Table

/-- A table with one connection, in slot 0. -/
def oneConnection : Context :=
  ⟨fun i => if i = 0 then established 0 else { established 0 with active := false }⟩

/-- A data segment of its peer. -/
def peerSegment (sequence : UInt32) (payload : List UInt8) (fin : Bool) : SegmentView where
  sourcePort := 4000
  destinationPort := 80
  sequence := sequence
  acknowledgement := 0
  flags := ⟨fin, false, false, true⟩
  window := 65535
  mss := 0
  sackPermitted := false
  payload := payload

end MichCore.Tcp
