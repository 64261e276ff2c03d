import MichCore.DnsNames

/-!
# Queries and their replies

`encode_name` takes one dot at the end of a name for nothing; `skip_name` never writes one. A
reply made from our own query is accepted exactly for the names without such a dot.
-/
namespace MichCore.Dns

open List
open BoundedBytes BoundedBytes.Buffer BoundedBytes.Memory

/-- The labels on the wire, each behind its length. -/
def wireLabels (labels : Labels) : List UInt8 :=
  labels.flatMap (fun label => UInt8.ofNat label.length :: label)

/-- Labels as `encode_name` accepts them. -/
def Encodable (labels : Labels) : Prop :=
  ∀ label ∈ labels, label ≠ [] ∧ label.length ≤ 63 ∧ 0x2E ∉ label

/-- The labels of the name, which may end in a dot. -/
def Spells (name : List UInt8) (labels : Labels) : Prop :=
  name = dotted labels ∨ (labels ≠ [] ∧ name = dotted labels ++ [0x2E])

variable {label name address : List UInt8} {labels : Labels} {limit i last transaction type ttl : ℕ}
  {m : Buffer} {t : Memory} {w : Walk}

theorem dotted_cons_cons (hlabel : label ≠ []) (hlabels : labels ≠ [])
    (hne : ∀ l ∈ labels, l ≠ []) :
    dotted (label :: labels) = label ++ 0x2E :: dotted labels := by
  cases labels with
  | nil => exact absurd rfl hlabels
  | cons next labels =>
    rw [dotted_cons hlabel, dotted_cons (hne next mem_cons_self), flatMap_cons, cons_append]

theorem first_label (name : List UInt8) :
    (0x2E ∉ name.takeWhile (· ≠ 0x2E)) ∧
      ((name.dropWhile (· ≠ 0x2E) = [] ∧ name = name.takeWhile (· ≠ 0x2E)) ∨
        ∃ rest, name.dropWhile (· ≠ 0x2E) = 0x2E :: rest ∧
          name = name.takeWhile (· ≠ 0x2E) ++ 0x2E :: rest) := by
  have hs := takeWhile_append_dropWhile (p := fun b : UInt8 => decide (b ≠ 0x2E)) (l := name)
  refine ⟨fun hmem => ?_, ?_⟩
  · have hall := all_takeWhile (p := fun b : UInt8 => decide (b ≠ 0x2E)) (l := name)
    have hdot := all_eq_true.mp hall _ hmem
    simp at hdot
  cases hdr : name.dropWhile (· ≠ 0x2E) with
  | nil =>
    rw [hdr, append_nil] at hs
    exact .inl ⟨rfl, hs.symm⟩
  | cons b rest =>
    have hb : b = 0x2E := by
      have hh := head?_dropWhile_not (fun b : UInt8 => decide (b ≠ 0x2E)) name
      rw [hdr] at hh
      simpa using hh
    rw [hdr, hb] at hs
    exact .inr ⟨rest, by rw [hb], hs.symm⟩

theorem Spells.eq_nil (hlabels : Encodable labels) (h : Spells [] labels) : labels = [] := by
  cases labels with
  | nil => rfl
  | cons label labels =>
    have hlabel := (hlabels label mem_cons_self).1
    rcases h with h | ⟨-, h⟩
    · rw [dotted_cons hlabel] at h
      exact absurd (append_eq_nil_iff.mp h.symm).1 hlabel
    · simp at h

theorem Spells.cons {rest : List UInt8} (hlabel : label ≠ []) (hlabels : Encodable labels)
    (h : Spells rest labels) (he : labels = [] → rest = []) :
    Spells (label ++ 0x2E :: rest) (label :: labels) := by
  by_cases hnil : labels = []
  · right
    rw [he hnil, hnil, dotted_cons hlabel]
    exact ⟨cons_ne_nil _ _, by simp⟩
  have hd := dotted_cons_cons hlabel hnil fun l hl => (hlabels l hl).1
  rcases h with rfl | ⟨-, rfl⟩
  · exact .inl hd.symm
  · right
    rw [hd]
    exact ⟨cons_ne_nil _ _, by simp⟩

theorem encodeLoop_spells {fuel : ℕ} {out encoded : List UInt8}
    (h : encodeLoop limit fuel name out = .ok (some encoded)) :
    ∃ labels, Encodable labels ∧ Spells name labels ∧ encoded = out ++ wireLabels labels ∧
      (labels = [] → name = []) := by
  induction fuel generalizing name out with
  | zero => cases h
  | succ fuel ih =>
    rw [encodeLoop] at h
    split at h
    · next hnil =>
      cases h
      exact ⟨[], nofun, .inl hnil, by simp [wireLabels], fun _ => hnil⟩
    · next hne =>
      simp only at h
      obtain ⟨hdot, hspl⟩ := first_label name
      generalize name.takeWhile (· ≠ 0x2E) = label at *
      generalize name.dropWhile (· ≠ 0x2E) = rest at *
      split at h
      · cases h
      · next hlabel =>
        rw [not_or, Nat.not_lt] at hlabel
        split at h
        · cases h
        obtain ⟨labels, hlabels, hspe, hen, hem⟩ := ih h
        refine ⟨label :: labels, ?_, ?_, ?_, nofun⟩
        · exact forall_mem_cons.mpr ⟨⟨hlabel.1, hlabel.2, hdot⟩, hlabels⟩
        · rcases hspl with ⟨hr, hna⟩ | ⟨rest', hr, hna⟩
          · rw [hr, drop_nil] at hspe
            have hno := Spells.eq_nil hlabels hspe
            exact .inl (by rw [hna, hno, dotted_cons hlabel.1]; simp)
          · rw [hr, drop_succ_cons, drop_zero] at hspe hem
            rw [hna]
            exact hspe.cons hlabel.1 hlabels hem
        · rw [hen]
          simp [wireLabels]

theorem encodeName_spells {encoded : List UInt8} (h : encodeName limit name = .ok (some encoded)) :
    ∃ labels, Encodable labels ∧ Spells name labels ∧ encoded = wireLabels labels ++ [0] := by
  unfold encodeName at h
  cases hlo : encodeLoop limit (name.length + 1) name [] with
  | error fault =>
    rw [hlo] at h
    cases h
  | ok out =>
    rw [hlo] at h
    cases out with
    | none => cases h
    | some out =>
      obtain ⟨labels, hla, hs, hout, -⟩ := encodeLoop_spells hlo
      simp only [bind, Except.bind] at h
      split at h
      · cases h
      · cases h
        exact ⟨labels, hla, hs, by rw [hout, nil_append]⟩

/-- The labels are in the message from `i` on, with the end of the name behind them. -/
inductive SpelledAt (m : Buffer) : ℕ → Labels → ℕ → Prop where
  | root (i : ℕ) (hinside : i < m.length) (hend : m.byte i = 0) : SpelledAt m i [] (i + 1)
  | label (i next : ℕ) (label : List UInt8) (labels : Labels) (hlabel : LabelAt m i label)
      (hrest : SpelledAt m (i + 1 + label.length) labels next) :
      SpelledAt m i (label :: labels) next

set_option maxRecDepth 20000 in
private theorem lengthTable : ∀ n : Fin 64, UInt8.ofNat n.val &&& 0xC0 = 0 := by decide

theorem HasAt.spelledAt (hlabels : Encodable labels) (h : m.HasAt i (wireLabels labels ++ [0])) :
    SpelledAt m i labels (i + (wireLabels labels).length + 1) := by
  induction labels generalizing i with
  | nil => exact .root i h.head.1 h.head.2
  | cons label labels ih =>
    obtain ⟨hne, hshort, -⟩ := hlabels label mem_cons_self
    have hw : wireLabels (label :: labels) =
        UInt8.ofNat label.length :: (label ++ wireLabels labels) := by simp [wireLabels]
    rw [hw, cons_append, append_assoc] at h
    have hb : m.byte i = UInt8.ofNat label.length := h.head.2
    have hsi : (m.byte i).toNat = label.length := by
      rw [hb, UInt8.toNat_ofNat']
      omega
    have ht := h.tail.left
    have hi := ht.1
    have hlabel : LabelAt m i label := by
      refine ⟨?_, ?_, ?_, ?_⟩
      · rw [hb]
        exact lengthTable ⟨label.length, Nat.lt_succ_iff.mpr hshort⟩
      · intro hz
        rw [hz] at hsi
        exact hne (eq_nil_of_length_eq_zero hsi.symm)
      · omega
      · rw [hsi, ht.slice]
    have hr := ih (fun l hl => hlabels l (mem_cons_of_mem _ hl)) h.tail.right
    have hlas : i + (wireLabels (label :: labels)).length + 1 =
        i + 1 + label.length + (wireLabels labels).length + 1 := by
      rw [hw, length_cons, length_append]
      omega
    rw [hlas]
    exact .label i _ label labels hlabel hr

theorem skipTurn_label (hr : Roomy m limit) (hte : w.text = some t) (hfits : w.Fits limit)
    (hla : LabelAt m w.cursor label) (hsp : w.after label < limit) :
    ∃ t', skipTurn m limit w = .ok (.again { w with
        written := w.after label, cursor := w.cursor + 1 + label.length, text := some t' }) ∧
      ∀ text, text.length = w.written → Holds t text →
        (joinLabel text label).length = w.after label ∧ Holds t' (joinLabel text label) := by
  obtain ⟨turn, hturn, hturns⟩ := skipTurn_turns hr hfits
  have hle := hla.length
  have hsa : ∀ label', LabelAt m w.cursor label' → label' = label :=
    fun label' h => h.2.2.2.trans hla.2.2.2.symm
  cases hturns with
  | rejected h =>
    exfalso
    cases h with
    | outside h => omega
    | pointer hm h =>
      rw [hla.1] at hm
      exact absurd hm (by decide)
    | reserved hm h => exact h hla.1
    | label hm h => omega
    | counted label' hla' hte' h =>
      rw [hte] at hte'
      cases hte'
    | long label' hla' hte' h =>
      rw [hsa label' hla'] at h
      omega
  | jumped target hp hb hju => exact absurd hp hla.not_pointsTo
  | counted label' hla' hte' h =>
    rw [hte] at hte'
    cases hte'
  | labelled label' hla' t₁ t₂ hte' written hw hlo hjo =>
    obtain rfl := hsa label' hla'
    rw [hte] at hte'
    cases hte'
    subst hw
    exact ⟨t₂, hturn, hjo⟩
  | counted_ended hend hc hte' => exact absurd hend hla.2.1
  | ended hend hc t' hte' => exact absurd hend hla.2.1

theorem skipTurn_end (hr : Roomy m limit) (hte : w.text = some t) (hfits : w.Fits limit)
    (hc : w.cursor < m.length) (hend : m.byte w.cursor = 0) :
    skipTurn m limit w = .ok (.done (some (w.next.getD (w.cursor + 1),
      some (Function.update t w.written 0)))) := by
  obtain ⟨turn, hturn, hturns⟩ := skipTurn_turns hr hfits
  rw [hturn]
  cases hturns with
  | rejected h =>
    exfalso
    cases h with
    | outside h => omega
    | pointer hm h =>
      rw [hend] at hm
      exact absurd hm (by decide)
    | reserved hm h =>
      rw [hend] at h
      exact absurd h (by decide)
    | label hm h =>
      rw [hend] at h
      exact absurd h (by simp; omega)
    | counted label hla hte' h => exact hla.2.1 hend
    | long label hla hte' h => exact hla.2.1 hend
  | jumped target hp hb hju => exact absurd hend hp.ne_zero
  | counted label hla hte' h => exact absurd hend hla.2.1
  | labelled label hla t₁ t₂ hte' written hw hlo hjo =>
    exact absurd hend hla.2.1
  | counted_ended hend' hc' hte' =>
    rw [hte] at hte'
    cases hte'
  | ended hend' hc' t' hte' =>
    rw [hte] at hte'
    cases hte'
    rfl

theorem skipTurn_pointer (hr : Roomy m limit) (hfits : w.Fits limit) {target : ℕ}
    (hp : PointsTo m w.cursor target) (hb : target < w.cursor) (hju : w.jumps < 16) :
    skipTurn m limit w = .ok (.again { w with
      jumps := w.jumps + 1, next := some (w.next.getD (w.cursor + 2)), cursor := target }) := by
  obtain ⟨turn, hturn, hturns⟩ := skipTurn_turns hr hfits
  rw [hturn]
  have hi := hp.1
  have hm := hp.2.1
  cases hturns with
  | rejected h =>
    exfalso
    cases h with
    | outside h => omega
    | pointer hm h =>
      have := h target hp hb
      omega
    | reserved hm' h => exact hm' hm
    | label hm' h =>
      rw [hm] at hm'
      exact absurd hm' (by decide)
    | counted label hla hte' h => exact hla.not_pointsTo hp
    | long label hla hte' h => exact hla.not_pointsTo hp
  | jumped target' hp' hb' hju' =>
    obtain rfl : target' = target := hp'.2.2.trans hp.2.2.symm
    rfl
  | counted label hla hte' h => exact absurd hp hla.not_pointsTo
  | labelled label hla t₁ t₂ hte' written hw hlo hjo =>
    exact absurd hp hla.not_pointsTo
  | counted_ended hend' hc' hte' => exact absurd hend' hp.ne_zero
  | ended hend' hc' t' hte' => exact absurd hend' hp.ne_zero

theorem skipLoop_again {fuel : ℕ} {w' : Walk} (h : skipTurn m limit w = .ok (.again w')) :
    skipLoop m limit (fuel + 1) w = skipLoop m limit fuel w' := by
  rw [skipLoop, h]
  rfl

theorem length_le_joinLabel (text label : List UInt8) :
    text.length ≤ (joinLabel text label).length := by
  unfold joinLabel
  split
  · next hnil => simp [hnil]
  · simp

theorem length_le_foldl_joinLabel (text : List UInt8) (labels : Labels) :
    text.length ≤ (labels.foldl joinLabel text).length := by
  induction labels generalizing text with
  | nil => exact Nat.le_refl _
  | cons label labels ih => exact (length_le_joinLabel text label).trans (ih _)

theorem skipLoop_spelled (hro : Roomy m limit) {text : List UInt8} (fuel : ℕ)
    (hfu : labels.length < fuel) (hspe : SpelledAt m w.cursor labels last)
    (hte : w.text = some t) (hle : text.length = w.written) (hh : Holds t text)
    (hspa : (labels.foldl joinLabel text).length < limit) (hfits : w.Fits limit) :
    ∃ t', skipLoop m limit fuel w = .ok (some (w.next.getD last, some t')) ∧
      Holds t' (labels.foldl joinLabel text ++ [0]) := by
  induction labels generalizing w t text fuel with
  | nil =>
    cases hspe with
    | root _ hi hend =>
      cases fuel with
      | zero => exact absurd hfu (Nat.not_lt_zero _)
      | succ fuel =>
        refine ⟨Function.update t w.written 0, ?_, ?_⟩
        · simp only [skipLoop, skipTurn_end hro hte hfits hi hend, bind, Except.bind]
          rfl
        · rw [foldl_nil, ← hle]
          exact hh.update 0
  | cons label labels ih =>
    cases hspe with
    | label _ _ _ _ hla hre =>
      cases fuel with
      | zero => exact absurd hfu (Nat.not_lt_zero _)
      | succ fuel =>
        have haf : (joinLabel text label).length = w.after label := by
          unfold joinLabel Walk.after
          by_cases hnil : text = []
          · have hz : w.written = 0 := by rw [← hle, hnil]; rfl
            rw [if_pos hnil, hz]
            simp
          have hpos : w.written ≠ 0 := by
            rw [← hle]
            exact fun h => hnil (eq_nil_of_length_eq_zero h)
          rw [if_neg hnil, if_neg hpos, length_append, length_cons]
          omega
        have hlt : w.after label < limit := by
          rw [← haf]
          exact Nat.lt_of_le_of_lt (length_le_foldl_joinLabel _ labels) hspa
        obtain ⟨t', htu, hj⟩ := skipTurn_label hro hte hfits hla hlt
        obtain ⟨t'', hrun, hh'⟩ := ih fuel (Nat.lt_of_succ_lt_succ hfu)
          (w := { w with
            written := w.after label, cursor := w.cursor + 1 + label.length, text := some t' })
          hre rfl haf (hj text hle hh).2 hspa (by
            simp only [Walk.Fits, Option.isSome_some, if_true]
            exact hlt)
        refine ⟨t'', ?_, hh'⟩
        rw [skipLoop_again htu]
        exact hrun

theorem length_lt_dotted (hlabels : Encodable labels) :
    labels.length ≤ (dotted labels).length ∧
      (labels ≠ [] → (wireLabels labels).length = (dotted labels).length + 1) := by
  have hw : ∀ labels : Labels, (∀ label ∈ labels, label ≠ []) →
      labels.length ≤ (labels.flatMap (fun label => (0x2E : UInt8) :: label)).length ∧
        (wireLabels labels).length =
          (labels.flatMap (fun label => (0x2E : UInt8) :: label)).length := by
    intro labels hne
    induction labels with
    | nil => exact ⟨Nat.le_refl _, rfl⟩
    | cons label labels ih =>
      obtain ⟨hle, heq⟩ := ih fun l hl => hne l (mem_cons_of_mem _ hl)
      unfold wireLabels at heq ⊢
      simp only [flatMap_cons, length_append, length_cons]
      exact ⟨by omega, by omega⟩
  cases labels with
  | nil => exact ⟨Nat.zero_le _, fun h => absurd rfl h⟩
  | cons label labels =>
    have hlabel := (hlabels label mem_cons_self).1
    have hpos := length_pos_iff.mpr hlabel
    obtain ⟨hle, heq⟩ := hw labels fun l hl => (hlabels l (mem_cons_of_mem _ hl)).1
    rw [dotted_cons hlabel]
    unfold wireLabels at heq ⊢
    simp only [flatMap_cons, length_append, length_cons]
    exact ⟨by omega, fun _ => by omega⟩

theorem skipName_spelled (hsm : Small m) (hl : Encodable labels) {offset : ℕ}
    (hspe : SpelledAt m offset labels last) (hspa : (dotted labels).length < 256)
    (scratch : Memory) :
    ∃ t, skipName m offset (some scratch) 256 = .ok (some (last, some t)) ∧
      Holds t (dotted labels ++ [0]) := by
  have hcount := (length_lt_dotted hl).1
  obtain ⟨t, hrun, hh⟩ := skipLoop_spelled hsm.roomy (max 256 256 + 17) (by omega)
    (w := ⟨0, offset, 0, none, some scratch⟩) hspe rfl rfl (holds_nil scratch) hspa
    (by simp [Walk.Fits])
  exact ⟨t, hrun, hh⟩

theorem skipName_pointer (hsm : Small m) (hl : Encodable labels) {offset target : ℕ}
    (hp : PointsTo m offset target) (hb : target < offset) (hspe : SpelledAt m target labels last)
    (hspa : (dotted labels).length < 256) (scratch : Memory) :
    ∃ t, skipName m offset (some scratch) 256 = .ok (some (offset + 2, some t)) ∧
      Holds t (dotted labels ++ [0]) := by
  have hcount := (length_lt_dotted hl).1
  have hfits : (⟨0, offset, 0, none, some scratch⟩ : Walk).Fits 256 := by simp [Walk.Fits]
  have ht : skipTurn m 256 ⟨0, offset, 0, none, some scratch⟩ =
      .ok (.again ⟨1, target, 0, some (offset + 2), some scratch⟩) :=
    skipTurn_pointer hsm.roomy hfits hp hb (Nat.zero_lt_succ _)
  obtain ⟨t, hrun, hh⟩ := skipLoop_spelled hsm.roomy 272 (by omega)
    (w := ⟨1, target, 0, some (offset + 2), some scratch⟩) hspe rfl rfl (holds_nil scratch)
    hspa (by simp [Walk.Fits])
  refine ⟨t, ?_, hh⟩
  have hfu : max 256 256 + 17 = 272 + 1 := by decide
  rw [skipName, hfu, skipLoop_again ht, hrun, Option.getD_some]

def be32Bytes (value : ℕ) : List UInt8 := be16Bytes (value / 2 ^ 16) ++ be16Bytes value

/-- The query with the response bit and an answer count of 1, and one record for it. -/
def replyTo (query : List UInt8) (type ttl : ℕ) (address : List UInt8) : List UInt8 :=
  ((query.set 2 (query.getD 2 0 ||| 0x80)).set 6 0).set 7 1 ++ [0xC0, 12] ++ be16Bytes type ++
    be16Bytes 1 ++ be32Bytes ttl ++ be16Bytes address.length ++ address

/-- The result with one address of the type. -/
def onlyAddress (type ttl : ℕ) (address : List UInt8) : Result :=
  if type = 1 then
    ⟨[(ofList address).word32 0], [], ttl⟩
  else ⟨[], [address], ttl⟩

theorem HasAt.be16 {v : ℕ} {bytes : List UInt8} (h : m.HasAt i (be16Bytes v ++ bytes)) :
    m.word16 i = v % 2 ^ 16 := by
  have hw := HasAt.word16 h
  rw [hw, UInt8.toNat_ofNat', UInt8.toNat_ofNat']
  omega

theorem buildQuery_some {query : List UInt8}
    (h : buildQuery limit name type transaction = .ok (some query)) :
    name ≠ [] ∧ name.length ≤ 255 ∧ ∃ labels, Encodable labels ∧ Spells name labels ∧
      query = be16Bytes (transaction % 2 ^ 16) ++ be16Bytes 0x0100 ++ be16Bytes 1 ++
        [0, 0, 0, 0, 0, 0] ++ (wireLabels labels ++ [0]) ++ be16Bytes type ++ be16Bytes 1 := by
  unfold buildQuery at h
  split at h
  · cases h
  split at h
  · cases h
  · next hn =>
    rw [not_or, Nat.not_lt] at hn
    cases he : encodeName (limit - 12 - 4) name with
    | error fault =>
      rw [he] at h
      cases h
    | ok encoded =>
      rw [he] at h
      cases encoded with
      | none => cases h
      | some encoded =>
        cases h
        obtain ⟨labels, hl, hs, rfl⟩ := encodeName_spells he
        exact ⟨hn.1, hn.2, labels, hl, hs, rfl⟩

/-- What follows the header in a reply: the question, and the record. -/
def replyBody (labels : Labels) (type ttl : ℕ) (address : List UInt8) : List UInt8 :=
  wireLabels labels ++ [0] ++ (be16Bytes type ++ (be16Bytes 1 ++ ([0xC0, 12] ++
    (be16Bytes type ++ (be16Bytes 1 ++ (be32Bytes ttl ++ (be16Bytes address.length ++ address)))))))

def replyHeader (transaction : ℕ) : List UInt8 :=
  be16Bytes (transaction % 2 ^ 16) ++ [0x81, 0, 0, 1, 0, 1, 0, 0, 0, 0]

theorem replyTo_eq (labels : Labels) (type transaction ttl : ℕ) (address : List UInt8) :
    replyTo (be16Bytes (transaction % 2 ^ 16) ++ be16Bytes 0x0100 ++ be16Bytes 1 ++
      [0, 0, 0, 0, 0, 0] ++ (wireLabels labels ++ [0]) ++ be16Bytes type ++ be16Bytes 1)
      type ttl address = replyHeader transaction ++ replyBody labels type ttl address := by
  have hf : UInt8.ofNat (0x0100 / 256) ||| 0x80 = 0x81 := by decide
  simp only [replyTo, replyHeader, replyBody, be16Bytes, cons_append, nil_append,
    append_assoc, set_cons_succ, set_cons_zero, getD_cons_succ, getD_cons_zero, hf]
  rfl

/-- A header that says: a response without error, one question, one answer. -/
structure HeaderOk (m : Buffer) (transaction : ℕ) : Prop where
  length : 12 ≤ m.length
  id : m.word16 0 = transaction % 2 ^ 16
  flags : m.word16 2 = 0x8100
  questions : m.word16 4 = 1
  answers : m.word16 6 = 1

theorem parseReply_rejected (hh : HeaderOk m transaction) {scratch : Memory}
    (hq : questionMatches m (cString name) type scratch = .ok none) :
    parseReply m name type transaction scratch = .ok .rejected := by
  have hl := hh.length
  simp only [parseReply, if_neg (Nat.not_lt.mpr hl)]
  rw [be16_of_lt (by omega), be16_of_lt (by omega), be16_of_lt (by omega),
    be16_of_lt (by omega), hh.id, hh.flags, hh.questions, hq]
  simp only [bind, Except.bind, ne_eq, not_true_eq_false, if_false]
  rfl

theorem parseReply_accepted (hh : HeaderOk m transaction) {cursor : ℕ} {scratch : Memory}
    {s : Scan} (hq : questionMatches m (cString name) type scratch = .ok (some cursor))
    (hscan : scanAnswer m type scratch (Scan.start cursor name) = .ok (some s))
    (hf : ¬ (s.result.ipv4 = [] ∧ s.result.ipv6 = [])) :
    parseReply m name type transaction scratch = .ok (.accepted s.result) := by
  have hl := hh.length
  have hscans : scanAnswers m type scratch 1 ⟨cursor, copyName name, 0, ⟨[], [], 0⟩⟩ =
      .ok (some s) := by
    rw [scanAnswers]
    unfold Scan.start at hscan
    rw [hscan]
    rfl
  simp only [parseReply, if_neg (Nat.not_lt.mpr hl)]
  rw [be16_of_lt (by omega), be16_of_lt (by omega), be16_of_lt (by omega),
    be16_of_lt (by omega), hh.id, hh.flags, hh.questions, hh.answers, hq]
  simp only [bind, Except.bind, ne_eq, not_true_eq_false, if_false, hscans, if_neg hf]
  rfl

/-- The parts of a reply in the message. -/
structure ReplyAt (m : Buffer) (labels : Labels) (type ttl : ℕ) (address : List UInt8) :
    Prop where
  small : Small m
  spelled : SpelledAt m 12 labels (12 + (wireLabels labels).length + 1)
  asked : m.word16 (12 + (wireLabels labels).length + 1) = type
  askedClass : m.word16 (12 + (wireLabels labels).length + 3) = 1
  points : PointsTo m (12 + (wireLabels labels).length + 5) 12
  record : RecordAt m (12 + (wireLabels labels).length + 7)
    ⟨type, 1, ttl, address.length, 12 + (wireLabels labels).length + 17⟩
  address : m.HasAt (12 + (wireLabels labels).length + 17) address

theorem replyAt_of_hasAt (hla : Encodable labels) (hsm : Small m) (hty : type < 2 ^ 16)
    (httl : ttl < 2 ^ 32) (had : address.length < 2 ^ 16)
    (h : m.HasAt 12 (replyBody labels type ttl address)) : ReplyAt m labels type ttl address := by
  unfold replyBody at h
  have hq := h.right
  rw [length_append, length_singleton, ← Nat.add_assoc] at hq
  have hc := hq.right
  have ho := hc.right
  have hrecord := ho.right
  have hrecordC := hrecord.right
  have httlH := hrecordC.right
  rw [be32Bytes, append_assoc] at httlH
  have httlL := httlH.right
  have hsi := httlL.right
  have hd := hsi.right
  simp only [be16Bytes, length_cons, length_nil, Nat.zero_add, Nat.add_assoc,
    Nat.reduceAdd] at hc ho hrecord hrecordC httlH httlL hsi hd
  have hend := hd.1
  refine ⟨hsm, HasAt.spelledAt hla h.left, ?_, ?_, ?_, ⟨?_, ?_, ?_, ?_, ?_, ?_, ?_⟩, ?_⟩
  · rw [HasAt.be16 hq, Nat.mod_eq_of_lt hty]
  · exact HasAt.be16 (v := 1) hc
  · have hf : m.byte (12 + (wireLabels labels).length + 5) = 0xC0 := ho.head.2
    have hse : m.byte (12 + (wireLabels labels).length + 5 + 1) = 12 := ho.tail.head.2
    refine ⟨?_, ?_, ?_⟩
    · have hi := ho.1
      simp only [length_cons, cons_append] at hi
      omega
    · rw [hf]
      decide
    · rw [hf, hse]
      decide
  · exact ((HasAt.be16 hrecord).trans (Nat.mod_eq_of_lt hty)).symm
  · exact (HasAt.be16 (v := 1) hrecordC).symm
  · have hh := HasAt.be16 (v := ttl / 2 ^ 16) httlH
    have hlow := HasAt.be16 (v := ttl) httlL
    have hh' : m.word16 (12 + (wireLabels labels).length + 7 + 4) = ttl / 2 ^ 16 % 2 ^ 16 :=
      hh
    have hlow' : m.word16 (12 + (wireLabels labels).length + 7 + 4 + 2) = ttl % 2 ^ 16 := hlow
    change ttl = m.word32 _
    rw [Buffer.word32, hh', hlow']
    omega
  · exact ((HasAt.be16 hsi).trans (Nat.mod_eq_of_lt had)).symm
  · rfl
  · change 12 + (wireLabels labels).length + 17 ≤ m.length
    omega
  · refine (Nat.mod_le _ _).trans ?_
    change 12 + (wireLabels labels).length + 17 + address.length ≤ m.length
    omega
  · exact hd

/-- The addresses that the type asks for. -/
def AddressOf (type : ℕ) (address : List UInt8) : Prop :=
  (type = 1 ∧ address.length = 4) ∨ (type = 28 ∧ address.length = 16)

theorem HasAt.word32_ofList (h : m.HasAt i address) (hl : address.length = 4) :
    m.word32 i = (ofList address).word32 0 := by
  have hb : ∀ k < 4, m.byte (i + k) = (ofList address).byte k := by
    intro k hk
    rw [h.2 k (by omega)]
    simp [ofList, getD_eq_getElem?_getD, hl, hk]
  have h₀ := hb 0 (by omega)
  have h₁ := hb 1 (by omega)
  have h₂ := hb 2 (by omega)
  have h₃ := hb 3 (by omega)
  simp only [word32, word16, Nat.add_assoc, Nat.reduceAdd, Nat.zero_add]
  rw [h₁, h₂, h₃]
  exact congrArg (fun b : UInt8 => (b.toNat * 256 + _) * 65536 + _) h₀

theorem readRecord_of_recordAt (hsm : Small m) {next : ℕ} {r : Record} (hr : RecordAt m next r) :
    readRecord m next = .ok (some r) := by
  unfold Small at hsm
  have hd := hr.data
  have hst := hr.start
  have hi := hr.inside
  have hmod : (next + 10) % 2 ^ 32 = next + 10 := Nat.mod_eq_of_lt (by omega)
  rw [hd, hr.size] at hi
  rw [readRecord, hmod, if_neg (by omega), be16_of_lt (by omega), be16_of_lt (by omega),
    be32_of_lt (by omega), be16_of_lt (by omega)]
  simp only [bind, Except.bind, pure, Except.pure]
  rw [if_neg (Nat.not_lt.mpr hi), ← hr.type, ← hr.klass, ← hr.ttl, ← hr.size, ← hd]

theorem useRecord_address (name : List UInt8) (cursor : ℕ) {data : ℕ} (hsm : Small m)
    (had : AddressOf type address) (hat : m.HasAt data address) :
    ∃ s, useRecord m type ⟨cursor, copyName name, 0, ⟨[], [], 0⟩⟩
      ⟨type, 1, ttl, address.length, data⟩ = .ok (some s) ∧
      s.result = onlyAddress type ttl address := by
  have hi := hat.1
  unfold Small at hsm
  rcases had with ⟨rfl, hl⟩ | ⟨rfl, hl⟩
  · refine ⟨⟨cursor, copyName name, 0, ⟨[m.word32 data], [], ttl⟩⟩, ?_, ?_⟩
    · simp only [useRecord, hl]
      rw [be32_of_lt (by omega)]
      simp [Result.shorten, bind, Except.bind, pure, Except.pure]
    · rw [onlyAddress, if_pos rfl, HasAt.word32_ofList hat hl]
  · refine ⟨⟨cursor, copyName name, 0, ⟨[], [m.slice data 16], ttl⟩⟩, ?_, ?_⟩
    · simp only [useRecord, hl]
      rw [readBytes_of_le (by omega) 16 (by omega)]
      simp [Result.shorten, bind, Except.bind, pure, Except.pure]
    · have hsl := hat.slice
      rw [hl] at hsl
      rw [onlyAddress, if_neg (by decide), hsl]

theorem ReplyAt.questionMatches (h : ReplyAt m labels type ttl address) (hl : Encodable labels)
    (hsp : (dotted labels).length < 256) (name : Memory) (scratch : Memory) :
    ∃ t, Holds t (dotted labels ++ [0]) ∧ questionMatches m name type scratch =
      .ok (if namesEqual t name then some (12 + (wireLabels labels).length + 5) else none) := by
  obtain ⟨t, hsk, hh⟩ := skipName_spelled h.small hl h.spelled hsp scratch
  refine ⟨t, hh, ?_⟩
  have hi := h.points.1
  have hsm := h.small
  unfold Small at hsm
  have hmod : (12 + (wireLabels labels).length + 1 + 4) % 2 ^ 32 =
      12 + (wireLabels labels).length + 5 := Nat.mod_eq_of_lt (by omega)
  rw [Dns.questionMatches, hsk]
  simp only [bind, Except.bind, hmod, Option.getD_some]
  rw [if_neg (by omega), be16_of_lt (by omega), be16_of_lt (by omega), h.asked]
  simp only [ne_eq, not_true_eq_false, if_false]
  rw [show 12 + (wireLabels labels).length + 1 + 2 = 12 + (wireLabels labels).length + 3 from rfl,
    h.askedClass]
  cases namesEqual t name <;> rfl

theorem ReplyAt.scanAnswer (h : ReplyAt m labels type ttl address) (hl : Encodable labels)
    (hsp : (dotted labels).length < 256) (had : AddressOf type address)
    (hn : name = dotted labels) (hz : 0 ∉ name) (scratch : Memory) :
    ∃ s, scanAnswer m type scratch
        (Scan.start (12 + (wireLabels labels).length + 5) name) = .ok (some s) ∧
      s.result = onlyAddress type ttl address := by
  obtain ⟨t, hsk, hh⟩ := skipName_pointer h.small hl h.points (by omega) h.spelled
    hsp scratch
  have he : namesEqual t (copyName name) = true := by
    have hc : copyName name = cString name := by
      rw [copyName, take_of_length_le (by rw [hn]; omega)]
    rw [hc, namesEqual_iff (holdsString_of_holds hh) (holdsString_cString name) (hn ▸ hz) hz, hn]
    exact ⟨by omega, rfl⟩
  have hrea : readRecord m (12 + (wireLabels labels).length + 5 + 2) =
      .ok (some ⟨type, 1, ttl, address.length, 12 + (wireLabels labels).length + 17⟩) := by
    exact readRecord_of_recordAt h.small h.record
  obtain ⟨s, huse, hres⟩ := useRecord_address name
    ((12 + (wireLabels labels).length + 17 + address.length) % 2 ^ 32) h.small had
    h.address
  refine ⟨s, ?_, hres⟩
  rw [Dns.scanAnswer, Scan.start]
  simp only [hsk, bind, Except.bind, hrea, Option.getD_some, he]
  exact huse

theorem headerOk_replyHeader (transaction : ℕ) (body : List UInt8) :
    HeaderOk (ofList (replyHeader transaction ++ body)) transaction := by
  have hat := ofList_hasAt [] (replyHeader transaction ++ body) []
  rw [nil_append, length_nil, append_nil, replyHeader, append_assoc] at hat
  have hr := hat.right
  refine ⟨?_, ?_, ?_, ?_, ?_⟩
  · simp [ofList, replyHeader, be16Bytes]
  · rw [replyHeader, append_assoc, HasAt.be16 hat, Nat.mod_mod]
  · exact HasAt.word16 hr
  · exact HasAt.word16 hr.tail.tail
  · exact HasAt.word16 hr.tail.tail.tail.tail

theorem length_replyBody (labels : Labels) (type ttl : ℕ) (address : List UInt8) :
    (replyBody labels type ttl address).length =
      (wireLabels labels).length + 17 + address.length := by
  simp only [replyBody, be32Bytes, be16Bytes, length_append, length_cons, length_nil]
  omega

theorem AddressOf.length_le (h : AddressOf type address) : address.length ≤ 16 := by
  rcases h with ⟨-, h⟩ | ⟨-, h⟩ <;> omega

theorem AddressOf.type_lt (h : AddressOf type address) : type < 2 ^ 16 := by
  rcases h with ⟨h, -⟩ | ⟨h, -⟩ <;> omega

theorem Spells.length_wireLabels (hla : Encodable labels) (h : Spells name labels) :
    (dotted labels).length ≤ name.length ∧ (wireLabels labels).length ≤ name.length + 1 := by
  have hle : (dotted labels).length ≤ name.length := by
    rcases h with rfl | ⟨-, rfl⟩
    · exact le_refl _
    · simp
  refine ⟨hle, ?_⟩
  by_cases hnil : labels = []
  · simp [hnil, wireLabels]
  · rw [(length_lt_dotted hla).2 hnil]
    omega

theorem replyAt_replyTo (transaction : ℕ) (hla : Encodable labels) (hs : Spells name labels)
    (hn : name.length ≤ 255) (had : AddressOf type address) (httl : ttl < 2 ^ 32) :
    ReplyAt (ofList (replyHeader transaction ++ replyBody labels type ttl address)) labels type
      ttl address := by
  have hle := had.length_le
  have hw := (hs.length_wireLabels hla).2
  have hhe : (replyHeader transaction).length = 12 := rfl
  refine replyAt_of_hasAt hla ?_ had.type_lt httl (by omega) ?_
  · change (replyHeader transaction ++ replyBody labels type ttl address).length + 64 ≤ 2 ^ 32
    rw [length_append, hhe, length_replyBody]
    omega
  · have hhas := ofList_hasAt (replyHeader transaction) (replyBody labels type ttl address) []
    rwa [append_nil, hhe] at hhas

theorem getLast_dotted (hlabels : Encodable labels) : (dotted labels).getLast? ≠ some 0x2E := by
  induction labels with
  | nil => simp [dotted]
  | cons label labels ih =>
    obtain ⟨hlabel, -, hdot⟩ := hlabels label mem_cons_self
    have hr : Encodable labels := fun l hl => hlabels l (mem_cons_of_mem _ hl)
    by_cases hnil : labels = []
    · rw [hnil, dotted_cons hlabel, flatMap_nil, append_nil]
      exact fun hlas => hdot (mem_of_getLast? hlas)
    rw [dotted_cons_cons hlabel hnil fun l hl => (hr l hl).1]
    have hne : dotted labels ≠ [] := by
      intro he
      have hcount := (length_lt_dotted hr).1
      rw [he, length_nil, Nat.le_zero, length_eq_zero_iff] at hcount
      exact hnil hcount
    rw [getLast?_append, getLast?_cons_of_ne_nil hne]
    cases hlas : (dotted labels).getLast? with
    | none => exact absurd (getLast?_eq_none_iff.mp hlas) hne
    | some last =>
      rw [hlas] at ih
      simpa using ih hr

/-- A reply made from our query, with one address record whose owner points at the question,
is accepted with that address and that time exactly when the name does not end in a dot. -/
theorem reply_to_query_accepted_iff {limit : ℕ} {name query : List UInt8} {type transaction ttl : ℕ}
    {address : List UInt8} (scratch : Memory) (hzero : 0 ∉ name) (haddress : AddressOf type address)
    (httl : ttl < 2 ^ 32) (hquery : buildQuery limit name type transaction = .ok (some query)) :
    parseReply (ofList (replyTo query type ttl address)) name type transaction scratch =
        .ok (.accepted (onlyAddress type ttl address)) ↔ name.getLast? ≠ some 0x2E := by
  obtain ⟨-, hlength, labels, hla, hspe, rfl⟩ := buildQuery_some hquery
  rw [replyTo_eq]
  have hhe := headerOk_replyHeader transaction (replyBody labels type ttl address)
  have hat := replyAt_replyTo transaction hla hspe hlength haddress httl
  have hspa := (hspe.length_wireLabels hla).1
  obtain ⟨t, hho, hques⟩ := hat.questionMatches hla (by omega) (cString name) scratch
  have heq := namesEqual_iff (holdsString_of_holds hho) (holdsString_cString name)
  rcases hspe with rfl | ⟨-, rfl⟩
  · refine iff_of_true ?_ (getLast_dotted hla)
    rw [if_pos ((heq hzero hzero).mpr ⟨hlength, rfl⟩)] at hques
    obtain ⟨s, hsc, hr⟩ := hat.scanAnswer hla (by omega) haddress rfl hzero scratch
    rw [parseReply_accepted hhe hques hsc ?_, hr]
    rw [hr, onlyAddress]
    split <;> simp
  · refine iff_of_false ?_ (by simp)
    -- The text of the question has no dot at its end, so the lengths differ.
    have hd : namesEqual t (cString (dotted labels ++ [0x2E])) = false := by
      rw [Bool.eq_false_iff]
      intro htr
      have hmap := ((heq (fun h => hzero (mem_append_left _ h)) hzero).mp htr).2
      have hlengths := congrArg List.length hmap
      simp at hlengths
    rw [hd] at hques
    rw [parseReply_rejected hhe hques]
    simp

/-- The query for `a.b`, type A, and a reply with 10.0.0.1 for a minute. -/
theorem reply_to_query_accepted_plain :
    ∃ query, buildQuery 512 [0x61, 0x2E, 0x62] 1 7 = .ok (some query) ∧
      parseReply (ofList (replyTo query 1 60 [10, 0, 0, 1])) [0x61, 0x2E, 0x62] 1 7
        (fun _ => 0) = .ok (.accepted (onlyAddress 1 60 [10, 0, 0, 1])) := by
  have hq : ∃ query, buildQuery 512 [0x61, 0x2E, 0x62] 1 7 = .ok (some query) :=
    ⟨[0, 7, 1, 0, 0, 1, 0, 0, 0, 0, 0, 0, 1, 0x61, 1, 0x62, 0, 0, 1, 0, 1], by decide +kernel⟩
  obtain ⟨query, hq⟩ := hq
  exact ⟨query, hq, (reply_to_query_accepted_iff (fun _ => 0) (by decide) (.inl ⟨rfl, rfl⟩)
    (by decide) hq).mpr (by decide)⟩

/-- The query for `a.` is built, and its reply is refused. -/
theorem reply_to_dotted_query_rejected :
    buildQuery 512 [0x61, 0x2E] 1 7 =
        .ok (some [0, 7, 1, 0, 0, 1, 0, 0, 0, 0, 0, 0, 1, 0x61, 0, 0, 1, 0, 1]) ∧
      parseReply (ofList (replyTo
        [0, 7, 1, 0, 0, 1, 0, 0, 0, 0, 0, 0, 1, 0x61, 0, 0, 1, 0, 1] 1 60 [10, 0, 0, 1]))
        [0x61, 0x2E] 1 7 (fun _ => 0) = .ok .rejected := by
  decide +kernel

end MichCore.Dns
