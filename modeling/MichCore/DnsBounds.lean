import MichCore.DnsMessage

/-!
# Decoding stays in bounds

`Turns` says what one turn of `skip_name` can do, for messages and limits that leave room for
the 32-bit sums. Every label adds to what is written and the jumps are counted, so the loop ends.
-/
namespace MichCore.Dns

open BoundedBytes BoundedBytes.Buffer BoundedBytes.Memory Option

set_option maxRecDepth 20000 in
private theorem markerTable : ∀ i : Fin 256,
    (UInt8.ofNat i.val &&& 0xC0 = 0 → i.val < 64) ∧
    (UInt8.ofNat i.val &&& 0xC0 = 0xC0 → UInt8.ofNat i.val &&& 0xC0 ≠ 0) := by
  decide

theorem lt_of_plain {marker : UInt8} (h : marker &&& 0xC0 = 0) : marker.toNat < 64 := by
  have ht := (markerTable ⟨marker.toNat, marker.toNat_lt⟩).1
  simp only [UInt8.ofNat_toNat] at ht
  exact ht h

/-- The two bytes at `i` are a compression pointer to `target`. -/
def PointsTo (m : Buffer) (i target : ℕ) : Prop :=
  i + 1 < m.length ∧ m.byte i &&& 0xC0 = 0xC0 ∧
    target = (m.byte i &&& 0x3F).toNat * 256 + (m.byte (i + 1)).toNat

/-- The label at `i`, behind its length. -/
def LabelAt (m : Buffer) (i : ℕ) (label : List UInt8) : Prop :=
  m.byte i &&& 0xC0 = 0 ∧ m.byte i ≠ 0 ∧ i + 1 + (m.byte i).toNat ≤ m.length ∧
    label = m.slice (i + 1) (m.byte i).toNat

variable {m : Buffer} {limit : ℕ} {w : Walk}

theorem LabelAt.length {i : ℕ} {label : List UInt8} (h : LabelAt m i label) :
    0 < label.length ∧ label.length < 64 ∧ i + 1 + label.length ≤ m.length ∧
      label.length = (m.byte i).toNat := by
  obtain ⟨hpl, hne, hi, rfl⟩ := h
  have hlt := lt_of_plain hpl
  have hpos : 0 < (m.byte i).toNat := by
    rw [Nat.pos_iff_ne_zero]
    exact fun hz => hne (UInt8.toNat_inj.mp hz)
  rw [slice_length]
  exact ⟨hpos, hlt, hi, rfl⟩

/-- The text with one more label. -/
def joinLabel (text label : List UInt8) : List UInt8 :=
  if text = [] then label else text ++ 0x2E :: label

/-- Lengths and limits that the 32-bit sums of `skip_name` do not wrap on. -/
structure Roomy (m : Buffer) (limit : ℕ) : Prop where
  length : m.length + 64 ≤ 2 ^ 32
  limit : limit + 63 ≤ 2 ^ 32

/-- What was written fits: below the limit, or in `DNS_NAME_MAX` when there is no text. -/
def Walk.Fits (w : Walk) (limit : ℕ) : Prop :=
  if w.text.isSome then w.written < limit else w.written ≤ 255

/-- What is written when the label follows. -/
def Walk.after (w : Walk) (label : List UInt8) : ℕ :=
  w.written + (if w.written = 0 then 0 else 1) + label.length

/-- The reasons for which a turn returns -1. -/
inductive Rejects (m : Buffer) (limit : ℕ) (w : Walk) : Prop where
  | outside (h : m.length ≤ w.cursor)
  | pointer (hmarker : m.byte w.cursor &&& 0xC0 = 0xC0)
      (h : ∀ target, PointsTo m w.cursor target → target < w.cursor → 16 ≤ w.jumps)
  | reserved (hmarker : m.byte w.cursor &&& 0xC0 ≠ 0xC0) (h : m.byte w.cursor &&& 0xC0 ≠ 0)
  | label (hmarker : m.byte w.cursor &&& 0xC0 = 0)
      (h : m.length < w.cursor + 1 + (m.byte w.cursor).toNat)
  | counted (label : List UInt8) (hlabel : LabelAt m w.cursor label) (htext : w.text = none)
      (h : 255 < w.written + label.length + 1)
  | long (label : List UInt8) (hlabel : LabelAt m w.cursor label) (htext : w.text.isSome)
      (h : limit ≤ w.after label)

/-- What a turn of `skip_name` does. -/
inductive Turns (m : Buffer) (limit : ℕ) (w : Walk) : Turn → Prop where
  | rejected (h : Rejects m limit w) : Turns m limit w (.done none)
  | jumped (target : ℕ) (hpoints : PointsTo m w.cursor target) (hback : target < w.cursor)
      (hjumps : w.jumps < 16) :
      Turns m limit w (.again { w with
        jumps := w.jumps + 1, next := some (w.next.getD (w.cursor + 2)), cursor := target })
  | counted (label : List UInt8) (hlabel : LabelAt m w.cursor label) (htext : w.text = none)
      (hfits : w.written + label.length + 1 ≤ 255) :
      Turns m limit w (.again { w with
        written := w.written + label.length + 1, cursor := w.cursor + 1 + label.length })
  | labelled (label : List UInt8) (hlabel : LabelAt m w.cursor label) (t t' : Memory)
      (htext : w.text = some t) (written : ℕ) (hwritten : written = w.after label)
      (hfits : written < limit)
      (hholds : ∀ text, text.length = w.written → Holds t text →
        (joinLabel text label).length = written ∧ Holds t' (joinLabel text label)) :
      Turns m limit w (.again { w with
        written := written, cursor := w.cursor + 1 + label.length, text := some t' })
  | counted_ended (hend : m.byte w.cursor = 0) (hcursor : w.cursor < m.length)
      (htext : w.text = none) :
      Turns m limit w (.done (some (w.next.getD (w.cursor + 1), none)))
  | ended (hend : m.byte w.cursor = 0) (hcursor : w.cursor < m.length) (t : Memory)
      (htext : w.text = some t) :
      Turns m limit w (.done (some (w.next.getD (w.cursor + 1),
        some (Function.update t w.written 0))))

theorem followPointer_turns (hr : Roomy m limit) (hc : w.cursor < m.length)
    (hm : m.byte w.cursor &&& 0xC0 = 0xC0) :
    ∃ turn, followPointer m w (m.byte w.cursor) = .ok turn ∧ Turns m limit w turn := by
  have hl := hr.length
  have hn : (w.cursor + 1) % 2 ^ 32 = w.cursor + 1 := Nat.mod_eq_of_lt (by omega)
  have haf : (w.cursor + 2) % 2 ^ 32 = w.cursor + 2 := Nat.mod_eq_of_lt (by omega)
  unfold followPointer
  rw [hn, haf]
  split
  · next hend =>
    refine ⟨_, rfl, .rejected (.pointer hm fun target hp => ?_)⟩
    exact absurd hp.1 (Nat.not_lt.mpr hend)
  next hend =>
  rw [read_of_lt (Nat.lt_of_not_le hend)]
  simp only [bind, Except.bind, pure, Except.pure]
  split
  · next hf =>
    refine ⟨_, rfl, .rejected (.pointer hm fun target hp hb => ?_)⟩
    rw [hp.2.2] at hb
    exact absurd hb (Nat.not_lt.mpr hf)
  next hf =>
  split
  · next hj =>
    exact ⟨_, rfl, .rejected (.pointer hm fun target _ _ => Nat.lt_succ_iff.mp hj)⟩
  exact ⟨_, rfl, .jumped _ ⟨Nat.lt_of_not_le hend, hm, rfl⟩ (Nat.lt_of_not_le hf)
    (by omega)⟩

theorem endName_turns (hr : Roomy m limit) (hc : w.cursor < m.length) (hfits : w.Fits limit)
    (hm : m.byte w.cursor = 0) :
    ∃ turn, endName limit w = .ok turn ∧ Turns m limit w turn := by
  have hle := hr.length
  have hn : (w.cursor + 1) % 2 ^ 32 = w.cursor + 1 := Nat.mod_eq_of_lt (by omega)
  unfold endName
  rw [hn]
  cases ht : w.text with
  | none => exact ⟨_, rfl, .counted_ended hm hc ht⟩
  | some t =>
    have hlt : w.written < limit := by simpa [Walk.Fits, ht] using hfits
    simp only [if_pos hlt, write_of_lt hlt, bind, Except.bind, pure, Except.pure]
    exact ⟨_, rfl, .ended hm hc t ht⟩

theorem copyLabel_holds {start written : ℕ} {t : Memory} (n : ℕ) (hre : start + n ≤ m.length)
    (hle : m.length < 2 ^ 32) (hw : written + n ≤ limit) (hli : limit ≤ 2 ^ 32) :
    ∃ t', copyLabel m limit start written t n = .ok t' ∧
      ∀ text, text.length = written → Holds t text → Holds t' (text ++ m.slice start n) := by
  induction n with
  | zero => exact ⟨t, rfl, fun text _ h => by simpa using h⟩
  | succ n ih =>
    obtain ⟨t', hc, hh⟩ := ih (by omega) (by omega)
    have hf : (start + n) % 2 ^ 32 = start + n := Nat.mod_eq_of_lt (by omega)
    have hto : (written + n) % 2 ^ 32 = written + n := Nat.mod_eq_of_lt (by omega)
    have hrun : copyLabel m limit start written t (n + 1) =
        .ok (Function.update t' (written + n) (m.byte (start + n))) := by
      simp only [copyLabel, hc, hf, hto, bind, Except.bind]
      rw [read_of_lt (by omega)]
      exact write_of_lt (by omega)
    refine ⟨_, hrun, fun text hte h => ?_⟩
    have hat : (text ++ m.slice start n).length = written + n := by simp [hte]
    rw [slice_succ, ← List.append_assoc, ← hat]
    exact (hh text hte h).update _

/-- The separator is written unless the text is empty, or so full that no label fits. -/
theorem writeDot_cases {written : ℕ} (t : Memory) (hl : limit + 63 ≤ 2 ^ 32)
    (hw : written < limit) :
    (written = 0 ∧ writeDot limit t written = .ok (t, 0)) ∨ (0 < written ∧ written + 1 < limit ∧
        writeDot limit t written = .ok (Function.update t written 0x2E, written + 1)) ∨
      (written + 1 = limit ∧ writeDot limit t written = .ok (t, written)) := by
  have hmod : (written + 1) % 2 ^ 32 = written + 1 := Nat.mod_eq_of_lt (by omega)
  unfold writeDot
  rw [hmod]
  by_cases hz : written = 0
  · rw [if_neg fun h => h.1 hz]
    exact .inl ⟨hz, by rw [hz]⟩
  by_cases hf : written + 1 = limit
  · rw [if_neg fun h => absurd h.2 (by omega)]
    exact .inr (.inr ⟨hf, rfl⟩)
  · have hs : written + 1 < limit := by omega
    rw [if_pos ⟨hz, hs⟩, write_of_lt hw]
    exact .inr (.inl ⟨by omega, hs, rfl⟩)

theorem takeLabel_turns (hro : Roomy m limit) (hcu : w.cursor < m.length)
    (hfits : w.Fits limit) (hpl : m.byte w.cursor &&& 0xC0 = 0) (hne : m.byte w.cursor ≠ 0) :
    ∃ turn, takeLabel m limit w (m.byte w.cursor).toNat = .ok turn ∧ Turns m limit w turn := by
  have hleng := hro.length
  have hli := hro.limit
  have hshort := lt_of_plain hpl
  set n := (m.byte w.cursor).toNat
  have hmod : (w.cursor + 1 + n) % 2 ^ 32 = w.cursor + 1 + n := Nat.mod_eq_of_lt (by omega)
  unfold takeLabel
  rw [if_neg (by omega), hmod]
  split
  · next hou =>
    exact ⟨_, rfl, .rejected (.label hpl hou)⟩
  next hou =>
  have hla : LabelAt m w.cursor (m.slice (w.cursor + 1) n) :=
    ⟨hpl, hne, Nat.le_of_not_lt hou, rfl⟩
  have hpos := hla.length.1
  rw [slice_length] at hpos
  cases hte : w.text with
  | none =>
    have hw : w.written ≤ 255 := by simpa [Walk.Fits, hte] using hfits
    have hsum : (w.written + n + 1) % 2 ^ 32 = w.written + n + 1 := Nat.mod_eq_of_lt (by omega)
    simp only [hsum]
    split
    · exact ⟨_, rfl, .rejected (.counted _ hla hte (by rwa [slice_length]))⟩
    refine ⟨_, rfl, ?_⟩
    have htu : Turns m limit w _ := .counted _ hla hte (by rw [slice_length]; omega)
    rwa [slice_length, hte] at htu
  | some t =>
    have hw : w.written < limit := by simpa [Walk.Fits, hte] using hfits
    have hsum : ∀ k < limit, (k + n) % 2 ^ 32 = k + n := fun k hk => Nat.mod_eq_of_lt (by omega)
    -- After the separator, the label fits or the function returns.
    have hco : ∀ t₁ written, written < limit → (∀ text, text.length = w.written → Holds t text →
          ∃ front, front.length = written ∧ Holds t₁ front ∧
            ∀ label, front ++ label = joinLabel text label) →
        written = w.written + (if w.written = 0 then 0 else 1) →
        ∃ turn, (if limit ≤ (written + n) % 2 ^ 32 then
            (.ok (.done none) : Except Fault Turn)
          else do
            let t ← copyLabel m limit (w.cursor + 1) written t₁ n
            return .again { w with
              written := (written + n) % 2 ^ 32
              cursor := w.cursor + 1 + n
              text := some t }) = .ok turn ∧ Turns m limit w turn := by
      intro t₁ written hlt hfront hle
      have haf : w.after (m.slice (w.cursor + 1) n) = written + n := by
        rw [Walk.after, slice_length, hle]
      rw [hsum written (by omega)]
      split
      · next hfu =>
        exact ⟨_, rfl, .rejected (.long _ hla (by simp [hte]) (haf ▸ hfu))⟩
      next hfu =>
      obtain ⟨t₂, hrun, hh⟩ := copyLabel_holds (t := t₁) n
        (Nat.le_of_not_lt hou) (by omega) (Nat.le_of_not_le hfu) (by omega)
      rw [hrun]
      refine ⟨_, rfl, ?_⟩
      have htu := Turns.labelled _ hla t t₂ hte (written + n)
        haf.symm (Nat.lt_of_not_le hfu) fun text hlen hte => by
          obtain ⟨front, hfrontl, hfronth, hj⟩ := hfront text hlen hte
          rw [← hj]
          exact ⟨by simp [hfrontl], hh front hfrontl hfronth⟩
      rwa [slice_length] at htu
    simp only
    rcases writeDot_cases t hli hw with
      ⟨hz, hdot⟩ | ⟨hpos', hsp, hdot⟩ | ⟨hfu, hdot⟩
    · rw [hdot]
      refine hco t 0 (by omega) (fun text hlen h => ?_) (by simp [hz])
      have hnil : text = [] := List.eq_nil_of_length_eq_zero (by omega)
      exact ⟨[], rfl, holds_nil t, fun label => by simp [joinLabel, hnil]⟩
    · rw [hdot]
      refine hco _ (w.written + 1) hsp (fun text hlen h => ?_)
        (by rw [if_neg (Nat.ne_of_gt hpos')])
      have hne : text ≠ [] := by
        rintro rfl
        simp at hlen
        omega
      refine ⟨text ++ [0x2E], by simp [hlen], hlen ▸ h.update 0x2E, fun label => ?_⟩
      simp [joinLabel, hne]
    · rw [hdot]
      simp only [bind, Except.bind, pure, Except.pure]
      rw [if_pos (by rw [hsum _ (by omega)]; omega)]
      refine ⟨_, rfl, .rejected (.long _ hla (by simp [hte]) ?_)⟩
      rw [Walk.after, slice_length]
      omega

theorem skipTurn_turns (hr : Roomy m limit) (hfits : w.Fits limit) :
    ∃ turn, skipTurn m limit w = .ok turn ∧ Turns m limit w turn := by
  unfold skipTurn
  split
  · next hc =>
    rw [read_of_lt hc]
    simp only [bind, Except.bind]
    split
    · next hpo =>
      exact followPointer_turns hr hc hpo
    next hpo =>
    by_cases hpl : m.byte w.cursor &&& 0xC0 = 0
    · rw [if_neg (not_not.mpr hpl)]
      split
      · next hend =>
        exact endName_turns hr hc hfits hend
      · next hend =>
        exact takeLabel_turns hr hc hfits hpl hend
    · rw [if_pos hpl]
      exact ⟨_, rfl, .rejected (.reserved hpo hpl)⟩
  · next hc =>
    exact ⟨_, rfl, .rejected (.outside (Nat.le_of_not_lt hc))⟩

/-- A walk that goes on fits again, keeps its kind of text, and is one label or one jump
further. -/
theorem Turns.again {w' : Walk} (h : Turns m limit w (.again w')) (hfits : w.Fits limit) :
    w'.Fits limit ∧ w'.text.isSome = w.text.isSome ∧
      w.written + w.jumps < w'.written + w'.jumps ∧ (w.jumps ≤ 16 → w'.jumps ≤ 16) := by
  cases h with
  | jumped target hpoi hb hj => exact ⟨hfits, rfl, by simp, fun _ => hj⟩
  | counted label hla ht hlo =>
    refine ⟨?_, rfl, by simp only; omega, fun h => h⟩
    simp only [Walk.Fits, ht, isSome_none, Bool.false_eq_true, if_false]
    exact hlo
  | labelled label hla t t' ht written hw hli hh =>
    have hpos := hla.length.1
    refine ⟨?_, by simp [ht], by simp only [hw, Walk.after]; omega, fun h => h⟩
    simp only [Walk.Fits, isSome_some, if_true]
    exact hli

/-- What the end of a walk says and every turn passes back holds of the whole walk, which
ends. -/
theorem skipLoop_induction (hro : Roomy m limit) {P : Walk → Option (ℕ × Option Memory) → Prop}
    (hd : ∀ w result, w.Fits limit → Turns m limit w (.done result) → P w result)
    (hag : ∀ w w' result, w.Fits limit → Turns m limit w (.again w') → P w' result → P w result)
    (fuel : ℕ) (w : Walk) (hfits : w.Fits limit) (hj : w.jumps ≤ 16)
    (hfu : max limit 256 + 17 ≤ fuel + w.written + w.jumps) :
    ∃ result, skipLoop m limit fuel w = .ok result ∧ P w result := by
  induction fuel generalizing w with
  | zero =>
    have hw : w.written < max limit 256 := by
      unfold Walk.Fits at hfits
      split at hfits <;> omega
    omega
  | succ fuel ih =>
    obtain ⟨turn, hturn, hturns⟩ := skipTurn_turns hro hfits
    simp only [skipLoop, hturn, bind, Except.bind]
    cases turn with
    | done result => exact ⟨result, rfl, hd w result hfits hturns⟩
    | again w' =>
      obtain ⟨hfi', -, hm, hj'⟩ := hturns.again hfits
      obtain ⟨result, hrun, hP⟩ := ih w' hfi' (hj' hj) (by omega)
      exact ⟨result, hrun, hag w w' result hfits hturns hP⟩

/-- The offset behind the name is inside of the message, and the text is ended. -/
def EndsIn (m : Buffer) (limit : ℕ) (w : Walk) (result : Option (ℕ × Option Memory)) : Prop :=
  ∀ next text, result = some (next, text) →
    ((∀ n ∈ w.next, n ≤ m.length) → next ≤ m.length) ∧ text.isSome = w.text.isSome ∧
      ∀ t, text = some t → ∃ n < limit, t n = 0

theorem Turns.done_endsIn {result : Option (ℕ × Option Memory)} (hfits : w.Fits limit)
    (h : Turns m limit w (.done result)) : EndsIn m limit w result := by
  have hn : ∀ cursor < m.length, (∀ n ∈ w.next, n ≤ m.length) →
      w.next.getD (cursor + 1) ≤ m.length := by
    intro cursor hc hall
    cases hw : w.next with
    | none => exact hc
    | some n => exact hall n hw
  intro next text hr
  cases h with
  | rejected => cases hr
  | counted_ended hend hc ht =>
    cases hr
    exact ⟨hn _ hc, by rw [ht], nofun⟩
  | ended hend hc t ht =>
    cases hr
    refine ⟨hn _ hc, by rw [ht]; rfl, ?_⟩
    rintro t' ⟨⟩
    have hlt : w.written < limit := by simpa [Walk.Fits, ht] using hfits
    exact ⟨w.written, hlt, by simp⟩

theorem Turns.again_endsIn {w' : Walk} {result : Option (ℕ × Option Memory)}
    (h : Turns m limit w (.again w')) (hr : EndsIn m limit w' result) :
    EndsIn m limit w result := by
  intro next text heq
  obtain ⟨hne, hs, hnul⟩ := hr next text heq
  cases h with
  | jumped target hp hb hj =>
    refine ⟨fun hall => hne ?_, hs, hnul⟩
    rintro n ⟨⟩
    cases hw : w.next with
    | none => exact hp.1
    | some n => exact hall n hw
  | counted label hla ht hlo => exact ⟨hne, hs, hnul⟩
  | labelled label hla t t' ht written hwr hli hh =>
    exact ⟨hne, hs.trans (by simp [ht]), hnul⟩

theorem skipName_spec (hr : Roomy m limit) {P : Walk → Option (ℕ × Option Memory) → Prop}
    (hd : ∀ w result, w.Fits limit → Turns m limit w (.done result) → P w result)
    (hag : ∀ w w' result, w.Fits limit → Turns m limit w (.again w') → P w' result → P w result)
    (offset : ℕ) (text : Option Memory) (hl : 0 < limit) :
    ∃ result, skipName m offset text limit = .ok result ∧
      P ⟨0, offset, 0, none, text⟩ result ∧ EndsIn m limit ⟨0, offset, 0, none, text⟩ result := by
  have hfits : (⟨0, offset, 0, none, text⟩ : Walk).Fits limit := by
    unfold Walk.Fits
    split
    · exact hl
    · exact Nat.zero_le _
  exact skipLoop_induction hr (P := fun w result => P w result ∧ EndsIn m limit w result)
    (fun w result hfits h => ⟨hd w result hfits h, h.done_endsIn hfits⟩)
    (fun w w' result hfits h hP => ⟨hag w w' result hfits h hP.1, h.again_endsIn hP.2⟩)
    _ _ hfits (Nat.zero_le _) (by simp)

theorem skipName_endsIn (hro : Roomy m limit) (offset : ℕ) (text : Option Memory) (hl : 0 < limit) :
    ∃ result, skipName m offset text limit = .ok result ∧
      EndsIn m limit ⟨0, offset, 0, none, text⟩ result := by
  obtain ⟨result, hrun, -, he⟩ := skipName_spec hro (P := fun _ _ => True)
    (fun _ _ _ _ => trivial) (fun _ _ _ _ _ _ => trivial) offset text hl
  exact ⟨result, hrun, he⟩

/-- The message leaves room behind it for a label. -/
def Small (m : Buffer) : Prop := m.length + 64 ≤ 2 ^ 32

theorem Small.roomy (h : Small m) : Roomy m 256 :=
  ⟨h, by omega⟩

/-- The fields of the record behind an owner that ends at `next`. The data lies inside of the
message, unless it is long enough to wrap around. -/
structure RecordAt (m : Buffer) (next : ℕ) (r : Record) : Prop where
  type : r.type = m.word16 next
  klass : r.klass = m.word16 (next + 2)
  ttl : r.ttl = m.word32 (next + 4)
  size : r.size = m.word16 (next + 8)
  data : r.data = next + 10
  start : r.data ≤ m.length
  inside : (r.data + r.size) % 2 ^ 32 ≤ m.length

theorem readRecord_cases (hsm : Small m) {next : ℕ} (hn : next ≤ m.length) :
    readRecord m next = .ok none ∨ ∃ r, readRecord m next = .ok (some r) ∧ RecordAt m next r := by
  unfold Small at hsm
  have hd : (next + 10) % 2 ^ 32 = next + 10 := Nat.mod_eq_of_lt (by omega)
  unfold readRecord
  rw [hd]
  by_cases hshort : m.length < next + 10
  · rw [if_pos hshort]
    exact .inl rfl
  rw [if_neg hshort, be16_of_lt (by omega), be16_of_lt (by omega), be32_of_lt (by omega),
    be16_of_lt (by omega)]
  simp only [bind, Except.bind, pure, Except.pure]
  split
  · exact .inl rfl
  · next hl =>
    exact .inr ⟨_, rfl, rfl, rfl, rfl, rfl, rfl, Nat.le_of_not_lt hshort, Nat.le_of_not_lt hl⟩

theorem readBytes_of_le (hl : m.length < 2 ^ 32) {start : ℕ} (n : ℕ) (h : start + n ≤ m.length) :
    readBytes m start n = .ok (m.slice start n) := by
  induction n with
  | zero => rfl
  | succ n ih =>
    have hat : (start + n) % 2 ^ 32 = start + n := Nat.mod_eq_of_lt (by omega)
    simp only [readBytes, ih (by omega), hat, bind, Except.bind]
    rw [read_of_lt (by omega), slice_succ]
    rfl

/-- What a record with the wanted owner does. -/
inductive Uses (m : Buffer) (type : ℕ) (s : Scan) (r : Record) : Option Scan → Prop where
  | rejected : Uses m type s r none
  | renamed (next : ℕ) (wanted : Memory) (halias : r.type = 5)
      (hname : skipName m r.data (some s.wanted) 256 = .ok (some (next, some wanted))) :
      Uses m type s r (some { s with
        wanted := wanted, aliases := s.aliases + 1, result := s.result.shorten r.ttl })
  | found4 (hrecord : r.type = 1) (htype : type = 1) (hsize : r.size = 4)
      (hspace : s.result.ipv4.length < 4) :
      Uses m type s r (some { s with
        result := ({ s.result with ipv4 := s.result.ipv4 ++ [m.word32 r.data] } :
          Result).shorten r.ttl })
  | found6 (hrecord : r.type = 28) (htype : type = 28) (hsize : r.size = 16)
      (hspace : s.result.ipv6.length < 4) :
      Uses m type s r (some { s with
        result := ({ s.result with ipv6 := s.result.ipv6 ++ [m.slice r.data 16] } :
          Result).shorten r.ttl })
  | full (hfull : r.type = 1 ∧ type = 1 ∧ r.size = 4 ∧ 4 ≤ s.result.ipv4.length ∨
      r.type = 28 ∧ type = 28 ∧ r.size = 16 ∧ 4 ≤ s.result.ipv6.length) :
      Uses m type s r (some { s with result := s.result.shorten r.ttl })
  | other (halias : r.type ≠ 5) (hfour : ¬ (r.type = 1 ∧ type = 1))
      (hsix : ¬ (r.type = 28 ∧ type = 28)) : Uses m type s r (some s)

theorem useRecord_uses (hsm : Small m) (type : ℕ) (s : Scan) {next : ℕ} {r : Record}
    (hr : RecordAt m next r) : ∃ out, useRecord m type s r = .ok out ∧ Uses m type s r out := by
  have hst := hr.start
  have hi := hr.inside
  unfold Small at hsm
  unfold useRecord
  split
  · next hal =>
    split
    · exact ⟨_, rfl, .rejected⟩
    obtain ⟨result, hrun, he⟩ := skipName_endsIn (Small.roomy hsm) r.data (some s.wanted)
      (by omega)
    rw [hrun]
    cases result with
    | none => exact ⟨_, rfl, .rejected⟩
    | some out =>
      obtain ⟨next', text⟩ := out
      obtain ⟨t, rfl⟩ := isSome_iff_exists.mp (he next' text rfl).2.1
      exact ⟨_, rfl, .renamed next' t hal hrun⟩
  split
  · next hf =>
    by_cases hsiz : r.size = 4
    · rw [if_neg (not_not.mpr hsiz)]
      split
      · next hsp =>
        rw [be32_of_lt (by omega)]
        exact ⟨_, rfl, .found4 hf.1 hf.2 hsiz hsp⟩
      · next hsp => exact ⟨_, rfl, .full (.inl ⟨hf.1, hf.2, hsiz, not_lt.mp hsp⟩)⟩
    · rw [if_pos hsiz]
      exact ⟨_, rfl, .rejected⟩
  split
  · next hsix =>
    by_cases hsiz : r.size = 16
    · rw [if_neg (not_not.mpr hsiz)]
      split
      · next hsp =>
        rw [readBytes_of_le (by omega) 16 (by omega)]
        exact ⟨_, rfl, .found6 hsix.1 hsix.2 hsiz hsp⟩
      · next hsp => exact ⟨_, rfl, .full (.inr ⟨hsix.1, hsix.2, hsiz, not_lt.mp hsp⟩)⟩
    · rw [if_pos hsiz]
      exact ⟨_, rfl, .rejected⟩
  · next hal hf hsix => exact ⟨_, rfl, .other hal hf hsix⟩

/-- What a turn of the loop over the answers does. -/
inductive Scans (m : Buffer) (type : ℕ) (scratch : Memory) (s : Scan) : Option Scan → Prop where
  | rejected : Scans m type scratch s none
  | skipped (next : ℕ) (owner : Memory) (r : Record)
      (hname : skipName m s.cursor (some scratch) 256 = .ok (some (next, some owner)))
      (hr : RecordAt m next r) (hother : r.klass ≠ 1 ∨ namesEqual owner s.wanted = false) :
      Scans m type scratch s (some { s with cursor := (r.data + r.size) % 2 ^ 32 })
  | used (next : ℕ) (owner : Memory) (r : Record) (out : Option Scan)
      (hname : skipName m s.cursor (some scratch) 256 = .ok (some (next, some owner)))
      (hr : RecordAt m next r) (hklass : r.klass = 1) (howner : namesEqual owner s.wanted = true)
      (huses : Uses m type { s with cursor := (r.data + r.size) % 2 ^ 32 } r out) :
      Scans m type scratch s out

theorem scanAnswer_scans (hsm : Small m) (type : ℕ) (scratch : Memory) (s : Scan) :
    ∃ out, scanAnswer m type scratch s = .ok out ∧ Scans m type scratch s out := by
  obtain ⟨result, hrun, he⟩ := skipName_endsIn hsm.roomy s.cursor (some scratch) (by omega)
  unfold scanAnswer
  rw [hrun]
  cases result with
  | none => exact ⟨_, rfl, .rejected⟩
  | some found =>
    obtain ⟨next, text⟩ := found
    obtain ⟨hne, ht, -⟩ := he next text rfl
    obtain ⟨owner, rfl⟩ := isSome_iff_exists.mp ht
    simp only [bind, Except.bind]
    rcases readRecord_cases hsm (hne nofun) with hno | ⟨r, hso, hr⟩
    · rw [hno]
      exact ⟨_, rfl, .rejected⟩
    rw [hso]
    simp only [getD_some]
    split
    · next ho => exact ⟨_, rfl, .skipped next owner r hrun hr ho⟩
    next ho =>
    rw [not_or, not_not, Bool.not_eq_false] at ho
    obtain ⟨out, huse, huses⟩ :=
      useRecord_uses hsm type { s with cursor := (r.data + r.size) % 2 ^ 32 } hr
    exact ⟨out, huse, .used next owner r out hrun hr ho.1 ho.2 huses⟩

theorem scanAnswers_induction (hsm : Small m) (type : ℕ) (scratch : Memory) {P : Scan → Prop}
    (hst : ∀ s s', Scans m type scratch s (some s') → P s → P s') (answers : ℕ) (s : Scan)
    (h : P s) : ∃ out, scanAnswers m type scratch answers s = .ok out ∧
      ∀ s', out = some s' → P s' := by
  induction answers generalizing s with
  | zero => exact ⟨_, rfl, fun s' heq => some.inj heq ▸ h⟩
  | succ answers ih =>
    obtain ⟨out, ht, hsc⟩ := scanAnswer_scans hsm type scratch s
    simp only [scanAnswers, ht, bind, Except.bind]
    cases out with
    | none => exact ⟨_, rfl, nofun⟩
    | some s' => exact ih s' (hst s s' hsc h)

/-- The tables of the result are not overrun. -/
def Result.Fits (result : Result) : Prop := result.ipv4.length ≤ 4 ∧ result.ipv6.length ≤ 4

theorem Scans.fits {type : ℕ} {scratch : Memory} {s s' : Scan}
    (h : Scans m type scratch s (some s')) (hfits : s.result.Fits) : s'.result.Fits := by
  cases h with
  | skipped next owner r hn hr => exact hfits
  | used next owner r _ hn hr hk ho hu =>
    cases hu with
    | renamed next wanted ha hn => exact hfits
    | found4 hre ht hsi hsp =>
      refine ⟨?_, hfits.2⟩
      simp only [Result.shorten, List.length_append, List.length_singleton]
      exact hsp
    | found6 hre ht hsi hsp =>
      refine ⟨hfits.1, ?_⟩
      simp only [Result.shorten, List.length_append, List.length_singleton]
      exact hsp
    | full => exact hfits
    | other => exact hfits

theorem questionMatches_cases (hsm : Small m) (name : Memory) (type : ℕ) (scratch : Memory) :
    questionMatches m name type scratch = .ok none ∨
      ∃ next text, questionMatches m name type scratch = .ok (some (next + 4)) ∧
        skipName m 12 (some scratch) 256 = .ok (some (next, some text)) ∧
        next + 4 ≤ m.length ∧ m.word16 next = type ∧ m.word16 (next + 2) = 1 ∧
        namesEqual text name = true := by
  obtain ⟨result, hrun, hen⟩ := skipName_endsIn hsm.roomy 12 (some scratch) (by omega)
  unfold questionMatches
  rw [hrun]
  cases result with
  | none => exact .inl rfl
  | some found =>
    obtain ⟨next, text⟩ := found
    obtain ⟨hn, hte, -⟩ := hen next text rfl
    obtain ⟨t, rfl⟩ := isSome_iff_exists.mp hte
    have hle := hn nofun
    have hmod : (next + 4) % 2 ^ 32 = next + 4 :=
      Nat.mod_eq_of_lt (by unfold Small at hsm; omega)
    simp only [bind, Except.bind, hmod, getD_some]
    split
    · exact .inl rfl
    next hshort =>
    rw [be16_of_lt (by omega)]
    by_cases hty : m.word16 next = type
    · simp only [ne_eq, hty, not_true_eq_false, if_false]
      rw [be16_of_lt (by omega)]
      by_cases hk : m.word16 (next + 2) = 1
      · simp only [hk, not_true_eq_false, if_false]
        by_cases heq : namesEqual t name = true
        · rw [if_neg (by simp [heq])]
          exact .inr ⟨next, t, rfl, rfl, Nat.le_of_not_lt hshort, hty, hk, heq⟩
        · rw [if_pos (by simpa using heq)]
          exact .inl rfl
      · simp only [hk, not_false_eq_true, if_true]
        exact .inl rfl
    · simp only [ne_eq, hty, not_false_eq_true, if_true]
      exact .inl rfl

/-- Where the loop over the answers starts. -/
def Scan.start (cursor : ℕ) (name : List UInt8) : Scan :=
  ⟨cursor, copyName name, 0, ⟨[], [], 0⟩⟩

theorem parseReply_cases (hsm : Small m) (name : List UInt8) (type transaction : ℕ)
    (scratch : Memory) :
    parseReply m name type transaction scratch = .ok .rejected ∨
      parseReply m name type transaction scratch = .ok .truncated ∨
      ∃ cursor s, questionMatches m (cString name) type scratch = .ok (some cursor) ∧
        scanAnswers m type scratch (m.word16 6) (Scan.start cursor name) = .ok (some s) ∧
        parseReply m name type transaction scratch = .ok (.accepted s.result) := by
  unfold parseReply
  by_cases hshort : m.length < 12
  · rw [if_pos hshort]
    exact .inl rfl
  rw [if_neg hshort, be16_of_lt (by omega), be16_of_lt (by omega), be16_of_lt (by omega),
    be16_of_lt (by omega)]
  simp only [bind, Except.bind]
  split
  · exact .inl rfl
  split
  · exact .inl rfl
  split
  · exact .inr (.inl rfl)
  split
  · exact .inl rfl
  split
  · exact .inl rfl
  rcases questionMatches_cases hsm (cString name) type scratch with
    hn | ⟨next, text, hso, -⟩
  · rw [hn]
    exact .inl rfl
  rw [hso]
  obtain ⟨out, hrun, -⟩ := scanAnswers_induction hsm type scratch (P := fun _ => True)
    (fun _ _ _ _ => trivial) (m.word16 6) (Scan.start (next + 4) name) trivial
  have hrun' := hrun
  unfold Scan.start at hrun'
  simp only [hrun']
  cases out with
  | none => exact .inl rfl
  | some s =>
    simp only
    split
    · exact .inl rfl
    · exact .inr (.inr ⟨next + 4, s, rfl, hrun, rfl⟩)

/-- For every message that leaves room for a label, from every offset: `skip_name` ends, stays
in bounds and ends the text; `dns_parse_reply` ends and stays in bounds, and its tables are
not overrun at any turn of its loop. -/
theorem decoding_in_bounds (m : Buffer) (hsmall : m.length + 64 ≤ 2 ^ 32) :
    (∀ offset text limit, 1 ≤ limit → limit + 63 ≤ 2 ^ 32 →
      ∃ result, skipName m offset text limit = .ok result ∧
        ∀ next t, result = some (next, some t) → ∃ n < limit, t n = 0) ∧
    ∀ name type transaction scratch,
      (∃ reply, parseReply m name type transaction scratch = .ok reply) ∧
      ∀ cursor answers, ∃ out, scanAnswers m type scratch answers (Scan.start cursor name) =
        .ok out ∧ ∀ s, out = some s → s.result.ipv4.length ≤ 4 ∧ s.result.ipv6.length ≤ 4 := by
  constructor
  · intro offset text limit hpos hl
    obtain ⟨result, hrun, hen⟩ := skipName_endsIn ⟨hsmall, hl⟩ offset text hpos
    exact ⟨result, hrun, fun next t heq => (hen next (some t) heq).2.2 t rfl⟩
  · intro name type transaction scratch
    constructor
    · rcases parseReply_cases hsmall name type transaction scratch with
        h | h | ⟨cursor, s, -, -, h⟩
      · exact ⟨_, h⟩
      · exact ⟨_, h⟩
      · exact ⟨_, h⟩
    · intro cursor answers
      exact scanAnswers_induction hsmall type scratch
        (P := fun s => s.result.Fits) (fun s s' hsc hfits => hsc.fits hfits) answers
        (Scan.start cursor name) ⟨Nat.zero_le _, Nat.zero_le _⟩

/-- Two pointers, the first of which points forward. -/
theorem decoding_in_bounds_pointers :
    (∃ result, skipName (ofList [0xC0, 0x01, 0xC0, 0x00]) 2 (some fun _ => 0) 16 = .ok result) ∧
      ∃ reply, parseReply (ofList [0xC0, 0x01, 0xC0, 0x00]) [0x61] 1 7 (fun _ => 0) =
        .ok reply := by
  have h := decoding_in_bounds (ofList [0xC0, 0x01, 0xC0, 0x00]) (by decide)
  obtain ⟨result, hrun, -⟩ := h.1 2 (some fun _ => 0) 16 (by decide) (by decide)
  exact ⟨⟨result, hrun⟩, (h.2 [0x61] 1 7 _).1⟩

/-- The last byte of a message of 2^32 - 1 bytes announces a label, whose end wraps to 0; its
byte is read behind the message. -/
theorem skipName_reads_behind :
    skipName ⟨fun _ => 1, 2 ^ 32 - 1⟩ (2 ^ 32 - 2) (some fun _ => 0) 16 = .error .read := by
  rfl

end MichCore.Dns
