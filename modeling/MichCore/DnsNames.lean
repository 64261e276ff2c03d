import Mathlib.Data.List.TakeWhile
import MichCore.DnsBounds

/-!
# Whose addresses a reply brings

`skip_name` joins the labels of a name with dots and the decoder compares C strings, which is
right as long as no label has a dot or a zero byte in it. `picked` goes over the decoded answers
of a reply with a comparison of names as a parameter: by their labels it gives the records that
answer the question, by their texts the records whose addresses the decoder takes.
-/
namespace MichCore.Dns

open List
open BoundedBytes BoundedBytes.Buffer BoundedBytes.Memory

abbrev Labels := List (List UInt8)

/-- The labels of the name at `i`, pointers followed. -/
inductive Decodes (m : Buffer) : ℕ → Labels → Prop where
  | root (i : ℕ) (hinside : i < m.length) (hend : m.byte i = 0) : Decodes m i []
  | label (i : ℕ) (label : List UInt8) (labels : Labels) (hlabel : LabelAt m i label)
      (hrest : Decodes m (i + 1 + label.length) labels) : Decodes m i (label :: labels)
  | pointer (i target : ℕ) (labels : Labels) (hpoints : PointsTo m i target)
      (hback : target < i) (hrest : Decodes m target labels) : Decodes m i labels

/-- The offset behind the name at `i`: behind its end, or behind its first pointer. -/
inductive Behind (m : Buffer) : ℕ → ℕ → Prop where
  | root (i : ℕ) (hend : m.byte i = 0) : Behind m i (i + 1)
  | label (i next : ℕ) (label : List UInt8) (hlabel : LabelAt m i label)
      (hrest : Behind m (i + 1 + label.length) next) : Behind m i next
  | pointer (i target : ℕ) (hpoints : PointsTo m i target) : Behind m i (i + 2)

/-- The labels in lower case. -/
def foldCase (labels : Labels) : Labels := labels.map (fun label => label.map lower)

/-- The labels with dots between them, as `skip_name` writes them. -/
def dotted (labels : Labels) : List UInt8 := labels.foldl joinLabel []

/-- No dot and no zero byte in any label. -/
def Plain (labels : Labels) : Prop := ∀ label ∈ labels, 0x2E ∉ label ∧ 0 ∉ label

variable {i index : ℕ} {label text name : List UInt8} {m : Buffer} {labels query : Labels}
  {t left right : Memory}

theorem LabelAt.not_pointsTo {target : ℕ} (hl : LabelAt m i label) : ¬ PointsTo m i target := by
  rintro ⟨-, hp, -⟩
  rw [hl.1] at hp
  exact absurd hp (by decide)

theorem PointsTo.ne_zero {target : ℕ} (h : PointsTo m i target) : m.byte i ≠ 0 := by
  intro hz
  have hp := h.2.1
  rw [hz] at hp
  exact absurd hp (by decide)

theorem Decodes.unique {a b : Labels} (ha : Decodes m i a) (hb : Decodes m i b) : a = b := by
  induction ha generalizing b with
  | root i hi hend =>
    cases hb with
    | root => rfl
    | label _ label labels hl hr => exact absurd hend hl.2.1
    | pointer _ target _ hp hba hr => exact absurd hend hp.ne_zero
  | label i label labels hl hr ih =>
    cases hb with
    | root _ hi hend => exact absurd hend hl.2.1
    | label _ label' labels' hl' hr' =>
      obtain rfl : label = label' := hl.2.2.2.trans hl'.2.2.2.symm
      rw [ih hr']
    | pointer _ target _ hp hba hr' => exact absurd hp hl.not_pointsTo
  | pointer i target labels hp hba hr ih =>
    cases hb with
    | root _ hi hend => exact absurd hend hp.ne_zero
    | label _ label labels hl hr' => exact absurd hp hl.not_pointsTo
    | pointer _ target' _ hp' hba' hr' =>
      obtain rfl : target = target' := hp.2.2.trans hp'.2.2.symm
      exact ih hr'

theorem Behind.unique {a b : ℕ} (ha : Behind m i a) (hb : Behind m i b) : a = b := by
  induction ha generalizing b with
  | root i hend =>
    cases hb with
    | root => rfl
    | label _ _ label hl hr => exact absurd hend hl.2.1
    | pointer _ target hp => exact absurd hend hp.ne_zero
  | label i next label hl hr ih =>
    cases hb with
    | root _ hend => exact absurd hend hl.2.1
    | label _ _ label' hl' hr' =>
      obtain rfl : label = label' := hl.2.2.2.trans hl'.2.2.2.symm
      exact ih hr'
    | pointer _ target hp => exact absurd hp hl.not_pointsTo
  | pointer i target hp =>
    cases hb with
    | root _ hend => exact absurd hend hp.ne_zero
    | label _ _ label hl hr => exact absurd hp hl.not_pointsTo
    | pointer => rfl

theorem Decodes.inside (h : Decodes m i labels) : i < m.length := by
  cases h with
  | root _ hi hend => exact hi
  | label _ label labels hla hr =>
    have hle := hla.length
    omega
  | pointer _ target _ hp hb hr => exact Nat.lt_of_succ_lt hp.1

set_option maxRecDepth 20000 in
private theorem lowerTable : ∀ i : Fin 256,
    (lower (UInt8.ofNat i.val) = 0 ↔ UInt8.ofNat i.val = 0) ∧
    (lower (UInt8.ofNat i.val) = 0x2E ↔ UInt8.ofNat i.val = 0x2E) := by
  decide

theorem lower_eq_zero (b : UInt8) : lower b = 0 ↔ b = 0 := by
  simpa using (lowerTable ⟨b.toNat, b.toNat_lt⟩).1

/-- The memory from `index` on is the C string. -/
def HoldsString (t : Memory) (index : ℕ) (text : List UInt8) : Prop :=
  (∀ i (h : i < text.length), t (index + i) = text[i]) ∧ t (index + text.length) = 0

theorem HoldsString.cons {b : UInt8} (h : HoldsString t index (b :: text)) :
    t index = b ∧ HoldsString t (index + 1) text := by
  obtain ⟨hby, hend⟩ := h
  refine ⟨hby 0 (by simp), fun i hi => ?_, ?_⟩
  · have hb := hby (i + 1) (by simpa using hi)
    rwa [← Nat.add_assoc, Nat.add_right_comm, getElem_cons_succ] at hb
  · rw [length_cons] at hend
    rwa [← Nat.add_assoc, Nat.add_right_comm] at hend

theorem HoldsString.nil (h : HoldsString t index []) : t index = 0 :=
  h.2

theorem holdsString_of_holds (h : Holds t (text ++ [0])) : HoldsString t 0 text := by
  refine ⟨fun i hi => ?_, ?_⟩
  · rw [Nat.zero_add]
    exact h.left i hi
  · have hend := h text.length (by simp)
    simpa using hend

theorem holdsString_cString (name : List UInt8) : HoldsString (cString name) 0 name := by
  refine ⟨fun i hi => ?_, ?_⟩
  · simp [cString, getD_eq_getElem?_getD, hi]
  · simp [cString]

/-- Two strings without zero bytes are equal for `names_equal` when they are equal in lower
case and the loop has turns enough. -/
theorem namesEqualFrom_iff {x y : List UInt8} (turns index : ℕ) (hl : HoldsString left index x)
    (hri : HoldsString right index y) (hx : 0 ∉ x) (hy : 0 ∉ y) :
    namesEqualFrom left right turns index = true ↔
      x.length < turns ∧ x.map lower = y.map lower := by
  induction x generalizing y turns index with
  | nil =>
    cases turns with
    | zero => simp [namesEqualFrom]
    | succ turns =>
      have hz : lower 0 = 0 := (lower_eq_zero 0).mpr rfl
      cases y with
      | nil => simp [namesEqualFrom, hl.nil, hri.nil]
      | cons b y =>
        have hb : b ≠ 0 := fun h => hy (by simp [h])
        have hne : ¬ lower b = 0 := fun h => hb ((lower_eq_zero b).mp h)
        simp [namesEqualFrom, hl.nil, hri.cons.1, hz, Ne.symm hne]
  | cons a x ih =>
    cases turns with
    | zero => simp [namesEqualFrom]
    | succ turns =>
      have ha : a ≠ 0 := fun h => hx (by simp [h])
      have hne : ¬ lower a = 0 := fun h => ha ((lower_eq_zero a).mp h)
      have hz : lower 0 = 0 := (lower_eq_zero 0).mpr rfl
      cases y with
      | nil => simp [namesEqualFrom, hl.cons.1, hri.nil, hz, hne]
      | cons b y =>
        have hre := ih turns (index + 1) hl.cons.2 hri.cons.2
          (fun h => hx (mem_cons_of_mem _ h)) (fun h => hy (mem_cons_of_mem _ h))
        simp only [namesEqualFrom, hl.cons.1, hri.cons.1, ha, if_false, map_cons,
          List.cons.injEq, length_cons]
        by_cases hab : lower a = lower b
        · simp [hab, hre]
        · simp [hab]

theorem namesEqual_iff {x y : List UInt8} (hl : HoldsString left 0 x)
    (hr : HoldsString right 0 y) (hx : 0 ∉ x) (hy : 0 ∉ y) :
    namesEqual left right = true ↔ x.length ≤ 255 ∧ x.map lower = y.map lower := by
  rw [namesEqual, namesEqualFrom_iff 256 0 hl hr hx hy, Nat.lt_succ_iff]

theorem foldl_joinLabel (ht : text ≠ []) (labels : Labels) :
    labels.foldl joinLabel text = text ++ labels.flatMap (fun label => 0x2E :: label) := by
  induction labels generalizing text with
  | nil => simp
  | cons label labels ih =>
    have hj : joinLabel text label = text ++ 0x2E :: label := if_neg ht
    rw [foldl_cons, hj, ih (by simp), flatMap_cons, append_assoc]

theorem dotted_cons (hl : label ≠ []) (labels : Labels) :
    dotted (label :: labels) = label ++ labels.flatMap (fun label => 0x2E :: label) := by
  have hj : joinLabel [] label = label := if_pos rfl
  rw [dotted, foldl_cons, hj, foldl_joinLabel hl]

/-- A name that `skip_name` accepts decodes, and the text is the dotted form of its labels. -/
theorem skipName_decodes {limit : ℕ} (hro : Roomy m limit) {offset next : ℕ} {t₀ : Memory}
    (hli : 0 < limit) (h : skipName m offset (some t₀) limit = .ok (some (next, some t))) :
    ∃ labels, Decodes m offset labels ∧ Behind m offset next ∧ (dotted labels).length < limit ∧
      Holds t (dotted labels ++ [0]) := by
  obtain ⟨result, hrun, hP, -⟩ := skipName_spec hro
    (P := fun w result => ∀ next t, result = some (next, some t) →
      ∀ t₀ text, w.text = some t₀ → text.length = w.written → Holds t₀ text →
        ∃ labels, Decodes m w.cursor labels ∧
          (w.next = some next ∨ w.next = none ∧ Behind m w.cursor next) ∧
          (labels.foldl joinLabel text).length < limit ∧
          Holds t (labels.foldl joinLabel text ++ [0]))
    (fun w result hfits htu next t heq t₀ text hte hle hh => by
      cases htu with
      | rejected => cases heq
      | counted_ended hend hc hno =>
        rw [hno] at hte
        cases hte
      | ended hend hc t' hte' =>
        cases heq
        rw [hte'] at hte
        cases hte
        refine ⟨[], .root _ hc hend, ?_, ?_, ?_⟩
        · cases hw : w.next with
          | none => exact .inr ⟨rfl, .root _ hend⟩
          | some n => exact .inl rfl
        · simpa [Walk.Fits, hte', hle] using hfits
        · rw [foldl_nil, ← hle]
          exact hh.update 0)
    (fun w w' result hfits htu hre next t heq t₀ text hte hle hh => by
      cases htu with
      | jumped target hp hba hju =>
        obtain ⟨labels, hlabels, hne, ht⟩ := hre next t heq t₀ text hte hle hh
        refine ⟨labels, .pointer _ target labels hp hba hlabels, ?_, ht⟩
        have hs : some (w.next.getD (w.cursor + 2)) = some next := by
          rcases hne with hne | ⟨hne, -⟩
          · exact hne
          · cases hne
        cases hw : w.next with
        | none =>
          rw [hw] at hs
          cases hs
          exact .inr ⟨rfl, .pointer _ target hp⟩
        | some n =>
          rw [hw] at hs
          exact .inl hs
      | counted label hlabel hno hlo =>
        rw [hno] at hte
        cases hte
      | labelled label hlabel t₁ t₂ hte' written hwr hlo hjo =>
        rw [hte'] at hte
        cases hte
        obtain ⟨hle', hh'⟩ := hjo text hle hh
        obtain ⟨labels, hlabels, hne, ht⟩ := hre next t heq t₂ (joinLabel text label) rfl
          hle' hh'
        refine ⟨label :: labels, .label _ label labels hlabel hlabels, ?_, ht⟩
        rcases hne with hne | ⟨hno, hbe⟩
        · exact .inl hne
        · exact .inr ⟨hno, .label _ _ label hlabel hbe⟩)
    offset (some t₀) hli
  rw [h] at hrun
  cases hrun
  obtain ⟨labels, hlabels, hne, ht⟩ := hP next t rfl t₀ [] rfl rfl (holds_nil t₀)
  rcases hne with hne | ⟨-, hbe⟩
  · cases hne
  · exact ⟨labels, hlabels, hbe, ht⟩

/-- What `names_equal` reads of a name with these labels. -/
def spelled (labels : Labels) : List UInt8 := ((dotted labels).takeWhile (· ≠ 0)).map lower

/-- The memory holds a C string of at most 255 bytes that is the text in lower case. -/
def HoldsName (t : Memory) (text : List UInt8) : Prop :=
  ∃ string, HoldsString t 0 string ∧ 0 ∉ string ∧ string.length ≤ 255 ∧ string.map lower = text

theorem HoldsName.namesEqual_iff {a b : List UInt8} (ha : HoldsName left a)
    (hb : HoldsName right b) : namesEqual left right = true ↔ a = b := by
  obtain ⟨x, hlef, hx, hlen, rfl⟩ := ha
  obtain ⟨y, hr, hy, -, rfl⟩ := hb
  rw [Dns.namesEqual_iff hlef hr hx hy, and_iff_right hlen]

theorem holdsName_of_holds (h : Holds t (dotted labels ++ [0]))
    (hl : (dotted labels).length < 256) : HoldsName t (spelled labels) := by
  have hz : 0 ∉ (dotted labels).takeWhile (· ≠ 0) := fun hmem => by
    simpa using mem_takeWhile_imp hmem
  refine ⟨_, ?_, hz, ?_, rfl⟩
  · rw [← takeWhile_append_dropWhile (p := (· ≠ 0)) (l := dotted labels), append_assoc] at h
    cases hr : (dotted labels).dropWhile (· ≠ 0) with
    | nil =>
      rw [hr, nil_append] at h
      exact holdsString_of_holds h
    | cons b rest =>
      have hb : b = 0 := by
        have hh := head_dropWhile_not (p := (· ≠ 0)) (l := dotted labels)
          (hr ▸ cons_ne_nil b rest)
        simp only [hr, head_cons] at hh
        simpa using hh
      rw [hr, hb, cons_append, ← singleton_append, ← append_assoc] at h
      exact holdsString_of_holds h.left
  · exact (takeWhile_sublist _).length_le.trans (Nat.lt_succ_iff.mp hl)

/-- A record of the answers with the labels of its owner, and those of the name in its data. -/
structure Answer where
  owner : Labels
  record : Record
  target : Labels

/-- The offset behind the record. -/
def Record.stop (r : Record) : ℕ := (r.data + r.size) % 2 ^ 32

structure Answer.At (a : Answer) (m : Buffer) (cursor : ℕ) : Prop where
  owner : Decodes m cursor a.owner
  record : ∃ next, Behind m cursor next ∧ RecordAt m next a.record
  target : Decodes m a.record.data a.target ∨
    a.target = [] ∧ ∀ labels, ¬ Decodes m a.record.data labels

/-- The address records of the type whose owner is wanted when they come, where `same` compares
an owner with what is wanted and an alias with such an owner changes it to `rename`. -/
def picked {σ : Type} (same : σ → Labels → Bool) (rename : σ → Labels → σ) (type : ℕ) :
    σ → List Answer → List Record
  | _, [] => []
  | wanted, ⟨owner, r, target⟩ :: rest =>
    if r.klass = 1 ∧ same wanted owner then
      if r.type = 5 then picked same rename type (rename wanted target) rest
      else if r.type = type ∧ (type = 1 ∨ type = 28) then r :: picked same rename type wanted rest
      else picked same rename type wanted rest
    else picked same rename type wanted rest

/-- The records that answer the question: the owner has the labels of the query or of the target
of a chain of earlier aliases that starts there. -/
def answering (type : ℕ) (query : Labels) (answers : List Answer) : List Record :=
  picked (fun names owner => foldCase owner ∈ names.map foldCase)
    (fun names target => target :: names) type [query] answers

/-- The records that the decoder takes: the owner is spelled as the query name or as the target
of the last alias that it followed. -/
def taken (type : ℕ) (text : List UInt8) (answers : List Answer) : List Record :=
  picked (fun text owner => spelled owner = text) (fun _ target => spelled target) type text answers

/-- No dot and no zero byte in the labels of the owner, and none in those of an alias's target. -/
def Answer.Plain (a : Answer) : Prop :=
  Dns.Plain a.owner ∧ (a.record.type = 5 → Dns.Plain a.target)

/-- The addresses of the records are behind those of the result, up to four of either family. -/
structure Result.Adds (result' result : Result) (m : Buffer) (type : ℕ) (records : List Record) :
    Prop where
  ipv4 : result'.ipv4 =
    (result.ipv4 ++ if type = 1 then records.map (fun r => m.word32 r.data) else []).take 4
  ipv6 : result'.ipv6 =
    (result.ipv6 ++ if type = 28 then records.map (fun r => m.slice r.data 16) else []).take 4
  size : ∀ r ∈ records, type = 1 ∧ r.size = 4 ∨ type = 28 ∧ r.size = 16

theorem Result.Fits.adds_nil {result : Result} (h : result.Fits) (type : ℕ) :
    result.Adds result m type [] := by
  refine ⟨?_, ?_, nofun⟩ <;>
    rw [map_nil, ite_self, append_nil, take_of_length_le]
  exacts [h.1, h.2]

theorem take_append_take {α : Type} (a b : List α) (n : ℕ) :
    (a.take n ++ b).take n = (a ++ b).take n := by
  rw [take_append, take_append, take_take, min_self, length_take]
  by_cases h : a.length ≤ n
  · rw [min_eq_right h]
  · rw [min_eq_left (by omega), Nat.sub_self, Nat.sub_eq_zero_of_le (by omega)]

theorem Result.Adds.trans {a b c : Result} {type : ℕ} {xs ys : List Record}
    (hb : b.Adds a m type xs) (hc : c.Adds b m type ys) : c.Adds a m type (xs ++ ys) := by
  refine ⟨?_, ?_, fun r hr => (mem_append.mp hr).elim (hb.size r) (hc.size r)⟩
  · rw [hc.ipv4, hb.ipv4, take_append_take, append_assoc]
    split <;> simp
  · rw [hc.ipv6, hb.ipv6, take_append_take, append_assoc]
    split <;> simp

theorem exists_target (m : Buffer) (i : ℕ) :
    ∃ target, Decodes m i target ∨ target = [] ∧ ∀ labels, ¬ Decodes m i labels := by
  by_cases h : ∃ labels, Decodes m i labels
  · obtain ⟨labels, hl⟩ := h
    exact ⟨labels, .inl hl⟩
  · exact ⟨[], .inr ⟨rfl, not_exists.mp h⟩⟩

/-- A turn of the loop: the answer at the cursor is left behind, and if it is taken, its address
goes to the result. -/
theorem Scans.takes (hsm : Small m) {type : ℕ} {scratch : Memory} {s s' : Scan}
    (h : Scans m type scratch s (some s')) (hfits : s.result.Fits) (hs : HoldsName s.wanted text) :
    ∃ a text' new, a.At m s.cursor ∧ s'.cursor = a.record.stop ∧ HoldsName s'.wanted text' ∧
      s'.result.Adds s.result m type new ∧
      ∀ rest, taken type text (a :: rest) = new ++ taken type text' rest := by
  have hro : Roomy m 256 := hsm.roomy
  have hnon (ttl : ℕ) : (s.result.shorten ttl).Adds s.result m type [] :=
    ⟨(hfits.adds_nil type).1, (hfits.adds_nil type).2, nofun⟩
  cases h with
  | skipped next owner r hna hr hot =>
    obtain ⟨labels, hla, hb, hle, hh⟩ := skipName_decodes hro (by omega) hna
    obtain ⟨target, hta⟩ := exists_target m r.data
    refine ⟨⟨labels, r, target⟩, text, [], ⟨hla, ⟨next, hb, hr⟩, hta⟩, rfl, hs,
      hfits.adds_nil type, fun rest => ?_⟩
    have hd : ¬ (r.klass = 1 ∧ spelled labels = text) := by
      rintro ⟨hk, hsa⟩
      rcases hot with hot | hot
      · exact hot hk
      · rw [((holdsName_of_holds hh hle).namesEqual_iff hs).mpr hsa] at hot
        cases hot
    simp only [taken, picked, decide_eq_true_eq, if_neg hd, nil_append]
  | used next owner r _ hna hr hk how hu =>
    obtain ⟨labels, hla, hb, hle, hh⟩ := skipName_decodes hro (by omega) hna
    obtain ⟨target, hta⟩ := exists_target m r.data
    have hsa := ((holdsName_of_holds hh hle).namesEqual_iff hs).mp how
    have hat : (⟨labels, r, target⟩ : Answer).At m s.cursor :=
      ⟨hla, ⟨next, hb, hr⟩, hta⟩
    cases hu with
    | renamed next' wanted hal hna' =>
      obtain ⟨labels', hla', -, hle', hh'⟩ :=
        skipName_decodes hro (by omega) hna'
      obtain rfl := (hta.resolve_right fun h => h.2 labels' hla').unique hla'
      refine ⟨_, spelled target, [], hat, rfl, holdsName_of_holds hh' hle', hnon _,
        fun rest => ?_⟩
      simp [taken, picked, hk, hsa, hal]
    | found4 hre hty hsiz hsp =>
      refine ⟨_, text, [r], hat, rfl, hs, ⟨?_, ?_, ?_⟩, fun rest => ?_⟩
      · simp only [Result.shorten, hty, if_true, map_cons, map_nil]
        rw [take_of_length_le]
        simpa using hsp
      · exact (hnon 0).ipv6.trans (by simp [hty])
      · simpa using Or.inl ⟨hty, hsiz⟩
      · simp [taken, picked, hk, hsa, hre, hty]
    | found6 hre hty hsiz hsp =>
      refine ⟨_, text, [r], hat, rfl, hs, ⟨?_, ?_, ?_⟩, fun rest => ?_⟩
      · exact (hnon 0).ipv4.trans (by simp [hty])
      · simp only [Result.shorten, hty, if_true, map_cons, map_nil]
        rw [take_of_length_le]
        simpa using hsp
      · simpa using Or.inr ⟨hty, hsiz⟩
      · simp [taken, picked, hk, hsa, hre, hty]
    | full hfu =>
      refine ⟨_, text, [r], hat, rfl, hs, ⟨?_, ?_, ?_⟩, fun rest => ?_⟩
      · rcases hfu with ⟨hre, hty, hsiz, hfu⟩ | ⟨hre, hty, hsiz, hfu⟩
        · rw [take_append_of_le_length hfu, take_of_length_le hfits.1]
          rfl
        · exact (hnon 0).ipv4.trans (by simp [hty])
      · rcases hfu with ⟨hre, hty, hsiz, hfu⟩ | ⟨hre, hty, hsiz, hfu⟩
        · exact (hnon 0).ipv6.trans (by simp [hty])
        · rw [take_append_of_le_length hfu, take_of_length_le hfits.2]
          rfl
      · simp only [mem_singleton, forall_eq]
        exact hfu.imp (fun h => ⟨h.2.1, h.2.2.1⟩) fun h => ⟨h.2.1, h.2.2.1⟩
      · rcases hfu with ⟨hre, hty, -, -⟩ | ⟨hre, hty, -, -⟩ <;>
          simp [taken, picked, hk, hsa, hre, hty]
    | other hal hfo hsix =>
      refine ⟨_, text, [], hat, rfl, hs, hfits.adds_nil type, fun rest => ?_⟩
      have hnot : ¬ (r.type = type ∧ (type = 1 ∨ type = 28)) := by omega
      simp [taken, picked, hk, hsa, hal, hnot]

end MichCore.Dns
