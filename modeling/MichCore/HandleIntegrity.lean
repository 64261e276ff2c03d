import MichCore.ObjectRelease

/-!
# Handles and the objects behind them

What holds over every run of references, rights, generations and destroy callbacks, as long as
kernel callers release only what they hold.
-/
namespace MichCore.Handles

open Function List
open Objects (KObject objectCreate objectRetain objectMax taskMax objectCreate_some
  objectRetain_some)

/-- The object has references. -/
def Live (s : System) (object : ℕ) : Prop := 0 < (s.objects object).references

/-- The handle tables: open handles are in the tables, rights only shrink along duplications,
and generations count the closings. -/
structure SlotsSound (s : System) : Prop where
  mem : ∀ key object, (s.handle key).object = some object → key ∈ keys
  lineage : ∀ key, ∀ rights ∈ (s.handle key).lineage,
    (s.handle key).rights &&& ~~~rights = 0 ∧ rights &&& krightTransfer ≠ 0
  generation : ∀ key, (s.handle key).generation = 1 + (s.handle key).closed % (2 ^ 24 - 1)

/-- The references: those of the handles and of the kernel callers. -/
structure CountsSound (s : System) : Prop where
  counts : s.honest = true →
    ∀ object, (s.objects object).references = handlesTo s.handle object + s.held object
  idle : ∀ object, (s.objects object).active = false → (s.objects object).references = 0
  bound : InTable s

/-- The object with a serial number had a callback and has no references left. -/
def Ended (s : System) (n : ℕ) : Prop :=
  n < s.nextSerial ∧ s.hasCallback n = true ∧ ¬ ∃ object, Live s object ∧ s.serial object = n

/-- The callbacks: one run for each object that has ended, and none for the others. -/
structure CallbacksSound (s : System) : Prop where
  serial_lt : ∀ object, Live s object → s.serial object < s.nextSerial
  serial_inj : ∀ object object', Live s object → Live s object' →
    s.serial object = s.serial object' → object = object'
  callback : ∀ object, Live s object →
    (s.objects object).destroy = s.hasCallback (s.serial object)
  once : ∀ n, Ended s n → s.destroyed.count n = 1
  never : ∀ n, ¬ Ended s n → s.destroyed.count n = 0

structure Sound (s : System) : Prop where
  slots : SlotsSound s
  references : CountsSound s
  callbacks : CallbacksSound s

variable {s s' : System} {object : ℕ}

theorem ended_congr (hlive : ∀ object, Live s' object ↔ Live s object)
    (hs : s'.serial = s.serial) (hn : s'.nextSerial = s.nextSerial)
    (hc : s'.hasCallback = s.hasCallback) (n : ℕ) : Ended s' n ↔ Ended s n := by
  unfold Ended
  rw [hs, hn, hc]
  simp only [hlive]

theorem CallbacksSound.congr (h : CallbacksSound s)
    (hlive : ∀ object, Live s' object ↔ Live s object)
    (hdestroy : ∀ object, Live s object → (s'.objects object).destroy = (s.objects object).destroy)
    (hs : s'.serial = s.serial) (hn : s'.nextSerial = s.nextSerial)
    (hc : s'.hasCallback = s.hasCallback) (hdestroye : s'.destroyed = s.destroyed) :
    CallbacksSound s' where
  serial_lt := by
    intro object hob
    rw [hs, hn]
    exact h.serial_lt object ((hlive object).mp hob)
  serial_inj := by
    intro object object' hob hob'
    rw [hs]
    exact h.serial_inj object object' ((hlive object).mp hob) ((hlive object').mp hob')
  callback := by
    intro object hob
    have hold := (hlive object).mp hob
    rw [hdestroy object hold, hs, hc]
    exact h.callback object hold
  once := by
    intro n he
    rw [hdestroye]
    exact h.once n ((ended_congr hlive hs hn hc n).mp he)
  never := by
    intro n he
    rw [hdestroye]
    exact h.never n fun hold => he ((ended_congr hlive hs hn hc n).mpr hold)

variable {key : ℕ × ℕ} {o : KObject}

theorem CallbacksSound.update (h : CallbacksSound s)
    (hob : s'.objects = Function.update s.objects object o)
    (hlive : 0 < o.references ↔ Live s object)
    (hdestroy : Live s object → o.destroy = (s.objects object).destroy)
    (hs : s'.serial = s.serial) (hnex : s'.nextSerial = s.nextSerial)
    (hc : s'.hasCallback = s.hasCallback) (hdestroye : s'.destroyed = s.destroyed) :
    CallbacksSound s' := by
  refine h.congr (fun other => ?_) (fun other hot => ?_) hs hnex hc hdestroye
  · by_cases hne : other = object
    · rw [Live, hob, hne, update_self]
      exact hlive
    · rw [Live, Live, hob, update_of_ne hne]
  · by_cases hne : other = object
    · subst hne
      rw [hob, update_self]
      exact hdestroy hot
    · rw [hob, update_of_ne hne]

theorem CountsSound.update (h : CountsSound s)
    (hob : s'.objects = Function.update s.objects object o)
    (hidle : o.active = false → o.references = 0) (hb : o.active = true → object < objectMax)
    (hh : s'.honest = true → s.honest = true)
    (hs : s'.honest = true →
      (s.objects object).references = handlesTo s.handle object + s.held object →
      o.references = handlesTo s'.handle object + s'.held object)
    (hot : ∀ other, other ≠ object → handlesTo s'.handle other + s'.held other =
      handlesTo s.handle other + s.held other) : CountsSound s' := by
  refine ⟨fun hon other => ?_, fun other hoff => ?_, fun other hon => ?_⟩
  · have hcount := h.counts (hh hon) other
    by_cases hne : other = object
    · subst hne
      rw [hob, update_self]
      exact hs hon hcount
    · rw [hob, update_of_ne hne, hot other hne]
      exact hcount
  · rw [hob] at hoff ⊢
    by_cases hne : other = object
    · rw [hne, update_self] at hoff ⊢
      exact hidle hoff
    · rw [update_of_ne hne] at hoff ⊢
      exact h.idle other hoff
  · rw [hob] at hon
    by_cases hne : other = object
    · rw [hne, update_self] at hon
      exact hne ▸ hb hon
    · rw [update_of_ne hne] at hon
      exact h.bound other hon

theorem giveUp_honest (h : (s.giveUp object).honest = true) :
    s.honest = true ∧ 0 < s.held object := by
  simpa [System.giveUp] using h

theorem giveUp_held_same (s : System) (object : ℕ) :
    (s.giveUp object).held object = s.held object - 1 := update_self ..

theorem giveUp_held_other (s : System) {other : ℕ} (h : other ≠ object) :
    (s.giveUp object).held other = s.held other := update_of_ne h _ _

section Steps

variable {s : System} {object : ℕ}

theorem Sound.ignored (h : Sound s)
    (hca : (s.objects object).active = false ∨ (s.objects object).references = 0) :
    Sound (s.giveUp object) := by
  have hz : (s.objects object).references = 0 := hca.elim (h.references.idle object) id
  refine ⟨⟨h.slots.mem, h.slots.lineage, h.slots.generation⟩,
    ⟨fun hho => ?_, h.references.idle, h.references.bound⟩,
    h.callbacks.congr (fun _ => Iff.rfl) (fun _ _ => rfl) rfl rfl rfl rfl⟩
  -- A caller that holds a reference finds the object.
  obtain ⟨hho, hhe⟩ := giveUp_honest hho
  have hcount := h.references.counts hho object
  omega

theorem CountsSound.givenUp {s' : System} (h : CountsSound s)
    (hob : s'.objects = Function.update s.objects object o)
    (hac : (s.objects object).active = true) (hk : o.active = (s.objects object).active)
    (hr : o.references + 1 = (s.objects object).references)
    (hha : s'.handle = s.handle) (hhe : s'.held = (s.giveUp object).held)
    (hho : s'.honest = (s.giveUp object).honest) : CountsSound s' := by
  refine h.update hob (fun hoff => ?_) (fun _ => h.bound object hac) (fun hon => ?_)
    (fun hon hcount => ?_) fun other hne => ?_
  · rw [hk, hac] at hoff
    cases hoff
  · rw [hho] at hon
    exact (giveUp_honest hon).1
  · rw [hho] at hon
    have hpos := (giveUp_honest hon).2
    rw [hha, hhe, giveUp_held_same]
    omega
  · rw [hha, hhe, giveUp_held_other s hne]

theorem Sound.dropped (h : Sound s) (ha : (s.objects object).active = true)
    (hm : 1 < (s.objects object).references) : Sound (s.dropped object) where
  slots := ⟨h.slots.mem, h.slots.lineage, h.slots.generation⟩
  references := h.references.givenUp rfl ha rfl (Nat.sub_add_cancel hm.le) rfl rfl rfl
  callbacks := h.callbacks.update rfl
    (iff_of_true (Nat.sub_pos_of_lt hm) (Nat.zero_lt_one.trans hm)) (fun _ => rfl) rfl rfl rfl
    rfl

theorem CallbacksSound.dying (h : CallbacksSound s) (hlive : Live s object) :
    CallbacksSound (s.dying object) := by
  have hot : ∀ other, other ≠ object → (s.dying object).objects other = s.objects other :=
    fun other hne => update_of_ne hne _ _
  have hlives : ∀ other, Live (s.dying object) other ↔ Live s other ∧ other ≠ object := by
    intro other
    by_cases hne : other = object
    · subst hne
      simp [Live, System.dying]
    · rw [Live, hot other hne]
      exact ⟨fun hlive => ⟨hlive, hne⟩, And.left⟩
  -- The object with the number of the dying one is gone, the others are as before.
  have hen : ∀ n, Ended (s.dying object) n ↔
      if n = s.serial object then s.hasCallback n = true else Ended s n := by
    intro n
    unfold Ended
    simp only [hlives]
    split
    · next heq =>
      constructor
      · exact fun hn => hn.2.1
      · intro hca
        refine ⟨heq ▸ h.serial_lt object hlive, hca, ?_⟩
        rintro ⟨other, ⟨hon, hne⟩, hs⟩
        exact hne (h.serial_inj other object hon hlive (hs.trans heq))
    · next hne =>
      refine and_congr_right fun _ => and_congr_right fun _ => not_congr ⟨?_, ?_⟩
      · rintro ⟨other, ⟨hon, -⟩, hs⟩
        exact ⟨other, hon, hs⟩
      · rintro ⟨other, hon, hs⟩
        refine ⟨other, ⟨hon, ?_⟩, hs⟩
        rintro rfl
        exact hne hs.symm
  have hca : (s.objects object).destroy = s.hasCallback (s.serial object) :=
    h.callback object hlive
  have hno : ¬ Ended s (s.serial object) := fun hn => hn.2.2 ⟨object, hlive, rfl⟩
  have hcount : ∀ n, (s.dying object).destroyed.count n = s.destroyed.count n +
        if n = s.serial object ∧ s.hasCallback n = true then 1 else 0 := by
    intro n
    by_cases hd : (s.objects object).destroy = true
    · have hlog : (s.dying object).destroyed = s.destroyed ++ [s.serial object] := if_pos hd
      rw [hlog, count_append, count_singleton]
      by_cases hn : n = s.serial object
      · subst hn
        simp [← hca, hd]
      · simp [hn, Ne.symm hn]
    · have hlog : (s.dying object).destroyed = s.destroyed := if_neg hd
      rw [hlog, if_neg]
      · rfl
      · rintro ⟨hn, hn'⟩
        rw [hn, ← hca] at hn'
        exact hd hn'
  refine ⟨fun other hon => ?_, fun other other' hon hon' => ?_, fun other hon => ?_,
    fun n hn => ?_, fun n hn => ?_⟩
  · exact h.serial_lt other ((hlives other).mp hon).1
  · exact h.serial_inj other other' ((hlives other).mp hon).1 ((hlives other').mp hon').1
  · obtain ⟨hold, hne⟩ := (hlives other).mp hon
    rw [hot other hne]
    exact h.callback other hold
  · rw [hcount]
    rw [hen] at hn
    split at hn
    · next heq =>
      rw [if_pos ⟨heq, hn⟩, heq, h.never _ hno]
    · next heq =>
      rw [if_neg (fun hb => heq hb.1), h.once n hn]
  · rw [hcount]
    rw [hen] at hn
    split at hn
    · next heq =>
      rw [if_neg (fun hb => hn hb.2), heq, h.never _ hno]
    · next heq =>
      rw [if_neg (fun hb => heq hb.1), h.never n hn]

theorem Sound.dying (h : Sound s) (ha : (s.objects object).active = true)
    (hone : (s.objects object).references = 1) : Sound (s.dying object) where
  slots := ⟨h.slots.mem, h.slots.lineage, h.slots.generation⟩
  references := h.references.givenUp rfl ha rfl hone.symm rfl rfl rfl
  callbacks := h.callbacks.dying (Nat.lt_of_lt_of_eq Nat.one_pos hone.symm)

theorem Sound.finished (h : Sound s) (hz : (s.objects object).references = 0) :
    Sound (s.finished object) where
  slots := ⟨h.slots.mem, h.slots.lineage, h.slots.generation⟩
  references := h.references.update rfl (fun _ => hz) (fun hon => absurd hon Bool.false_ne_true)
    id (fun _ hcount => hcount) fun _ _ => rfl
  callbacks := h.callbacks.update rfl Iff.rfl (fun _ => rfl) rfl rfl rfl rfl

end Steps

theorem Sound.release (h : Sound s) (callback : Callback) (object : ℕ) :
    Sound (release s callback object) :=
  (objectRelease_rule (R := fun s s' => Sound s → Sound s') (fun _ => id)
    (fun _ _ _ h h' hs => h' (h hs)) (fun _ _ hc hs => hs.ignored hc)
    (fun _ _ ha hm hs => hs.dropped ha hm)
    (fun _ _ ha hone hs => hs.dying ha hone)
    (fun _ _ hz hs => hs.finished hz) callback levels s object).1 h

section References

variable {s : System} {object : ℕ}

theorem take_held (s : System) (object other : ℕ) :
    (s.take object).held other = s.held other + if other = object then 1 else 0 := by
  by_cases h : other = object
  · subst h
    simp [System.take]
  · simp [System.take, h]

theorem CountsSound.retained {s' : System} (h : CountsSound s)
    (hac : (s.objects object).active = true)
    (hob : s'.objects = Function.update s.objects object
      { s.objects object with references := (s.objects object).references + 1 })
    (hh : s'.honest = s.honest)
    (hcounts : ∀ other, handlesTo s'.handle other + s'.held other =
      handlesTo s.handle other + s.held other + if other = object then 1 else 0) :
    CountsSound s' := by
  refine h.update hob (fun hoff => ?_) (fun _ => h.bound object hac)
    (fun hon => hh ▸ hon) (fun _ hcount => ?_) fun other hne => ?_
  · exact absurd (hac.symm.trans hoff) (by decide)
  · rw [hcounts, if_pos rfl, ← hcount]
  · rw [hcounts, if_neg hne]
    rfl

theorem Sound.retain (h : Sound s) (object : ℕ) : Sound (retain s object).1 := by
  unfold Handles.retain
  cases hr : objectRetain s.objects object with
  | none => exact h
  | some t =>
    obtain ⟨hac, hlive, rfl⟩ := objectRetain_some hr
    refine ⟨⟨h.slots.mem, h.slots.lineage, h.slots.generation⟩,
      h.references.retained hac rfl rfl fun other => ?_,
      h.callbacks.update rfl (iff_of_true (Nat.succ_pos _) hlive) (fun _ => rfl) rfl rfl rfl rfl⟩
    change handlesTo s.handle other + (s.take object).held other = _
    rw [take_held]
    omega

theorem SlotsSound.update {s' : System} {slot : HandleSlot} (h : SlotsSound s)
    (hh : s'.handle = Function.update s.handle key slot) (hkey : key ∈ keys)
    (hl : ∀ rights ∈ slot.lineage,
      slot.rights &&& ~~~rights = 0 ∧ rights &&& krightTransfer ≠ 0)
    (hg : slot.generation = 1 + slot.closed % (2 ^ 24 - 1)) : SlotsSound s' := by
  have hc : ∀ other, s'.handle other = if other = key then slot else s.handle other := by
    intro other
    rw [hh, update_apply]
  refine ⟨fun other object ho => ?_, fun other => ?_, fun other => ?_⟩
  · rw [hc] at ho
    by_cases hne : other = key
    · rw [hne]
      exact hkey
    · rw [if_neg hne] at ho
      exact h.mem other object ho
  · rw [hc]
    split
    · exact hl
    · exact h.lineage other
  · rw [hc]
    split
    · exact hg
    · exact h.generation other

theorem Sound.opened (h : Sound s) {owner : ℕ} (ho : owner < taskMax) (object : ℕ) (rights : Rights)
    {lineage : List Rights} (hlin : ∀ r ∈ lineage, rights &&& ~~~r = 0 ∧ r &&& krightTransfer ≠ 0) :
    Sound (handleOpenLocked s owner object rights lineage).1 := by
  unfold handleOpenLocked
  split
  · exact h
  · next index hfi =>
    have hfo := find?_some hfi
    have hfr : (s.handle (owner, index)).object = none := of_decide_eq_true hfo
    have hi := mem_range.mp (mem_of_find?_eq_some hfi)
    have hkey : (owner, index) ∈ keys :=
      Finset.mem_product.mpr ⟨Finset.mem_range.mpr ho, Finset.mem_range.mpr hi⟩
    cases hr : objectRetain s.objects object with
    | none => exact h
    | some t =>
      obtain ⟨hac, hlive, rfl⟩ := objectRetain_some hr
      simp only
      refine ⟨h.slots.update rfl hkey hlin (h.slots.generation _),
        h.references.retained hac rfl rfl fun other => ?_,
        h.callbacks.update rfl (iff_of_true (Nat.succ_pos _) hlive) (fun _ => rfl) rfl rfl rfl rfl⟩
      have hcount := handlesTo_update s.handle hkey { s.handle (owner, index) with
        object := some object
        rights := rights
        lineage := lineage } other
      simp only [hfr, reduceCtorEq, if_false, Option.some_inj, eq_comm (a := object)] at hcount
      change handlesTo (Function.update s.handle (owner, index) _) other + s.held other = _
      omega

theorem nextGeneration_eq (closed : ℕ) :
    nextGeneration (1 + closed % (2 ^ 24 - 1)) = 1 + (closed + 1) % (2 ^ 24 - 1) := by
  unfold nextGeneration
  simp only [Nat.reducePow, Nat.reduceSub]
  split <;> omega

theorem Sound.closeSlot (h : Sound s) {object : ℕ}
    (ho : (s.handle key).object = some object) : Sound (closeSlot s key object) := by
  have hkey := h.slots.mem key object ho
  refine ⟨h.slots.update rfl hkey (fun _ hr => absurd hr not_mem_nil) ?_,
    ⟨fun hh other => ?_, h.references.idle, h.references.bound⟩,
    h.callbacks.congr (fun _ => Iff.rfl) (fun _ _ => rfl) rfl rfl rfl rfl⟩
  · simp only [h.slots.generation, nextGeneration_eq]
  · have hcount := handlesTo_update s.handle hkey
      ⟨none, 0, nextGeneration (s.handle key).generation, (s.handle key).closed + 1, []⟩ other
    simp only [ho, reduceCtorEq, if_false, Option.some_inj, eq_comm (a := object)] at hcount
    have hre := h.references.counts hh other
    change (s.objects other).references = handlesTo (Function.update s.handle key _) other +
      (s.take object).held other
    rw [take_held]
    omega

end References

section Create

variable {s : System} {object : ℕ} {type value : ℕ} {destroy : Bool}

/-- The state behind the creation of an object in a free slot. -/
def System.created (s : System) (object type value : ℕ) (destroy : Bool) : System :=
  { s.take object with
    objects := Function.update s.objects object ⟨type, 1, value, destroy, true⟩
    serial := Function.update s.serial object s.nextSerial
    hasCallback := Function.update s.hasCallback s.nextSerial destroy
    nextSerial := s.nextSerial + 1 }

theorem CallbacksSound.created (h : CallbacksSound s) (hfr : (s.objects object).references = 0) :
    CallbacksSound (s.created object type value destroy) := by
  set s' := s.created object type value destroy
  have hsel : s'.objects object = ⟨type, 1, value, destroy, true⟩ := update_self ..
  have hot : ∀ other, other ≠ object → s'.objects other = s.objects other :=
    fun other hne => update_of_ne hne _ _
  have hnumber : s'.serial object = s.nextSerial := update_self ..
  have hnumbers : ∀ other, other ≠ object → s'.serial other = s.serial other :=
    fun other hne => update_of_ne hne _ _
  have hc : ∀ n, n ≠ s.nextSerial → s'.hasCallback n = s.hasCallback n :=
    fun n hne => update_of_ne hne _ _
  have hfl : s'.hasCallback s.nextSerial = destroy := update_self ..
  have hold : ∀ other, Live s other → other ≠ object := by
    rintro other hlive rfl
    rw [Live, hfr] at hlive
    exact absurd hlive (lt_irrefl 0)
  have hlives : ∀ other, other ≠ object → (Live s' other ↔ Live s other) := by
    intro other hne
    rw [Live, hot other hne]
    rfl
  have hlive : Live s' object := by
    rw [Live, hsel]
    exact Nat.one_pos
  have hende : ∀ n, Ended s' n ↔ Ended s n := by
    intro n
    by_cases hn : n = s.nextSerial
    · refine iff_of_false (fun hend => ?_) fun hend => ?_
      · exact hend.2.2 ⟨object, hlive, hnumber.trans hn.symm⟩
      · have hlt := hend.1
        omega
    · unfold Ended
      have hlt : n < s'.nextSerial ↔ n < s.nextSerial := by
        change n < s.nextSerial + 1 ↔ _
        omega
      rw [hlt, hc n hn]
      refine and_congr_right fun _ => and_congr_right fun _ => not_congr ⟨?_, ?_⟩
      · rintro ⟨other, hon, hser⟩
        have hne : other ≠ object := by
          rintro rfl
          exact hn (hser.symm.trans hnumber)
        rw [hnumbers other hne] at hser
        exact ⟨other, (hlives other hne).mp hon, hser⟩
      · rintro ⟨other, hon, hser⟩
        have hne := hold other hon
        exact ⟨other, (hlives other hne).mpr hon, (hnumbers other hne).trans hser⟩
  refine ⟨fun other hon => ?_, fun other other' hon hon' hser => ?_, fun other hon => ?_,
    fun n hn => h.once n ((hende n).mp hn), fun n hn => h.never n fun hold =>
      hn ((hende n).mpr hold)⟩
  · change _ < s.nextSerial + 1
    by_cases hne : other = object
    · rw [hne, hnumber]
      omega
    · rw [hnumbers other hne]
      have hlt := h.serial_lt other ((hlives other hne).mp hon)
      omega
  · -- The number of the new object is not yet given.
    have hnew : ∀ x, x ≠ object → Live s' x → s'.serial x ≠ s.nextSerial := by
      intro x hx hlivex
      rw [hnumbers x hx]
      exact (h.serial_lt x ((hlives x hx).mp hlivex)).ne
    by_cases hne : other = object
    · by_cases hne' : other' = object
      · rw [hne, hne']
      · rw [hne, hnumber] at hser
        exact absurd hser.symm (hnew other' hne' hon')
    · by_cases hne' : other' = object
      · rw [hne', hnumber] at hser
        exact absurd hser (hnew other hne hon)
      · rw [hnumbers other hne, hnumbers other' hne'] at hser
        exact h.serial_inj other other' ((hlives other hne).mp hon) ((hlives other' hne').mp hon')
          hser
  · by_cases hne : other = object
    · rw [hne, hsel, hnumber, hfl]
    · have hlivex := (hlives other hne).mp hon
      rw [hot other hne, hnumbers other hne, hc _ (h.serial_lt other hlivex).ne]
      exact h.callback other hlivex

theorem Sound.create (h : Sound s) (type value : ℕ) (destroy : Bool) :
    Sound (create s type value destroy).1 := by
  unfold Handles.create
  cases hcr : objectCreate s.objects type value destroy with
  | none => exact h
  | some created =>
    obtain ⟨t, object⟩ := created
    obtain ⟨-, hb, hi, rfl⟩ := objectCreate_some hcr
    have hf := h.references.idle object hi
    refine ⟨⟨h.slots.mem, h.slots.lineage, h.slots.generation⟩, ?_, h.callbacks.created hf⟩
    refine h.references.update rfl (fun hoff => absurd hoff Bool.false_ne_true.symm)
      (fun _ => hb) id (fun _ hcount => ?_) fun other hne => ?_
    · change 1 = handlesTo s.handle object + (s.take object).held object
      rw [take_held, if_pos rfl]
      omega
    · change handlesTo s.handle other + (s.take object).held other = _
      rw [take_held, if_neg hne]
      rfl

end Create

section Calls

variable {s : System}

theorem handleSlotFor_some {live : ℕ → Bool} {owner handle : ℕ}
    (h : handleSlotFor s live owner handle = some key) :
    owner < taskMax ∧ key = (owner, handle % 256 - 1) ∧ (s.handle key).object ≠ none ∧
      (s.handle key).generation = handle / 256 := by
  unfold handleSlotFor at h
  simp only at h
  split at h
  · cases h
  · next hg =>
    split at h
    · cases h
    · next hs =>
      cases h
      simp only [not_or, not_not] at hg hs
      exact ⟨hg.1.1, rfl, hs.1, hs.2⟩

theorem rights_trans {a b c : Rights} (h : a &&& ~~~b = 0) (h' : b &&& ~~~c = 0) :
    a &&& ~~~c = 0 := by
  refine BitVec.eq_of_getLsbD_eq fun i hi => ?_
  have hab := congrArg (fun x => BitVec.getLsbD x i) h
  have hbc := congrArg (fun x => BitVec.getLsbD x i) h'
  simp only [BitVec.getLsbD_and, BitVec.getLsbD_not, hi, decide_true, Bool.true_and] at hab hbc ⊢
  cases ha : a.getLsbD i <;> cases hb : b.getLsbD i <;> simp_all

/-- The calls that open a handle. -/
def Call.Opens : Call → Prop
  | .openHandle .. | .duplicate .. => True
  | _ => False

/-- One step of a call on the objects and the handle table. -/
inductive Step (call : Call) : System → System → Prop
  | create {s : System} (type value : ℕ) (destroy : Bool) :
    Step call s (create s type value destroy).1
  | retain {s : System} (object : ℕ) : Step call s (retain s object).1
  | release {s : System} (callback : Callback) (object : ℕ) :
    Step call s (release s callback object)
  | close {s : System} {key : ℕ × ℕ} {object : ℕ} (hcall : ¬ call.Opens)
    (hopen : (s.handle key).object = some object) : Step call s (closeSlot s key object)
  | opened {s : System} {live : ℕ → Bool} {owner object : ℕ} {rights : Rights}
    (howner : owner < taskMax) (hcall : call = .openHandle live owner object rights) :
    Step call s (handleOpenLocked s owner object rights []).1
  | copied {s : System} {key : ℕ × ℕ} {live : ℕ → Bool} {source target handle object : ℕ}
    {rights : Rights} (howner : target < taskMax)
    (hcall : call = .duplicate live source target handle rights)
    (hopen : (s.handle key).object = some object)
    (htransfer : (s.handle key).rights &&& krightTransfer ≠ 0)
    (hwithin : rights &&& ~~~(s.handle key).rights = 0) :
    Step call s (handleOpenLocked s target object rights
      ((s.handle key).rights :: (s.handle key).lineage)).1

abbrev Steps (call : Call) := Relation.ReflTransGen (Step call)

variable {s' : System} {call : Call}

theorem steps_foldl {α : Type} {f : System → α → System} (hf : ∀ s x, Steps call s (f s x))
    (l : List α) (s : System) : Steps call s (l.foldl f s) := by
  induction l generalizing s with
  | nil => exact .refl
  | cons x l ih => exact (hf s x).trans (ih _)

theorem steps_handleClose (hc : ¬ call.Opens) (callback : Callback) (live : ℕ → Bool)
    (owner handle : ℕ) : Steps call s (handleClose s callback live owner handle).1 := by
  unfold handleClose
  split
  · exact .refl
  · split
    · exact .refl
    · next ho => exact .tail (.single (.close hc ho)) (.release callback _)

theorem steps_revokeLoop (hc : ¬ call.Opens) (callback : Callback) (object passes revoked : ℕ) :
    Steps call s (revokeLoop callback object passes s revoked).1 := by
  induction passes generalizing s revoked with
  | zero => exact .refl
  | succ passes ih =>
    unfold revokeLoop
    split
    · exact .refl
    · next key hfi =>
      have hfo := find?_some hfi
      exact .head (.close hc (of_decide_eq_true hfo))
        (.head (.release callback object) (ih _))

theorem Call.apply_steps (call : Call) (s : System) : Steps call s (call.apply s) := by
  cases call with
  | create type value destroy => exact .single (.create type value destroy)
  | retain object => exact .single (.retain object)
  | release object callback => exact .single (.release callback object)
  | openHandle live owner object rights =>
    rw [Call.apply, handleOpen]
    split
    · exact .refl
    · next hg =>
      simp only [not_or, not_not] at hg
      exact .single (.opened hg.1.1 rfl)
  | close live owner handle callback => exact steps_handleClose id callback live owner handle
  | duplicate live source target handle rights =>
    rw [Call.apply, handleDuplicate]
    split
    · exact .refl
    next how =>
    rw [not_not] at how
    split
    · exact .refl
    simp only
    split
    · exact .refl
    next hop =>
    split
    · exact .refl
    next hg =>
    simp only [not_or, not_not] at hg
    exact .single (.copied how.1 rfl hop hg.1 hg.2.2)
  | revoke object descriptors callback =>
    rw [Call.apply, handleRevokeObject]
    split
    · exact .refl
    · exact (steps_foldl (fun _ file => .single (.release callback file)) descriptors s).trans
        (steps_revokeLoop id callback object _ 0)
  | closeAll live owner callback =>
    rw [Call.apply, handleCloseAll]
    split
    · exact .refl
    refine steps_foldl (fun s index => ?_) _ s
    split
    · exact .refl
    · exact steps_handleClose id callback live owner _

theorem Sound.step (h : Sound s) (hst : Step call s s') : Sound s' := by
  cases hst with
  | create type value destroy => exact h.create type value destroy
  | retain object => exact h.retain object
  | release callback object => exact h.release callback object
  | close _ hop => exact h.closeSlot hop
  | opened how => exact h.opened how _ _ fun _ hr => absurd hr not_mem_nil
  | @copied key _ _ _ _ _ _ how _ _ ht hw =>
    refine h.opened how _ _ fun r hr => ?_
    rcases mem_cons.mp hr with rfl | hr
    · exact ⟨hw, ht⟩
    · obtain ⟨hsl, ht'⟩ := h.slots.lineage key r hr
      exact ⟨rights_trans hw hsl, ht'⟩

theorem Sound.run (h : Sound s) (calls : List Call) : Sound (run s calls) :=
  foldlRecOn calls _ h fun s hs call _ =>
    (call.apply_steps s).rec hs fun _ hst ih => ih.step hst

/-- The object may get another handle. -/
def Openable (call : Call) (s : System) (object : ℕ) : Prop :=
  (∃ live owner rights, call = .openHandle live owner object rights) ∨
    ∃ key, (s.handle key).object = some object

theorem handleOpenLocked_handle (s : System) (owner object : ℕ) (rights : Rights)
    (lineage : List Rights) :
    (handleOpenLocked s owner object rights lineage).1.handle = s.handle ∨ ∃ key,
      (handleOpenLocked s owner object rights lineage).1.handle = update s.handle key
        { s.handle key with object := some object, rights := rights, lineage := lineage } := by
  unfold handleOpenLocked
  split
  · exact .inl rfl
  split
  · exact .inl rfl
  · exact .inr ⟨_, rfl⟩

/-- A step changes one slot at most: it closes an open handle, or opens one for a call that does
so. -/
theorem Step.handle (hs : Step call s s') : s'.handle = s.handle ∨ ∃ key slot,
    s'.handle = update s.handle key slot ∧
    (¬ call.Opens ∧ (s.handle key).object ≠ none ∧ slot.closed = (s.handle key).closed + 1 ∧
        slot.object = none ∨ call.Opens ∧ slot.closed = (s.handle key).closed) ∧
    ∀ object, slot.object = some object → Openable call s object := by
  cases hs with
  | create type value destroy =>
    unfold Handles.create
    split <;> exact .inl rfl
  | retain object =>
    unfold Handles.retain
    split <;> exact .inl rfl
  | release callback object => exact .inl (objectRelease_handle callback levels s object)
  | close hc hop =>
    exact .inr ⟨_, _, rfl, .inl ⟨hc, Option.ne_none_iff_exists'.mpr ⟨_, hop⟩, rfl, rfl⟩, nofun⟩
  | opened _ hc =>
    refine (handleOpenLocked_handle s _ _ _ _).imp_right fun ⟨key, heq⟩ => ?_
    exact ⟨key, _, heq, .inr ⟨hc ▸ trivial, rfl⟩, fun _ ho =>
      Option.some.inj ho ▸ .inl ⟨_, _, _, hc⟩⟩
  | copied _ hc hop =>
    refine (handleOpenLocked_handle s _ _ _ _).imp_right fun ⟨key, heq⟩ => ?_
    exact ⟨key, _, heq, .inr ⟨hc ▸ trivial, rfl⟩, fun _ ho =>
      Option.some.inj ho ▸ .inr ⟨_, hop⟩⟩

end Calls

theorem mem_handleKeys (key : ℕ × ℕ) : key ∈ handleKeys ↔ key ∈ keys := by
  simp only [handleKeys, keys, mem_flatMap, mem_map, mem_range,
    Finset.mem_product, Finset.mem_range]
  constructor
  · rintro ⟨owner, ho, index, hi, rfl⟩
    exact ⟨ho, hi⟩
  · rintro ⟨ho, hi⟩
    exact ⟨key.1, ho, key.2, hi, rfl⟩

theorem revokeLoop_complete (h : Sound s) (callback : Callback) {passes : ℕ}
    (hp : handlesTo s.handle object < passes) (revoked : ℕ) (key : ℕ × ℕ) :
    ((revokeLoop callback object passes s revoked).1.handle key).object ≠ some object := by
  induction passes generalizing s revoked with
  | zero => exact absurd hp (Nat.not_lt_zero _)
  | succ passes ih =>
    unfold revokeLoop
    split
    · next hfi =>
      intro ho
      have hkey := (mem_handleKeys key).mpr (h.slots.mem key object ho)
      exact find?_eq_none.mp hfi key hkey (decide_eq_true ho)
    · next found hfi =>
      have hfo := find?_some hfi
      have ho : (s.handle found).object = some object := of_decide_eq_true hfo
      have hcount := handlesTo_update s.handle (h.slots.mem found object ho)
        ⟨none, 0, nextGeneration (s.handle found).generation, (s.handle found).closed + 1, []⟩
        object
      simp only [ho, if_true, reduceCtorEq, if_false] at hcount
      refine ih ((h.closeSlot ho).release callback object) ?_ _
      rw [release, objectRelease_handle]
      change handlesTo (Function.update s.handle found _) object < passes
      omega

theorem handleRevokeObject_complete (h : Sound s) (callback : Callback)
    (hac : (s.objects object).active = true) (descriptors : List ℕ) (key : ℕ × ℕ) :
    ((handleRevokeObject s callback object descriptors).1.handle key).object ≠ some object := by
  have hf : Sound (descriptors.foldl (fun s file => release s callback file) s) :=
    foldlRecOn descriptors _ h fun _ hs file _ => hs.release callback file
  rw [handleRevokeObject, if_neg (by rw [hac]; decide)]
  refine revokeLoop_complete hf callback ?_ 0 key
  have hc : keys.card = taskMax * handleMax := by simp [keys]
  exact Nat.lt_succ_of_le ((Finset.card_filter_le _ _).trans hc.le)

/-- No handle refers to the object. -/
def Unhandled (object : ℕ) (s : System) : Prop := ∀ key, (s.handle key).object ≠ some object

theorem Unhandled.step {s' : System} {call : Call} (h : Unhandled object s)
    (hc : ∀ live owner rights, call ≠ .openHandle live owner object rights)
    (hst : Step call s s') : Unhandled object s' := by
  intro other hot
  rcases hst.handle with heq | ⟨key, slot, heq, -, hsl⟩
  · exact h other (heq ▸ hot)
  rw [heq, update_apply] at hot
  split at hot
  · rcases hsl object hot with ⟨live, owner, rights, hop⟩ | ⟨key, hop⟩
    · exact hc live owner rights hop
    · exact h key hop
  · exact h other hot

theorem Unhandled.run (h : Unhandled object s) {calls : List Call}
    (hc : ∀ live owner rights, Call.openHandle live owner object rights ∉ calls) :
    Unhandled object (run s calls) := by
  refine foldlRecOn calls _ h fun s hs call hmem => ?_
  exact (call.apply_steps s).rec hs fun _ hst ih =>
    ih.step (fun live owner rights heq => hc live owner rights (heq ▸ hmem)) hst

section Closings

variable {call : Call} {owner handle : ℕ}

/-- A call leaves a slot open or closed as it is, opens it, or closes it once. -/
theorem Call.apply_slot (call : Call) (s : System) (key : ℕ × ℕ) :
    ((call.apply s).handle key).closed = (s.handle key).closed ∧
        (call.Opens ∨ ((call.apply s).handle key).object = (s.handle key).object) ∨
      ¬ call.Opens ∧ ((call.apply s).handle key).closed = (s.handle key).closed + 1 ∧
        ((call.apply s).handle key).object = none := by
  have hsteps := call.apply_steps s
  generalize call.apply s = s' at hsteps ⊢
  induction hsteps with
  | refl => exact .inl ⟨rfl, .inr rfl⟩
  | tail _ hstep ih =>
    rcases hstep.handle with heq | ⟨changed, slot, heq, hsl, -⟩
    · rwa [heq]
    rw [heq, update_apply]
    split
    · next hkey =>
      subst hkey
      rcases hsl with ⟨hca, ho, hcl, hn⟩ | ⟨hca, hcl⟩
      · have hsa := ih.resolve_right fun h => ho h.2.2
        exact .inr ⟨hca, by rw [hcl, hsa.1], hn⟩
      · have hsa := ih.resolve_right fun h => h.1 hca
        exact .inl ⟨hcl.trans hsa.1, .inl hca⟩
    · exact ih

/-- The call closes the value: `handle_close` on it with success, or `handle_revoke_object` on
the object that it names. -/
def Closes (s : System) (owner handle : ℕ) : Call → Prop
  | .close live owner' handle' callback => owner' = owner ∧ handle' = handle ∧
    (handleClose s callback live owner handle).2 = 0
  | .revoke object _ _ =>
    ∃ live, handleGet s live owner handle 0 Objects.kobjectNone = some object
  | _ => False

/-- The slot of a handle value. -/
def slotOf (owner handle : ℕ) : ℕ × ℕ := (owner, handle % 256 - 1)

/-- A call that closes a value ends with the slot closed once more. -/
theorem Closes.closed (h : Sound s)
    (hac : ∀ key object, (s.handle key).object = some object → (s.objects object).active = true)
    (hcloses : Closes s owner handle call) :
    ((call.apply s).handle (slotOf owner handle)).closed =
        (s.handle (slotOf owner handle)).closed + 1 ∧
      (s.handle (slotOf owner handle)).generation = handle / 256 := by
  suffices hgo : ¬ call.Opens ∧ (s.handle (slotOf owner handle)).generation = handle / 256 ∧
      ((call.apply s).handle (slotOf owner handle)).object ≠
        (s.handle (slotOf owner handle)).object by
    obtain ⟨hopens, hgen, hgo⟩ := hgo
    rcases call.apply_slot s (slotOf owner handle) with ⟨-, hs⟩ | ⟨-, hclosed, -⟩
    · exact absurd (hs.resolve_left hopens) hgo
    · exact ⟨hclosed, hgen⟩
  cases call with
  | close live owner' handle' callback =>
    obtain ⟨rfl, rfl, hans⟩ := hcloses
    rw [Call.apply]
    unfold handleClose at hans ⊢
    split at hans
    · cases hans
    next key hkey =>
    obtain ⟨-, rfl, hopen, hgen⟩ := handleSlotFor_some hkey
    obtain ⟨object, hob⟩ := Option.ne_none_iff_exists'.mp hopen
    refine ⟨id, hgen, ?_⟩
    simp only [hob]
    rw [release, objectRelease_handle, slotOf, hob]
    simp [closeSlot]
  | revoke object descriptors callback =>
    obtain ⟨live, hget⟩ := hcloses
    simp only [handleGet, Option.bind_eq_bind, Option.bind_eq_some_iff] at hget
    obtain ⟨key, hkey, object', hob, hgu⟩ := hget
    obtain ⟨-, rfl, -, hgen⟩ := handleSlotFor_some hkey
    split at hgu
    · cases hgu
    cases hgu
    refine ⟨id, hgen, ?_⟩
    rw [slotOf, hob]
    exact handleRevokeObject_complete h callback (hac _ _ hob) descriptors _
  | _ => exact hcloses.elim

end Closings

theorem sound_initial : Sound System.initial where
  slots := by
    refine ⟨fun _ _ hob => ?_, fun _ _ hr => absurd hr not_mem_nil, fun _ => rfl⟩
    cases hob
  references := by
    refine ⟨fun _ object => ?_, fun _ _ => rfl, fun _ hon => absurd hon Bool.false_ne_true⟩
    have hno : handlesTo System.initial.handle object = 0 := by
      rw [handlesTo, Finset.card_eq_zero, Finset.filter_eq_empty_iff]
      intro _ _ hob
      cases hob
    rw [hno]
    rfl
  callbacks := by
    have hd : ∀ object, ¬ Live System.initial object := fun _ => lt_irrefl 0
    exact ⟨fun _ hon => absurd hon (hd _), fun _ _ hon => absurd hon (hd _),
      fun _ hon => absurd hon (hd _), fun n hn => absurd hn.1 (Nat.not_lt_zero n),
      fun _ _ => rfl⟩

/-- The tables and the record of a run: the references are those of the handles and of the
kernel callers, and an open handle refers to an active object; along duplications rights shrink
and each source had the right to transfer; a closed or revoked value that is found again has a
slot that went through all nonzero generations; and the callback of an object has run once if
its last reference is gone, and not before. -/
structure Integrity (s : System) : Prop where
  references : ∀ object,
    (s.objects object).references = handlesTo s.handle object + s.held object
  active : ∀ key object, (s.handle key).object = some object →
    (s.objects object).active = true ∧ handlesTo s.handle object ≤ (s.objects object).references
  rights : ∀ key, ∀ rights ∈ (s.handle key).lineage,
    (s.handle key).rights &&& ~~~rights = 0 ∧ rights &&& krightTransfer ≠ 0
  values : ∀ owner handle call more live, Closes s owner handle call →
    handleSlotFor (run (call.apply s) more) live owner handle ≠ none →
    ∀ g, 0 < g → g < 2 ^ 24 →
      ∃ i, ((run (call.apply s) (more.take i)).handle (slotOf owner handle)).generation = g
  callbacks : ∀ n, n < s.nextSerial → s.hasCallback n = true →
    (∃ object, 0 < handlesTo s.handle object + s.held object ∧ s.serial object = n) ∧
        s.destroyed.count n = 0 ∨
      (¬ ∃ object, 0 < handlesTo s.handle object + s.held object ∧ s.serial object = n) ∧
        s.destroyed.count n = 1

/-- One task opens a handle to a new object, another is given a duplicate, and the first is
closed. -/
def shareRun : List Call :=
  [.create 8 0 true, .openHandle (fun _ => true) 1 0 krightAll,
    .duplicate (fun _ => true) 1 2 257 1, .close (fun _ => true) 1 257 (fun _ _ => []),
    .release 0 fun _ _ => []]

/-- After `handle_revoke_object` no task gets the object through any handle value, whatever
calls follow, until a handle to it is opened. -/
theorem revoked_until_opened (calls more : List Call) (object : ℕ) (descriptors : List ℕ)
    (callback : Callback) (hactive : ((run System.initial calls).objects object).active = true)
    (hmore : ∀ live owner rights, Call.openHandle live owner object rights ∉ more)
    (live : ℕ → Bool) (owner handle : ℕ) (rights : Rights) (type : ℕ) :
    handleGet (run System.initial (calls ++ .revoke object descriptors callback :: more)) live
      owner handle rights type ≠ some object := by
  have hr : Unhandled object
      (handleRevokeObject (run System.initial calls) callback object descriptors).1 :=
    handleRevokeObject_complete (sound_initial.run calls) callback hactive descriptors
  have hu := hr.run hmore
  intro hget
  rw [run, foldl_append] at hget
  simp only [handleGet, Option.bind_eq_bind, Option.bind_eq_some_iff] at hget
  obtain ⟨key, -, o, ho, hgu⟩ := hget
  split at hgu
  · cases hgu
  · cases hgu
    exact hu key ho

/-- The object of the run above is given up by all its holders. Its handle is then duplicated
in vain, and its slot taken by a handle to a new object. -/
theorem revoked_until_opened_shared :
    handleGet (run System.initial (shareRun.take 3 ++ .revoke 0 [] (fun _ _ => []) ::
      [.duplicate (fun _ => true) 2 3 257 1, .create 8 1 true,
        .openHandle (fun _ => true) 2 1 krightAll])) (fun _ => true) 2 513 1 0 ≠ some 0 := by
  have hac : ((run System.initial (shareRun.take 3)).objects 0).active = true := by
    decide +kernel
  exact revoked_until_opened (shareRun.take 3) _ 0 [] _ hac (by simp) _ 2 513 1 0

end MichCore.Handles
