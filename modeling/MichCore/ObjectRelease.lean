import MichCore.Handles

/-!
# The release of an object

A release is a chain of single steps, those of the releases in callbacks included. What each
step keeps, the whole release keeps (`objectRelease_rule`). Each level of callbacks takes the
last reference of one more object, so the levels of the model suffice
(`release_nesting_bounded`).
-/
namespace MichCore.Handles

open Function Finset
open Objects (KObject dropReference finishRelease objectMax taskMax dropReference_cases)

theorem card_filter_update {κ α : Type*} [DecidableEq κ] (K : Finset κ) (f : κ → α) {key : κ}
    (hkey : key ∈ K) (v : α) (P : α → Prop) [DecidablePred P] :
    (K.filter fun k => P (update f key v k)).card + (if P (f key) then 1 else 0) =
      (K.filter fun k => P (f k)).card + if P v then 1 else 0 := by
  have hr : ∑ k ∈ K.erase key, (if P (update f key v k) then 1 else 0) =
      ∑ k ∈ K.erase key, if P (f k) then 1 else 0 := by
    refine sum_congr rfl fun k hk => ?_
    rw [update_of_ne (ne_of_mem_erase hk)]
  rw [card_filter, card_filter, ← add_sum_erase K _ hkey,
    ← add_sum_erase K (fun k => if P (f k) then 1 else 0) hkey, hr, update_self]
  omega

def keys : Finset (ℕ × ℕ) := Finset.range taskMax ×ˢ Finset.range handleMax

/-- The open handles to an object. -/
def handlesTo (handle : ℕ × ℕ → HandleSlot) (object : ℕ) : ℕ :=
  (keys.filter fun key => (handle key).object = some object).card

theorem handlesTo_update (handle : ℕ × ℕ → HandleSlot) {key : ℕ × ℕ} (hkey : key ∈ keys)
    (slot : HandleSlot) (object : ℕ) :
    handlesTo (update handle key slot) object +
        (if (handle key).object = some object then 1 else 0) =
      handlesTo handle object + if slot.object = some object then 1 else 0 :=
  card_filter_update keys handle hkey slot fun slot => slot.object = some object

/-- The last reference goes, and the callback is called. -/
def System.dying (s : System) (object : ℕ) : System :=
  { s.giveUp object with
    objects := update s.objects object
      { s.objects object with references := 0, destroy := false }
    destroyed :=
      if (s.objects object).destroy = true then s.destroyed ++ [s.serial object]
      else s.destroyed }

/-- Another reference goes. -/
def System.dropped (s : System) (object : ℕ) : System :=
  { s.giveUp object with
    objects := update s.objects object
      { s.objects object with references := (s.objects object).references - 1 } }

def System.finished (s : System) (object : ℕ) : System :=
  { s with objects := finishRelease s.objects object }

/-- The objects that the callback releases, if there is one. -/
def System.releases (s : System) (callback : Callback) (object : ℕ) : List ℕ :=
  if (s.objects object).destroy = true then callback (s.dying object) object else []

variable (callback : Callback) {s : System}

theorem objectRelease_succ (level : ℕ) (s : System) (object : ℕ) :
    objectRelease callback (level + 1) s object =
      if (s.objects object).active = false ∨ (s.objects object).references = 0 then
        s.giveUp object
      else if 1 < (s.objects object).references then s.dropped object
      else
        ((s.releases callback object).foldl (objectRelease callback level)
          (s.dying object)).finished object := by
  have hob : (s.giveUp object).objects = s.objects := rfl
  rcases dropReference_cases s.objects object with ⟨hi, hdr⟩ | ⟨hac, hm, hdr⟩ |
    ⟨hac, hone, hdr⟩
  · simp only [objectRelease, hob, hdr, if_pos hi]
    rfl
  · have hf : ¬ ((s.objects object).active = false ∨ (s.objects object).references = 0) := by
      simp only [hac, Bool.true_eq_false, false_or]
      omega
    simp only [objectRelease, hob, hdr, if_neg hf, if_pos hm]
    rfl
  · have hf : ¬ ((s.objects object).active = false ∨ (s.objects object).references = 0) := by
      simp only [hac, Bool.true_eq_false, false_or]
      omega
    have hn : ¬ 1 < (s.objects object).references := by omega
    simp only [objectRelease, hob, hdr, if_neg hf, if_neg hn, System.releases]
    by_cases hde : (s.objects object).destroy = true
    · rw [if_pos hde, if_pos hde, System.dying, if_pos hde]
      rfl
    · rw [if_neg hde, if_neg hde, System.dying, if_neg hde]
      rfl

/-- What every step of a release keeps, the release keeps. No step gives an object a reference. -/
theorem objectRelease_rule {R : System → System → Prop} (href : ∀ s, R s s)
    (ht : ∀ s s' s'', R s s' → R s' s'' → R s s'')
    (hi : ∀ s object, (s.objects object).active = false ∨
      (s.objects object).references = 0 → R s (s.giveUp object))
    (hdr : ∀ s object, (s.objects object).active = true →
      1 < (s.objects object).references → R s (s.dropped object))
    (hdy : ∀ s object, (s.objects object).active = true →
      (s.objects object).references = 1 → R s (s.dying object))
    (hfin : ∀ s object, (s.objects object).references = 0 → R s (s.finished object))
    (callback : Callback) (level : ℕ) (s : System) (object : ℕ) :
    R s (objectRelease callback level s object) ∧ ∀ other,
      ((objectRelease callback level s object).objects other).references ≤
        (s.objects other).references := by
  induction level generalizing s object with
  | zero => exact ⟨href s, fun _ => le_rfl⟩
  | succ level ih =>
    rw [objectRelease_succ]
    split
    · next hcas =>
      exact ⟨hi s object hcas, fun _ => le_rfl⟩
    next hcas =>
    obtain ⟨hac, hs⟩ := not_or.mp hcas
    rw [Bool.not_eq_false] at hac
    by_cases hm : 1 < (s.objects object).references
    · rw [if_pos hm]
      refine ⟨hdr s object hac hm, fun other => ?_⟩
      by_cases hot : other = object
      · subst hot
        simp [System.dropped]
      · simp [System.dropped, update_of_ne hot]
    · -- The releases of the callback are a chain of releases one level down.
      have hch : ∀ (objects : List ℕ) (r : System),
          R r (objects.foldl (objectRelease callback level) r) ∧ ∀ other,
            ((objects.foldl (objectRelease callback level) r).objects other).references ≤
              (r.objects other).references := by
        intro objects
        induction objects with
        | nil => exact fun r => ⟨href r, fun _ => le_rfl⟩
        | cons first objects ihObjects =>
          intro r
          obtain ⟨hfir, hle⟩ := ih r first
          obtain ⟨hres, hle'⟩ := ihObjects (objectRelease callback level r first)
          exact ⟨ht _ _ _ hfir hres, fun other => (hle' other).trans (hle other)⟩
      have hone : (s.objects object).references = 1 := by omega
      rw [if_neg hm]
      generalize s.releases callback object = objects
      obtain ⟨hcal, hle⟩ := hch objects (s.dying object)
      have hde : ((s.dying object).objects object).references = 0 := by simp [System.dying]
      have hleD : ∀ other,
          ((s.dying object).objects other).references ≤ (s.objects other).references := by
        intro other
        by_cases hot : other = object
        · subst hot
          rw [hde]
          exact Nat.zero_le _
        · simp [System.dying, update_of_ne hot]
      have hz := Nat.le_zero.mp ((hle object).trans hde.le)
      refine ⟨ht _ _ _ (ht _ _ _ (hdy s object hac hone) hcal)
        (hfin _ object hz), fun other => ?_⟩
      refine le_trans ?_ ((hle other).trans (hleD other))
      by_cases hot : other = object
      · subst hot
        simp [System.finished, finishRelease]
      · simp [System.finished, finishRelease, update_of_ne hot]

theorem objectRelease_references (level : ℕ) (s : System) (object other : ℕ) :
    ((objectRelease callback level s object).objects other).references ≤
      (s.objects other).references :=
  (objectRelease_rule (R := fun _ _ => True) (fun _ => trivial) (fun _ _ _ _ _ => trivial)
    (fun _ _ _ => trivial) (fun _ _ _ _ => trivial) (fun _ _ _ _ => trivial)
    (fun _ _ _ => trivial) callback level s object).2 other

theorem objectRelease_handle (level : ℕ) (s : System) (object : ℕ) :
    (objectRelease callback level s object).handle = s.handle :=
  (objectRelease_rule (R := fun s s' => s'.handle = s.handle) (fun _ => rfl)
    (fun _ _ _ h h' => h'.trans h) (fun _ _ _ => rfl) (fun _ _ _ _ => rfl) (fun _ _ _ _ => rfl)
    (fun _ _ _ => rfl) callback level s object).1

/-- The objects with references. -/
def liveCount (s : System) : ℕ :=
  ((Finset.range objectMax).filter fun object => 0 < (s.objects object).references).card

def InTable (s : System) : Prop := ∀ object, (s.objects object).active = true → object < objectMax

theorem InTable.of_update {s s' : System} {object : ℕ} {o : KObject} (h : InTable s)
    (hob : s'.objects = update s.objects object o)
    (ho : o.active = true → (s.objects object).active = true) : InTable s' := by
  intro other ha
  rw [hob] at ha
  by_cases hne : other = object
  · subst hne
    rw [update_self] at ha
    exact h other (ho ha)
  · rw [update_of_ne hne] at ha
    exact h other ha

theorem objectRelease_inTable (h : InTable s) (callback : Callback) (level : ℕ)
    (object : ℕ) : InTable (objectRelease callback level s object) :=
  (objectRelease_rule (R := fun s s' => InTable s → InTable s') (fun _ => id)
    (fun _ _ _ h h' hs => h' (h hs)) (fun _ _ _ => id)
    (fun _ object ha _ hs => @InTable.of_update _ _ object _ hs rfl fun _ => ha)
    (fun _ object ha _ hs => @InTable.of_update _ _ object _ hs rfl fun _ => ha)
    (fun _ object _ hs =>
      @InTable.of_update _ _ object _ hs rfl fun h => absurd h Bool.false_ne_true)
    callback level s object).1 h

theorem liveCount_mono {s s' : System}
    (h : ∀ object, (s'.objects object).references ≤ (s.objects object).references) :
    liveCount s' ≤ liveCount s := by
  refine card_le_card fun object ho => ?_
  rw [mem_filter] at ho ⊢
  exact ⟨ho.1, ho.2.trans_le (h object)⟩

theorem liveCount_dying {object : ℕ} (hb : object < objectMax)
    (hone : (s.objects object).references = 1) : liveCount (s.dying object) + 1 = liveCount s := by
  have hcount := card_filter_update (Finset.range objectMax) s.objects
    (mem_range.mpr hb) { s.objects object with references := 0, destroy := false }
    fun o => 0 < o.references
  simp only [hone, Nat.one_pos, if_true, lt_irrefl, if_false] at hcount
  exact hcount

/-- Each level of callbacks takes the last reference of one more object, so more levels than
there are objects with references change nothing. -/
theorem objectRelease_fuel {level : ℕ} (h : InTable s) (hlev : liveCount s < level) (object : ℕ) :
    objectRelease callback (level + 1) s object = objectRelease callback level s object := by
  induction level generalizing s object with
  | zero => exact absurd hlev (Nat.not_lt_zero _)
  | succ level ih =>
    rw [objectRelease_succ, objectRelease_succ callback level]
    split
    · rfl
    split
    · rfl
    next hca hm =>
    obtain ⟨hac, hs⟩ := not_or.mp hca
    rw [Bool.not_eq_false] at hac
    have hone : (s.objects object).references = 1 := by omega
    have hd := liveCount_dying (h object hac) hone
    have ht : InTable (s.dying object) := @InTable.of_update _ _ object _ h rfl fun _ => hac
    -- The releases of the callback run the same one level down.
    have hch : ∀ (objects : List ℕ) (r : System), InTable r → liveCount r < level →
        objects.foldl (objectRelease callback (level + 1)) r =
          objects.foldl (objectRelease callback level) r := by
      intro objects
      induction objects with
      | nil => exact fun _ _ _ => rfl
      | cons first objects ihObjects =>
        intro r hr hlive
        have hle := liveCount_mono (objectRelease_references callback level r first)
        rw [List.foldl_cons, List.foldl_cons, ih hr hlive first]
        exact ihObjects _ (objectRelease_inTable hr callback level first) (hle.trans_lt hlive)
    rw [hch _ _ ht (by omega)]

/-- A release ends: its callbacks nest no deeper than there are objects with references, so more
levels than that give what `object_release` gives. -/
theorem release_nesting_bounded (h : InTable s) (callback : Callback) (object : ℕ)
    {level : ℕ} (hlevel : liveCount s < level) :
    objectRelease callback level s object = release s callback object := by
  have hlea : ∀ level, liveCount s < level → objectRelease callback level s object =
      objectRelease callback (liveCount s + 1) s object := by
    intro level hlevel
    induction level, hlevel using Nat.le_induction with
    | base => rfl
    | succ level hle ih => rw [objectRelease_fuel callback h hle, ih]
  have hlive : liveCount s < levels := by
    have hc := card_filter_le (Finset.range objectMax)
      fun object => 0 < (s.objects object).references
    rw [card_range] at hc
    exact Nat.lt_succ_of_le hc
  rw [hlea level hlevel, release, hlea levels hlive]

/-- Two objects with callbacks, one reference each. -/
def twoObjects : System :=
  { System.initial with
    objects := fun object => if object < 2 then ⟨8, 1, 0, true, true⟩ else KObject.none }

/-- The callback of either object releases both. -/
theorem release_nesting_bounded_both :
    objectRelease (fun _ _ => [0, 1]) 3 twoObjects 0 =
      release twoObjects (fun _ _ => [0, 1]) 0 := by
  have ht : InTable twoObjects := fun object hac => by
    by_cases ho : object < 2
    · exact ho.trans (by decide)
    · simp only [twoObjects, if_neg ho] at hac
      cases hac
  exact release_nesting_bounded ht _ 0 (by decide +kernel)

end MichCore.Handles
