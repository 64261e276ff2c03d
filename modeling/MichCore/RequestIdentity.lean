import MichCore.BlockRequest

/-!
# Every id is bound to one submission

A slot that is not free belongs to the last submission on it, its generation counts the
submissions on it, and once it is settled its status and bytes are those of a completion that
named this submission.
-/
namespace MichCore.BlockRequest

open List Option

variable {g : ℕ} {slot : Fin 16} {after h : History} {x y : Call × Answer} {dev : Device}
  {brought : Completion → Prop} {named : Prop}

theorem requestId_toNat (hg : g < 2 ^ 32) (slot : Fin 16) :
    (requestId g slot).toNat = g * 2 ^ 32 + (slot.val + 1) := by
  have hs := slot.isLt
  rw [requestId, UInt64.toNat_ofNat']
  exact Nat.mod_eq_of_lt (by omega)

theorem idGeneration_requestId (hg : g < 2 ^ 32) (slot : Fin 16) :
    idGeneration (requestId g slot) = g := by
  have hs := slot.isLt
  rw [idGeneration, requestId_toNat hg]
  omega

theorem idSlot_requestId (hg : g < 2 ^ 32) (slot : Fin 16) :
    idSlot (requestId g slot) = some slot := by
  have hs := slot.isLt
  have hlow : idLow (requestId g slot) = slot.val + 1 := by
    rw [idLow, requestId_toNat hg]
    omega
  rw [idSlot, dif_pos (by omega)]
  simp only [hlow, Nat.add_sub_cancel, Fin.eta]

theorem eq_requestId {id : UInt64} (h : idSlot id = some slot) :
    id = requestId (idGeneration id) slot := by
  have hlt := id.toNat_lt
  rw [idSlot] at h
  split_ifs at h with hlow
  have hs : idLow id - 1 = slot.val := congrArg Fin.val (some.inj h)
  apply UInt64.toNat.inj
  rw [idLow] at hs hlow
  rw [requestId_toNat (by rw [idGeneration]; omega), idGeneration]
  omega

theorem requestId_inj {g' : ℕ} {slot' : Fin 16} (hg : g < 2 ^ 32) (hg' : g' < 2 ^ 32)
    (h : requestId g slot = requestId g' slot') : g = g' ∧ slot = slot' := by
  constructor
  · rw [← idGeneration_requestId hg slot, h, idGeneration_requestId hg']
  · have := idSlot_requestId hg slot
    rw [h, idSlot_requestId hg'] at this
    exact (some.inj this).symm

def Answer.id : Answer → Option UInt64
  | .submitted (some out) => some out.id
  | _ => none

def Answer.deliveries : Answer → List Delivery
  | .submitted (some out) => out.delivery.toList
  | .served deliveries => deliveries
  | _ => []

def Call.IsRevoke : Call → Prop
  | .revoke _ => True
  | _ => False

def Call.IsSg : Call → Prop
  | .submitSg _ _ _ _ _ => True
  | _ => False

/-- The token a submission left with its slot. -/
def Call.token : Call → ℕ
  | .submit _ _ _ _ _ issue => issue.token
  | .submitSg _ _ _ _ issue => issue.token
  | _ => 0

/-- The completion came in with the call; the ramdisk makes its own. -/
def Call.Brings : Call → Completion → Prop
  | .service arrivals, .entry e => e ∈ arrivals.ring
  | .service arrivals, .reap r => r ∈ arrivals.reaped
  | _, .transfer => True
  | _, _ => False

def submittedIds (h : History) : List UInt64 := h.filterMap (fun x => x.2.id)

/-- The id of a collection that returned 0. -/
def collectedId : Call × Answer → Option UInt64
  | (.collect id _, .collected out) => if out.ok then some id else none
  | _ => none

def collectedIds (h : History) : List UInt64 := h.filterMap collectedId

/-- How often a slot was handed out. -/
def uses (h : History) (slot : Fin 16) : ℕ :=
  (submittedIds h).countP (fun id => idSlot id = some slot)

/-- `x` is the submission that returned `id`, and since then, in `after`, the id was neither
collected nor revoked. -/
structure Since (h : History) (id : UInt64) (x : Call × Answer) (after : History) : Prop where
  split : ∃ before, h = before ++ x :: after
  returned : x.2.id = some id
  notCollected : id ∉ collectedIds after
  notRevoked : ∀ y ∈ after, ¬ y.1.IsRevoke

/-- An id that a submission returned and that is still waiting to be collected. -/
def Outstanding (h : History) (id : UInt64) : Prop := ∃ x after, Since h id x after

/-- The completion names the submission `call` that returned `id`: a ring entry by the id
itself, a reaped completion by the slot and the token. -/
def Names (call : Call) (id : UInt64) : Completion → Prop
  | .entry e => e.requestId = id
  | .reap r => (idSlot id).map Fin.val = some r.slot ∧ r.token = call.token
  | .transfer => True

/-- The outcome is the completion's own: nothing in it is from elsewhere. -/
def Gives : Completion → Outcome → Prop
  | .entry e, o => (o.status = e.status ∨ e.status = 0 ∧ e.pool = none ∧ o.status = -1) ∧
      o.transferred ≤ e.transferred ∧ ∀ data, o.data = some data → e.pool = some data
  | .reap r, o => o.status = r.status ∧ ∀ data, o.data = some data → r.data = data
  | .transfer, _ => True

/-- The slot stayed with the submission `x`, and a completion that came in since named it. -/
def Completed (x : Call × Answer) (after : History) (id : UInt64) (slot : Fin 16)
    (o : Outcome) : Prop :=
  ∃ y ∈ x :: after, ∃ d ∈ y.2.deliveries, d.slot = slot ∧ d.outcome = o ∧
    y.1.Brings d.source ∧ Names x.1 id d.source ∧ Gives d.source o

/-- No other submission took the slot of `id`. -/
def Undisturbed (after : History) (slot : Fin 16) : Prop :=
  ∀ y ∈ after, ∀ id, y.2.id = some id → idSlot id ≠ some slot

/-- The status, the count and the bytes of a collection are those of a completion that
named the submission the id came from. -/
def Origin (h : History) (id : UInt64) (out : Collected) : Prop :=
  ∃ x after slot o, Since h id x after ∧ idSlot id = some slot ∧ Undisturbed after slot ∧
    Completed x after id slot o ∧ out.reported = some (o.status, o.transferred) ∧
    ∀ bytes, out.bytes = some bytes → ∃ data, o.data = some data ∧
      bytes = copyOut data o.transferred

/-- Identity of requests along a run. -/
structure Identity (dev : Device) (calls : List Call) : Prop where
  distinct : (submittedIds (history dev calls)).Nodup
  once : (collectedIds (history dev calls)).Nodup
  stale : ∀ before id length after, calls = before ++ Call.collect id length :: after →
    ¬ Outstanding (history dev before) id →
    blockCollect (runCalls dev before) id length = (⟨false, none, none⟩, runCalls dev before)
  origin : ∀ before id length after, calls = before ++ Call.collect id length :: after →
    (blockCollect (runCalls dev before) id length).1.ok = true →
    Origin (history dev before) id (blockCollect (runCalls dev before) id length).1

theorem history_append (dev : Device) (calls more : List Call) :
    history dev (calls ++ more) = history dev calls ++ history (runCalls dev calls) more := by
  induction calls generalizing dev with
  | nil => rfl
  | cons call calls ih =>
    simp only [cons_append, history, ih]
    rfl

theorem history_snoc (dev : Device) (calls : List Call) (call : Call) :
    history dev (calls ++ [call]) =
      history dev calls ++ [(call, (step (runCalls dev calls) call).1)] :=
  history_append dev calls [call]

theorem runCalls_snoc (dev : Device) (calls : List Call) (call : Call) :
    runCalls dev (calls ++ [call]) = (step (runCalls dev calls) call).2 := by
  simp [runCalls, foldl_append]

theorem submittedIds_snoc (h : History) (y : Call × Answer) :
    submittedIds (h ++ [y]) = submittedIds h ++ y.2.id.toList := by
  rw [submittedIds, filterMap_append]
  cases hy : y.2.id <;> simp [submittedIds, hy]

theorem collectedIds_snoc (h : History) (y : Call × Answer) :
    collectedIds (h ++ [y]) = collectedIds h ++ (collectedId y).toList := by
  rw [collectedIds, filterMap_append]
  cases hy : collectedId y <;> simp [collectedIds, hy]

theorem uses_snoc (h : History) (y : Call × Answer) (slot : Fin 16) :
    uses (h ++ [y]) slot = uses h slot + if (y.2.id.bind idSlot) = some slot then 1 else 0 := by
  rw [uses, submittedIds_snoc, countP_append, uses]
  cases y.2.id with
  | none => simp
  | some id => by_cases hs : idSlot id = some slot <;> simp [hs]

variable {id : UInt64}

theorem Since.snoc (hs : Since h id x after) (hc : collectedId y ≠ some id) (hr : ¬ y.1.IsRevoke) :
    Since (h ++ [y]) id x (after ++ [y]) := by
  obtain ⟨before, hsp⟩ := hs.split
  refine ⟨⟨before, by rw [hsp]; simp⟩, hs.returned, ?_, ?_⟩
  · rw [collectedIds_snoc]
    intro hmem
    rcases mem_append.mp hmem with hmem | hmem
    · exact hs.notCollected hmem
    · rw [mem_toList] at hmem
      exact hc hmem
  · intro z hz
    rcases mem_append.mp hz with hz | hz
    · exact hs.notRevoked z hz
    · rw [mem_singleton.mp hz]
      exact hr

theorem Undisturbed.snoc (h : Undisturbed after slot) (hy : y.2.id.bind idSlot ≠ some slot) :
    Undisturbed (after ++ [y]) slot := by
  intro z hz id hid
  rcases mem_append.mp hz with hz | hz
  · exact h z hz id hid
  · rw [mem_singleton.mp hz] at hid
    rw [hid] at hy
    exact hy

theorem Completed.snoc {o : Outcome} (h : Completed x after id slot o) :
    Completed x (after ++ [y]) id slot o := by
  obtain ⟨z, hz, hd⟩ := h
  refine ⟨z, ?_, hd⟩
  rw [← cons_append]
  exact mem_append_left _ hz

/-- A call that handed out no slot and settled none. -/
structure Quiet (dev dev' : Device) : Prop where
  revoked : dev'.revoked = dev.revoked
  driver : ∀ b, dev'.backing = .driver b → dev.backing = .driver b
  slot : ∀ s, (dev'.requests s = dev.requests s ∧ dev'.tokens s = dev.tokens s) ∨
    ((dev.requests s).state = .free ∧ (dev'.requests s).state = .free ∧
      (dev'.requests s).sg = none ∧ (dev'.requests s).generation = (dev.requests s).generation)

theorem Quiet.refl (dev : Device) : Quiet dev dev :=
  ⟨rfl, fun _ h => h, fun _ => .inl ⟨rfl, rfl⟩⟩

/-- A submission took a free slot. Either it waits there, or a ramdisk settled it at once. -/
structure Opens (dev dev' : Device) (call : Call) (answer : Answer) (slot : Fin 16) : Prop where
  live : dev.revoked = false
  live' : dev'.revoked = false
  free : (dev.requests slot).state = .free
  id : answer.id = some (requestId (dev.requests slot).generation slot)
  others : ∀ s, s ≠ slot → dev'.requests s = dev.requests s ∧ dev'.tokens s = dev.tokens s
  driver : ∀ b, dev'.backing = .driver b → dev.backing = .driver b
  generation : (dev'.requests slot).generation = (dev.requests slot).generation
  sg : ¬ call.IsSg → (dev'.requests slot).sg = (dev.requests slot).sg
  state : ((dev'.requests slot).state = .pending ∧
      ∀ b, dev'.backing = .driver b → dev'.tokens slot = call.token) ∨
    ((dev'.requests slot).state ≠ .free ∧ (dev'.requests slot).state ≠ .pending ∧
      ∃ d ∈ answer.deliveries, d.slot = slot ∧ d.source = .transfer ∧
        (dev'.requests slot).status = d.outcome.status ∧
        (dev'.requests slot).transferred = d.outcome.transferred ∧
        ((dev'.requests slot).op = some .read → (dev'.requests slot).state = .done →
          d.outcome.data = some (dev'.requests slot).data))

theorem setRequest_self (dev : Device) (slot : Fin 16) (req : Request) :
    (dev.setRequest slot req).requests slot = req := by
  simp [Device.setRequest]

theorem setRequest_of_ne (dev : Device) {s : Fin 16} (req : Request) (h : s ≠ slot) :
    (dev.setRequest slot req).requests s = dev.requests s := by
  simp [Device.setRequest, h]

theorem transfer_data (pages : Option (ℕ → Sector)) (req : Request) (hop : req.op = some .read)
    (hs : (transfer pages req).1.status = 0) : ∃ data, (transfer pages req).1.data = some data := by
  cases pages with
  | none => exact absurd hs (by simp [transfer])
  | some sector => exact ⟨sector req.lba, by simp [transfer, hop]⟩

theorem issueSlot_frame (dev : Device) (slot : Fin 16) (issue : Issue) :
    let dev' := (issueSlot dev slot issue).2
    dev'.revoked = dev.revoked ∧ (∀ b, dev'.backing = .driver b → dev.backing = .driver b) ∧
    ∀ s, s ≠ slot → dev'.requests s = dev.requests s ∧ dev'.tokens s = dev.tokens s := by
  unfold issueSlot completeSlot
  cases hb : dev.backing <;> dsimp only <;> split_ifs <;>
    simp +contextual [Device.setRequest, Device.setToken, hb]

theorem issueSlot_cases (dev : Device) (slot : Fin 16) (issue : Issue)
    (hp : (dev.requests slot).state = .pending) :
    let out := issueSlot dev slot issue
    (out.1 = none ∧ out.2.requests slot = (dev.requests slot).clear) ∨
    (out.1 = some none ∧ out.2.requests slot = dev.requests slot ∧
      ∀ b, out.2.backing = .driver b → out.2.tokens slot = issue.token) ∨
    ∃ o, out.1 = some (some ⟨slot, .transfer, o⟩) ∧
      out.2.requests slot = (dev.requests slot).settle o ∧
      ((dev.requests slot).op = some .read → o.status = 0 → ∃ data, o.data = some data) := by
  unfold issueSlot
  cases hb : dev.backing with
  | ramdisk pages =>
    dsimp only
    split_ifs
    · exact .inr (.inl ⟨rfl, rfl, fun b h => by rw [hb] at h; cases h⟩)
    refine .inr (.inr ⟨(transfer pages (dev.requests slot)).1, ?_, ?_, ?_⟩)
    · simp [completeSlot, hp, hb]
    · simp [completeSlot, hp, hb, Device.setRequest]
    · exact transfer_data pages (dev.requests slot)
  | driver b =>
    dsimp only
    split_ifs
    · exact .inr (.inl ⟨rfl, rfl, fun _ _ => by simp [Device.setToken]⟩)
    · exact .inl ⟨rfl, setRequest_self _ _ _⟩
  | capsule =>
    dsimp only
    split_ifs
    · exact .inr (.inl ⟨rfl, rfl, fun b h => by rw [hb] at h; cases h⟩)
    · exact .inl ⟨rfl, setRequest_self _ _ _⟩

theorem freeSlot_some (h : freeSlot dev = some slot) : (dev.requests slot).state = .free :=
  SlotTable.find_some h

theorem opens_of_issue (issue : Issue) (sg : Option ℕ) (op : BlockOp) (lba sectors : ℕ)
    (data : Sector) (hlive : dev.revoked = false) (hf : (dev.requests slot).state = .free) :
    let req := (dev.requests slot).open sg op lba sectors data
    let out := issueSlot (dev.setRequest slot req) slot issue
    (out.1 = none ∧ Quiet dev out.2) ∨
    ∃ delivery, out.1 = some delivery ∧ ∀ (call : Call) (answer : Answer),
      call.token = issue.token → (¬ call.IsSg → sg = (dev.requests slot).sg) →
      answer.id = some (requestId req.generation slot) → answer.deliveries = delivery.toList →
      Opens dev out.2 call answer slot := by
  intro req out
  have hreq : (dev.setRequest slot req).requests slot = req := setRequest_self dev slot req
  obtain ⟨hrev, hdr, hother⟩ := issueSlot_frame (dev.setRequest slot req) slot issue
  have hothers : ∀ s, s ≠ slot → out.2.requests s = dev.requests s ∧
    out.2.tokens s = dev.tokens s := by
    intro s hs
    obtain ⟨h1, h2⟩ := hother s hs
    exact ⟨h1.trans (setRequest_of_ne dev req hs), h2⟩
  have hp : ((dev.setRequest slot req).requests slot).state = .pending := by rw [hreq]; rfl
  have hope : ∀ req' : Request, out.2.requests slot = req' → req'.generation = req.generation →
      req'.sg = sg → ∀ (call : Call) (answer : Answer),
        (¬ call.IsSg → sg = (dev.requests slot).sg) →
      answer.id = some (requestId req.generation slot) → _ → Opens dev out.2 call answer slot :=
    fun req' hk hgen hsg call answer hca hid hsta =>
      ⟨hlive, hrev.trans hlive, hf, hid, hothers, hdr, by rw [hk, hgen]; rfl,
        fun h => by rw [hk, hsg, hca h], hsta⟩
  rcases issueSlot_cases (dev.setRequest slot req) slot issue hp with
    ⟨hno, hcl⟩ | ⟨hso, hke, htoke⟩ | ⟨o, hso, hse, hda⟩
  · refine .inl ⟨hno, hrev, hdr, fun s => ?_⟩
    by_cases hs : s = slot
    · subst hs
      rw [hreq] at hcl
      have hc : out.2.requests s = req.clear := hcl
      exact .inr ⟨hf, by rw [hc]; rfl, by rw [hc]; rfl, by rw [hc]; rfl⟩
    · exact .inl (hothers s hs)
  · refine .inr ⟨none, hso, fun call answer htok hsg hid hdel => ?_⟩
    have hk : out.2.requests slot = req := hke.trans hreq
    exact hope req hk rfl rfl call answer hsg hid
      (.inl ⟨by rw [hk]; rfl, fun b hb => (htoke b hb).trans htok.symm⟩)
  · refine .inr ⟨some ⟨slot, .transfer, o⟩, hso, fun call answer htok hsg hid hdel => ?_⟩
    rw [hreq] at hse hda
    have hk : out.2.requests slot = req.settle o := hse
    refine hope _ hk rfl rfl call answer hsg hid (.inr ⟨?_, ?_, ⟨slot, .transfer, o⟩,
      by simp [hdel], rfl, rfl, by rw [hk]; rfl, by rw [hk]; rfl, ?_⟩)
    · rw [hk, Request.settle]; dsimp only; split_ifs <;> simp
    · rw [hk, Request.settle]; dsimp only; split_ifs <;> simp
    · intro hop hdo
      rw [hk] at hop hdo ⊢
      have hst : o.status = 0 := by
        by_contra hne
        simp [Request.settle, hne] at hdo
      obtain ⟨bytes, hb⟩ := hda hop hst
      simp [Request.settle, hb]

theorem submit_cases (dev : Device) (op lba sectors : ℕ) (buffer : Option Sector) (length : ℕ)
    (issue : Issue) :
    let call := Call.submit op lba sectors buffer length issue
    ((step dev call).1.id = none ∧ Quiet dev (step dev call).2) ∨
      ∃ slot, Opens dev (step dev call).2 call (step dev call).1 slot := by
  intro call
  simp only [call, step, blockSubmit]
  rcases buffer with _ | bytes
  · exact .inl ⟨rfl, Quiet.refl dev⟩
  rcases BlockOp.decode op with _ | op'
  · exact .inl ⟨rfl, Quiet.refl dev⟩
  dsimp only
  split
  · exact .inl ⟨rfl, Quiet.refl dev⟩
  next hbad =>
  push Not at hbad
  rcases hsl : freeSlot dev with _ | slot
  · exact .inl ⟨rfl, Quiet.refl dev⟩
  dsimp only
  rcases opens_of_issue issue (dev.requests slot).sg op' lba sectors
    (if op' = .write then bytes else Image.zero) (by simpa using hbad.1) (freeSlot_some hsl) with
    ⟨hn, hq⟩ | ⟨delivery, hso, ho⟩
  · left
    rw [hn]
    exact ⟨rfl, hq⟩
  right
  refine ⟨slot, ?_⟩
  rw [hso]
  exact ho _ _ rfl (fun _ => rfl) rfl rfl

theorem submitSg_cases (dev : Device) (op lba sectors : ℕ) (sg : Option SgList) (issue : Issue) :
    let call := Call.submitSg op lba sectors sg issue
    ((step dev call).1.id = none ∧ Quiet dev (step dev call).2) ∨
      ∃ slot, Opens dev (step dev call).2 call (step dev call).1 slot := by
  intro call
  simp only [call, step, blockSubmitSg]
  rcases sg with _ | list
  · exact .inl ⟨rfl, Quiet.refl dev⟩
  rcases BlockOp.decode op with _ | op'
  · exact .inl ⟨rfl, Quiet.refl dev⟩
  rcases dev.backing with _ | scatter | _
  · exact .inl ⟨rfl, Quiet.refl dev⟩
  swap
  · exact .inl ⟨rfl, Quiet.refl dev⟩
  cases scatter
  · exact .inl ⟨rfl, Quiet.refl dev⟩
  dsimp only
  split
  · exact .inl ⟨rfl, Quiet.refl dev⟩
  next hbad =>
  push Not at hbad
  rcases hsl : freeSlot dev with _ | slot
  · exact .inl ⟨rfl, Quiet.refl dev⟩
  dsimp only
  split
  · exact .inl ⟨rfl, Quiet.refl dev⟩
  rcases opens_of_issue issue (some list.object) op' lba sectors (dev.requests slot).data
    (by simpa using hbad.1) (freeSlot_some hsl) with ⟨hn, hq⟩ | ⟨delivery, hso, ho⟩
  · left
    rw [hn]
    exact ⟨rfl, hq⟩
  right
  refine ⟨slot, ?_⟩
  rw [hso]
  exact ho _ _ rfl (fun h => absurd trivial h) rfl rfl

/-- A completion settled the waiting request of a slot, and the slot holds what it gave. If the
reap callback is honest, `named`, the token is the slot's own. -/
structure Settles (named : Prop) (req req' : Request) (token : ℕ) (slot : Fin 16)
    (d : Delivery) : Prop where
  here : d.slot = slot
  pending : req.state = .pending
  result : ∃ sg, req' = { req.settle d.outcome with sg := sg }
  entry : ∀ e, d.source = .entry e → e.requestId = requestId req.generation slot
  reap : ∀ r, d.source = .reap r → r.slot = slot.val ∧ (named → r.token = token)
  outcome : match d.source with
    | .entry e => d.outcome = e.outcome req
    | .reap r => d.outcome = r.outcome req
    | .transfer => ∃ pages, d.outcome = (transfer pages req).1
  gives : Gives d.source d.outcome
  data : req.op = some .read → req.sg = none → d.outcome.status = 0 →
    ∃ data, d.outcome.data = some data

theorem Settles.state {req req' : Request} {token : ℕ} {d : Delivery}
    (h : Settles named req req' token slot d) : req'.state ≠ .free ∧ req'.state ≠ .pending := by
  obtain ⟨sg, hr⟩ := h.result
  rw [hr, Request.settle]
  dsimp only
  split_ifs <;> simp

/-- Either nothing reached the slot, or one of the deliveries settled it. -/
def Advance (named : Prop) (brought : Completion → Prop) (dev dev' : Device) (ds : List Delivery)
    (slot : Fin 16) : Prop :=
  (dev'.requests slot = dev.requests slot ∧ dev'.tokens slot = dev.tokens slot) ∨
    ∃ d ∈ ds, brought d.source ∧
      Settles named (dev.requests slot) (dev'.requests slot) (dev.tokens slot) slot d

theorem Advance.trans {a b c : Device} {ds es : List Delivery}
    (hab : Advance named brought a b ds slot) (hbc : Advance named brought b c es slot) :
    Advance named brought a c (ds ++ es) slot := by
  rcases hab with ⟨hreq, htok⟩ | ⟨d, hd, hbr, hs⟩
  · rw [Advance, ← hreq, ← htok]
    rcases hbc with h | ⟨d, hd, hbr, hs⟩
    · exact .inl h
    · exact .inr ⟨d, mem_append_right _ hd, hbr, hs⟩
  · rcases hbc with ⟨hreq, -⟩ | ⟨e, -, -, hs'⟩
    · exact .inr ⟨d, mem_append_left _ hd, hbr, by rw [hreq]; exact hs⟩
    · -- a settled slot is not waiting, so nothing settles it again
      exact absurd hs'.pending hs.state.2

theorem Advance.mono {brought' : Completion → Prop} {dev' : Device} {ds : List Delivery}
    (h : Advance named brought dev dev' ds slot) (hb : ∀ c, brought c → brought' c) :
    Advance named brought' dev dev' ds slot :=
  h.imp_right (fun ⟨d, hd, hbr, hs⟩ => ⟨d, hd, hb _ hbr, hs⟩)

/-- What the call leaves alone, and where each slot has come to. -/
structure Served (named : Prop) (brought : Completion → Prop) (dev : Device)
    (out : List Delivery × Device) : Prop where
  revoked : out.2.revoked = dev.revoked
  driver : ∀ b, out.2.backing = .driver b → dev.backing = .driver b
  slots : ∀ slot, Advance named brought dev out.2 out.1 slot

theorem served_nothing (brought : Completion → Prop) (dev : Device) :
    Served named brought dev ([], dev) :=
  ⟨rfl, fun _ h => h, fun _ => .inl ⟨rfl, rfl⟩⟩

theorem served_one {dev' : Device} {d : Delivery} (hrev : dev'.revoked = dev.revoked)
    (hd : ∀ b, dev'.backing = .driver b → dev.backing = .driver b)
    (ho : ∀ s, s ≠ d.slot → dev'.requests s = dev.requests s ∧ dev'.tokens s = dev.tokens s)
    (hbr : brought d.source)
    (hset : Settles named (dev.requests d.slot) (dev'.requests d.slot) (dev.tokens d.slot) d.slot
      d) : Served named brought dev ([d], dev') := by
  refine ⟨hrev, hd, fun s => ?_⟩
  by_cases hs : s = d.slot
  · rw [hs]
    exact .inr ⟨d, mem_singleton_self d, hbr, hset⟩
  · exact .inl (ho s hs)

/-- A condition on each completion in the state in which it is met. -/
def EachMeets {α : Type} (serve : Device → α → Option Delivery × Device)
    (good : Device → α → Prop) : Device → List α → Prop
  | _, [] => True
  | dev, x :: xs => good dev x ∧ EachMeets serve good (serve dev x).2 xs

theorem serveAll_spec {α : Type} {serve : Device → α → Option Delivery × Device}
    (good : Device → α → Prop) {brought : α → Completion → Prop}
    (one : ∀ dev x, good dev x → Served named (brought x) dev
      ((serve dev x).1.toList, (serve dev x).2))
    (dev : Device) (xs : List α) (h : EachMeets serve good dev xs) :
    Served named (fun c => ∃ x ∈ xs, brought x c) dev (serveAll serve dev xs) := by
  induction xs generalizing dev with
  | nil => exact served_nothing _ dev
  | cons x xs ih =>
    have hone := one dev x h.1
    have hr := ih (serve dev x).2 h.2
    refine ⟨hr.revoked.trans hone.revoked, fun b hb => hone.driver b (hr.driver b hb), ?_⟩
    intro slot
    exact ((hone.slots slot).mono (fun c hc => ⟨x, by simp, hc⟩)).trans
      ((hr.slots slot).mono (fun c ⟨y, hy, hc⟩ => ⟨y, by simp [hy], hc⟩))

theorem entry_gives (e : DriverCompletion) (req : Request) : Gives (.entry e) (e.outcome req) := by
  unfold Gives DriverCompletion.outcome
  dsimp only
  split_ifs with hst hop
  · simp
  · cases hp : e.pool <;> simp_all
  · simp_all

theorem entry_data (e : DriverCompletion) (req : Request) (hop : req.op = some .read)
    (hs : (e.outcome req).status = 0) : ∃ data, (e.outcome req).data = some data := by
  unfold DriverCompletion.outcome at hs ⊢
  simp only [hop, if_true] at hs ⊢
  split_ifs at hs ⊢ with hst
  · exact absurd hs hst
  · cases hp : e.pool <;> simp_all

theorem settleEntry_served (dev : Device) (e : DriverCompletion) :
    Served named (fun c => c = .entry e) dev
      ((settleEntry dev e).1.toList, (settleEntry dev e).2) := by
  unfold settleEntry
  cases hsl : idSlot e.requestId with
  | none => exact served_nothing _ dev
  | some slot =>
    dsimp only
    split_ifs with hsk
    · exact served_nothing _ dev
    push Not at hsk
    refine served_one rfl (fun _ h => h) (fun s hs => ⟨setRequest_of_ne dev _ hs, rfl⟩) rfl ?_
    exact {
      here := rfl
      pending := hsk.1
      result := ⟨(dev.requests slot).sg, by rw [setRequest_self]; rfl⟩
      entry := fun e' he => by
        cases he
        rw [hsk.2]
        exact eq_requestId hsl
      reap := nofun
      outcome := rfl
      gives := entry_gives e _
      data := fun hop _ => entry_data e _ hop }

theorem reap_gives (r : Reap) (req : Request) : Gives (.reap r) (r.outcome req) := by
  unfold Gives Reap.outcome
  split_ifs with hst hop <;> simp_all

/-- The reap callback names a slot whose token it completes. -/
def NamesToken (dev : Device) (r : Reap) : Prop :=
  ∀ h : r.slot < 16, dev.tokens ⟨r.slot, h⟩ = r.token

theorem settleReap_served (dev : Device) (r : Reap) (hr : named → NamesToken dev r) :
    Served named (fun c => c = .reap r) dev
      ((settleReap dev r).1.toList, (settleReap dev r).2) := by
  unfold settleReap
  split_ifs with hlt
  swap
  · exact served_nothing _ dev
  dsimp only
  split_ifs with hsk
  · exact served_nothing _ dev
  refine served_one rfl (fun _ h => h) (fun s hs => ⟨?_, ?_⟩) rfl ?_
  · exact setRequest_of_ne dev _ hs
  · simp only [Device.setToken, Device.setRequest]
    exact Function.update_of_ne hs _ _
  · exact {
      here := rfl
      pending := not_not.mp hsk
      result := ⟨none, setRequest_self dev _ _⟩
      entry := nofun
      reap := fun r' h' => by
        cases h'
        exact ⟨rfl, fun hna => (hr hna hlt).symm⟩
      outcome := rfl
      gives := reap_gives r _
      data := fun hop hsg hst => by
        have h0 : r.status = 0 := by
          by_contra hne
          simp [Reap.outcome, hne] at hst
        exact ⟨r.data, by simp [Reap.outcome, h0, hop, hsg]⟩ }

theorem completeSlot_served (dev : Device) (slot : Fin 16) :
    Served named (fun c => c = .transfer) dev
      ((completeSlot dev slot).1.toList, (completeSlot dev slot).2) := by
  unfold completeSlot
  dsimp only
  split_ifs with hsk
  · exact served_nothing _ dev
  cases hb : dev.backing with
  | ramdisk pages =>
    refine served_one rfl nofun (fun s hs => ⟨setRequest_of_ne dev _ hs, rfl⟩)
      rfl ?_
    exact {
      here := rfl
      pending := not_not.mp hsk
      result := ⟨(dev.requests slot).sg, setRequest_self dev _ _⟩
      entry := nofun
      reap := nofun
      outcome := ⟨pages, rfl⟩
      gives := trivial
      data := fun hop _ => transfer_data pages _ hop }
  | driver b => exact served_nothing _ dev
  | capsule => exact served_nothing _ dev

/-- Every completion a reap callback reports names the slot of the token it completes. -/
def Honest (dev : Device) : Call → Prop
  | .service arrivals => ∀ b, dev.backing = .driver b →
      EachMeets settleReap NamesToken dev arrivals.reaped
  | _ => True

theorem eachMeets_of_imp {α : Type} {serve : Device → α → Option Delivery × Device}
    {good : Device → α → Prop} {xs : List α} (h : named → EachMeets serve good dev xs) :
    EachMeets serve (fun dev x => named → good dev x) dev xs := by
  induction xs generalizing dev with
  | nil => trivial
  | cons x xs ih => exact ⟨fun hn => (h hn).1, ih fun hn => (h hn).2⟩

theorem service_cases (dev : Device) (arrivals : Arrivals)
    (hh : named → Honest dev (.service arrivals)) :
    Served named (fun c => (Call.service arrivals).Brings c ∧
      ∀ r, c = .reap r → ∃ b, dev.backing = .driver b) dev (blockService dev arrivals) := by
  unfold blockService
  split_ifs with hrev
  · exact served_nothing _ dev
  cases hb : dev.backing with
  | ramdisk pages =>
    have : Served named _ _ _ := serveAll_spec (fun _ _ => False → False)
      (fun dev x _ => completeSlot_served dev x) dev (List.finRange 16)
        (eachMeets_of_imp False.elim)
    refine ⟨this.revoked, this.driver, fun s => (this.slots s).mono ?_⟩
    rintro c ⟨_, _, rfl⟩
    exact ⟨trivial, nofun⟩
  | driver b =>
    have := serveAll_spec (fun dev r => named → NamesToken dev r) settleReap_served dev
      arrivals.reaped (eachMeets_of_imp fun hn => hh hn b hb)
    refine ⟨this.revoked, this.driver, fun s => (this.slots s).mono ?_⟩
    rintro c ⟨r, hr, rfl⟩
    exact ⟨hr, fun _ _ => ⟨b, rfl⟩⟩
  | capsule =>
    have : Served named _ _ _ := serveAll_spec (fun _ _ => False → False)
      (fun dev x _ => settleEntry_served dev x) dev arrivals.ring (eachMeets_of_imp False.elim)
    refine ⟨this.revoked, this.driver, fun s => (this.slots s).mono ?_⟩
    rintro c ⟨e, he, rfl⟩
    exact ⟨he, nofun⟩

/-- The id names a slot whose request of that generation is settled. -/
structure Ready (dev : Device) (id : UInt64) (slot : Fin 16) : Prop where
  named : idSlot id = some slot
  generation : (dev.requests slot).generation = idGeneration id
  settled : (dev.requests slot).state = .done ∨ (dev.requests slot).state = .error

/-- A collection that does not find its request settled does nothing; one that returns 0 hands
over what the slot holds and frees it. -/
theorem collect_cases (dev : Device) (id : UInt64) (length : Option ℕ) :
    let out := blockCollect dev id length
    (out.1.ok = false ∧ out.2 = dev ∧ ((∃ slot, Ready dev id slot) ∨ out.1 = ⟨false, none, none⟩)) ∨
    ∃ slot, let req := dev.requests slot
      Ready dev id slot ∧ out.1.ok = true ∧
      out.2 = dev.setRequest slot { req.clear with generation := nextGeneration req.generation } ∧
      out.1.reported = some (req.status, req.transferred) ∧
      (∀ bytes, out.1.bytes = some bytes → length.isSome ∧ req.op = some .read ∧
        req.state = .done ∧ bytes = copyOut req.data req.transferred) ∧
      (length.isSome → req.op = some .read → req.state = .done → out.1.bytes.isSome) := by
  unfold blockCollect
  rcases hsl : idSlot id with _ | slot
  · exact .inl ⟨rfl, rfl, .inr rfl⟩
  dsimp only
  split
  · exact .inl ⟨rfl, rfl, .inr rfl⟩
  next hbad =>
  push Not at hbad
  have hready : Ready dev id slot := ⟨hsl, hbad.2.1, by
    by_cases hd : (dev.requests slot).state = .done
    · exact .inl hd
    · exact .inr (hbad.2.2 hd)⟩
  cases length with
  | none => exact .inr ⟨slot, hready, rfl, rfl, rfl, nofun, nofun⟩
  | some length =>
    dsimp only
    split_ifs with hsg hread hlen
    · exact .inl ⟨rfl, rfl, .inl ⟨slot, hready⟩⟩
    · exact .inl ⟨rfl, rfl, .inl ⟨slot, hready⟩⟩
    · refine .inr ⟨slot, hready, rfl, rfl, rfl, fun bytes h => ?_, fun _ _ _ => rfl⟩
      exact ⟨rfl, hread.1, hread.2, (some.inj h).symm⟩
    · exact .inr ⟨slot, hready, rfl, rfl, rfl, nofun, fun _ hop hdo => absurd ⟨hop, hdo⟩ hread⟩

def Idle (h : History) (dev : Device) (slot : Fin 16) : Prop :=
  (dev.requests slot).state = .free ∧ (dev.requests slot).sg = none ∧
    (dev.requests slot).generation = nextGeneration (uses h slot)

/-- The slot belongs to the submission `x`, the last one on it. -/
structure Busy (h : History) (dev : Device) (slot : Fin 16) (x : Call × Answer)
    (after : History) : Prop where
  generation : (dev.requests slot).generation = uses h slot
  since : Since h (requestId (uses h slot) slot) x after
  quiet : Undisturbed after slot
  state : ((dev.requests slot).state = .pending ∧ (¬ x.1.IsSg → (dev.requests slot).sg = none) ∧
      ∀ b, dev.backing = .driver b → dev.tokens slot = x.1.token) ∨
    ((dev.requests slot).state ≠ .free ∧ (dev.requests slot).state ≠ .pending ∧
      ∃ o, Completed x after (requestId (uses h slot) slot) slot o ∧
        (dev.requests slot).status = o.status ∧ (dev.requests slot).transferred = o.transferred ∧
        (¬ x.1.IsSg → (dev.requests slot).op = some .read → (dev.requests slot).state = .done →
          o.data = some (dev.requests slot).data))

theorem Busy.not_free (hb : Busy h dev slot x after) : (dev.requests slot).state ≠ .free := by
  rcases hb.state with ⟨hp, -, -⟩ | ⟨hf, -, -⟩
  · rw [hp]; simp
  · exact hf

structure Inv (h : History) (dev : Device) : Prop where
  slots : dev.revoked = false → ∀ slot, Idle h dev slot ∨ ∃ x after, Busy h dev slot x after
  dead : dev.revoked = true → ∀ slot, (dev.requests slot).state = .free
  submitted : ∀ id ∈ submittedIds h, ∃ k slot, id = requestId k slot ∧ k ≤ uses h slot
  collected : ∀ id ∈ collectedIds h, ∃ k slot, id = requestId k slot ∧ k ≤ uses h slot ∧
    ((dev.requests slot).state ≠ .free → k < uses h slot)
  distinct : (submittedIds h).Nodup
  once : (collectedIds h).Nodup

theorem nextGeneration_lt (g : ℕ) : nextGeneration g < 2 ^ 32 := by
  unfold nextGeneration
  split_ifs
  · norm_num
  · exact Nat.mod_lt _ (by norm_num)

theorem nextGeneration_eq (h : g + 1 < 2 ^ 32) : nextGeneration g = g + 1 := by
  rw [nextGeneration, Nat.mod_eq_of_lt h, if_neg (by omega)]

theorem inv_fresh (h : Fresh dev) : Inv [] dev where
  slots := fun _ slot => .inl ⟨h.free slot, h.sg slot, by rw [h.generation]; rfl⟩
  dead := fun hr => by rw [h.live] at hr; cases hr
  submitted := fun id hid => by simp [submittedIds] at hid
  collected := fun id hid => by simp [collectedIds] at hid
  distinct := nodup_nil
  once := nodup_nil

section Step
variable {h : History} {dev dev' : Device} {y : Call × Answer} {slot : Fin 16}

theorem uses_of_other (hid : y.2.id.bind idSlot ≠ some slot) :
    uses (h ++ [y]) slot = uses h slot := by
  rw [uses_snoc, if_neg hid, Nat.add_zero]

theorem uses_le (slot : Fin 16) : uses h slot ≤ uses (h ++ [y]) slot := by
  rw [uses_snoc]
  omega

theorem Idle.carry (hi : Idle h dev slot) (hid : y.2.id.bind idSlot ≠ some slot)
    (hst : (dev'.requests slot).state = .free) (hsg : (dev'.requests slot).sg = none)
    (hgen : (dev'.requests slot).generation = (dev.requests slot).generation) :
    Idle (h ++ [y]) dev' slot :=
  ⟨hst, hsg, by rw [hgen, hi.2.2, uses_of_other hid]⟩

theorem Busy.carry {x : Call × Answer} {after : History} (hb : Busy h dev slot x after)
    (hreq : dev'.requests slot = dev.requests slot) (htok : dev'.tokens slot = dev.tokens slot)
    (hdri : ∀ b, dev'.backing = .driver b → dev.backing = .driver b)
    (hid : y.2.id.bind idSlot ≠ some slot)
    (hc : collectedId y ≠ some (requestId (uses h slot) slot)) (hr : ¬ y.1.IsRevoke) :
    Busy (h ++ [y]) dev' slot x (after ++ [y]) := by
  have hu := uses_of_other (h := h) hid
  refine ⟨by rw [hreq, hu]; exact hb.generation, by rw [hu]; exact hb.since.snoc hc hr,
    hb.quiet.snoc hid, ?_⟩
  rw [hreq, htok, hu]
  rcases hb.state with ⟨hp, hsg, htoke⟩ | ⟨hf, hp, o, ho, hres⟩
  · exact .inl ⟨hp, hsg, fun b hdr => htoke b (hdri b hdr)⟩
  · exact .inr ⟨hf, hp, o, ho.snoc, hres⟩

section

variable (hi : Inv h dev)
include hi

theorem Inv.slot_carry (hlive : dev.revoked = false)
    (hs : dev'.requests slot = dev.requests slot ∧ dev'.tokens slot = dev.tokens slot)
    (hd : ∀ b, dev'.backing = .driver b → dev.backing = .driver b)
    (hid : y.2.id.bind idSlot ≠ some slot)
    (hc : collectedId y ≠ some (requestId (uses h slot) slot)) (hr : ¬ y.1.IsRevoke) :
    Idle (h ++ [y]) dev' slot ∨ ∃ x after, Busy (h ++ [y]) dev' slot x after := by
  obtain ⟨hreq, htok⟩ := hs
  rcases hi.slots hlive slot with hidle | ⟨x, after, hb⟩
  · exact .inl (hidle.carry hid (by rw [hreq]; exact hidle.1) (by rw [hreq]; exact hidle.2.1)
      (by rw [hreq]))
  · exact .inr ⟨x, after ++ [y], hb.carry hreq htok hd hid hc hr⟩

theorem Inv.carry (hid : y.2.id = none) (hc : collectedId y = none)
    (hsl : dev'.revoked = false → ∀ slot, Idle (h ++ [y]) dev' slot ∨
      ∃ x after, Busy (h ++ [y]) dev' slot x after)
    (hd : dev'.revoked = true → ∀ slot, (dev'.requests slot).state = .free)
    (hfr : ∀ slot, (dev'.requests slot).state ≠ .free → (dev.requests slot).state ≠ .free) :
    Inv (h ++ [y]) dev' := by
  have hu : ∀ slot, uses (h ++ [y]) slot = uses h slot :=
    fun slot => uses_of_other (by rw [hid]; simp)
  have hsub : submittedIds (h ++ [y]) = submittedIds h := by rw [submittedIds_snoc, hid]; simp
  have hcol : collectedIds (h ++ [y]) = collectedIds h := by rw [collectedIds_snoc, hc]; simp
  refine ⟨hsl, hd, ?_, ?_, by rw [hsub]; exact hi.distinct, by rw [hcol]; exact hi.once⟩
  · intro id hmem
    rw [hsub] at hmem
    obtain ⟨k, slot, rfl, hk⟩ := hi.submitted id hmem
    exact ⟨k, slot, rfl, by rw [hu]; exact hk⟩
  · intro id hmem
    rw [hcol] at hmem
    obtain ⟨k, slot, rfl, hk, hlt⟩ := hi.collected id hmem
    exact ⟨k, slot, rfl, by rw [hu]; exact hk,
      fun hf => by rw [hu]; exact hlt (hfr slot hf)⟩

theorem Inv.quiet (hq : Quiet dev dev') (hid : y.2.id = none)
    (hc : collectedId y = none) (hr : ¬ y.1.IsRevoke) : Inv (h ++ [y]) dev' := by
  have hno : ∀ slot, y.2.id.bind idSlot ≠ some slot := fun slot => by rw [hid]; simp
  refine hi.carry hid hc ?_ ?_ ?_
  · intro hrev slot
    have hlive := hq.revoked ▸ hrev
    rcases hq.slot slot with hsa | ⟨hf, hst, hsg, hgen⟩
    · exact hi.slot_carry hlive hsa hq.driver (hno slot) (by rw [hc]; simp) hr
    rcases hi.slots hlive slot with hidle | ⟨x, after, hb⟩
    · exact .inl (hidle.carry (hno slot) hst hsg hgen)
    · exact absurd hf hb.not_free
  · intro hrev slot
    have hd := hi.dead (hq.revoked ▸ hrev) slot
    rcases hq.slot slot with ⟨hreq, -⟩ | ⟨-, hst, -⟩
    · rw [hreq]; exact hd
    · exact hst
  · intro slot hne
    rcases hq.slot slot with ⟨hreq, -⟩ | ⟨-, hst, -⟩
    · rw [← hreq]; exact hne
    · exact absurd hst hne

theorem Inv.opens {call : Call} {answer : Answer}
    (ho : Opens dev dev' call answer slot) (hbo : ∀ s, uses (h ++ [(call, answer)]) s < 2 ^ 32)
    (hc : collectedId (call, answer) = none) (hr : ¬ call.IsRevoke)
    (hsub : ∀ c, c = .transfer → call.Brings c) : Inv (h ++ [(call, answer)]) dev' := by
  have hidle : Idle h dev slot := by
    rcases hi.slots ho.live slot with hidle | ⟨x, after, hb⟩
    · exact hidle
    · exact absurd ho.free hb.not_free
  have hbi : (call, answer).2.id.bind idSlot = some slot := by
    rw [ho.id, bind_some, idSlot_requestId]
    rw [hidle.2.2]
    exact nextGeneration_lt _
  have hu : uses (h ++ [(call, answer)]) slot = uses h slot + 1 := by
    rw [uses_snoc, if_pos hbi]
  have hb := hbo slot
  have hgen : (dev.requests slot).generation = uses h slot + 1 := by
    rw [hidle.2.2, nextGeneration_eq (by omega)]
  have hot : ∀ s, s ≠ slot → (call, answer).2.id.bind idSlot ≠ some s := by
    intro s hs heq
    rw [hbi] at heq
    exact hs (some.inj heq).symm
  have hlt : ∀ s, uses h s < 2 ^ 32 := fun s => lt_of_le_of_lt (uses_le s) (hbo s)
  refine ⟨?_, fun hrev => absurd (ho.live'.symm.trans hrev) (by simp), ?_, ?_, ?_, ?_⟩
  · intro _ s
    by_cases hs : s = slot
    · subst hs
      refine .inr ⟨(call, answer), [], ?_, ?_, by simp [Undisturbed], ?_⟩
      · rw [ho.generation, hgen, hu]
      · refine ⟨⟨h, rfl⟩, ?_, by simp [collectedIds], by simp⟩
        rw [hu, ← hgen]
        exact ho.id
      · rcases ho.state with ⟨hp, htok⟩ | ⟨hf, hp, d, hd, hsl, hsrc, hst, htr, hda⟩
        · exact .inl ⟨hp, fun hnsg => by rw [ho.sg hnsg]; exact hidle.2.1, htok⟩
        refine .inr ⟨hf, hp, d.outcome, ⟨(call, answer), by simp, d, hd, hsl, rfl, ?_, ?_, ?_⟩,
          hst, htr, fun _ => hda⟩
        · exact hsub _ hsrc
        · rw [hsrc]; trivial
        · rw [hsrc]; trivial
    · exact hi.slot_carry ho.live (ho.others s hs) ho.driver (hot s hs) (by rw [hc]; simp) hr
  · intro id hmem
    rw [submittedIds_snoc] at hmem
    rcases mem_append.mp hmem with hmem | hmem
    · obtain ⟨k, s, rfl, hk⟩ := hi.submitted id hmem
      exact ⟨k, s, rfl, hk.trans (uses_le s)⟩
    · rw [mem_toList, ho.id] at hmem
      exact ⟨_, slot, (some.inj hmem).symm, by rw [hgen, hu]⟩
  · intro id hmem
    rw [collectedIds_snoc, hc, toList_none, append_nil] at hmem
    obtain ⟨k, s, rfl, hk, hfr⟩ := hi.collected id hmem
    refine ⟨k, s, rfl, hk.trans (uses_le s), fun hne => ?_⟩
    by_cases hs : s = slot
    · subst hs
      omega
    · rw [(ho.others s hs).1] at hne
      exact lt_of_lt_of_le (hfr hne) (uses_le s)
  · rw [submittedIds_snoc, ho.id, toList_some, nodup_append]
    refine ⟨hi.distinct, by simp, ?_⟩
    intro id hmem id' hid'
    rw [mem_singleton.mp hid']
    rintro rfl
    obtain ⟨k, s, heq, hk⟩ := hi.submitted _ hmem
    obtain ⟨hkk, hss⟩ := requestId_inj (by omega) (lt_of_le_of_lt hk (hlt s)) heq
    subst hss
    omega
  · rw [collectedIds_snoc, hc]
    simpa using hi.once

theorem Inv.served {arrivals : Arrivals} {out : List Delivery × Device}
    (hs : Served True (fun c => (Call.service arrivals).Brings c ∧
      ∀ r, c = .reap r → ∃ b, dev.backing = .driver b) dev out)
    (hbo : ∀ s, uses h s < 2 ^ 32) : Inv (h ++ [(.service arrivals, .served out.1)]) out.2 := by
  set y : Call × Answer := (.service arrivals, .served out.1) with hy
  have hno : ∀ slot, y.2.id.bind idSlot ≠ some slot := fun slot => by simp [hy, Answer.id]
  have hcol : collectedId y = none := rfl
  have hrev : ¬ y.1.IsRevoke := fun hr => hr
  refine hi.carry rfl rfl ?_ ?_ ?_
  · intro hlive slot
    rcases hs.slots slot with hsa | ⟨d, hd, ⟨hbr, hdr⟩, hset⟩
    · exact hi.slot_carry (hs.revoked ▸ hlive) hsa hs.driver (hno slot)
        (by rw [hcol]; simp) hrev
    · rcases hi.slots (hs.revoked ▸ hlive) slot with hidle | ⟨x, after, hb⟩
      · rw [Idle, hset.pending] at hidle
        cases hidle.1
      obtain ⟨-, hsg, ht⟩ : (dev.requests slot).state = .pending ∧
          (¬ x.1.IsSg → (dev.requests slot).sg = none) ∧
          ∀ b, dev.backing = .driver b → dev.tokens slot = x.1.token := by
        rcases hb.state with hp | ⟨-, hp, -⟩
        · exact hp
        · exact absurd hset.pending hp
      have hu := uses_of_other (h := h) (hno slot)
      obtain ⟨sg, hres⟩ := hset.result
      have hna : Names x.1 (requestId (uses h slot) slot) d.source := by
        cases hsrc : d.source with
        | entry e => rw [Names, hset.entry e hsrc, hb.generation]
        | reap r =>
          obtain ⟨hrs, hrt⟩ := hset.reap r hsrc
          obtain ⟨b, hdrv⟩ := hdr r hsrc
          refine ⟨?_, (hrt trivial).trans (ht b hdrv)⟩
          rw [idSlot_requestId (hbo slot), hrs, map_some]
        | transfer => trivial
      refine .inr ⟨x, after ++ [y], ?_, ?_, hb.quiet.snoc (hno slot), .inr ⟨hset.state.1,
        hset.state.2, d.outcome, ?_, ?_, ?_, ?_⟩⟩
      · rw [hres, hu]; exact hb.generation
      · rw [hu]; exact hb.since.snoc (by rw [hcol]; simp) hrev
      · rw [hu]
        exact ⟨y, by simp, d, hd, hset.here, rfl, hbr, hna, hset.gives⟩
      · rw [hres]; rfl
      · rw [hres]; rfl
      · intro hnsg hop hdo
        rw [hres] at hop hdo ⊢
        have hst : d.outcome.status = 0 := by
          by_contra hne
          simp [Request.settle, hne] at hdo
        obtain ⟨data, hda⟩ := hset.data hop (hsg hnsg) hst
        simp [Request.settle, hda]
  · intro hde slot
    have hf := hi.dead (hs.revoked ▸ hde) slot
    rcases hs.slots slot with ⟨hreq, -⟩ | ⟨d, -, -, hset⟩
    · rw [hreq]; exact hf
    · rw [hset.pending] at hf
      cases hf
  · intro slot hne
    rcases hs.slots slot with ⟨hreq, -⟩ | ⟨d, -, -, hset⟩
    · rw [← hreq]; exact hne
    · rw [hset.pending]; simp

theorem Inv.ready (hrea : Ready dev id slot) :
    ∃ x after, Busy h dev slot x after ∧ id = requestId (uses h slot) slot := by
  have hne : (dev.requests slot).state ≠ .free := by
    rcases hrea.settled with hst | hst <;> rw [hst] <;> simp
  have hlive : dev.revoked = false := by
    simpa using fun hrev => hne (hi.dead hrev slot)
  rcases hi.slots hlive slot with hidle | ⟨x, after, hb⟩
  · exact absurd hidle.1 hne
  · refine ⟨x, after, hb, ?_⟩
    rw [← hb.generation, hrea.generation]
    exact eq_requestId hrea.named

theorem Inv.collects {length : Option ℕ} {out : Collected} (hrea : Ready dev id slot)
    (hok : out.ok = true) (hbo : ∀ s, uses h s < 2 ^ 32) :
    Inv (h ++ [(.collect id length, .collected out)]) (dev.setRequest slot
      { (dev.requests slot).clear with
        generation := nextGeneration (dev.requests slot).generation }) := by
  obtain ⟨x, after, hb, rfl⟩ := hi.ready hrea
  set id := requestId (uses h slot) slot with hid
  set y : Call × Answer := (.collect id length, .collected out) with hy
  set dev' := dev.setRequest slot { (dev.requests slot).clear with
    generation := nextGeneration (dev.requests slot).generation } with hdev
  have hno : ∀ s, y.2.id.bind idSlot ≠ some s := fun s => by simp [hy, Answer.id]
  have hcol : collectedId y = some id := by simp [hy, collectedId, hok]
  have hu : ∀ s, uses (h ++ [y]) s = uses h s := fun s => uses_of_other (hno s)
  have hse : dev'.requests slot = { (dev.requests slot).clear with
    generation := nextGeneration (dev.requests slot).generation } := setRequest_self dev slot _
  have hot : ∀ s, s ≠ slot → dev'.requests s = dev.requests s :=
    fun s hs => setRequest_of_ne dev _ hs
  have hlive : dev.revoked = false := by
    simpa using fun hrev => hb.not_free (hi.dead hrev slot)
  have hsub : submittedIds (h ++ [y]) = submittedIds h := by
    rw [submittedIds_snoc]; simp [hy, Answer.id]
  have hcols : collectedIds (h ++ [y]) = collectedIds h ++ [id] := by
    rw [collectedIds_snoc, hcol]; rfl
  refine ⟨?_, fun hrev => by simp [hdev, Device.setRequest, hlive] at hrev, ?_, ?_,
    by rw [hsub]; exact hi.distinct, ?_⟩
  · intro _ s
    by_cases hs : s = slot
    · subst hs
      refine .inl ⟨by rw [hse]; rfl, by rw [hse]; rfl, ?_⟩
      rw [hse, hu, ← hb.generation]
    refine hi.slot_carry hlive ⟨hot s hs, rfl⟩ (fun _ h => h) (hno s) ?_ (fun hr => hr)
    rw [hcol]
    intro heq
    exact hs (requestId_inj (hbo slot) (hbo s) (some.inj heq)).2.symm
  · intro id' hmem
    rw [hsub] at hmem
    obtain ⟨k, s, rfl, hk⟩ := hi.submitted id' hmem
    exact ⟨k, s, rfl, by rw [hu]; exact hk⟩
  · intro id' hmem
    rw [hcols] at hmem
    rcases mem_append.mp hmem with hmem | hmem
    · obtain ⟨k, s, rfl, hk, hlt⟩ := hi.collected id' hmem
      refine ⟨k, s, rfl, by rw [hu]; exact hk, fun hne => ?_⟩
      rw [hu]
      apply hlt
      by_cases hs : s = slot
      · rw [hs]; exact hb.not_free
      · rw [← hot s hs]; exact hne
    · rw [mem_singleton.mp hmem]
      refine ⟨_, slot, hid, by rw [hu], fun hne => ?_⟩
      rw [hse] at hne
      exact absurd rfl hne
  · rw [hcols, nodup_append]
    refine ⟨hi.once, by simp, ?_⟩
    intro id' hmem id'' hid''
    rw [mem_singleton.mp hid'']
    rintro rfl
    obtain ⟨k, s, heq, hk, hlt⟩ := hi.collected _ hmem
    obtain ⟨hkk, hss⟩ := requestId_inj (hbo slot) (lt_of_le_of_lt hk (hbo s)) heq
    subst hss
    have := hlt hb.not_free
    omega

end

end Step

theorem revoke_cases (dev : Device) (released : Bool) :
    (blockRevoke dev released).2 = dev ∧ dev.revoked = true ∨
      (blockRevoke dev released).2.revoked = true ∧
        ∀ slot, ((blockRevoke dev released).2.requests slot).state = .free := by
  unfold blockRevoke
  split
  · next hrev =>
    exact .inl ⟨rfl, hrev⟩
  · right
    cases dev.backing <;> exact ⟨rfl, fun _ => rfl⟩

theorem Inv.step (hi : Inv h dev) (call : Call) (hh : Honest dev call)
    (hb : ∀ slot, uses (h ++ [(call, (step dev call).1)]) slot < 2 ^ 32) :
    Inv (h ++ [(call, (step dev call).1)]) (step dev call).2 := by
  have hlt : ∀ slot, uses h slot < 2 ^ 32 :=
    fun slot => lt_of_le_of_lt (uses_le slot) (hb slot)
  cases call with
  | submit op lba sectors buffer length issue =>
    rcases submit_cases dev op lba sectors buffer length issue with ⟨hid, hq⟩ | ⟨slot, ho⟩
    · exact hi.quiet hq hid rfl (fun hr => hr)
    · exact hi.opens ho hb rfl (fun hr => hr) (by rintro c rfl; trivial)
  | submitSg op lba sectors sg issue =>
    rcases submitSg_cases dev op lba sectors sg issue with ⟨hid, hq⟩ | ⟨slot, ho⟩
    · exact hi.quiet hq hid rfl (fun hr => hr)
    · exact hi.opens ho hb rfl (fun hr => hr) (by rintro c rfl; trivial)
  | service arrivals => exact hi.served (service_cases dev arrivals fun _ => hh) hlt
  | collect id length =>
    rcases collect_cases dev id length with ⟨hf, hs, -⟩ | ⟨slot, hrea, hok, hdev, -, -⟩
    · have hc : collectedId (.collect id length, .collected (blockCollect dev id length).1) =
          none := by simp [collectedId, hf]
      simp only [BlockRequest.step, hs]
      exact hi.quiet (Quiet.refl dev) rfl hc (fun hr => hr)
    · simp only [BlockRequest.step, hdev]
      exact hi.collects hrea hok hlt
  | revoke released =>
    have hdea : (blockRevoke dev released).2.revoked = true ∧
        ∀ slot, ((blockRevoke dev released).2.requests slot).state = .free := by
      rcases revoke_cases dev released with ⟨hs, hrev⟩ | hdea
      · rw [hs]
        exact ⟨hrev, hi.dead hrev⟩
      · exact hdea
    exact hi.carry rfl rfl (fun hlive => absurd (hdea.1.symm.trans hlive) (by simp))
      (fun _ => hdea.2) (fun slot hne => absurd (hdea.2 slot) hne)

/-- The reap callbacks are honest, no slot is handed out 2^32 times, and the ids of
scatter-gather submissions are collected without a buffer. -/
structure Proper (dev : Device) (calls : List Call) : Prop where
  honest : ∀ before call after, calls = before ++ call :: after →
    Honest (runCalls dev before) call
  bound : ∀ slot, uses (history dev calls) slot < 2 ^ 32
  noBuffer : ∀ before id length after, calls = before ++ Call.collect id (some length) :: after →
    ∀ x ∈ history dev before, x.2.id = some id → ¬ x.1.IsSg

theorem uses_history_le (dev : Device) (calls more : List Call) (slot : Fin 16) :
    uses (history dev calls) slot ≤ uses (history dev (calls ++ more)) slot := by
  rw [history_append, uses, uses, submittedIds, submittedIds, filterMap_append, countP_append]
  omega

theorem inv_run (hf : Fresh dev) (calls : List Call)
    (honest : ∀ before call after, calls = before ++ call :: after →
      Honest (runCalls dev before) call)
    (hb : ∀ slot, uses (history dev calls) slot < 2 ^ 32) :
    Inv (history dev calls) (runCalls dev calls) := by
  induction calls using List.reverseRecOn with
  | nil => exact inv_fresh hf
  | append_singleton calls call ih =>
    have hpre := ih (fun before c after heq =>
      honest before c (after ++ [call]) (by rw [heq]; simp))
      (fun slot => lt_of_le_of_lt (uses_history_le dev calls [call] slot) (hb slot))
    rw [history_snoc] at hb ⊢
    rw [runCalls_snoc]
    exact hpre.step call (honest calls call [] rfl) hb

/-- Along every proper run of a fresh device the ids are distinct, each is collected at most
once, a collection of an id that is not outstanding does nothing, and every collection hands
over the result of a completion that named its submission. -/
theorem identity_of_proper (dev : Device) (hf : Fresh dev) (calls : List Call)
    (hp : Proper dev calls) : Identity dev calls := by
  have hinv : ∀ before after, calls = before ++ after →
      Inv (history dev before) (runCalls dev before) ∧
        ∀ slot, uses (history dev before) slot < 2 ^ 32 := by
    intro before after heq
    have hb : ∀ slot, uses (history dev before) slot < 2 ^ 32 := by
      intro slot
      have hle := uses_history_le dev before after slot
      rw [← heq] at hle
      exact lt_of_le_of_lt hle (hp.bound slot)
    exact ⟨inv_run hf before (fun b c a h' =>
      hp.honest b c (a ++ after) (by rw [heq, h']; simp)) hb,
      hb⟩
  have hall := (hinv calls [] (by simp)).1
  refine ⟨hall.distinct, hall.once, ?_, ?_⟩
  · intro before id length after heq hsta
    have hi := (hinv before _ heq).1
    have hnot : ∀ slot, ¬ Ready (runCalls dev before) id slot := by
      intro slot hrea
      obtain ⟨x, rest, hb, hid⟩ := hi.ready hrea
      exact hsta ⟨x, rest, hid ▸ hb.since⟩
    rcases collect_cases (runCalls dev before) id length with
      ⟨-, hsa, ⟨slot, hrea⟩ | hnon⟩ | ⟨slot, hrea, -⟩
    · exact absurd hrea (hnot slot)
    · exact Prod.ext hnon hsa
    · exact absurd hrea (hnot slot)
  · intro before id length after heq hok
    obtain ⟨hi, hb⟩ := hinv before _ heq
    rcases collect_cases (runCalls dev before) id length with
      ⟨hfa, -⟩ | ⟨slot, hrea, -, -, hrep, hby, -⟩
    · rw [hfa] at hok
      cases hok
    obtain ⟨x, rest, hbu, rfl⟩ := hi.ready hrea
    rcases hbu.state with ⟨hpe, -, -⟩ | ⟨-, -, o, hcom, hst, htr, hda⟩
    · rcases hrea.settled with h' | h' <;> rw [hpe] at h' <;> cases h'
    refine ⟨x, rest, slot, o, hbu.since, hrea.named, hbu.quiet, hcom, ?_, ?_⟩
    · rw [hrep, hst, htr]
    · intro bytes hso
      obtain ⟨hlen, hop, hdo, hcop⟩ := hby bytes hso
      obtain ⟨n, rfl⟩ := isSome_iff_exists.mp hlen
      obtain ⟨pre, hsp⟩ := hbu.since.split
      have hnsg : ¬ x.1.IsSg := hp.noBuffer before _ n after heq x
        (by rw [hsp]; simp) hbu.since.returned
      exact ⟨_, hda hnsg hop hdo, by rw [hcop, htr]⟩

theorem uses_le_length (h : History) (slot : Fin 16) : uses h slot ≤ h.length :=
  countP_le_length.trans (length_filterMap_le _ _)

/-- A device of eight sectors, just bound. -/
def boundDevice (backing : Backing) : Device where
  requests := fun _ => ⟨none, 1, .free, none, 0, 0, 0, 0, Image.zero⟩
  tokens := fun _ => 0
  backing := backing
  sectorCount := 8
  readOnly := false
  defer := true
  revoked := false

theorem fresh_boundDevice (backing : Backing) : Fresh (boundDevice backing) :=
  ⟨rfl, fun _ => rfl, fun _ => rfl, fun _ => rfl⟩

/-- A capsule answers a read with a forged entry before the true one, and the id is
collected twice. -/
def capsuleRun : List Call :=
  [.submit 1 5 1 (some Image.zero) 512 ⟨true, 0⟩,
    .service ⟨[⟨requestId 7 0, 0, 512, some Image.zero⟩,
      ⟨requestId 1 0, 0, 512, some Image.zero⟩], []⟩,
    .collect (requestId 1 0) (some 512), .collect (requestId 1 0) (some 512)]

theorem call_mem_of_history {calls : List Call} (h : x ∈ history dev calls) : x.1 ∈ calls := by
  induction calls generalizing dev with
  | nil => simp [history] at h
  | cons call calls ih =>
    rcases mem_cons.mp h with rfl | h
    · exact mem_cons_self
    · exact mem_cons_of_mem _ (ih h)

theorem identity_capsuleRun : Identity (boundDevice .capsule) capsuleRun := by
  refine identity_of_proper _ (fresh_boundDevice _) _ ⟨?_, ?_, ?_⟩
  · intro before call after h
    rcases before with _ | ⟨_, _ | ⟨_, _ | ⟨_, _ | ⟨_, before⟩⟩⟩⟩ <;>
      simp only [capsuleRun, nil_append, cons_append, List.cons.injEq] at h
    · obtain ⟨rfl, -⟩ := h
      trivial
    · obtain ⟨rfl, rfl, -⟩ := h
      intro b hb
      have : Backing.capsule = .driver b := hb
      cases this
    · obtain ⟨rfl, rfl, rfl, -⟩ := h
      trivial
    · obtain ⟨rfl, rfl, rfl, rfl, -⟩ := h
      trivial
    · simp at h
  · intro slot
    exact lt_of_le_of_lt (uses_le_length _ _) (by decide)
  · intro before id length after h x hx _ hsg
    have hmem : x.1 ∈ capsuleRun := by
      rw [h]
      exact mem_append_left _ (call_mem_of_history hx)
    simp only [capsuleRun, mem_cons, not_mem_nil, or_false] at hmem
    rcases hmem with hc | hc | hc | hc <;> rw [hc] at hsg <;> exact hsg

/-- A revoked device, its slots taken back, refuses every call. -/
theorem step_dead (hrev : dev.revoked = true) (hfr : ∀ slot, (dev.requests slot).state = .free)
    (call : Call) : (step dev call).2 = dev ∧ (step dev call).1.id = none ∧
      (step dev call).1.deliveries = [] ∧ collectedId (call, (step dev call).1) = none := by
  cases call with
  | submit op lba sectors buffer length issue =>
    simp only [step, blockSubmit, hrev, true_or, if_true]
    split <;> exact ⟨rfl, rfl, rfl, rfl⟩
  | submitSg op lba sectors sg issue =>
    simp only [step, blockSubmitSg, hrev, true_or, if_true]
    split <;> exact ⟨rfl, rfl, rfl, rfl⟩
  | collect id length =>
    rcases collect_cases dev id length with ⟨hfa, hs, -⟩ | ⟨slot, hrea, -⟩
    · exact ⟨hs, rfl, rfl, by simp [step, collectedId, hfa]⟩
    · rcases hrea.settled with h | h <;> rw [hfr] at h <;> cases h
  | service arrivals | revoke released =>
    simp only [step, blockService, blockRevoke, hrev, if_true]
    exact ⟨trivial, rfl, rfl, rfl⟩

/-- Revocation is final. Whatever a live device was doing, no later call gets an id, applies a
completion or collects a result, and none changes the device. -/
theorem revoke_is_final (dev : Device) (hlive : dev.revoked = false) (released : Bool)
    (calls : List Call) :
    let dead := (blockRevoke dev released).2
    runCalls dead calls = dead ∧ ∀ x ∈ history dead calls,
      x.2.id = none ∧ x.2.deliveries = [] ∧ collectedId x = none := by
  intro dead
  obtain ⟨-, hrev⟩ | ⟨hrev, hf⟩ := revoke_cases dev released
  · rw [hlive] at hrev
    cases hrev
  induction calls with
  | nil => exact ⟨rfl, by simp [history]⟩
  | cons call calls ih =>
    obtain ⟨hs, href⟩ := step_dead hrev hf call
    rw [runCalls, foldl_cons, history, hs]
    exact ⟨ih.1, forall_mem_cons.mpr ⟨href, ih.2⟩⟩

/-- A capsule that answers a read after the revocation. -/
theorem revoke_is_final_capsule :
    let dead := (blockRevoke (runCalls (boundDevice .capsule) (capsuleRun.take 1)) true).2
    runCalls dead (capsuleRun.drop 1) = dead :=
  (revoke_is_final (runCalls (boundDevice .capsule) (capsuleRun.take 1)) (by decide) true _).1

/-- A read is collected, and a scatter-gather read takes its slot. -/
def sgReuse : List Call :=
  [.submit 1 0 1 (some Image.zero) 512 ⟨true, 1⟩, .service ⟨[], [⟨0, 0, fun _ => 1, 1⟩]⟩,
    .collect (requestId 1 0) (some 512), .submitSg 1 3 1 (some ⟨9, [512], true, true⟩) ⟨true, 1⟩,
    .service ⟨[], [⟨0, 0, Image.zero, 1⟩]⟩]

/-- The service call already dropped the scatter-gather object, so a collection with a
buffer is let through and hands over the bytes of the read before. -/
theorem sgReuse_leaks :
    (blockCollect (runCalls (boundDevice (.driver true)) sgReuse) (requestId 2 0) (some 512)).1 =
      ⟨true, some (0, 512), some (copyOut (fun _ => 1) 512)⟩ ∧
    ¬ Identity (boundDevice (.driver true)) (sgReuse ++ [.collect (requestId 2 0) (some 512)]) := by
  refine ⟨rfl, fun hid => ?_⟩
  obtain ⟨x, after, slot, o, hsi, -, -, ⟨y, hy, d, hd, -, ho, -⟩, -, hb⟩ :=
    hid.origin sgReuse (requestId 2 0) (some 512) [] rfl (by decide)
  obtain ⟨data, hda, -⟩ := hb _ rfl
  obtain ⟨e1, e2, e3, e4, e5, hh, h1, h2, h3, h4, h5, h5'⟩ : ∃ e1 e2 e3 e4 e5,
      history (boundDevice (.driver true)) sgReuse = [e1, e2, e3, e4, e5] ∧
      e1.2.id = some (requestId 1 0) ∧ e2.2.id = none ∧ e3.2.id = none ∧
      e4.2.deliveries = [] ∧ e5.2.id = none ∧
      ∀ d ∈ e5.2.deliveries, d.outcome.data.isSome = false :=
    ⟨_, _, _, _, _, rfl, by decide, rfl, rfl, rfl, rfl, by decide⟩
  obtain ⟨before, hsp⟩ := hsi.split
  have hx := hsi.returned
  rw [hh] at hsp
  have ht : x = e4 ∧ after = [e5] := by
    rcases before with _ | ⟨_, _ | ⟨_, _ | ⟨_, _ | ⟨_, _ | ⟨_, before⟩⟩⟩⟩⟩ <;>
      simp only [nil_append, cons_append, List.cons.injEq] at hsp
    · rw [← hsp.1, h1] at hx
      exact absurd hx (by decide)
    · rw [← hsp.2.1, h2] at hx
      cases hx
    · rw [← hsp.2.2.1, h3] at hx
      cases hx
    · exact ⟨hsp.2.2.2.1.symm, hsp.2.2.2.2.symm⟩
    · rw [← hsp.2.2.2.2.1, h5] at hx
      cases hx
    · simp at hsp
  rw [ht.1, ht.2, mem_cons, mem_singleton] at hy
  rcases hy with rfl | rfl
  · rw [h4] at hd
    cases hd
  · have := h5' d hd
    rw [ho, hda] at this
    cases this

end MichCore.BlockRequest
