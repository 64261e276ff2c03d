import MichCore.TcpIdentity

/-!
# The retransmission timers

Every entry of a retransmission table has a node in the heap, with its deadline and the timer
version of its connection. A tick that finds nothing to do then means that nothing is due,
provided that the heap is in order, and that no deadline lies across the wrap of the clock.

`deadline_pop` can put the heap out of order, and `deadline_push` drops the node when the heap is
full, so both are conditions here.
-/
namespace MichCore.Tcp

open Endpoint BinaryHeap List

theorem popLoop_perm (item : Deadline) (fuel : ℕ) (xs : List Deadline) (i : ℕ)
    (hi : i < xs.length) : (popLoop item fuel xs i).Perm (xs.set i item) := by
  induction fuel generalizing xs i with
  | zero => exact List.Perm.refl _
  | succ fuel ih =>
    rw [popLoop]
    split
    · exact List.Perm.refl _
    · next hne =>
      split
      · next child hc =>
        obtain ⟨hj, hget⟩ := List.getElem?_eq_some_iff.mp hc
        have hl := ih (xs.set i child) (smallest xs i) (by rwa [length_set])
        refine hl.trans ?_
        -- The hole and the child change places.
        have hs := @set_set_perm _ (xs.set i item) i (smallest xs i)
          (by rwa [length_set]) (by rwa [length_set])
        rw [getElem_set_self, getElem_set_ne (Ne.symm hne), hget, set_set] at hs
        exact hs
      · exact List.Perm.refl _

theorem deadlinePop_perm (d : Deadline) (ds : List Deadline) : (deadlinePop (d :: ds)).Perm ds := by
  unfold deadlinePop
  split
  · next hno => simp at hno
  · next item hl =>
    simp only
    have hs := dropLast_append_getLast? item hl
    split
    · next he =>
      rw [he, nil_append, List.cons.injEq] at hs
      rw [← hs.2]
    · next hne =>
      obtain ⟨rest, hr⟩ : ∃ rest, (d :: ds).dropLast = d :: rest := by
        cases ds with
        | nil => exact absurd rfl hne
        | cons x xs => exact ⟨_, rfl⟩
      rw [hr] at hs ⊢
      have ht : rest ++ [item] = ds := (List.cons.inj hs).2
      refine (popLoop_perm item _ _ 0 (by simp)).trans ?_
      rw [set_set, set_cons_zero, ← ht]
      exact (perm_append_singleton item rest).symm

/-- The last node is not behind the children of the place where the loop of `deadline_pop`
leaves it: the loop never goes further than one step. -/
def Settles (xs : List Deadline) : Prop :=
  ∀ item ∈ xs.getLast?, ∀ k > 0, parent k = smallest (xs.dropLast.set 0 item) 0 →
    ∀ x ∈ (xs.dropLast.set 0 item)[k]?, item.key ≤ x.key

/-- Only the two children of that place are looked at. -/
theorem settles_iff (xs : List Deadline) : Settles xs ↔
    ∀ item ∈ xs.getLast?, ∀ k ∈ [2 * smallest (xs.dropLast.set 0 item) 0 + 1,
      2 * smallest (xs.dropLast.set 0 item) 0 + 2],
      ∀ x ∈ (xs.dropLast.set 0 item)[k]?, item.key ≤ x.key := by
  refine forall_congr' fun item => forall_congr' fun _ => forall_congr' fun k => ?_
  have hc : k ∈ [2 * smallest (xs.dropLast.set 0 item) 0 + 1,
      2 * smallest (xs.dropLast.set 0 item) 0 + 2] ↔
      k > 0 ∧ parent k = smallest (xs.dropLast.set 0 item) 0 := by
    simp only [mem_cons, not_mem_nil, or_false, parent]
    omega
  rw [hc, and_imp]

instance (xs : List Deadline) : Decidable (Settles xs) := decidable_of_iff' _ (settles_iff xs)

variable {xs : List Deadline}

theorem earlier_spec {j : ℕ} {y : Deadline} (hy : xs[j]? = some y) (i : ℕ) :
    let k := if (match xs[i]?, xs[j]? with
      | some a, some b => a.deadline < b.deadline
      | _, _ => false : Bool) then i else j
    ∃ low, xs[k]? = some low ∧ (k = i ∧ low.key < y.key ∨ k = j ∧ low = y) ∧
      ∀ x ∈ xs[i]?, low.key ≤ x.key := by
  intro k
  cases hx : xs[i]? with
  | none =>
    have hk : k = j := by simp [k, hx]
    exact ⟨y, hk ▸ hy, .inr ⟨hk, rfl⟩, nofun⟩
  | some x =>
    by_cases hlt : x.deadline < y.deadline
    · have hk : k = i := by simp [k, hx, hy, hlt]
      refine ⟨x, hk ▸ hx, .inl ⟨hk, UInt32.lt_iff_toNat_lt.mp hlt⟩, ?_⟩
      rintro _ ⟨⟩
      exact Nat.le_refl _
    · have hk : k = j := by simp [k, hx, hy, hlt]
      refine ⟨y, hk ▸ hy, .inr ⟨hk, rfl⟩, ?_⟩
      rintro _ ⟨⟩
      exact Nat.le_of_not_lt fun h => hlt (UInt32.lt_iff_toNat_lt.mpr h)

theorem smallest_spec {i : ℕ} {top : Deadline} (htop : xs[i]? = some top) :
    ∃ low, xs[smallest xs i]? = some low ∧
      (smallest xs i = i ∧ low = top ∨
        i < smallest xs i ∧ parent (smallest xs i) = i ∧ low.key < top.key) ∧
      ∀ k > 0, parent k = i → ∀ x ∈ xs[k]?, low.key ≤ x.key := by
  obtain ⟨left, hlef, hf, hmin⟩ := earlier_spec htop (2 * i + 1)
  obtain ⟨low, hlow, hs, hmin'⟩ := earlier_spec hlef (2 * i + 2)
  change xs[smallest xs i]? = some low at hlow
  change smallest xs i = _ ∧ _ ∨ smallest xs i = _ ∧ _ at hs
  have hle : low.key ≤ left.key := by
    rcases hs with ⟨-, h⟩ | ⟨-, h⟩
    · exact h.le
    · rw [h]
  refine ⟨low, hlow, ?_, fun k hk hp x hx => ?_⟩
  · unfold parent
    rcases hs with ⟨hs, h⟩ | ⟨hs, rfl⟩ <;> rcases hf
      with ⟨hf, h'⟩ | ⟨hf, rfl⟩
    · exact .inr ⟨by omega, by omega, h.trans h'⟩
    · exact .inr ⟨by omega, by omega, h⟩
    · exact .inr ⟨by omega, by omega, h'⟩
    · exact .inl ⟨by omega, rfl⟩
  · unfold parent at hp
    obtain rfl | rfl : k = 2 * i + 1 ∨ k = 2 * i + 2 := by omega
    · exact hle.trans (hmin x hx)
    · exact hmin' x hx

/-- The loop of `deadline_pop` ends after one step at most: below the first place it compares
with a node that is in order already. -/
theorem popLoop_places {ys : List Deadline} {item : Deadline} {n : ℕ} (hn : ys.length = n + 1)
    (htop : ys[0]? = some item) {low : Deadline} (hlow : ys[smallest ys 0]? = some low)
    (hb : ∀ k p x, 0 < parent k → ys[parent k]? = some p → ys[k]? = some x → p.key ≤ x.key)
    (k : ℕ) :
    (popLoop item (n + 1) ys 0)[k]? =
      if k = smallest ys 0 then some item else if k = 0 then some low else ys[k]? := by
  obtain ⟨_, -, hc, -⟩ := smallest_spec htop
  rw [popLoop]
  rcases hc with ⟨hz, -⟩ | ⟨hpos, -, -⟩
  · simp only [hz, if_true]
    by_cases hk : k = 0
    · simp [hk, hn]
    · simp [hk, getElem?_set_ne (Ne.symm hk)]
  · have hj := (List.getElem?_eq_some_iff.mp hlow).1
    have hget : ∀ k, (ys.set 0 low)[k]? = if k = 0 then some low else ys[k]? := by
      intro k
      by_cases hk : k = 0
      · simp [hk, hn]
      · simp [hk, getElem?_set_ne (Ne.symm hk)]
    have hm : (ys.set 0 low)[smallest ys 0]? = some low := by
      rw [hget, if_neg (Nat.ne_of_gt hpos), hlow]
    have hs : smallest (ys.set 0 low) (smallest ys 0) = smallest ys 0 := by
      obtain ⟨low', hlow', ⟨hs, -⟩ | ⟨hgt, hpa, hlt⟩, -⟩ := smallest_spec hm
      · exact hs
      · rw [hget, if_neg (by omega)] at hlow'
        have hle := hb _ low low' (by rwa [hpa]) (by rwa [hpa]) hlow'
        omega
    obtain ⟨m, rfl⟩ : ∃ m, n = m + 1 := ⟨n - 1, by omega⟩
    simp only [Nat.ne_of_gt hpos, if_false, hlow]
    rw [popLoop]
    simp only [hs, if_true]
    split
    · next hk =>
      rw [hk, getElem?_set_self (by rwa [length_set])]
    · next hk =>
      rw [getElem?_set_ne (Ne.symm hk), hget]

theorem deadlinePop_ordered_iff (h : Ordered Deadline.key xs) :
    Ordered Deadline.key (deadlinePop xs) ↔ Settles xs := by
  unfold deadlinePop Settles
  cases hla : xs.getLast? with
  | none => exact iff_of_true nofun nofun
  | some item =>
    simp only [Option.mem_some_iff, forall_eq']
    by_cases he : xs.dropLast = []
    · simp only [he, if_true]
      exact iff_of_true nofun nofun
    rw [if_neg he]
    set ys := xs.dropLast.set 0 item with hys
    obtain ⟨n, hn⟩ : ∃ n, ys.length = n + 1 :=
      ⟨ys.length - 1, by have := length_pos_iff.mpr he; simp [hys] at this ⊢; omega⟩
    have hke : ∀ k x, 0 < k → ys[k]? = some x → xs[k]? = some x := by
      intro k x hk hx
      rw [hys, getElem?_set_ne (Nat.ne_of_lt hk), getElem?_dropLast] at hx
      split_ifs at hx
      exact hx
    have htop : ys[0]? = some item := getElem?_set_self (length_pos_iff.mpr he)
    have hb : ∀ k p x, 0 < parent k → ys[parent k]? = some p →
        ys[k]? = some x → p.key ≤ x.key := by
      intro k p x hpos hp hx
      have hk : 0 < k := by unfold parent at hpos; omega
      exact h k p x hk (hke _ p hpos hp) (hke k x hk hx)
    obtain ⟨low, hlow, hc, hmin⟩ := smallest_spec htop
    have hplaces := popLoop_places hn htop hlow hb
    rw [show xs.dropLast.length = n + 1 by rw [← hn, hys, length_set]]
    constructor
    · intro ho k hk hpa x hx
      have := parent_lt hk
      exact ho k item x hk (by rw [hplaces, if_pos hpa])
        (by rw [hplaces, if_neg (by omega), if_neg (by omega)]; exact hx)
    · intro hs k p x hk hp hx
      have hlt := parent_lt hk
      rw [hplaces] at hp hx
      by_cases hpa : parent k = smallest ys 0
      · rw [if_pos hpa, Option.some.injEq] at hp
        rw [if_neg (by omega), if_neg (by omega)] at hx
        exact hp ▸ hs k hk hpa x hx
      rw [if_neg hpa] at hp
      by_cases hr : parent k = 0
      · rw [if_pos hr, Option.some.injEq] at hp
        subst hp
        by_cases hplace : k = smallest ys 0
        · rw [if_pos hplace, Option.some.injEq] at hx
          rcases hc with ⟨hz, -⟩ | ⟨-, -, hlt'⟩
          · omega
          · exact hx ▸ hlt'.le
        · rw [if_neg hplace, if_neg (by omega)] at hx
          exact hmin k hk hr x hx
      · rw [if_neg hr] at hp
        have hplace : k ≠ smallest ys 0 := by
          rintro rfl
          rcases hc with ⟨hz, -⟩ | ⟨-, hz, -⟩ <;> omega
        rw [if_neg hplace, if_neg (by omega)] at hx
        exact hb k p x (Nat.pos_of_ne_zero hr) hp hx

/-- The two operations on the heap, as the rest of the module calls them. -/
inductive HeapOp where
  | push (d : Deadline)
  | pop

def HeapOp.apply (xs : List Deadline) : HeapOp → List Deadline
  | .push d => if 1024 ≤ xs.length then xs else BinaryHeap.push Deadline.key xs d
  | .pop => deadlinePop xs

def runHeap (ops : List HeapOp) : List Deadline := ops.foldl HeapOp.apply []

/-- A pop of an ordered heap takes one node with the smallest deadline. The heap is in order all
along exactly if every pop finds a last node that settles. -/
theorem heap_ordered_iff (ops : List HeapOp) :
    (∀ k xs, ops[k]? = some .pop → runHeap (ops.take k) = xs → xs ≠ [] → Ordered Deadline.key xs →
      ∃ d ∈ xs, (∀ x ∈ xs, d.key ≤ x.key) ∧ (d :: deadlinePop xs).Perm xs) ∧
    ((∀ k, Ordered Deadline.key (runHeap (ops.take k))) ↔
      ∀ k, ops[k]? = some .pop → Settles (runHeap (ops.take k))) := by
  have hnex : ∀ k op, ops[k]? = some op →
      runHeap (ops.take (k + 1)) = op.apply (runHeap (ops.take k)) := by
    intro k op hop
    rw [take_add_one, hop, runHeap, foldl_append]
    rfl
  refine ⟨?_, fun h k hpop => ?_, fun h k => ?_⟩
  · rintro k (_ | ⟨d, ds⟩) - - hne hor
    · exact absurd rfl hne
    · exact ⟨d, mem_cons_self, fun x hx => hor.head_le hx, (deadlinePop_perm d ds).cons d⟩
  · refine (deadlinePop_ordered_iff (h k)).mp ?_
    have haf := h (k + 1)
    rwa [hnex k _ hpop] at haf
  · induction k with
    | zero => exact nofun
    | succ k ih =>
      cases hop : ops[k]? with
      | none =>
        rw [getElem?_eq_none_iff] at hop
        rwa [take_of_length_le (by omega), ← take_of_length_le hop]
      | some op =>
        rw [hnex k op hop]
        cases op with
        | push d =>
          rw [HeapOp.apply]
          split
          · exact ih
          · exact push_ordered ih d
        | pop => exact (deadlinePop_ordered_iff ih).mpr (h k hop)

/-- Deadlines 1, 2, 10, 3, 4 and 11 go in and the first is taken. Then 11 stands above 3 and 4,
and the second pop brings 4 to the front before 3. -/
theorem heap_disordered :
    let node (deadline : UInt32) : Deadline := ⟨deadline, 0, .retransmit, 0, 0⟩
    let pushes := [1, 2, 10, 3, 4, 11].map (fun d => HeapOp.push (node d))
    ¬ Ordered Deadline.key (runHeap (pushes ++ [.pop])) ∧
      (runHeap (pushes ++ [.pop, .pop])).map Deadline.key = [4, 11, 10, 3] := by
  decide

theorem Endpoint.fire_skip_retransmit {c c' : Endpoint} {t : Timer} {env : Env} {id : UInt64}
    (h : c.fire env id t = .skip c') (hk : t.kind = .retransmit) (e : Retransmission)
    (he : c.retransmissions t.entry = some e) : e.deadline ≠ t.deadline := by
  rw [fire, hk] at h
  simp only [fireRetransmit, he] at h
  split at h
  · next hne => exact hne
  · split at h <;> cases h

namespace Stack

/-- The node of entry `i` of slot `j` at a deadline. -/
def nodeOf (stack : Stack) (j : Fin 32) (i : Fin 8) (deadline : UInt32) : Deadline :=
  ⟨deadline, j, .retransmit, i, (stack.connections j).timerVersion⟩

/-- Every entry of a connection in use has its node among these. -/
def TimedBy (stack : Stack) (nodes : List Deadline) : Prop :=
  ∀ j, (stack.connections j).active → ∀ i e, (stack.connections j).retransmissions i = some e →
    stack.nodeOf j i e.deadline ∈ nodes

/-- Every entry has its node and, as far as `sorted` is asked for, the heap is in order. -/
structure Scheduled (stack : Stack) (sorted : Prop) : Prop where
  timed : stack.TimedBy stack.deadlines
  ordered : sorted → Ordered Deadline.key stack.deadlines

/-- There is room in the heap for what a call may push. -/
def HasRoom (stack : Stack) : Prop := stack.deadlines.length + 3 ≤ 1024
  deriving Decidable

variable {stack stack' : Stack} {c c' : Endpoint} {i : Fin 32} {n : ℕ} {env : Env} {id : UInt64}
  {t : Timer} {sorted : Prop}

theorem deadlinePush_ordered (h : Ordered Deadline.key stack.deadlines) (i : Fin 32)
    (v : UInt32) (t : Timer) : Ordered Deadline.key (stack.deadlinePush i v t).deadlines := by
  unfold deadlinePush
  split
  · exact h
  · exact push_ordered h _

theorem pushAll_ordered (h : Ordered Deadline.key stack.deadlines) (i : Fin 32)
    (v : UInt32) (timers : List Timer) :
    Ordered Deadline.key (stack.pushAll i v timers).deadlines := by
  unfold pushAll
  induction timers generalizing stack with
  | nil => exact h
  | cons t ts ih => exact ih (deadlinePush_ordered h i v t)

theorem pushAll_mem (stack : Stack) (i : Fin 32) (v : UInt32) (timers : List Timer)
    (hr : stack.deadlines.length + timers.length ≤ 1024) :
    (∀ d ∈ stack.deadlines, d ∈ (stack.pushAll i v timers).deadlines) ∧
      ∀ t ∈ timers, (⟨t.deadline, i, t.kind, t.entry, v⟩ : Deadline) ∈
        (stack.pushAll i v timers).deadlines := by
  unfold pushAll
  induction timers generalizing stack with
  | nil => exact ⟨fun d hd => hd, nofun⟩
  | cons t ts ih =>
    rw [length_cons] at hr
    have hpu : (stack.deadlinePush i v t).deadlines =
        push Deadline.key stack.deadlines ⟨t.deadline, i, t.kind, t.entry, v⟩ := by
      unfold deadlinePush
      rw [if_neg (by omega)]
    have hpe := push_perm Deadline.key stack.deadlines ⟨t.deadline, i, t.kind, t.entry, v⟩
    obtain ⟨hk, hnew⟩ := ih (stack.deadlinePush i v t)
      (by rw [hpu, hpe.length_eq, length_cons]; omega)
    refine ⟨fun d hd => hk d ?_, fun u hu => ?_⟩
    · rw [hpu]
      exact hpe.mem_iff.mpr (mem_cons_of_mem _ hd)
    · rcases mem_cons.mp hu with rfl | hu
      · refine hk _ ?_
        rw [hpu]
        exact hpe.mem_iff.mpr mem_cons_self
      · exact hnew u hu

/-- A connection stays what it is, or is given up. -/
def Stays (c c' : Endpoint) : Prop :=
  c'.active → c.active ∧ c'.timerVersion = c.timerVersion

theorem stays_of_identity (h : c'.identity = c.identity) : Stays c c' := by
  intro hac
  have hb : c'.active = c.active := congrArg Identity.active h
  exact ⟨hb ▸ hac, congrArg Identity.timerVersion h⟩

theorem stays_of_retire {version : UInt32} (h : c'.identity = c.identity.retire version) :
    Stays c c' := by
  intro hac
  have hf : c'.active = false := congrArg Identity.active h
  exact absurd hac (by simp [hf])

theorem Scheduled.put (h : stack.Scheduled sorted) {timers : List Timer}
    (has : (stack.connections i).Asks n timers c) (hst : Stays (stack.connections i) c)
    (hr : stack.deadlines.length + n ≤ 1024) :
    ((stack.put i c).pushAll i (stack.connections i).timerVersion timers).Scheduled sorted := by
  obtain ⟨hk, hnew⟩ := pushAll_mem (stack.put i c) i (stack.connections i).timerVersion timers
    ((Nat.add_le_add_left has.few _).trans hr)
  have ho : sorted → Ordered Deadline.key (stack.put i c).deadlines := h.ordered
  refine ⟨fun j hac k e he => ?_, fun hs => pushAll_ordered (ho hs) _ _ _⟩
  rw [pushAll_connections] at hac he
  simp only [nodeOf, pushAll_connections]
  by_cases hj : j = i
  · subst hj
    rw [put_connections_self] at hac he ⊢
    obtain ⟨hb, hv⟩ := hst hac
    rw [hv]
    rcases has.rearms k e he with ⟨e₀, he₀, hd⟩ | hmem
    · rw [← hd]
      exact hk _ (h.timed j hb k e₀ he₀)
    · exact hnew _ hmem
  · rw [put_connections_of_ne _ hj] at hac he ⊢
    exact hk _ (h.timed j hac k e he)

/-- The nodes of the old connection serve the new one. -/
def Served (c c' : Endpoint) : Prop :=
  c'.active → ∀ i e', c'.retransmissions i = some e' → c.active ∧
    c'.timerVersion = c.timerVersion ∧
      ∃ e, c.retransmissions i = some e ∧ e.deadline = e'.deadline

theorem served_of_steady (h : c.Steady 0 [] c') : Served c c' := by
  intro ha i e' he'
  obtain ⟨hb, hv⟩ := stays_of_identity h.identity ha
  exact ⟨hb, hv, (h.rearms i e' he').resolve_right not_mem_nil⟩

theorem served_of_same (ha : c'.active = c.active)
    (hv : c'.timerVersion = c.timerVersion)
    (ht : c'.retransmissions = c.retransmissions) : Served c c' :=
  fun h _ e' he' => ⟨ha ▸ h, hv, e', ht ▸ he', rfl⟩

section

variable (h : stack.Scheduled sorted)
include h

theorem Scheduled.map (hh : stack'.deadlines = stack.deadlines)
    (hs : ∀ j, Served (stack.connections j) (stack'.connections j)) :
    stack'.Scheduled sorted := by
  refine ⟨fun j ha i e' he' => ?_, hh ▸ h.ordered⟩
  obtain ⟨hb, hv, e, he, hd⟩ := hs j ha i e' he'
  rw [nodeOf, hv, hh, ← hd]
  exact h.timed j hb i e he

theorem Scheduled.write (hs : Served (stack.connections i) c) :
    (stack.put i c).Scheduled sorted := by
  refine h.map rfl fun j => ?_
  by_cases hj : j = i
  · subst hj
    rwa [put_connections_self]
  · rw [put_connections_of_ne _ hj]
    exact served_of_same rfl rfl rfl

theorem Scheduled.onId {α : Type} (id : UInt64) {f : Endpoint → α × Endpoint}
    (hf : ∀ c : Endpoint, c.Steady 0 [] (f c).2) : (stack.onId id f).2.Scheduled sorted := by
  unfold Stack.onId
  split
  · exact h
  · exact h.write (served_of_steady (hf _))

theorem Scheduled.openSlot (i : Fin 32) {f : Endpoint → Endpoint}
    (hf : ∀ c, (f c).retransmissions = c.retransmissions) :
    (stack.openSlot i f).Scheduled sorted := by
  refine h.map rfl fun j => ?_
  simp only [Stack.openSlot]
  by_cases hj : j = i
  · subst hj
    intro _ k e he
    rw [Function.update_self, hf] at he
    cases he
  · rw [Function.update_of_ne hj]
    exact served_of_same rfl rfl rfl

theorem Scheduled.openNew {f : Endpoint → Endpoint}
    (hf : ∀ c, (f c).retransmissions = c.retransmissions) :
    (stack.openNew f).2.Scheduled sorted := by
  unfold Stack.openNew
  split
  · exact h
  · exact h.openSlot _ hf

theorem Scheduled.openPassive (hr : stack.HasRoom) (listener : Fin 32) (s : Segment) (isn : UInt32)
    {place : Endpoint → Endpoint} (hp : ∀ c, (place c).retransmissions = c.retransmissions) :
    (stack.openPassive listener s isn place).2.2.Scheduled sorted := by
  unfold Stack.openPassive
  simp only
  split
  · exact h
  split
  · exact h
  · next i hi =>
    split
    · exact h
    · next tracked timer htrack =>
      have ho := h.openSlot i (f := fun c => place (answering c s isn (stack.idFor listener)))
        (fun c => hp _)
      have htracke := trackRetransmission_steady htrack
      have hv := congrArg Identity.timerVersion htracke.identity
      rw [show tracked.timerVersion = _ from hv]
      refine ho.put htracke.toAsks (stays_of_identity htracke.identity) ?_
      unfold HasRoom at hr
      simp only [Stack.openSlot]
      omega

theorem Scheduled.input (hro : stack.HasRoom) (i : Fin 32) (s : Segment) :
    (stack.input i s).2.2.Scheduled sorted := by
  obtain ⟨hi, ha⟩ := tcpInput_spec stack.env (stack.connections i) s
  refine h.put ha ?_ hro
  rcases hi with hk | ⟨hre, -⟩
  · exact stays_of_identity hk
  · exact stays_of_retire hre

theorem Scheduled.demultiplex (hr : stack.HasRoom) (s : Segment)
    (isn : UInt32) (listens connected : Endpoint → Bool) {place : Endpoint → Endpoint}
    (hp : ∀ c, (place c).retransmissions = c.retransmissions) :
    (stack.demultiplex s isn listens connected place).2.2.Scheduled sorted := by
  unfold Stack.demultiplex
  split
  · exact h.input hr _ s
  split
  · split
    · exact h.openPassive hr _ s isn hp
    · exact h
  · exact h

theorem Scheduled.settle (hr : stack.HasRoom) {out : Sending}
    (hs : (stack.connections i).Steady 1 out.timers out.endpoint) :
    (stack.settle i out).Scheduled sorted := by
  refine h.put hs.toAsks (stays_of_identity hs.identity) ?_
  unfold HasRoom at hr
  omega

theorem Scheduled.setNow (now : UInt32) :
    ({ stack with now := now } : Stack).Scheduled sorted := ⟨h.timed, h.ordered⟩

theorem Scheduled.tcpShutdown (hr : stack.HasRoom) (id : UInt64)
    (now : UInt32) : (stack.tcpShutdown id now).2.2.Scheduled sorted := by
  unfold Stack.tcpShutdown
  split
  · exact h
  · next i hi =>
    simp only
    split
    · exact h.settle hr (shutdown_steady _ _ _)
    · exact (h.setNow now).settle hr (shutdown_steady _ _ _)

theorem Scheduled.closeSlot (i : Fin 32) : (stack.closeSlot i).Scheduled sorted :=
  -- A slot that is given up asks for nothing.
  h.write nofun

theorem Scheduled.closeChildren (id : UInt64) : (stack.closeChildren id).Scheduled sorted := by
  unfold Stack.closeChildren
  generalize List.finRange 32 = slots
  induction slots generalizing stack with
  | nil => exact h
  | cons i is ih =>
    rw [foldl_cons]
    apply ih
    split
    · exact h.closeSlot i
    · exact h

theorem Scheduled.tcpClose (id : UInt64) : (stack.tcpClose id).2.Scheduled sorted := by
  unfold Stack.tcpClose
  split
  · exact h
  simp only
  split
  · exact (h.closeChildren id).closeSlot _
  · exact h.closeSlot _

theorem Scheduled.tcpDetach (hr : stack.HasRoom) (id : UInt64)
    (now : UInt32) : (stack.tcpDetach id now).2.2.Scheduled sorted := by
  have hm : ∀ {stack : Stack}, stack.Scheduled sorted → ∀ i,
      (stack.put i (stack.connections i).markDetached).Scheduled sorted :=
    fun h i => h.write (served_of_same rfl rfl rfl)
  unfold Stack.tcpDetach
  split
  · exact h
  · next i hi =>
    simp only
    split
    case h_3 | h_4 =>
      split
      · exact h.tcpClose id
      · exact hm (h.tcpShutdown hr id now) i
    all_goals first | exact h.tcpClose id | exact hm h i

theorem Scheduled.tcpAbortAll (error : ℤ) : (stack.tcpAbortAll error).Scheduled sorted := by
  unfold Stack.tcpAbortAll
  split
  · exact h
  refine h.map rfl fun j => ?_
  simp only
  split
  · exact nofun
  · exact served_of_same rfl rfl rfl

theorem Scheduled.tcpClampPmtu (family : Family) (address4 : UInt32)
    (address6 : Address6) (ipMtu : ℕ) :
    (stack.tcpClampPmtu family address4 address6 ipMtu).Scheduled sorted := by
  refine h.map rfl fun j => ?_
  obtain ⟨hi, ht⟩ := clampPmtu_keeps (stack.connections j) family address4 address6 ipMtu
  exact served_of_steady (.quiet hi ht)

end

/-- Before every node that a tick takes off the heap, the last node is one that settles. -/
def orderlyPops : ℕ → Stack → Bool
  | 0, _ => true
  | fuel + 1, stack =>
    match stack.deadlines with
    | [] => true
    | d :: _ =>
      if sequenceAfter d.deadline stack.now then true
      else
        let c := stack.connections d.slot
        let settles := decide (Settles stack.deadlines)
        let stack := { stack with deadlines := deadlinePop stack.deadlines }
        settles &&
          if c.active = false ∨ c.timerVersion ≠ d.version then orderlyPops fuel stack
          else
            match c.fire stack.env (stack.idFor d.slot) d.timer with
            | .skip c => orderlyPops fuel (stack.put d.slot c)
            | .ended _ => true

/-- What the loop of a tick leaves of the heap. -/
structure Drained (stack : Stack) (fuel : ℕ) (sorted : Prop)
    (out : Stack × Option (Deadline × Ended)) : Prop where
  subset : ∀ d ∈ out.1.deadlines, d ∈ stack.deadlines
  ordered : sorted → Ordered Deadline.key out.1.deadlines
  length : out.1.deadlines.length ≤ stack.deadlines.length
  idle : out.2 = none → out.1.TimedBy out.1.deadlines ∧
    (stack.deadlines.length < fuel →
      ∀ d ds, out.1.deadlines = d :: ds → sequenceAfter d.deadline stack.now)
  live : ∀ d e, out.2 = some (d, e) → out.1.TimedBy (d :: out.1.deadlines)

theorem TimedBy.drop {d : Deadline} {ds : List Deadline} (h : stack.TimedBy (d :: ds))
    (hs : ∀ i e, (stack.connections d.slot).active →
      (stack.connections d.slot).retransmissions i = some e →
      stack.nodeOf d.slot i e.deadline ≠ d) : stack.TimedBy ds := by
  intro j hac i e he
  rcases mem_cons.mp (h j hac i e he) with hd | hd
  · have hj : d.slot = j := by rw [← hd, nodeOf]
    subst hj
    exact absurd hd (hs i e hac he)
  · exact hd

theorem TimedBy.congr {nodes nodes' : List Deadline} (h : stack.TimedBy nodes)
    (hn : ∀ d ∈ nodes, d ∈ nodes')
    (hk : ∀ j, (stack'.connections j).active = (stack.connections j).active ∧
      (stack'.connections j).timerVersion = (stack.connections j).timerVersion ∧
      (stack'.connections j).retransmissions = (stack.connections j).retransmissions) :
    stack'.TimedBy nodes' := by
  intro j ha i e he
  obtain ⟨h₁, h₂, h₃⟩ := hk j
  rw [h₁] at ha
  rw [h₃] at he
  rw [nodeOf, h₂]
  exact hn _ (h j ha i e he)

theorem put_skip (h : (stack.connections i).fire env id t = .skip c) (j : Fin 32) :
    ((stack.put i c).connections j).active = (stack.connections j).active ∧
      ((stack.put i c).connections j).timerVersion = (stack.connections j).timerVersion ∧
      ((stack.put i c).connections j).retransmissions = (stack.connections j).retransmissions := by
  by_cases hj : j = i
  · subst hj
    rw [put_connections_self]
    rcases fire_skip h with rfl | rfl <;> exact ⟨rfl, rfl, rfl⟩
  · rw [put_connections_of_ne _ hj]
    exact ⟨rfl, rfl, rfl⟩

theorem Drained.step {fuel : ℕ} {out : Stack × Option (Deadline × Ended)}
    (h : Drained stack' fuel sorted out) (hnow : stack'.now = stack.now)
    (hs : ∀ d ∈ stack'.deadlines, d ∈ stack.deadlines)
    (hl : stack'.deadlines.length + 1 = stack.deadlines.length) :
    Drained stack (fuel + 1) sorted out := by
  refine ⟨fun d hd => hs d (h.subset d hd), h.ordered, by have := h.length; omega,
    fun hnon => ⟨(h.idle hnon).1, fun hf => ?_⟩, h.live⟩
  rw [← hnow]
  exact (h.idle hnon).2 (by omega)

theorem nextDue_drained (fuel : ℕ) (stack : Stack) (h : stack.Scheduled sorted)
    (hpo : sorted → orderlyPops fuel stack) :
    Drained stack fuel sorted (nextDue fuel stack) := by
  induction fuel generalizing stack with
  | zero =>
    exact ⟨fun d hd => hd, h.ordered, Nat.le_refl _,
      fun _ => ⟨h.timed, fun hlt => absurd hlt (by omega)⟩, fun _ _ h => by cases h⟩
  | succ fuel ih =>
    rw [nextDue]
    rw [orderlyPops] at hpo
    split
    · next hnil =>
      refine ⟨fun d hd => hd, h.ordered, Nat.le_refl _, fun _ => ⟨h.timed, fun _ d ds hds => ?_⟩,
        fun _ _ h => by cases h⟩
      rw [hnil] at hds
      cases hds
    · next d ds hh =>
      rw [hh] at hpo
      split
      · next haf =>
        refine ⟨fun d hd => hd, h.ordered, Nat.le_refl _,
          fun _ => ⟨h.timed, fun _ d' ds' hds => ?_⟩, fun _ _ h => by cases h⟩
        rw [hh, List.cons.injEq] at hds
        rw [← hds.1]
        exact haf
      · next hdue =>
        simp only [hdue, if_false, Bool.and_eq_true, decide_eq_true_eq] at hpo
        rw [← hh] at hpo
        have ho : sorted → Ordered Deadline.key (deadlinePop stack.deadlines) :=
          fun hs => (deadlinePop_ordered_iff (h.ordered hs)).mpr (hpo hs).1
        replace hpo := fun hs => (hpo hs).2
        have hpe : (deadlinePop stack.deadlines).Perm ds := by
          rw [hh]
          exact deadlinePop_perm d ds
        have hsu : ∀ n ∈ deadlinePop stack.deadlines, n ∈ stack.deadlines := by
          intro n hn
          rw [hh]
          exact mem_cons_of_mem _ (hpe.mem_iff.mp hn)
        have hlen : (deadlinePop stack.deadlines).length + 1 = stack.deadlines.length := by
          rw [hpe.length_eq, hh, length_cons]
        have ht : stack.TimedBy (d :: deadlinePop stack.deadlines) := by
          refine h.timed.congr (fun n hn => ?_) fun j => ⟨rfl, rfl, rfl⟩
          rw [hh] at hn
          exact mem_cons.mpr ((mem_cons.mp hn).imp_right hpe.mem_iff.mpr)
        simp only
        split
        · next hst =>
          rw [if_pos hst] at hpo
          refine (ih _ ⟨?_, ho⟩ hpo).step rfl hsu hlen
          refine ht.drop fun i e hac _ heq => ?_
          rcases hst with hf | hv
          · exact absurd hac (by simp [hf])
          · exact hv (congrArg Deadline.version heq)
        · next hlive =>
          rw [if_neg hlive] at hpo
          split
          · next c hsk =>
            rw [hsk] at hpo
            refine (ih _ ⟨?_, ho⟩ hpo).step rfl hsu hlen
            have hlef : stack.TimedBy (deadlinePop stack.deadlines) := by
              refine ht.drop fun i e _ he heq => ?_
              have hent : i = d.entry := congrArg Deadline.entry heq
              rw [hent] at he
              exact fire_skip_retransmit hsk (congrArg Deadline.kind heq).symm e he
                (congrArg Deadline.deadline heq)
            exact hlef.congr (fun n hn => hn) (put_skip hsk)
          · next e hend =>
            refine ⟨hsu, ho, ?_, (fun h => by cases h), ?_⟩
            · exact Nat.le_of_succ_le (Nat.le_of_eq hlen)
            · rintro d' e' ⟨⟩
              exact ht

theorem stays_fire {e : Ended} (h : c.fire env id t = .ended e) : Stays c e.endpoint := by
  rcases (fire_spec h).identity with h | ⟨h, -⟩
  · exact stays_of_identity h
  · exact stays_of_retire h

theorem finishTick_eq (stack : Stack) (d : Deadline) (e : Ended) : ∃ lowered : Stack,
    (stack.finishTick d e).stack = (lowered.put d.slot e.endpoint).pushAll d.slot
      (stack.connections d.slot).timerVersion e.timers ∧ lowered.deadlines = stack.deadlines ∧ ∀ j,
      (lowered.connections j).active = (stack.connections j).active ∧
      (lowered.connections j).timerVersion = (stack.connections j).timerVersion ∧
      (lowered.connections j).retransmissions = (stack.connections j).retransmissions := by
  unfold finishTick
  cases e.pmtu with
  | none => exact ⟨stack, rfl, rfl, fun j => ⟨rfl, rfl, rfl⟩⟩
  | some mtu =>
    refine ⟨_, rfl, rfl, fun j => ?_⟩
    obtain ⟨hi, ht⟩ := clampPmtu_keeps (stack.connections j)
      (stack.connections d.slot).family (stack.connections d.slot).remoteAddress
      (stack.connections d.slot).remoteAddress6 mtu
    exact ⟨congrArg Identity.active hi, congrArg Identity.timerVersion hi, ht⟩

theorem Scheduled.tcpTick (h : stack.Scheduled sorted) (hr : stack.HasRoom) (now : UInt32)
    (hp : sorted → orderlyPops (stack.deadlines.length + 1) { stack with now := now }) :
    (stack.tcpTick now).stack.Scheduled sorted := by
  have hd := nextDue_drained _ _ (h.setNow now) hp
  have hend := (nextDue_spec (stack.deadlines.length + 1) { stack with now := now }).2
  unfold Stack.tcpTick
  generalize nextDue (stack.deadlines.length + 1) { stack with now := now } = out at *
  obtain ⟨mid, due⟩ := out
  cases due with
  | none => exact ⟨(hd.idle rfl).1, hd.ordered⟩
  | some due =>
    obtain ⟨d, e⟩ := due
    obtain ⟨hac, hv, env, hf⟩ := hend d e rfl
    have ht := hd.live d e rfl
    obtain ⟨lowered, hst, hh, hkep⟩ := mid.finishTick_eq d e
    simp only [hst]
    obtain ⟨hkee, hnew⟩ := pushAll_mem (lowered.put d.slot e.endpoint) d.slot
      (mid.connections d.slot).timerVersion e.timers (by
        have hl : lowered.deadlines.length ≤ stack.deadlines.length := hh ▸ hd.length
        have := (fire_spec hf).few
        unfold HasRoom at hr
        change lowered.deadlines.length + _ ≤ _
        omega)
    have hor : sorted → Ordered Deadline.key (lowered.put d.slot e.endpoint).deadlines :=
      hh ▸ hd.ordered
    refine ⟨fun j hac' i e' he' => ?_, fun hs => pushAll_ordered (hor hs) _ _ _⟩
    rw [pushAll_connections] at hac' he'
    simp only [nodeOf, pushAll_connections]
    have hmid : ∀ n ∈ mid.deadlines, n ∈ ((lowered.put d.slot e.endpoint).pushAll d.slot
        (mid.connections d.slot).timerVersion e.timers).deadlines :=
      fun n hn => hkee n (show n ∈ lowered.deadlines from hh ▸ hn)
    by_cases hj : j = d.slot
    · subst hj
      rw [put_connections_self] at hac' he' ⊢
      obtain ⟨hb, hsa⟩ := stays_fire hf hac'
      rw [hsa]
      rcases (fire_spec hf).rearms i e' he' with ⟨he, hot⟩ | hmem
      · rcases mem_cons.mp (ht d.slot hb i e' he) with heq | hmem
        · exact absurd ⟨(congrArg Deadline.kind heq).symm,
          (congrArg Deadline.entry heq).symm⟩ hot
        · exact hmid _ hmem
      · exact hnew _ hmem
    · rw [put_connections_of_ne _ hj] at hac' he' ⊢
      obtain ⟨h₁, h₂, h₃⟩ := hkep j
      rw [h₁] at hac'
      rw [h₃] at he'
      rw [h₂]
      rcases mem_cons.mp (ht j hac' i e' he') with heq | hmem
      · exact absurd (congrArg Deadline.slot heq) hj
      · exact hmid _ hmem

/-- The last node settles each time the call takes one off the heap. -/
def popsInOrder (stack : Stack) : Call → Bool
  | .tick now => orderlyPops (stack.deadlines.length + 1) { stack with now := now }
  | _ => true

theorem Scheduled.perform (h : stack.Scheduled sorted) (hro : stack.HasRoom) {call : Call}
    (hp : sorted → stack.popsInOrder call) : (stack.perform call).2.Scheduled sorted := by
  cases call with
  | listen | listenIpv6 | activeOpen | activeOpenIpv6 =>
    simp only [Stack.perform, tcpListen, tcpListenIpv6, tcpActiveOpen, tcpActiveOpenIpv6]
    split
    · exact h
    · exact h.openNew fun c => rfl
  | setListenerBacklog id backlog =>
    simp only [Stack.perform, tcpSetListenerBacklog]
    split
    · exact h
    · split
      · exact h
      · exact h.write (served_of_same rfl rfl rfl)
  | accept id =>
    simp only [Stack.perform, tcpAccept]
    split
    · exact h
    split
    · exact h
    · split
      · exact h
      · exact h.write (served_of_same rfl rfl rfl)
  | receiveIpv4 | receiveIpv6 =>
    simp only [Stack.perform, tcpReceiveIpv4, tcpReceiveIpv6]
    split
    · exact h.demultiplex hro _ _ _ _ fun c => rfl
    · exact h
  | queueSend id data => exact h.onId id fun c => queueSend_steady c data
  | queueSendPages id pages offset bytes live pinned =>
    exact h.onId id fun c => queueSendPages_steady c ..
  | queueReceivePages id pages offset length live pinned =>
    exact h.onId id fun c => queueReceivePages_steady c ..
  | receiveData id capacity =>
    have hre : (stack.onId id (fun c => c.receiveData capacity)).2.Scheduled sorted :=
      h.onId id fun c => .quiet rfl rfl
    simp only [Stack.perform, tcpReceiveData]
    split <;> exact hre
  | takeError id => exact h.onId id fun c => .quiet rfl rfl
  | prepareTransmit id now =>
    simp only [Stack.perform, tcpPrepareTransmit]
    split
    · exact h
    · exact (h.setNow now).settle hro (prepareTransmit_steady _ _ _)
  | shutdown id now => exact h.tcpShutdown hro id now
  | detach id now => exact h.tcpDetach hro id now
  | close id => exact h.tcpClose id
  | abort id error =>
    simp only [Stack.perform, tcpAbort]
    split
    · exact h
    · exact h.onId id fun c => ⟨.of_subset (fun k e he => by cases he) (Nat.zero_le _), rfl⟩
  | abortAll error => exact h.tcpAbortAll error
  | tick now => exact h.tcpTick hro now hp
  | clampPmtu family address4 address6 ipMtu => exact h.tcpClampPmtu family address4 address6 ipMtu
  | setCc ops | setAckFilter enabled => exact ⟨h.timed, h.ordered⟩
  | setMss mss =>
    simp only [Stack.perform, tcpSetMss]
    split <;> exact ⟨h.timed, h.ordered⟩

theorem scheduled_init (memory : Fin 32 → Endpoint) : (tcpInit memory).Scheduled sorted := by
  refine ⟨fun j ha => absurd ha Bool.false_ne_true, fun _ i p x hi hp => ?_⟩
  cases hp

/-- The clock has not gone around between a queued deadline and `now`. -/
def SameSide (stack : Stack) (now : UInt32) : Prop :=
  ∀ d ∈ stack.deadlines, sequenceAfter d.deadline now ↔ now < d.deadline
  deriving Decidable

theorem Scheduled.nothing_due (h : stack.Scheduled True) {now : UInt32}
    (hp : stack.popsInOrder (.tick now)) (hs : stack.SameSide now)
    (hidle : (stack.perform (.tick now)).1.code = 0) (j : Fin 32)
    (hac : ((stack.perform (.tick now)).2.connections j).active) (i : Fin 8) (e : Retransmission)
    (he : ((stack.perform (.tick now)).2.connections j).retransmissions i = some e) :
    sequenceAfter e.deadline now := by
  have hd := nextDue_drained _ _ (h.setNow now) fun _ => hp
  change (((stack.tcpTick now).code : ℕ) : ℤ) = 0 at hidle
  change ((stack.tcpTick now).stack.connections j).active = true at hac
  change ((stack.tcpTick now).stack.connections j).retransmissions i = some e at he
  unfold Stack.tcpTick at hidle hac he
  generalize nextDue (stack.deadlines.length + 1) { stack with now := now } = out at *
  obtain ⟨mid, due⟩ := out
  cases due with
  | some due =>
    obtain ⟨d, e⟩ := due
    simp only [finishTick] at hidle
    split at hidle <;> cases hidle
  | none =>
    obtain ⟨ht, hr⟩ := hd.idle rfl
    have hno := ht j hac i e he
    -- The root of the heap is after `now`, so all nodes are.
    cases hh : mid.deadlines with
    | nil =>
      rw [hh] at hno
      cases hno
    | cons d ds =>
      have haf := hr (Nat.lt_succ_self _) d ds hh
      have ho := hd.ordered trivial
      simp only [hh] at ho hno
      have hle := ho.head_le hno
      have hmem : ∀ n ∈ d :: ds, n ∈ stack.deadlines := fun n hn =>
        hd.subset n (hh ▸ hn)
      have hf := (hs d (hmem d mem_cons_self)).mp haf
      refine (hs _ (hmem _ hno)).mpr ?_
      rw [UInt32.lt_iff_toNat_lt] at hf ⊢
      exact Nat.lt_of_lt_of_le hf hle

/-- In every run in which the heap has room before each call, every entry of every connection has
its node. If moreover the last node settles at every pop, a tick that answers 0 leaves no entry
that is due, when no deadline lies across the wrap of the clock. -/
theorem timers_kept_run (memory : Fin 32 → Endpoint) (calls : List Call)
    (hroom : EachCall (fun stack _ => stack.HasRoom) (tcpInit memory) calls) :
    ((tcpInit memory).run calls).TimedBy ((tcpInit memory).run calls).deadlines ∧
    (EachCall (fun stack call => stack.popsInOrder call) (tcpInit memory) calls →
      ∀ now, ((tcpInit memory).run calls).popsInOrder (.tick now) →
      ((tcpInit memory).run calls).SameSide now →
      (((tcpInit memory).run calls).perform (.tick now)).1.code = 0 →
      ∀ j, ((((tcpInit memory).run calls).perform (.tick now)).2.connections j).active → ∀ i e,
        ((((tcpInit memory).run calls).perform (.tick now)).2.connections j).retransmissions i =
          some e → sequenceAfter e.deadline now) := by
  have hsc : ((tcpInit memory).run calls).Scheduled False :=
    run_induction (P := fun stack => stack.Scheduled False)
      (fun stack call hroom h => h.perform hroom False.elim) calls _ hroom (scheduled_init memory)
  refine ⟨hsc.timed, fun hp now hnow hsi hidle j hac i e he => ?_⟩
  have hso : ((tcpInit memory).run calls).Scheduled True :=
    run_induction (P := fun stack => stack.Scheduled True)
      (fun stack call hb h => h.perform hb.1 fun _ => hb.2) calls _ (hroom.and hp)
      (scheduled_init memory)
  exact hso.nothing_due hnow hsi hidle j hac i e he

/-- Five bytes are sent one tick apart. -/
def fiveBytes : List Call :=
  handshake 1460 ++ [.queueSend firstId [1], .prepareTransmit firstId 0,
    .queueSend firstId [2], .prepareTransmit firstId 1, .queueSend firstId [3],
    .prepareTransmit firstId 2, .queueSend firstId [4], .prepareTransmit firstId 3,
    .queueSend firstId [5], .prepareTransmit firstId 4]

/-- The first byte is resent at its deadline, and a second tick at that time finds nothing else. -/
theorem timers_kept_run_five :
    (boot.run (fiveBytes ++ [.tick 20])).TimedBy (boot.run (fiveBytes ++ [.tick 20])).deadlines ∧
      ∀ i e, (((boot.run (fiveBytes ++ [.tick 20])).perform (.tick 20)).2.connections
        0).retransmissions i = some e → sequenceAfter e.deadline 20 := by
  have h := timers_kept_run (fun _ => zeroed) (fiveBytes ++ [.tick 20]) (by decide +kernel)
  unfold boot
  refine ⟨h.1, h.2 ?_ 20 ?_ ?_ ?_ 0 ?_⟩
  all_goals decide +kernel

/-- The first three bytes are resent in time. After that the node of the fourth lies below
later ones, and the tick at its deadline finds nothing to do. -/
theorem tick_idle_entry_due :
    ((boot.run (fiveBytes ++ [.tick 20, .tick 21, .tick 22])).perform (.tick 23)).1.code = 0 ∧
      (((boot.run (fiveBytes ++ [.tick 20, .tick 21, .tick 22])).perform
        (.tick 23)).2.connections 0).active = true ∧
      ((((boot.run (fiveBytes ++ [.tick 20, .tick 21, .tick 22])).perform
        (.tick 23)).2.connections 0).retransmissions 3).map (fun e => e.deadline) = some 23 := by
  decide +kernel

end Stack

end MichCore.Tcp
