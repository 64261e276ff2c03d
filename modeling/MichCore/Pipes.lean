import MichCore.Signals
import MichCore.RingBuffer

/-!
# Pipes

`process/posix_pipe.c`: a pipe is a ring of bytes with counted read and write ends. A read of an
empty ring and a write that does not fit park their task; the call that changes this completes
the parked ones in slot order.

Copies between kernel and tasks succeed. `alone` is the scheduler's answer that nothing else can
run. The end counters do not wrap: all tasks together have 1024 descriptors.

A log says what the tasks see of a pipe: each call that is answered with a count, what it wrote or
what it finds in its buffer, and the ends that were retained and not released. The code never reads
it.
-/
namespace MichCore.Pipe
open Function List
open Process (TaskState)

/-- `MAX_TASKS` slots. -/
abbrev Slot := Fin 32

def pipeMax : ℕ := 32
def pipeBuf : ℕ := 4096
def ioMax : ℕ := 512

def eintr : ℤ := -4
def einval : ℤ := -22
def enfile : ℤ := -23
def epipe : ℤ := -32
def edeadlk : ℤ := -35

/-- `POSIX_PIPE_END_READ` and `POSIX_PIPE_END_WRITE`. -/
inductive End where
  | read
  | write
deriving DecidableEq

def End.other : End → End
  | .read => .write
  | .write => .read

structure PipeState where
  ring : RingBuffer UInt8 pipeBuf
  readers : ℕ
  writers : ℕ
  active : Bool

/-- `struct pipe_wait`; `pipe` is the index plus one. -/
structure Wait where
  pipe : ℕ
  side : End
  length : ℕ
  /-- What the buffer of a parked writer holds. -/
  data : List UInt8

/-- What the tasks see of a pipe since it was created: the calls that were answered with a count,
in the order of their answers, and the open ends. -/
structure Log where
  written : List (List UInt8 × ℤ)
  taken : List (List UInt8 × ℤ)
  ends : End → ℕ

def Log.empty : Log := ⟨[], [], fun _ => 0⟩

/-- A call is answered; a read finds in its buffer as many bytes as the answer says. -/
def Log.answer (log : Log) (bytes : List UInt8) (answer : ℤ) (side : End) : Log :=
  if answer < 0 then log
  else
    match side with
    | .read => { log with taken := log.taken ++ [(bytes.take answer.toNat, answer)] }
    | .write => { log with written := log.written ++ [(bytes, answer)] }

structure State where
  pipes : ℕ → PipeState
  waits : Slot → Wait
  tasks : Slot → TaskState
  count : ℕ
  result : Slot → ℤ
  /-- The buffers that reads copy to. -/
  buffers : Slot → List UInt8
  logs : ℕ → Log

namespace PipeState

def free (p : PipeState) : ℕ := pipeBuf - p.ring.count

def ends (p : PipeState) : End → ℕ
  | .read => p.readers
  | .write => p.writers

def setEnd (p : PipeState) (side : End) (n : ℕ) : PipeState :=
  match side with
  | .read => { p with readers := n }
  | .write => { p with writers := n }

variable (p : PipeState) (side : End) (n : ℕ)

@[simp] theorem setEnd_ring : (p.setEnd side n).ring = p.ring := by cases side <;> rfl

@[simp] theorem setEnd_active : (p.setEnd side n).active = p.active := by cases side <;> rfl

@[simp] theorem setEnd_ends : (p.setEnd side n).ends = update p.ends side n := by
  funext e
  cases side <;> cases e <;> rfl

end PipeState

namespace State

/-- The task in the slot waits on an end of the pipe. -/
def Parked (s : State) (index : ℕ) (side : End) (slot : Slot) : Prop :=
  s.tasks slot = .blockedPipe ∧ (s.waits slot).pipe = index + 1 ∧ (s.waits slot).side = side
  deriving Decidable

/-- The slots of `for (slot = 0; slot < task_pool_count; slot++)`. -/
def slots (s : State) : List Slot := (finRange 32).filter (fun slot => slot.val < s.count)

def setPipe (s : State) (index : ℕ) (p : PipeState) : State :=
  { s with pipes := update s.pipes index p }

def record (s : State) (index : ℕ) (bytes : List UInt8) (answer : ℤ) (side : End) : State :=
  { s with logs := update s.logs index ((s.logs index).answer bytes answer side) }

/-- What a parked call has read or wants to write. -/
def bytesOf (s : State) (slot : Slot) : List UInt8 :=
  match (s.waits slot).side with
  | .read => s.buffers slot
  | .write => (s.waits slot).data

/-- Let a parked task run with an answer. -/
def finish (s : State) (slot : Slot) (answer : ℤ) : State :=
  { s.record ((s.waits slot).pipe - 1) (s.bytesOf slot) answer (s.waits slot).side with
    waits := update s.waits slot { s.waits slot with pipe := 0, length := 0 }
    tasks := update s.tasks slot .running
    result := update s.result slot answer }

/-- `ring_put` of a whole write. -/
def putIn (s : State) (index : ℕ) (data : List UInt8) : State :=
  s.setPipe index { s.pipes index with ring := (s.pipes index).ring.put data }

/-- `ring_take`, and the copy to the task that reads. -/
def takeOut (s : State) (slot : Slot) (index length : ℕ) : State :=
  { s.setPipe index { s.pipes index with ring := ((s.pipes index).ring.take length).2 } with
    buffers := update s.buffers slot ((s.pipes index).ring.take length).1 }

/-- The loop of `wake_readers`. -/
def wakeReadersFrom (index : ℕ) : List Slot → State → State
  | [], s => s
  | slot :: rest, s =>
    if ¬ s.Parked index .read slot then wakeReadersFrom index rest s
    else if (s.pipes index).ring.count = 0 then s
    else
      let take := min (s.pipes index).ring.count (s.waits slot).length
      wakeReadersFrom index rest ((s.takeOut slot index take).finish slot take)

def wakeReaders (s : State) (index : ℕ) : State := wakeReadersFrom index s.slots s

/-- The loop of `wake_writers`. -/
def wakeWritersFrom (index : ℕ) : List Slot → State → State
  | [], s => s
  | slot :: rest, s =>
    if ¬ s.Parked index .write slot then wakeWritersFrom index rest s
    else if (s.waits slot).length > (s.pipes index).free then s
    else
      wakeWritersFrom index rest
        ((s.putIn index (s.waits slot).data).finish slot (s.waits slot).length)

def wakeWriters (s : State) (index : ℕ) : State := wakeWritersFrom index s.slots s

/-- Every task parked on one end is let go with the same answer. -/
def answerAll (s : State) (index : ℕ) (side : End) (answer : ℤ) : State :=
  s.slots.foldl
    (fun s slot => if s.Parked index side slot then s.finish slot answer else s) s

def wakeWritersBroken (s : State) (index : ℕ) : State := s.answerAll index .write epipe

/-- `pipe_create_locked`: the first index that is not in use. -/
def create (s : State) : State × ℤ :=
  match (range pipeMax).find? (fun index => (s.pipes index).active = false) with
  | some index =>
    ({ s.setPipe index
        { ring := { (s.pipes index).ring with tail := 0, count := 0 }
          readers := 0, writers := 0, active := true } with
        logs := update s.logs index .empty }, index)
  | none => (s, enfile)

def setEnd (s : State) (index : ℕ) (side : End) (n : ℕ) : State :=
  s.setPipe index ((s.pipes index).setEnd side n)

/-- `pipe_retain_locked`. -/
def retain (s : State) (index : ℕ) (side : End) : State :=
  if index ≥ pipeMax ∨ (s.pipes index).active = false then s
  else s.setEnd index side ((s.pipes index).ends side + 1)

/-- The pipe goes with its last end. -/
def retire (s : State) (index : ℕ) : State :=
  if (s.pipes index).readers = 0 ∧ (s.pipes index).writers = 0 then
    s.setPipe index { s.pipes index with active := false }
  else s

/-- `pipe_release_locked`. -/
def release (s : State) (index : ℕ) (side : End) : State :=
  if index ≥ pipeMax ∨ (s.pipes index).active = false then s
  else if (s.pipes index).ends side = 0 then s
  else
    let s := s.setEnd index side ((s.pipes index).ends side - 1)
    if (s.pipes index).ends side ≠ 0 then s
    else
      match side with
      | .read => (s.wakeWritersBroken index).retire index
      -- What is left in the ring is read out first, then the readers see the end.
      | .write => ((s.wakeReaders index).answerAll index .read 0).retire index

def park (s : State) (slot : Slot) (wait : Wait) : State :=
  { s with
    waits := update s.waits slot wait
    tasks := update s.tasks slot .blockedPipe }

def unpark (s : State) (slot : Slot) : State :=
  { s with
    waits := update s.waits slot { s.waits slot with pipe := 0, length := 0 }
    tasks := update s.tasks slot .running }

/-- Park, unless nothing else can run. -/
def parkOr (s : State) (slot : Slot) (wait : Wait) (alone : Bool) : State × Option ℤ :=
  if alone then ((s.park slot wait).unpark slot, some edeadlk) else (s.park slot wait, none)

/-- `pipe_io_locked` at the read end; no answer means that the caller parked. -/
def read (s : State) (slot : Slot) (index length : ℕ) (alone : Bool) : State × Option ℤ :=
  if index ≥ pipeMax ∨ (s.pipes index).active = false ∨ length = 0 ∨ length > ioMax then
    (s, some einval)
  else if (s.pipes index).ring.count ≠ 0 then
    let take := min (s.pipes index).ring.count length
    let s := s.takeOut slot index take
    ((s.record index (s.buffers slot) take .read).wakeWriters index, some take)
  else if (s.pipes index).writers = 0 then (s.record index (s.buffers slot) 0 .read, some 0)
  else s.parkOr slot ⟨index + 1, .read, length, []⟩ alone

/-- `pipe_io_locked` at the write end. -/
def write (s : State) (slot : Slot) (index : ℕ) (data : List UInt8) (alone : Bool) :
    State × Option ℤ :=
  if index ≥ pipeMax ∨ (s.pipes index).active = false ∨ data.length = 0 ∨ data.length > ioMax then
    (s, some einval)
  else if (s.pipes index).readers = 0 then (s, some epipe)
  else if data.length > (s.pipes index).free then
    s.parkOr slot ⟨index + 1, .write, data.length, data⟩ alone
  else
    (((s.putIn index data).record index data data.length .write).wakeReaders index,
      some data.length)

/-- `posix_pipe_signal`, and the wake of the signalled task. -/
def signal (s : State) (slot : Slot) : State :=
  if s.tasks slot = .blockedPipe then s.finish slot eintr else s

/-- The buffer of a parked writer may lie in memory that others write. -/
def poke (s : State) (slot : Slot) (data : List UInt8) : State :=
  if data.length = (s.waits slot).data.length then
    { s with waits := update s.waits slot { s.waits slot with data := data } }
  else s

/-- An end is retained or released, whatever the code makes of it. -/
def countEnd (s : State) (index : ℕ) (side : End) (change : ℕ → ℕ) : State :=
  { s with
    logs := update s.logs index
      { s.logs index with
        ends := update (s.logs index).ends side (change ((s.logs index).ends side)) } }

end State

inductive Op where
  | create
  | retain (index : ℕ) (side : End)
  | release (index : ℕ) (side : End)
  | read (slot : Slot) (index length : ℕ) (alone : Bool)
  | write (slot : Slot) (index : ℕ) (data : List UInt8) (alone : Bool)
  | signal (slot : Slot)
  | poke (slot : Slot) (data : List UInt8)

/-- The task in the slot can make a call. -/
def State.Ready (s : State) (slot : Slot) : Prop := slot.val < s.count ∧ s.tasks slot = .running
  deriving Decidable

def Op.perform (s : State) : Op → State
  | .create => s.create.1
  | .retain index side => (s.countEnd index side (· + 1)).retain index side
  | .release index side => (s.countEnd index side (· - 1)).release index side
  | .read slot index length alone =>
    if s.Ready slot then (s.read slot index length alone).1 else s
  | .write slot index data alone =>
    if s.Ready slot then (s.write slot index data alone).1 else s
  | .signal slot => s.signal slot
  | .poke slot data => s.poke slot data

def performAll (s : State) (ops : List Op) : State := ops.foldl Op.perform s

/-- No pipe was created yet, and no task waits on one. -/
structure State.Initial (s : State) : Prop where
  pipes : ∀ index, (s.pipes index).active = false ∧ (s.pipes index).ring.tail = 0 ∧
    (s.pipes index).ring.count = 0
  logs : ∀ index, s.logs index = .empty
  tasks : ∀ slot, s.tasks slot ≠ .blockedPipe

variable {p : PipeState} {log : Log} {index : ℕ} {s s' : State} {slot : Slot} {side : End}
  {data bytes : List UInt8} {answer : ℤ}

/-- The log is true of the pipe: the bytes read and those in the ring are the bytes written, each
answer is the length of what was read or written, and the open ends are counted. -/
structure Log.Tells (log : Log) (p : PipeState) (index : ℕ) : Prop where
  bounded : p.ring.Bounded
  stream : log.taken.flatMap Prod.fst ++ p.ring.contents = log.written.flatMap Prod.fst
  whole : ∀ call ∈ log.taken ++ log.written, call.2 = call.1.length
  ends : p.active = true → index < pipeMax ∧ p.ends = log.ends

theorem Log.Tells.put (h : log.Tells p index) (hfit : data.length ≤ p.free) :
    (log.answer data data.length .write).Tells { p with ring := p.ring.put data } index where
  bounded := h.bounded.put hfit
  stream := by
    simp only [Log.answer, if_neg (Int.natCast_nonneg _).not_gt]
    rw [h.bounded.contents_put hfit, ← append_assoc, h.stream]
    simp
  whole := by
    simp only [Log.answer, if_neg (Int.natCast_nonneg _).not_gt, ← append_assoc]
    exact forall_mem_append.mpr ⟨h.whole, forall_mem_singleton.mpr rfl⟩
  ends := by
    simp only [Log.answer, if_neg (Int.natCast_nonneg _).not_gt]
    exact h.ends

theorem Log.Tells.take (h : log.Tells p index) {k : ℕ} (hk : k ≤ p.ring.count) :
    (log.answer (p.ring.take k).1 k .read).Tells { p with ring := (p.ring.take k).2 } index := by
  have hle : (p.ring.take k).1.length = k := RingBuffer.length_fetch _ _ _
  have hlog : log.answer (p.ring.take k).1 k .read =
      { log with taken := log.taken ++ [((p.ring.take k).1, (k : ℤ))] } := by
    simp only [Log.answer, if_neg (Int.natCast_nonneg k).not_gt, Int.toNat_natCast,
      take_of_length_le hle.le]
  rw [hlog]
  refine ⟨h.bounded.take k, ?_, ?_, h.ends⟩
  · rw [← h.stream, ← h.bounded.contents_take hk]
    simp
  · obtain ⟨ht, hw⟩ := forall_mem_append.mp h.whole
    refine forall_mem_append.mpr ⟨forall_mem_append.mpr ⟨ht, ?_⟩, hw⟩
    exact forall_mem_singleton.mpr (by rw [hle])

/-- Answers that no bytes come with. -/
theorem Log.Tells.told (h : log.Tells p index) (bytes : List UInt8)
    (ha : answer < 0 ∨ side = .read ∧ answer = 0) :
    (log.answer bytes answer side).Tells p index := by
  obtain hneg | ⟨rfl, rfl⟩ := ha
  · simpa only [Log.answer, if_pos hneg] using h
  · refine ⟨h.bounded, by simpa [Log.answer] using h.stream, ?_, h.ends⟩
    obtain ⟨ht, hw⟩ := forall_mem_append.mp h.whole
    exact forall_mem_append.mpr
      ⟨forall_mem_append.mpr ⟨ht, forall_mem_singleton.mpr rfl⟩, hw⟩

/-- Calls on one pipe are completed: tasks stop waiting and bytes flow, nothing else. -/
structure Completes (index : ℕ) (s s' : State) : Prop where
  count : s'.count = s.count
  others : ∀ j ≠ index, s'.pipes j = s.pipes j ∧ s'.logs j = s.logs j
  ends : (s'.pipes index).ends = (s.pipes index).ends
  active : (s'.pipes index).active = (s.pipes index).active
  parked : ∀ j side slot, s'.Parked j side slot →
    s.Parked j side slot ∧ s'.waits slot = s.waits slot
  tells : (s.logs index).Tells (s.pipes index) index → (s'.logs index).Tells (s'.pipes index) index

theorem Completes.refl (index : ℕ) (s : State) : Completes index s s :=
  ⟨rfl, fun _ _ => ⟨rfl, rfl⟩, rfl, rfl, fun _ _ _ h => ⟨h, rfl⟩, id⟩

theorem Completes.trans {s'' : State} (h : Completes index s s') (h' : Completes index s' s'') :
    Completes index s s'' where
  count := h'.count.trans h.count
  others j hj := ⟨(h'.others j hj).1.trans (h.others j hj).1,
    (h'.others j hj).2.trans (h.others j hj).2⟩
  ends := h'.ends.trans h.ends
  active := h'.active.trans h.active
  parked j side slot hp := by
    obtain ⟨hp, hw'⟩ := h'.parked j side slot hp
    obtain ⟨hp, hw⟩ := h.parked j side slot hp
    exact ⟨hp, hw'.trans hw⟩
  tells ht := h'.tells (h.tells ht)

theorem not_parked_finish (s : State) (slot : Slot) (answer : ℤ) (j : ℕ) (side : End) :
    ¬ (s.finish slot answer).Parked j side slot := by
  simp [State.Parked, State.finish]

theorem parked_of_finish {j : ℕ} {c : Slot} (hp : (s.finish slot answer).Parked j side c) :
    s.Parked j side c ∧ (s.finish slot answer).waits c = s.waits c := by
  have hc : c ≠ slot := fun heq => not_parked_finish s slot answer j side (heq ▸ hp)
  simpa [State.Parked, State.finish, State.record, hc] using hp

/-- One pipe and its log change, and a call may be completed. -/
theorem completes_of_update (hpi : s'.pipes = update s.pipes index p)
    (hl : s'.logs = update s.logs index log) (hcount : s'.count = s.count)
    (he : p.ends = (s.pipes index).ends) (hac : p.active = (s.pipes index).active)
    (hpa : ∀ j side slot, s'.Parked j side slot →
      s.Parked j side slot ∧ s'.waits slot = s.waits slot)
    (ht : (s.logs index).Tells (s.pipes index) index → log.Tells p index) :
    Completes index s s' := by
  have hs : s'.pipes index = p := by rw [hpi, update_self]
  refine ⟨hcount, fun j hj => ?_, by rw [hs, he], by rw [hs, hac], hpa, ?_⟩
  · rw [hpi, hl, update_of_ne hj, update_of_ne hj]
    exact ⟨rfl, rfl⟩
  · rw [hs, hl, update_self]
    exact ht

theorem logs_finish (hp : s.Parked index side slot) :
    (s.finish slot answer).logs =
      update s.logs index ((s.logs index).answer (s.bytesOf slot) answer side) := by
  obtain ⟨-, hpi, hs⟩ := hp
  simp only [State.finish, State.record, hpi, hs, Nat.add_sub_cancel]

theorem completes_finish (hp : s.Parked index side slot)
    (ha : answer < 0 ∨ side = .read ∧ answer = 0) :
    Completes index s (s.finish slot answer) :=
  completes_of_update (update_eq_self index s.pipes).symm (logs_finish hp) rfl rfl rfl
    (fun _ _ _ hp => parked_of_finish hp) fun h => h.told _ ha

/-- A parked reader is given bytes. -/
theorem completes_takeOut (hp : s.Parked index .read slot) {k : ℕ}
    (hk : k ≤ (s.pipes index).ring.count) :
    Completes index s ((s.takeOut slot index k).finish slot k) := by
  have hb : (s.takeOut slot index k).bytesOf slot = ((s.pipes index).ring.take k).1 := by
    have hs : ((s.takeOut slot index k).waits slot).side = .read := hp.2.2
    rw [State.bytesOf, hs]
    exact update_self ..
  refine completes_of_update rfl (logs_finish (s := s.takeOut slot index k) hp) rfl rfl rfl
    (fun _ _ _ hp => parked_of_finish (s := s.takeOut slot index k) hp) fun h => ?_
  rw [hb]
  exact h.take hk

/-- The bytes of a parked writer are put in. -/
theorem completes_putIn (hp : s.Parked index .write slot)
    (hl : (s.waits slot).data.length = (s.waits slot).length)
    (hfit : (s.waits slot).length ≤ (s.pipes index).free) :
    Completes index s
      ((s.putIn index (s.waits slot).data).finish slot (s.waits slot).length) := by
  have hb : (s.putIn index (s.waits slot).data).bytesOf slot = (s.waits slot).data := by
    have hs : ((s.putIn index (s.waits slot).data).waits slot).side = .write := hp.2.2
    rw [State.bytesOf, hs]
    rfl
  refine completes_of_update rfl (logs_finish (s := s.putIn index _) hp) rfl rfl rfl
    (fun _ _ _ hp => parked_of_finish (s := s.putIn index _) hp) fun h => ?_
  rw [hb, ← hl]
  exact h.put (hl.trans_le hfit)

theorem wakeReadersFrom_spec (index : ℕ) (slots : List Slot) (s : State) :
    Completes index s (State.wakeReadersFrom index slots s) ∧
      (((State.wakeReadersFrom index slots s).pipes index).ring.count = 0 ∨
        ∀ slot ∈ slots, ¬ (State.wakeReadersFrom index slots s).Parked index .read slot) := by
  induction slots generalizing s with
  | nil => exact ⟨.refl index s, .inr (by simp)⟩
  | cons slot rest ih =>
    rw [State.wakeReadersFrom]
    split
    · rename_i hf
      obtain ⟨hc, hend⟩ := ih s
      exact ⟨hc, hend.imp_right fun hr =>
        forall_mem_cons.mpr ⟨fun hp => hf (hc.parked _ _ _ hp).1, hr⟩⟩
    rename_i hpa
    split
    · rename_i hem
      exact ⟨.refl index s, .inl hem⟩
    · obtain ⟨hc, hend⟩ := ih _
      refine ⟨(completes_takeOut (not_not.mp hpa) (min_le_left _ _)).trans hc,
        hend.imp_right fun hr => forall_mem_cons.mpr ⟨fun hp => ?_, hr⟩⟩
      exact not_parked_finish _ _ _ _ _ (hc.parked _ _ _ hp).1

/-- Parked writers have their whole request in their buffer, and it is a small one. -/
def Requested (s : State) (index : ℕ) : Prop :=
  ∀ slot, s.Parked index .write slot →
    (s.waits slot).data.length = (s.waits slot).length ∧ (s.waits slot).length ≤ ioMax

theorem Requested.completes (h : Requested s index) (hc : Completes index s s') :
    Requested s' index := by
  intro slot hp
  obtain ⟨hp, hw⟩ := hc.parked _ _ _ hp
  rw [hw]
  exact h slot hp

theorem wakeWritersFrom_spec (index : ℕ) (slots : List Slot) (s : State)
    (hreq : Requested s index) :
    Completes index s (State.wakeWritersFrom index slots s) ∧
      (0 < ((State.wakeWritersFrom index slots s).pipes index).ring.count ∨
        ∀ slot ∈ slots, ¬ (State.wakeWritersFrom index slots s).Parked index .write slot) := by
  induction slots generalizing s with
  | nil => exact ⟨.refl index s, .inr (by simp)⟩
  | cons slot rest ih =>
    rw [State.wakeWritersFrom]
    split
    · rename_i hfr
      obtain ⟨hc, hend⟩ := ih s hreq
      exact ⟨hc, hend.imp_right fun hres =>
        forall_mem_cons.mpr ⟨fun hp => hfr (hc.parked _ _ _ hp).1, hres⟩⟩
    rename_i hpa
    obtain ⟨hl, hs⟩ := hreq slot (not_not.mp hpa)
    split
    · -- A request that does not fit is smaller than the ring, so the ring holds something.
      rename_i hfu
      refine ⟨.refl index s, .inl ?_⟩
      unfold PipeState.free pipeBuf at hfu
      unfold ioMax at hs
      omega
    · rename_i hfits
      have hput := completes_putIn (not_not.mp hpa) hl (Nat.le_of_not_lt hfits)
      obtain ⟨hc, hend⟩ := ih _ (hreq.completes hput)
      refine ⟨hput.trans hc, hend.imp_right fun hres =>
        forall_mem_cons.mpr ⟨fun hp => ?_, hres⟩⟩
      exact not_parked_finish _ _ _ _ _ (hc.parked _ _ _ hp).1

theorem wakeReadersFrom_idle {slots : List Slot}
    (h : ∀ slot, s.Parked index .read slot → (s.pipes index).ring.count = 0) :
    State.wakeReadersFrom index slots s = s := by
  induction slots with
  | nil => rfl
  | cons slot rest ih =>
    rw [State.wakeReadersFrom, ih]
    split
    · rfl
    · rename_i hp
      rw [if_pos (h slot (not_not.mp hp))]

theorem foldl_answer_spec (index : ℕ) (han : answer < 0 ∨ side = .read ∧ answer = 0)
    (slots : List Slot) (s : State) :
    let s' := slots.foldl
      (fun s slot => if s.Parked index side slot then s.finish slot answer else s) s
    Completes index s s' ∧ s'.pipes = s.pipes ∧ ∀ slot ∈ slots, ¬ s'.Parked index side slot := by
  induction slots generalizing s with
  | nil => exact ⟨.refl index s, rfl, by simp⟩
  | cons slot rest ih =>
    rw [foldl_cons]
    obtain ⟨hc, hpi, hr⟩ :=
      ih (if s.Parked index side slot then s.finish slot answer else s)
    have hs : let s₁ := if s.Parked index side slot then s.finish slot answer else s
        Completes index s s₁ ∧ s₁.pipes = s.pipes ∧ ¬ s₁.Parked index side slot := by
      dsimp only
      split
      · rename_i hp
        exact ⟨completes_finish hp han, rfl, not_parked_finish s slot answer _ _⟩
      · rename_i hf
        exact ⟨.refl index s, rfl, hf⟩
    exact ⟨hs.1.trans hc, hpi.trans hs.2.1,
      forall_mem_cons.mpr ⟨fun hp => hs.2.2 (hc.parked _ _ _ hp).1, hr⟩⟩

/-- A call at the side has to wait, and there is somebody to wait for. -/
def PipeState.Blocks (p : PipeState) (side : End) : Prop :=
  (p.ring.count = 0 ↔ side = .read) ∧ p.ends side.other ≠ 0

/-- The logs are true, and no task waits for what is already there. -/
structure Sound (s : State) : Prop where
  tells : ∀ j, (s.logs j).Tells (s.pipes j) j
  range : ∀ j side slot, s.Parked j side slot → slot.val < s.count
  waiting : ∀ j side slot, s.Parked j side slot →
    (s.pipes j).active = true ∧ (s.pipes j).Blocks side
  requested : ∀ j, Requested s j

theorem State.mem_slots (h : slot.val < s.count) : slot ∈ s.slots := by
  simp only [State.slots, mem_filter, mem_finRange, true_and]
  exact decide_eq_true h

section

variable (h : Sound s)
include h

/-- One pipe changes, and fewer tasks wait. -/
theorem Sound.change (index : ℕ) (hcount : s'.count = s.count)
    (ho : ∀ j ≠ index, s'.pipes j = s.pipes j ∧ s'.logs j = s.logs j)
    (hpa : ∀ j side slot, s'.Parked j side slot →
      s.Parked j side slot ∧ s'.waits slot = s.waits slot)
    (ht : (s'.logs index).Tells (s'.pipes index) index)
    (hwaiti : ∀ side slot, s'.Parked index side slot →
      (s'.pipes index).active = true ∧ (s'.pipes index).Blocks side) : Sound s' := by
  refine ⟨fun j => ?_, fun j side slot hp => ?_, fun j side slot hp => ?_, fun j slot hp => ?_⟩
  · by_cases hj : j = index
    · exact hj ▸ ht
    · rw [(ho j hj).1, (ho j hj).2]
      exact h.tells j
  · exact hcount ▸ h.range j side slot (hpa j side slot hp).1
  · by_cases hj : j = index
    · subst hj
      exact hwaiti side slot hp
    · rw [(ho j hj).1]
      exact h.waiting j side slot (hpa j side slot hp).1
  · obtain ⟨hp, hwait⟩ := hpa j _ slot hp
    rw [hwait]
    exact h.requested j slot hp

theorem Sound.completes (hc : Completes index s s')
    (hcount : ∀ side slot, s'.Parked index side slot →
      ((s'.pipes index).ring.count = 0 ↔ side = .read)) : Sound s' := by
  refine h.change index hc.count hc.others hc.parked (hc.tells (h.tells index)) fun side slot hp => ?_
  obtain ⟨ha, -, he⟩ := h.waiting index side slot (hc.parked _ _ _ hp).1
  exact ⟨hc.active.trans ha, hcount side slot hp, hc.ends ▸ he⟩

theorem Sound.fewer (hpi : s'.pipes = s.pipes) (hl : s'.logs = s.logs)
    (hcount : s'.count = s.count) (hpa : ∀ j side slot, s'.Parked j side slot →
      s.Parked j side slot ∧ s'.waits slot = s.waits slot) : Sound s' := by
  refine h.change 0 hcount (fun j _ => by rw [hpi, hl]; exact ⟨rfl, rfl⟩) hpa
    (by rw [hpi, hl]; exact h.tells 0) fun side slot hp => ?_
  rw [hpi]
  exact h.waiting 0 side slot (hpa _ _ _ hp).1

theorem Sound.no_reader (hcount : (s.pipes index).ring.count ≠ 0) (slot : Slot) :
    ¬ s.Parked index .read slot :=
  fun hp => hcount ((h.waiting index .read slot hp).2.1.mpr rfl)

theorem Sound.park (hr : s.Ready slot) (wait : Wait) (hpi : wait.pipe = index + 1)
    (hac : (s.pipes index).active = true) (hb : (s.pipes index).Blocks wait.side)
    (hwr : wait.side = .write → wait.data.length = wait.length ∧ wait.length ≤ ioMax) :
    Sound (s.park slot wait) := by
  have hse : ∀ j side, (s.park slot wait).Parked j side slot → j = index ∧ wait.side = side := by
    rintro j side ⟨-, hp, hsi⟩
    simp only [State.park, update_self] at hp hsi
    exact ⟨by omega, hsi⟩
  have ho : ∀ j side c, c ≠ slot → (s.park slot wait).Parked j side c →
      s.Parked j side c ∧ (s.park slot wait).waits c = s.waits c := by
    rintro j side c hc ⟨ht, hp⟩
    simp only [State.park, update_of_ne hc] at ht hp ⊢
    exact ⟨⟨ht, hp⟩, trivial⟩
  refine ⟨h.tells, fun j side c hp => ?_, fun j side c hp => ?_, fun j c hp => ?_⟩ <;>
    by_cases hc : c = slot
  · exact hc ▸ hr.1
  · exact h.range j side c (ho j side c hc hp).1
  · subst hc
    obtain ⟨rfl, rfl⟩ := hse j _ hp
    exact ⟨hac, hb⟩
  · exact h.waiting j side c (ho j side c hc hp).1
  · subst hc
    simpa [State.park] using hwr (hse j _ hp).2
  · obtain ⟨hp, hwa⟩ := ho j _ c hc hp
    rw [hwa]
    exact h.requested j c hp

theorem Sound.parkOr {wait : Wait} (hpa : Sound (s.park slot wait)) (alone : Bool) :
    Sound (s.parkOr slot wait alone).1 := by
  unfold State.parkOr
  split
  · refine h.fewer rfl rfl rfl fun j side c hp => ?_
    by_cases hc : c = slot
    · subst hc
      simp [State.Parked, State.unpark] at hp
    · simpa [State.Parked, State.unpark, State.park, hc] using hp
  · exact hpa

theorem Sound.read (hr : s.Ready slot) (index length : ℕ) (alone : Bool) :
    Sound (s.read slot index length alone).1 := by
  unfold State.read
  split
  · exact h
  rename_i hv
  have hac : (s.pipes index).active = true := by simpa using (not_or.mp (not_or.mp hv).2).1
  split
  · rename_i hcount
    dsimp only
    have htake : min (s.pipes index).ring.count length ≤ (s.pipes index).ring.count :=
      min_le_left _ _
    generalize min (s.pipes index).ring.count length = take at htake
    set s₁ := (s.takeOut slot index take).record index ((s.takeOut slot index take).buffers slot)
      take .read with hs₁
    have htaken : Completes index s s₁ := by
      refine completes_of_update rfl rfl rfl rfl rfl (fun _ _ _ hp => ⟨hp, rfl⟩) fun ht => ?_
      simpa [State.takeOut, State.setPipe] using ht.take htake
    obtain ⟨hwo, hend⟩ := wakeWritersFrom_spec index s₁.slots s₁
      ((h.requested index).completes htaken)
    have hc := htaken.trans hwo
    refine h.completes hc fun side c hp => ?_
    cases side with
    | read => exact absurd (hc.parked _ _ _ hp).1 (h.no_reader hcount c)
    | write =>
      have hpos := hend.resolve_right fun hn => hn c
        (State.mem_slots (htaken.count ▸ h.range _ _ c (hc.parked _ _ _ hp).1)) hp
      exact iff_of_false hpos.ne' nofun
  rename_i hem
  split
  · refine h.completes (completes_of_update (update_eq_self index s.pipes).symm rfl rfl rfl rfl
      (fun _ _ _ hp => ⟨hp, rfl⟩) fun ht => ht.told _ (.inr ⟨rfl, rfl⟩)) fun side c hp => ?_
    exact (h.waiting index side c hp).2.1
  rename_i hwr
  exact h.parkOr (h.park hr ⟨index + 1, .read, length, []⟩ rfl hac
    ⟨iff_of_true (not_not.mp hem) rfl, hwr⟩ nofun) alone

theorem Sound.write (hready : s.Ready slot) (index : ℕ) (data : List UInt8)
    (alone : Bool) : Sound (s.write slot index data alone).1 := by
  unfold State.write
  split
  · exact h
  rename_i hv
  simp only [not_or, Bool.not_eq_false, Nat.not_lt] at hv
  obtain ⟨-, hac, hl, hsm⟩ := hv
  split
  · exact h
  rename_i hreade
  split
  · rename_i hfu
    have hpos : (s.pipes index).ring.count ≠ 0 := by
      unfold PipeState.free pipeBuf at hfu
      unfold ioMax at hsm
      omega
    exact h.parkOr (h.park hready ⟨index + 1, .write, data.length, data⟩ rfl hac
      ⟨iff_of_false hpos nofun, hreade⟩ fun _ => ⟨rfl, hsm⟩) alone
  · rename_i hfits
    set s₁ := (s.putIn index data).record index data data.length .write with hs₁
    have hput : Completes index s s₁ := completes_of_update rfl rfl rfl rfl rfl
      (fun _ _ _ hp => ⟨hp, rfl⟩) fun ht => ht.put (Nat.le_of_not_lt hfits)
    obtain ⟨hwo, hend⟩ := wakeReadersFrom_spec index s₁.slots s₁
    have hc := hput.trans hwo
    refine h.completes hc fun side c hp => ?_
    have hwa := (hc.parked _ _ _ hp).1
    cases side with
    | read =>
      have hem := hend.resolve_right fun hn => hn c
        (State.mem_slots (hput.count ▸ h.range _ _ c hwa)) hp
      exact iff_of_true hem rfl
    | write =>
      -- A writer waits only while no reader does, so nothing was taken out again.
      have hfu : (s.pipes index).ring.count ≠ 0 := fun hz =>
        nomatch (h.waiting index .write c hwa).2.1.mp hz
      have hsa : s₁.wakeReaders index = s₁ :=
        wakeReadersFrom_idle fun slot hp => absurd hp (h.no_reader hfu slot)
      rw [hsa]
      refine iff_of_false ?_ nofun
      simp only [hs₁, State.record, State.putIn, State.setPipe, update_self, RingBuffer.put]
      omega

/-- The end counters may differ from the log at one pipe, but not when it is there. -/
theorem Sound.uncounted (change : ℕ → ℕ)
    (hs : (s.pipes index).active = true → index < pipeMax →
      change ((s.pipes index).ends side) = (s.pipes index).ends side) :
    Sound (s.countEnd index side change) := by
  refine h.change index rfl (fun j hj => ⟨rfl, update_of_ne hj _ _⟩)
    (fun _ _ _ hp => ⟨hp, rfl⟩) ?_ fun side slot hp => h.waiting index side slot hp
  have ht := h.tells index
  simp only [State.countEnd, update_self]
  refine ⟨ht.bounded, ht.stream, ht.whole, fun hac => ?_⟩
  obtain ⟨hmax, he⟩ := ht.ends hac
  refine ⟨hmax, ?_⟩
  rw [← he, hs hac hmax, update_eq_self]

/-- An end is counted in the pipe and in the log. -/
theorem Sound.tells_setEnd (index : ℕ) (side : End) (change : ℕ → ℕ) :
    (((s.countEnd index side change).setEnd index side
        (change ((s.pipes index).ends side))).logs index).Tells
      (((s.countEnd index side change).setEnd index side
        (change ((s.pipes index).ends side))).pipes index) index := by
  have ht := h.tells index
  simp only [State.countEnd, State.setEnd, State.setPipe, update_self]
  refine ⟨by simpa using ht.bounded, by simpa using ht.stream, ht.whole, fun hac => ?_⟩
  obtain ⟨hmax, he⟩ := ht.ends (by simpa using hac)
  exact ⟨hmax, by simp [he]⟩

theorem Sound.counted (index : ℕ) (side : End) (change : ℕ → ℕ)
    (hpos : change ((s.pipes index).ends side) ≠ 0) :
    Sound ((s.countEnd index side change).setEnd index side
      (change ((s.pipes index).ends side))) := by
  refine h.change index rfl (fun j hj => ⟨update_of_ne hj _ _, update_of_ne hj _ _⟩)
    (fun _ _ _ hp => ⟨hp, rfl⟩) (h.tells_setEnd index side change) fun e slot hp => ?_
  obtain ⟨ha, hcount, hen⟩ := h.waiting index e slot hp
  simp only [State.setEnd, State.setPipe, State.countEnd, update_self, PipeState.Blocks,
    PipeState.setEnd_active, PipeState.setEnd_ring, PipeState.setEnd_ends]
  refine ⟨ha, hcount, ?_⟩
  by_cases he : e.other = side
  · rwa [he, update_self]
  · rwa [update_of_ne he]

theorem Sound.retain (index : ℕ) (side : End) :
    Sound ((s.countEnd index side (· + 1)).retain index side) := by
  unfold State.retain
  split
  · rename_i hr
    refine h.uncounted _ fun ha hmax => absurd hr ?_
    exact not_or.mpr ⟨hmax.not_ge, by rw [State.countEnd, ha]; nofun⟩
  · exact h.counted index side (· + 1) (Nat.succ_ne_zero _)

theorem Sound.retire (index : ℕ) : Sound (s.retire index) := by
  unfold State.retire
  split
  · rename_i hg
    have ht := h.tells index
    refine h.change index rfl (fun j hj => ⟨update_of_ne hj _ _, rfl⟩)
      (fun _ _ _ hp => ⟨hp, rfl⟩) ?_ fun side slot hp => absurd hg ?_
    · simp only [State.setPipe, update_self]
      exact ⟨ht.bounded, ht.stream, ht.whole, nofun⟩
    · have he := (h.waiting index side slot hp).2.2
      cases side with
      | read => exact fun hg => he hg.2
      | write => exact fun hg => he hg.1
  · exact h

/-- The last end of a side is gone, and those that wait on the other side are told. -/
theorem Sound.last (index : ℕ) (side : End) (change : ℕ → ℕ)
    (han : answer < 0 ∨ side.other = .read ∧ answer = 0) :
    Sound (((s.countEnd index side change).setEnd index side
      (change ((s.pipes index).ends side))).answerAll index side.other answer) := by
  set s₁ := (s.countEnd index side change).setEnd index side
    (change ((s.pipes index).ends side)) with hs₁
  obtain ⟨hc, hpipes, hn⟩ := foldl_answer_spec index han s₁.slots s₁
  refine h.change index hc.count (fun j hj => ?_) hc.parked
    (hc.tells (h.tells_setEnd index side change)) fun e slot hp => ?_
  · exact ⟨(hc.others j hj).1.trans (update_of_ne hj _ _),
      (hc.others j hj).2.trans (update_of_ne hj _ _)⟩
  · have hw : s.Parked index e slot := (hc.parked _ _ _ hp).1
    obtain ⟨hac, hcount, hen⟩ := h.waiting index e slot hw
    have he : e.other ≠ side := by
      rintro rfl
      refine hn slot (State.mem_slots (h.range _ _ slot hw)) ?_
      cases e <;> exact hp
    have hpipe : (s₁.answerAll index side.other answer).pipes index =
        (s.pipes index).setEnd side (change ((s.pipes index).ends side)) :=
      (congrFun hpipes index).trans (update_self ..)
    rw [hpipe]
    simpa [PipeState.Blocks, update_of_ne he] using ⟨hac, hcount, hen⟩

theorem Sound.release (index : ℕ) (side : End) :
    Sound ((s.countEnd index side (· - 1)).release index side) := by
  unfold State.release
  split
  · rename_i hr
    refine h.uncounted _ fun hac hmax => absurd hr ?_
    exact not_or.mpr ⟨hmax.not_ge, by rw [State.countEnd, hac]; nofun⟩
  split
  · rename_i hz
    have hn : (s.pipes index).ends side = 0 := hz
    exact h.uncounted _ fun _ _ => by rw [hn]
  dsimp only
  split
  · rename_i hle
    refine h.counted index side (· - 1) ?_
    simpa [State.setEnd, State.setPipe, State.countEnd] using hle
  cases side with
  | read => exact (h.last index .read (· - 1) (.inl (by decide))).retire index
  | write =>
    -- Readers only wait at an empty ring, so there is nothing to read out.
    have hs : ((s.countEnd index .write (· - 1)).setEnd index .write
          ((s.pipes index).ends .write - 1)).wakeReaders index = (s.countEnd index .write
        (· - 1)).setEnd index .write ((s.pipes index).ends .write - 1) := by
      refine wakeReadersFrom_idle fun slot hp => ?_
      simpa [State.setEnd, State.setPipe, State.countEnd] using
        (h.waiting index .read slot hp).2.1
    have hla := (h.last index .write (· - 1) (.inr ⟨rfl, rfl⟩)).retire index
    rw [← hs] at hla
    exact hla

theorem Sound.create : Sound s.create.1 := by
  unfold State.create
  split
  · rename_i index hf
    have hmat := find?_some hf
    have hi : (s.pipes index).active = false := of_decide_eq_true hmat
    have hmax : index < pipeMax := mem_range.mp (mem_of_find?_eq_some hf)
    refine h.change index rfl (fun j hj => ⟨update_of_ne hj _ _, update_of_ne hj _ _⟩)
      (fun _ _ _ hp => ⟨hp, rfl⟩) ?_ fun side slot hp => ?_
    · simp only [State.setPipe, update_self]
      refine ⟨⟨(by decide : 0 < pipeBuf), Nat.zero_le _⟩, rfl, nofun, fun _ => ⟨hmax, ?_⟩⟩
      funext e
      cases e <;> rfl
    · have hac := (h.waiting index side slot hp).1
      simp [hi] at hac
  · exact h

theorem Sound.signal (slot : Slot) : Sound (s.signal slot) := by
  unfold State.signal
  split
  · refine h.fewer rfl ?_ rfl fun _ _ _ hp => parked_of_finish hp
    simp [State.finish, State.record, Log.answer, eintr]
  · exact h

theorem Sound.poke (slot : Slot) (data : List UInt8) : Sound (s.poke slot data) := by
  unfold State.poke
  split
  · rename_i hl
    set s' : State :=
      { s with waits := update s.waits slot { s.waits slot with data := data } } with hs'
    have hpa : ∀ j side c, s'.Parked j side c ↔ s.Parked j side c := by
      intro j side c
      by_cases hc : c = slot
      · simp [State.Parked, hs', hc]
      · simp [State.Parked, hs', hc]
    refine ⟨h.tells, fun j side c hp => h.range j side c ((hpa j side c).mp hp),
      fun j side c hp => h.waiting j side c ((hpa j side c).mp hp), fun j c hp => ?_⟩
    have hr := h.requested j c ((hpa j _ c).mp hp)
    by_cases hc : c = slot
    · subst hc
      simpa [hs', hl] using hr
    · simpa [hs', hc] using hr
  · exact h

/-- Every operation keeps the logs true, and lets nobody wait for what is there. -/
theorem Sound.perform (op : Op) : Sound (op.perform s) := by
  cases op with
  | create => exact h.create
  | retain index side => exact h.retain index side
  | release index side => exact h.release index side
  | read slot index length alone =>
    rw [Op.perform]
    split
    · rename_i hr
      exact h.read hr index length alone
    · exact h
  | write slot index data alone =>
    rw [Op.perform]
    split
    · rename_i hr
      exact h.write hr index data alone
    · exact h
  | signal slot => exact h.signal slot
  | poke slot data => exact h.poke slot data

end

theorem sound_of_initial (h : s.Initial) : Sound s := by
  have hn : ∀ j side slot, ¬ s.Parked j side slot := fun j side slot hp => h.tasks slot hp.1
  refine ⟨fun j => ?_, fun j side slot hp => absurd hp (hn j side slot),
    fun j side slot hp => absurd hp (hn j side slot),
    fun j slot hp => absurd hp (hn j _ slot)⟩
  obtain ⟨hi, ht, hcount⟩ := h.pipes j
  rw [h.logs]
  exact ⟨⟨by rw [ht]; decide, by rw [hcount]; decide⟩,
    by simp [Log.empty, RingBuffer.contents, hcount], nofun, fun hac => by
      simp [hi] at hac⟩

theorem Sound.performAll (h : Sound s) (ops : List Op) : Sound (performAll s ops) := by
  induction ops generalizing s with
  | nil => exact h
  | cons op rest ih => exact ih (h.perform op)

/-- After any run, the bytes that the reads of a pipe were given are the start of what its writes
wrote, put end to end; each call was answered with the number of its bytes, a write with all of
them. The ring keeps within its size, and nobody waits for bytes, room or an end that is there or
gone, as the retains and releases count the ends. -/
theorem pipe_stream {start : State} (hstart : start.Initial) (ops : List Op) (index : ℕ) :
    let s := performAll start ops
    let log := s.logs index
    log.taken.flatMap Prod.fst <+: log.written.flatMap Prod.fst ∧
      (∀ call ∈ log.taken ++ log.written, call.2 = call.1.length) ∧
      (s.pipes index).ring.count ≤ pipeBuf ∧
      (∀ slot, s.Parked index .read slot →
        ¬ ((s.pipes index).ring.count ≠ 0 ∨ log.ends .write = 0)) ∧
      ∀ slot, s.Parked index .write slot →
        ¬ ((s.pipes index).ring.count = 0 ∨ log.ends .read = 0) := by
  have hso := (sound_of_initial hstart).performAll ops
  have ht := hso.tells index
  refine ⟨⟨_, ht.stream⟩, ht.whole, ht.bounded.count, fun slot hp => ?_,
    fun slot hp => ?_⟩
  · obtain ⟨hac, hcount, he⟩ := hso.waiting index .read slot hp
    rw [← (ht.ends hac).2]
    exact not_or.mpr ⟨not_not.mpr (hcount.mpr rfl), he⟩
  · obtain ⟨hac, hcount, he⟩ := hso.waiting index .write slot hp
    rw [← (ht.ends hac).2]
    exact not_or.mpr ⟨mt hcount.mp nofun, he⟩

/-- Two idle tasks and no pipe. -/
def idle : State where
  pipes _ := ⟨⟨fun _ => 0, 0, 0⟩, 0, 0, false⟩
  waits _ := ⟨0, .read, 0, []⟩
  tasks _ := .running
  count := 2
  result _ := 0
  buffers _ := []
  logs _ := .empty

theorem idle_initial : idle.Initial where
  pipes _ := ⟨rfl, rfl, rfl⟩
  logs _ := rfl
  tasks _ := by simp [idle]

/-- A reader parks and is served by a write, the rest of which stays in the ring until it is read;
the reader parks again. -/
def oneServed : State :=
  performAll idle [.create, .retain 0 .read, .retain 0 .write, .read 0 0 2 false,
    .write 1 0 [7, 8, 9] false, .read 0 0 2 false, .read 0 0 2 false]

theorem pipe_stream_served :
    let log := oneServed.logs 0
    (idle.Initial ∧ log.taken = [([7, 8], 2), ([9], 1)] ∧ log.written = [([7, 8, 9], 3)] ∧
        oneServed.Parked 0 .read 0 ∧ log.ends .write = 1) ∧
      log.taken.flatMap Prod.fst <+: log.written.flatMap Prod.fst ∧
      (∀ call ∈ log.taken ++ log.written, call.2 = call.1.length) ∧
      (oneServed.pipes 0).ring.count ≤ pipeBuf ∧
      (∀ slot, oneServed.Parked 0 .read slot →
        ¬ ((oneServed.pipes 0).ring.count ≠ 0 ∨ log.ends .write = 0)) ∧
      ∀ slot, oneServed.Parked 0 .write slot →
        ¬ ((oneServed.pipes 0).ring.count = 0 ∨ log.ends .read = 0) :=
  ⟨⟨idle_initial, by decide +kernel⟩, pipe_stream idle_initial _ 0⟩

def pollIn : BitVec 16 := 0x001
def pollOut : BitVec 16 := 0x004
def pollErr : BitVec 16 := 0x008
def pollHup : BitVec 16 := 0x010
def pollNval : BitVec 16 := 0x020

/-- `pipe_poll_locked`. -/
def State.poll (s : State) (index : ℕ) (side : End) : BitVec 16 :=
  if index ≥ pipeMax ∨ (s.pipes index).active = false then pollNval
  else
    match side with
    | .read =>
      (if (s.pipes index).ring.count ≠ 0 then pollIn else 0) |||
        (if (s.pipes index).writers = 0 then pollHup else 0)
    | .write =>
      if (s.pipes index).readers = 0 then pollErr
      else if (s.pipes index).free ≠ 0 then pollOut
      else 0

/-- The call went through or failed; it neither parked nor would have, had another task been
there to run. -/
def Done (answer : Option ℤ) : Prop := answer ≠ none ∧ answer ≠ some edeadlk

theorem done_some {n : ℕ} : Done (some n) := by
  refine ⟨by simp, fun h => ?_⟩
  have hn : (n : ℤ) = -35 := Option.some_inj.mp h
  omega

theorem not_done_parkOr (s : State) (slot : Slot) (wait : Wait) (alone : Bool) :
    ¬ Done (s.parkOr slot wait alone).2 := by
  cases alone with
  | false => exact fun h => h.1 rfl
  | true => exact fun h => h.2 rfl

theorem call_valid {length : ℕ} (hi : index < pipeMax)
    (ha : (s.pipes index).active = true) (hpos : 1 ≤ length) (hmax : length ≤ ioMax) :
    ¬ (index ≥ pipeMax ∨ (s.pipes index).active = false) ∧
      ¬ (index ≥ pipeMax ∨ (s.pipes index).active = false ∨ length = 0 ∨ length > ioMax) := by
  rw [ha]
  refine ⟨by simpa using hi, ?_⟩
  rintro (h | h | h | h)
  · omega
  · cases h
  · omega
  · omega

theorem poll_read_iff (slot : Slot) (alone : Bool) {length : ℕ} (hi : index < pipeMax)
    (ha : (s.pipes index).active = true) (hpos : 1 ≤ length) (hmax : length ≤ ioMax) :
    s.poll index .read &&& (pollIn ||| pollHup) ≠ 0 ↔ Done (s.read slot index length alone).2 := by
  obtain ⟨hv, hca⟩ := call_valid hi ha hpos hmax
  unfold State.poll State.read
  rw [if_neg hv, if_neg hca]
  dsimp only
  by_cases hcount : (s.pipes index).ring.count = 0
  · rw [if_neg (not_not.mpr hcount), if_neg (not_not.mpr hcount)]
    by_cases hw : (s.pipes index).writers = 0
    · rw [if_pos hw, if_pos hw]
      exact iff_of_true (by decide) (done_some (n := 0))
    · rw [if_neg hw, if_neg hw]
      exact iff_of_false (by decide) (not_done_parkOr s slot _ alone)
  · rw [if_pos hcount, if_pos hcount]
    refine iff_of_true ?_ done_some
    split
    · decide
    · decide

theorem poll_write_iff (slot : Slot) (alone : Bool) (hi : index < pipeMax)
    (ha : (s.pipes index).active = true) (hpos : 1 ≤ data.length) (hmax : data.length ≤ ioMax) :
    (s.poll index .write &&& (pollOut ||| pollErr) ≠ 0 ↔
        (s.pipes index).readers = 0 ∨ (s.pipes index).free ≠ 0) ∧
      (Done (s.write slot index data alone).2 ↔
        (s.pipes index).readers = 0 ∨ data.length ≤ (s.pipes index).free) := by
  obtain ⟨hv, hc⟩ := call_valid hi ha hpos hmax
  unfold State.poll State.write
  rw [if_neg hv, if_neg hc]
  dsimp only
  by_cases hr : (s.pipes index).readers = 0
  · rw [if_pos hr, if_pos hr]
    exact ⟨iff_of_true (by decide) (.inl hr),
      iff_of_true (show Done (some epipe) from ⟨by decide, by decide⟩) (.inl hr)⟩
  rw [if_neg hr, if_neg hr, or_iff_right hr, or_iff_right hr]
  constructor
  · by_cases hfr : (s.pipes index).free = 0
    · rw [if_neg (not_not.mpr hfr)]
      exact iff_of_false (by decide) (not_not.mpr hfr)
    · rw [if_pos hfr]
      exact iff_of_true (by decide) hfr
  · by_cases hfits : data.length ≤ (s.pipes index).free
    · rw [if_neg (Nat.not_lt.mpr hfits)]
      exact iff_of_true done_some hfits
    · rw [if_pos (Nat.lt_of_not_le hfits)]
      exact iff_of_false (not_done_parkOr s slot _ alone) hfits

/-- Poll agrees with a read of any length, and with a write exactly when the room left is none or
enough for the whole of it. -/
theorem poll_agrees_iff (s : State) (slot : Slot) (index length : ℕ) (data : List UInt8)
    (alone : Bool) (hindex : index < pipeMax) (hactive : (s.pipes index).active = true)
    (hpos : 1 ≤ length) (hmax : length ≤ ioMax) (hdata : data.length = length) :
    (s.poll index .read &&& (pollIn ||| pollHup) ≠ 0 ↔ Done (s.read slot index length alone).2) ∧
      ((s.poll index .write &&& (pollOut ||| pollErr) ≠ 0 ↔
          Done (s.write slot index data alone).2) ↔
        ¬ ((s.pipes index).readers ≠ 0 ∧ 0 < (s.pipes index).free ∧
          (s.pipes index).free < length)) := by
  refine ⟨poll_read_iff slot alone hindex hactive hpos hmax, ?_⟩
  subst hdata
  obtain ⟨hpol, hw⟩ := poll_write_iff slot alone hindex hactive hpos hmax
  rw [hpol, hw]
  omega

/-- One byte of room is left. -/
def nearlyFull : State :=
  idle.setPipe 0 ⟨⟨fun _ => 0, 0, 4095⟩, 1, 1, true⟩

/-- Room for one byte is reported, and a write of two bytes parks. -/
theorem nearlyFull_parks : nearlyFull.poll 0 .write = pollOut ∧
    (nearlyFull.write 1 0 [7, 8] false).2 = none := by
  decide

theorem poll_agrees_nearlyFull :
    (nearlyFull.poll 0 .read &&& (pollIn ||| pollHup) ≠ 0 ↔
        Done (nearlyFull.read 1 0 1 false).2) ∧
      ((nearlyFull.poll 0 .write &&& (pollOut ||| pollErr) ≠ 0 ↔
          Done (nearlyFull.write 1 0 [7] false).2) ↔
        ¬ ((nearlyFull.pipes 0).readers ≠ 0 ∧ 0 < (nearlyFull.pipes 0).free ∧
          (nearlyFull.pipes 0).free < 1)) :=
  poll_agrees_iff nearlyFull 1 0 1 [7] false (by decide) (by decide) (by decide) (by decide) rfl

end MichCore.Pipe
