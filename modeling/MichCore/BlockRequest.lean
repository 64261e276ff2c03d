import MichCore.BlockCache

/-!
# Requests of a block device

The sixteen request slots of one device of `block/block.c`, served by a ramdisk, by a driver
with issue and reap callbacks, or by a capsule over two rings. What comes from outside is an
argument of the call that meets it. `block_service` counts the completions it applied; here it
returns them.

Ids are 64-bit words, a generation above a slot number; the other 32-bit fields are numbers,
reduced where the source can overflow.
-/
namespace MichCore.BlockRequest

inductive ReqState where
  | free
  | pending
  | done
  | error
  deriving DecidableEq, Repr

inductive BlockOp where
  | read
  | write
  deriving DecidableEq, Repr

/-- `BLOCK_OP_READ` and `BLOCK_OP_WRITE`; any other number is refused. -/
def BlockOp.decode : ℕ → Option BlockOp
  | 1 => some .read
  | 2 => some .write
  | _ => none

structure Request where
  /-- The scatter-gather object the slot holds a reference to. -/
  sg : Option ℕ
  generation : ℕ
  state : ReqState
  op : Option BlockOp
  lba : ℕ
  sectors : ℕ
  status : ℤ
  transferred : ℕ
  data : Sector

/-- Who serves the device. The pages of a ramdisk go when they are revoked; a bound
driver may come without the scatter-gather callback. -/
inductive Backing where
  | ramdisk (pages : Option (ℕ → Sector))
  | driver (issueSg : Bool)
  | capsule

structure Device where
  requests : Fin 16 → Request
  tokens : Fin 16 → ℕ
  backing : Backing
  sectorCount : ℕ
  readOnly : Bool
  defer : Bool
  revoked : Bool

namespace Device

def setRequest (dev : Device) (slot : Fin 16) (req : Request) : Device :=
  { dev with requests := Function.update dev.requests slot req }

def setToken (dev : Device) (slot : Fin 16) (token : ℕ) : Device :=
  { dev with tokens := Function.update dev.tokens slot token }

end Device

/-- `generation++` that steps over zero. -/
def nextGeneration (generation : ℕ) : ℕ :=
  if (generation + 1) % 2 ^ 32 = 0 then 1 else (generation + 1) % 2 ^ 32

/-- `((u64)generation << 32) | (slot + 1)` -/
def requestId (generation : ℕ) (slot : Fin 16) : UInt64 :=
  UInt64.ofNat (generation * 2 ^ 32 + (slot.val + 1))

def idLow (id : UInt64) : ℕ := id.toNat % 2 ^ 32

def idGeneration (id : UInt64) : ℕ := id.toNat / 2 ^ 32

/-- The slot an id names, if its low half is in range. -/
def idSlot (id : UInt64) : Option (Fin 16) :=
  if h : 1 ≤ idLow id ∧ idLow id ≤ 16 then some ⟨idLow id - 1, by omega⟩ else none

/-- Empty a slot; its generation and its data bytes stay. -/
def Request.clear (req : Request) : Request :=
  { req with sg := none, state := .free, op := none, lba := 0, sectors := 0, status := 0,
             transferred := 0 }

/-- What a completion leaves for the collector. The bytes are those it brought. -/
structure Outcome where
  status : ℤ
  transferred : ℕ
  data : Option Sector

/-- An entry of a capsule's completion ring, with the pool sector of its slot as it is when
the entry is served. -/
structure DriverCompletion where
  requestId : UInt64
  status : ℤ
  transferred : ℕ
  pool : Option Sector

/-- A completion reported by a reap callback, with the token it completes. -/
structure Reap where
  slot : ℕ
  status : ℤ
  data : Sector
  token : ℕ

inductive Completion where
  | entry (e : DriverCompletion)
  | reap (r : Reap)
  /-- The ramdisk's own transfer of the slot. -/
  | transfer

/-- A completion that settled a slot. -/
structure Delivery where
  slot : Fin 16
  source : Completion
  outcome : Outcome

/-- The bytes of a reported transfer are capped by what was asked for. -/
def DriverCompletion.outcome (e : DriverCompletion) (req : Request) : Outcome :=
  let expected := req.sectors * 512
  if e.status ≠ 0 then ⟨e.status, 0, none⟩
  else if req.op = some .read then
    match e.pool with
    | none => ⟨-1, 0, none⟩
    | some data => ⟨0, min e.transferred expected, some data⟩
  else ⟨0, min e.transferred expected, none⟩

/-- The bytes of a scatter-gather read are already in its pages. -/
def Reap.outcome (r : Reap) (req : Request) : Outcome :=
  if r.status = 0 then
    ⟨0, req.sectors * 512,
      if req.op = some .read ∧ req.sg = none then some r.data else none⟩
  else ⟨r.status, 0, none⟩

def Request.settle (req : Request) (o : Outcome) : Request :=
  { req with
    state := if o.status = 0 then .done else .error
    status := o.status
    transferred := o.transferred
    data := o.data.getD req.data }

/-- `transfer` of a ramdisk. `BLOCK_IO_SECTORS_MAX` is one, so a request moves one sector. -/
def transfer (pages : Option (ℕ → Sector)) (req : Request) : Outcome × Option (ℕ → Sector) :=
  match pages with
  | none => (⟨-1, 0, none⟩, none)
  | some sector =>
    if req.op = some .write then
      (⟨0, req.sectors * 512, none⟩, some (Function.update sector req.lba req.data))
    else (⟨0, req.sectors * 512, some (sector req.lba)⟩, some sector)

def completeSlot (dev : Device) (slot : Fin 16) : Option Delivery × Device :=
  let req := dev.requests slot
  if req.state ≠ .pending then (none, dev)
  else
    match dev.backing with
    | .ramdisk pages =>
      let out := transfer pages req
      (some ⟨slot, .transfer, out.1⟩,
        { dev.setRequest slot (req.settle out.1) with backing := .ramdisk out.2 })
    | _ => (none, dev)

/-- What the outside answers to an issue: whether it took the request, and the token
the slot is left with. -/
structure Issue where
  accepted : Bool
  token : ℕ

def freeSlot (dev : Device) : Option (Fin 16) :=
  (List.finRange 16).find? (fun slot => (dev.requests slot).state = .free)

/-- The range checks shared by both submissions; `limit` is the largest sector count. -/
def rangeOk (dev : Device) (limit lba sectors bytes : ℕ) : Bool :=
  sectors ≠ 0 ∧ sectors ≤ limit ∧ lba < dev.sectorCount ∧ sectors ≤ dev.sectorCount - lba ∧
    bytes = sectors * 512

/-- The slot as a submission fills it. -/
def Request.open (req : Request) (sg : Option ℕ) (op : BlockOp) (lba sectors : ℕ)
    (data : Sector) : Request :=
  { req with sg := sg, state := .pending, op := some op, lba := lba, sectors := sectors,
             status := 0, transferred := 0, data := data }

/-- What the backing does with a slot just filled: the delivery it makes at once, if any,
and `none` for a request it refused. -/
def issueSlot (dev : Device) (slot : Fin 16) (issue : Issue) : Option (Option Delivery) × Device :=
  match dev.backing with
  | .ramdisk _ =>
    if dev.defer then (some none, dev)
    else
      let out := completeSlot dev slot
      (some out.1, out.2)
  | .driver _ =>
    let dev := dev.setToken slot issue.token
    if issue.accepted then (some none, dev)
    else (none, dev.setRequest slot (dev.requests slot).clear)
  | .capsule =>
    if issue.accepted then (some none, dev)
    else (none, dev.setRequest slot (dev.requests slot).clear)

/-- The id, the delivery made inside the call, and the caller's buffer afterwards. -/
structure Submitted where
  id : UInt64
  delivery : Option Delivery
  buffer : Sector

def blockSubmit (dev : Device) (op lba sectors : ℕ) (buffer : Option Sector) (length : ℕ)
    (issue : Issue) : Option Submitted × Device :=
  match buffer, BlockOp.decode op with
  | some bytes, some op =>
    if dev.revoked ∨ ¬ rangeOk dev 1 lba sectors length ∨ (op = .write ∧ dev.readOnly) then
      (none, dev)
    else
      match freeSlot dev with
      | none => (none, dev)
      | some slot =>
        let old := dev.requests slot
        let req := old.open old.sg op lba sectors (if op = .write then bytes else Image.zero)
        let out := issueSlot (dev.setRequest slot req) slot issue
        match out.1 with
        | none => (none, out.2)
        | some delivery =>
          let settled := out.2.requests slot
          (some ⟨requestId req.generation slot, delivery,
            if op = .read ∧ settled.state = .done then settled.data else bytes⟩, out.2)
  | _, _ => (none, dev)

/-- A scatter-gather list: its object, the lengths of its entries, whether its pages are
all live, and whether one more reference could be taken. -/
structure SgList where
  object : ℕ
  lengths : List ℕ
  usable : Bool
  retained : Bool

def blockSubmitSg (dev : Device) (op lba sectors : ℕ) (sg : Option SgList) (issue : Issue) :
    Option Submitted × Device :=
  match sg, BlockOp.decode op, dev.backing with
  | some list, some op, .driver true =>
    if dev.revoked ∨ ¬ list.usable ∨ ¬ rangeOk dev 64 lba sectors (list.lengths.sum % 2 ^ 32) ∨
        (op = .write ∧ dev.readOnly) then
      (none, dev)
    else
      match freeSlot dev with
      | none => (none, dev)
      | some slot =>
        if ¬ list.retained then (none, dev)
        else
          let old := dev.requests slot
          let req := old.open (some list.object) op lba sectors old.data
          let out := issueSlot (dev.setRequest slot req) slot issue
          match out.1 with
          | none => (none, out.2)
          | some delivery => (some ⟨requestId req.generation slot, delivery, old.data⟩, out.2)
  | _, _, _ => (none, dev)

/-- Serve one entry of the completion ring. A forged, stale or duplicate entry is dropped. -/
def settleEntry (dev : Device) (e : DriverCompletion) : Option Delivery × Device :=
  match idSlot e.requestId with
  | none => (none, dev)
  | some slot =>
    let req := dev.requests slot
    if req.state ≠ .pending ∨ req.generation ≠ idGeneration e.requestId then (none, dev)
    else
      let o := e.outcome req
      (some ⟨slot, .entry e, o⟩, dev.setRequest slot (req.settle o))

/-- Serve one reported completion of a bound driver. -/
def settleReap (dev : Device) (r : Reap) : Option Delivery × Device :=
  if h : r.slot < 16 then
    let slot : Fin 16 := ⟨r.slot, h⟩
    let req := dev.requests slot
    if req.state ≠ .pending then (none, dev)
    else
      let o := r.outcome req
      (some ⟨slot, .reap r, o⟩,
        (dev.setRequest slot { req.settle o with sg := none }).setToken slot 0)
  else (none, dev)

/-- Serve a list of completions one after the other and keep what was applied. -/
def serveAll {α : Type} (serve : Device → α → Option Delivery × Device) :
    Device → List α → List Delivery × Device
  | dev, [] => ([], dev)
  | dev, x :: xs =>
    let out := serve dev x
    let rest := serveAll serve out.2 xs
    (out.1.toList ++ rest.1, rest.2)

/-- What waits for a service call: the ring of a capsule, or what the reap callback reports. -/
structure Arrivals where
  ring : List DriverCompletion
  reaped : List Reap

/-- The completions applied; the C result is 0 when there is one, else -1. -/
def blockService (dev : Device) (arrivals : Arrivals) : List Delivery × Device :=
  if dev.revoked then ([], dev)
  else
    match dev.backing with
    | .capsule => serveAll settleEntry dev arrivals.ring
    | .driver _ => serveAll settleReap dev arrivals.reaped
    | .ramdisk _ => serveAll completeSlot dev (List.finRange 16)

/-- The return code, the status and count written through the pointers, and the bytes
copied to the caller's buffer. -/
structure Collected where
  ok : Bool
  reported : Option (ℤ × ℕ)
  bytes : Option (List (Option UInt8))

/-- Copy `n` bytes out of the data of a slot; `none` is a byte past the end of the array. -/
def copyOut (data : Sector) (n : ℕ) : List (Option UInt8) :=
  (List.range n).map (fun k => if h : k < 512 then some (data ⟨k, h⟩) else none)

/-- The buffer is null or has a length. -/
def blockCollect (dev : Device) (id : UInt64) (length : Option ℕ) : Collected × Device :=
  match idSlot id with
  | none => (⟨false, none, none⟩, dev)
  | some slot =>
    let req := dev.requests slot
    if idGeneration id = 0 ∨ req.generation ≠ idGeneration id ∨
        (req.state ≠ .done ∧ req.state ≠ .error) then
      (⟨false, none, none⟩, dev)
    else
      let reported := some (req.status, req.transferred)
      let freed := dev.setRequest slot
        { req.clear with generation := nextGeneration req.generation }
      match length with
      | none => (⟨true, reported, none⟩, freed)
      | some length =>
        if req.sg.isSome then (⟨false, reported, none⟩, dev)
        else if req.op = some .read ∧ req.state = .done then
          if length < req.transferred then (⟨false, reported, none⟩, dev)
          else (⟨true, reported, some (copyOut req.data req.transferred)⟩, freed)
        else (⟨true, reported, none⟩, freed)

/-- `released` says whether the pages behind the device were still there to revoke; a
bound driver keeps its memory. -/
def blockRevoke (dev : Device) (released : Bool) : Bool × Device :=
  if dev.revoked then (false, dev)
  else
    let freed : Device := { dev with
      requests := fun slot =>
        { (dev.requests slot).clear with
          generation := nextGeneration (dev.requests slot).generation }
      tokens := fun _ => 0
      revoked := true }
    match dev.backing with
    | .driver _ => (true, freed)
    | .capsule => (released, freed)
    | .ramdisk pages =>
      (released, { freed with backing := .ramdisk (if released then none else pages) })

inductive Call where
  | submit (op lba sectors : ℕ) (buffer : Option Sector) (length : ℕ) (issue : Issue)
  | submitSg (op lba sectors : ℕ) (sg : Option SgList) (issue : Issue)
  | service (arrivals : Arrivals)
  | collect (id : UInt64) (length : Option ℕ)
  | revoke (released : Bool)

inductive Answer where
  | submitted (out : Option Submitted)
  | served (deliveries : List Delivery)
  | collected (out : Collected)
  | revoked (ok : Bool)

def step (dev : Device) : Call → Answer × Device
  | .submit op lba sectors buffer length issue =>
    let out := blockSubmit dev op lba sectors buffer length issue
    (.submitted out.1, out.2)
  | .submitSg op lba sectors sg issue =>
    let out := blockSubmitSg dev op lba sectors sg issue
    (.submitted out.1, out.2)
  | .service arrivals =>
    let out := blockService dev arrivals
    (.served out.1, out.2)
  | .collect id length =>
    let out := blockCollect dev id length
    (.collected out.1, out.2)
  | .revoke released =>
    let out := blockRevoke dev released
    (.revoked out.1, out.2)

def runCalls (dev : Device) (calls : List Call) : Device :=
  calls.foldl (fun dev call => (step dev call).2) dev

/-- The calls made so far with what each returned, oldest first. -/
abbrev History := List (Call × Answer)

def history (dev : Device) : List Call → History
  | [] => []
  | call :: calls => (call, (step dev call).1) :: history (step dev call).2 calls

/-- A device as `block_create` and the two bind functions leave it. -/
structure Fresh (dev : Device) : Prop where
  live : dev.revoked = false
  free : ∀ slot, (dev.requests slot).state = .free
  sg : ∀ slot, (dev.requests slot).sg = none
  generation : ∀ slot, (dev.requests slot).generation = 1

end MichCore.BlockRequest
