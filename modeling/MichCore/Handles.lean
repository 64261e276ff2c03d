import MichCore.KernelObjects

/-!
# Handles

The handle tables of `objects/object.c` over the object table. Which tasks are live is an
argument of each call (`task_index`), and so is what a destroy callback releases, read off the
state in which it runs.

Besides the tables of the source the state carries a record of the run, which no function reads:
the references that kernel callers hold and whether they released others, the serial numbers of
objects and of those whose callback has run, and for each handle slot how often it was closed and
the rights of the handles its handle was duplicated from.
-/
namespace MichCore.Handles

open Function
open Objects (ObjectTable KObject Dropped objectCreate objectRetain dropReference finishRelease
  objectMax taskMax)

def handleMax : ℕ := 32

abbrev Rights := BitVec 32

def krightTransfer : Rights := 1 <<< 6
def krightAll : Rights := 0x7F

/-- `handle_slot`, with the record of the slot. -/
structure HandleSlot where
  object : Option ℕ
  rights : Rights
  generation : ℕ
  closed : ℕ
  lineage : List Rights

def HandleSlot.fresh : HandleSlot := ⟨none, 0, 1, 0, []⟩

/-- `handles` by owner and index, with the object table and the record of the run. -/
structure System where
  objects : ObjectTable
  handle : ℕ × ℕ → HandleSlot
  held : ℕ → ℕ
  honest : Bool
  serial : ℕ → ℕ
  nextSerial : ℕ
  hasCallback : ℕ → Bool
  destroyed : List ℕ

/-- `object_init` -/
def System.initial : System where
  objects := fun _ => KObject.none
  handle := fun _ => HandleSlot.fresh
  held := fun _ => 0
  honest := true
  serial := fun _ => 0
  nextSerial := 0
  hasCallback := fun _ => false
  destroyed := []

/-- The objects that the callback of an object releases. -/
abbrev Callback := System → ℕ → List ℕ

/-- A kernel caller takes a reference. -/
def System.take (s : System) (object : ℕ) : System :=
  { s with held := update s.held object (s.held object + 1) }

/-- A kernel caller gives up a reference, one that it holds or not. -/
def System.giveUp (s : System) (object : ℕ) : System :=
  { s with
    held := update s.held object (s.held object - 1)
    honest := s.honest && decide (0 < s.held object) }

/-- `object_create` -/
def create (s : System) (type value : ℕ) (destroy : Bool) : System × Option ℕ :=
  match objectCreate s.objects type value destroy with
  | none => (s, none)
  | some (t, object) =>
    ({ s.take object with
        objects := t
        serial := update s.serial object s.nextSerial
        hasCallback := update s.hasCallback s.nextSerial destroy
        nextSerial := s.nextSerial + 1 }, some object)

/-- `object_retain` -/
def retain (s : System) (object : ℕ) : System × Bool :=
  match objectRetain s.objects object with
  | none => (s, false)
  | some t => ({ s.take object with objects := t }, true)

/-- `object_release`, where the callback runs between the two halves. A release inside it is one
level down; `objectRelease_fuel` says that the levels do not run out. -/
def objectRelease (callback : Callback) : ℕ → System → ℕ → System
  | 0, s, _ => s
  | level + 1, s, object =>
    let s := s.giveUp object
    match dropReference s.objects object with
    | (t, .ignored) => { s with objects := t }
    | (t, .kept) => { s with objects := t }
    | (t, .last destroy) =>
      let s := { s with objects := t }
      let s :=
        if destroy = true then
          let s := { s with destroyed := s.destroyed ++ [s.serial object] }
          (callback s object).foldl (objectRelease callback level) s
        else s
      { s with objects := finishRelease s.objects object }

/-- Every object but one can be in destruction above the last level. -/
def levels : ℕ := objectMax + 1

def release (s : System) (callback : Callback) (object : ℕ) : System :=
  objectRelease callback levels s object

/-- `task_index`: is this the slot of a live task? -/
def IsOwner (live : ℕ → Bool) (owner : ℕ) : Prop := owner < taskMax ∧ live owner = true
  deriving Decidable

def handleValue (slot : HandleSlot) (index : ℕ) : ℕ := slot.generation * 256 + (index + 1)

def handleSlotFor (s : System) (live : ℕ → Bool) (owner handle : ℕ) : Option (ℕ × ℕ) :=
  let low := handle % 256
  if ¬ IsOwner live owner ∨ low = 0 ∨ handleMax < low then none
  else if (s.handle (owner, low - 1)).object = none ∨
      (s.handle (owner, low - 1)).generation ≠ handle / 256 then
    none
  else some (owner, low - 1)

def handleOpenLocked (s : System) (owner object : ℕ) (rights : Rights) (lineage : List Rights) :
    System × ℕ :=
  match (List.range handleMax).find? fun index => (s.handle (owner, index)).object = none with
  | none => (s, 0)
  | some index =>
    match objectRetain s.objects object with
    | none => (s, 0)
    | some t =>
      let slot := { s.handle (owner, index) with
        object := some object
        rights := rights
        lineage := lineage }
      ({ s with objects := t, handle := update s.handle (owner, index) slot },
        handleValue slot index)

def handleOpen (s : System) (live : ℕ → Bool) (owner object : ℕ) (rights : Rights) :
    System × ℕ :=
  if ¬ IsOwner live owner ∨ rights = 0 ∨ rights &&& ~~~krightAll ≠ 0 ∨
      (s.objects object).active = false then
    (s, 0)
  else handleOpenLocked s owner object rights []

def handleGet (s : System) (live : ℕ → Bool) (owner handle : ℕ) (requiredRights : Rights)
    (requiredType : ℕ) : Option ℕ := do
  let key ← handleSlotFor s live owner handle
  let object ← (s.handle key).object
  if requiredRights &&& ~~~(s.handle key).rights ≠ 0 ∨
      (requiredType ≠ Objects.kobjectNone ∧ (s.objects object).type ≠ requiredType) then
    none
  else some object

/-- The generation of a slot that is closed. -/
def nextGeneration (generation : ℕ) : ℕ :=
  if (generation + 1) % 2 ^ 24 = 0 then 1 else (generation + 1) % 2 ^ 24

/-- The locked part of `handle_close`: the reference of the handle is now the caller's. -/
def closeSlot (s : System) (key : ℕ × ℕ) (object : ℕ) : System :=
  { s.take object with
    handle := update s.handle key
      ⟨none, 0, nextGeneration (s.handle key).generation, (s.handle key).closed + 1, []⟩ }

def handleClose (s : System) (callback : Callback) (live : ℕ → Bool) (owner handle : ℕ) :
    System × ℤ :=
  match handleSlotFor s live owner handle with
  | none => (s, -1)
  | some key =>
    match (s.handle key).object with
    | none => (s, -1)
    | some object => (release (closeSlot s key object) callback object, 0)

def handleDuplicate (s : System) (live : ℕ → Bool) (source target handle : ℕ)
    (rights : Rights) : System × ℕ :=
  if ¬ IsOwner live target then (s, 0)
  else
    match handleSlotFor s live source handle with
    | none => (s, 0)
    | some key =>
      let slot := s.handle key
      match slot.object with
      | none => (s, 0)
      | some object =>
        if slot.rights &&& krightTransfer = 0 ∨ rights = 0 ∨ rights &&& ~~~slot.rights ≠ 0 then
          (s, 0)
        else handleOpenLocked s target object rights (slot.rights :: slot.lineage)

/-- The owners and indices, in the order in which they are searched. -/
def handleKeys : List (ℕ × ℕ) :=
  (List.range taskMax).flatMap fun owner => (List.range handleMax).map fun index => (owner, index)

/-- The loop of `handle_revoke_object`, one slot in a pass. -/
def revokeLoop (callback : Callback) (object : ℕ) : ℕ → System → ℕ → System × ℕ
  | 0, s, revoked => (s, revoked)
  | passes + 1, s, revoked =>
    match handleKeys.find? fun key => (s.handle key).object = some object with
    | none => (s, revoked)
    | some key =>
      revokeLoop callback object passes (release (closeSlot s key object) callback object)
        (revoked + 1)

def handleRevokeObject (s : System) (callback : Callback) (object : ℕ)
    (descriptors : List ℕ) : System × ℕ :=
  if (s.objects object).active = false then (s, 0)
  else
    let s := descriptors.foldl (fun s file => release s callback file) s
    revokeLoop callback object (taskMax * handleMax + 1) s 0

def handleCloseAll (s : System) (callback : Callback) (live : ℕ → Bool) (owner : ℕ) : System :=
  if ¬ IsOwner live owner then s
  else
    (List.range handleMax).foldl (fun s index =>
      if (s.handle (owner, index)).object = none then s
      else (handleClose s callback live owner (handleValue (s.handle (owner, index)) index)).1) s

inductive Call where
  | create (type value : ℕ) (destroy : Bool)
  | retain (object : ℕ)
  | release (object : ℕ) (callback : Callback)
  | openHandle (live : ℕ → Bool) (owner object : ℕ) (rights : Rights)
  | close (live : ℕ → Bool) (owner handle : ℕ) (callback : Callback)
  | duplicate (live : ℕ → Bool) (source target handle : ℕ) (rights : Rights)
  | revoke (object : ℕ) (descriptors : List ℕ) (callback : Callback)
  | closeAll (live : ℕ → Bool) (owner : ℕ) (callback : Callback)

def Call.apply (s : System) : Call → System
  | .create type value destroy => (Handles.create s type value destroy).1
  | .retain object => (Handles.retain s object).1
  | .release object callback => Handles.release s callback object
  | .openHandle live owner object rights => (handleOpen s live owner object rights).1
  | .close live owner handle callback => (handleClose s callback live owner handle).1
  | .duplicate live source target handle rights =>
    (handleDuplicate s live source target handle rights).1
  | .revoke object descriptors callback => (handleRevokeObject s callback object descriptors).1
  | .closeAll live owner callback => handleCloseAll s callback live owner

def run (s : System) (calls : List Call) : System := calls.foldl Call.apply s

end MichCore.Handles
