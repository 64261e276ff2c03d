import MichCore.Routine
import MichCore.ByteImage
import MichCore.SlotTable

/-!
# Block devices and the write-back sector cache

`block/cache.c` over the sector interface of `block/block.c`. A device is named by the value of
its kernel object. The disk records every sector write in order, so a crash is a cut of that
record. Request number `n` fails when `fault n` holds.
-/
namespace MichCore

/-- `BLOCK_SECTOR_SIZE` bytes. -/
abbrev Sector := Image 512

namespace BlockCache

/-- What `block_io` and `block_info` are asked for, one sector at a time. -/
inductive DiskReq where
  | info (device : ℕ)
  | read (device lba : ℕ)
  | write (device lba : ℕ) (data : Sector)

abbrev DiskAns : DiskReq → Type
  | .info _ => ℕ
  | .read _ _ => Option Sector
  | .write _ _ _ => Bool

structure Disk where
  sectorCount : ℕ → ℕ
  readOnly : ℕ → Bool
  sector : ℕ → ℕ → Sector
  fault : ℕ → Bool
  served : ℕ
  /-- Sector writes that reached a device, oldest first. -/
  log : List (ℕ × ℕ × Sector)

namespace Disk

def setSector (disk : ℕ → ℕ → Sector) (device lba : ℕ) (data : Sector) : ℕ → ℕ → Sector :=
  fun d l => if d = device ∧ l = lba then data else disk d l

def handle : Handler DiskReq DiskAns Disk
  | .info device, s => (s.sectorCount device, s)
  | .read device lba, s =>
    if s.fault s.served ∨ s.sectorCount device ≤ lba then
      (none, { s with served := s.served + 1 })
    else (some (s.sector device lba), { s with served := s.served + 1 })
  | .write device lba data, s =>
    if s.fault s.served ∨ s.sectorCount device ≤ lba ∨ s.readOnly device then
      (false, { s with served := s.served + 1 })
    else (true, { s with
      sector := setSector s.sector device lba data
      served := s.served + 1
      log := s.log ++ [(device, lba, data)] })

end Disk

inductive EntryState where
  | empty
  | clean
  | dirty
  deriving DecidableEq, Repr

/-- One cached page of up to `BLOCK_CACHE_SECTORS` sectors. -/
structure Entry where
  device : Option ℕ
  deviceId : ℕ
  lba : ℕ
  sectors : ℕ
  state : EntryState
  data : ℕ → Sector

/-- The `BLOCK_CACHE_MAX` entries and the clock hand. -/
structure CacheMem where
  entries : Fin 16 → Entry
  clock : Fin 16

abbrev CacheR := Routine DiskReq DiskAns CacheMem

open Routine

def emptyEntry : Entry := ⟨none, 0, 0, 0, .empty, fun _ => Image.zero⟩

def CacheMem.setEntry (m : CacheMem) (i : Fin 16) (e : Entry) : CacheMem :=
  { m with entries := Function.update m.entries i e }

def pageLba (lba : ℕ) : ℕ := lba - lba % 8

/-- The entry that holds the page of a sector, if any. -/
def Holds (e : Entry) (device lba : ℕ) : Prop :=
  e.state ≠ .empty ∧ e.deviceId = device ∧ e.lba = pageLba lba

instance (e : Entry) (device lba : ℕ) : Decidable (Holds e device lba) := by
  unfold Holds; infer_instance

def lookup (m : CacheMem) (device lba : ℕ) : Option (Fin 16) :=
  (List.finRange 16).find? (fun i => Holds (m.entries i) device lba)

def writeSector (device lba : ℕ) (data : Sector) : CacheR Unit := do
  if (← request (DiskReq.write device lba data)) then pure () else fail

def readSector (device lba : ℕ) : CacheR Sector := do
  match (← request (DiskReq.read device lba)) with
  | some data => pure data
  | none => fail

def writeback (i : Fin 16) : CacheR Unit := do
  let e := (← getMem).entries i
  match e.state, e.device with
  | .dirty, none => fail
  | .dirty, some device => do
    forRange (fun s => writeSector device (e.lba + s) (e.data s)) 0 e.sectors
    modifyMem (·.setEntry i { e with state := .clean })
  | _, _ => pure ()

/-- Free the entry for reuse: its page leaves the cache. -/
def release (i : Fin 16) : CacheR Unit :=
  modifyMem (fun m => m.setEntry i { m.entries i with state := .empty, device := none })

/-- The clock sweep. A dirty page that cannot be written back is passed over. -/
def evict : ℕ → CacheR (Fin 16)
  | 0 => fail
  | n + 1 => do
    let m ← getMem
    let i := m.clock
    modifyMem (fun m => { m with clock := m.clock + 1 })
    match (m.entries i).state with
    | .empty => pure i
    | .clean => do
      release i
      pure i
    | .dirty => do
      match (← attempt (writeback i)) with
      | some _ => do
        release i
        pure i
      | none => evict n

/-- Read `n` sectors of a page into its buffer, from sector `s` on. -/
def fillSectors (device page : ℕ) : ℕ → ℕ → (ℕ → Sector) → CacheR (ℕ → Sector)
  | _, 0, data => pure data
  | s, n + 1, data => do
    let x ← readSector device (page + s)
    fillSectors device page (s + 1) n (Function.update data s x)

/-- The entry that holds a sector's page, read in when it is not cached. The
buffer of an empty entry is never looked at, so a failed read leaves no trace. -/
def fill (device lba : ℕ) : CacheR (Fin 16) := do
  let page := pageLba lba
  let m ← getMem
  match lookup m device page with
  | some i => do
    modifyMem (fun m => m.setEntry i { m.entries i with device := some device })
    pure i
  | none => do
    let i ← evict 32
    let count : ℕ ← request (DiskReq.info device)
    if count ≤ page then fail
    else do
      let sectors := min 8 (count - page)
      let data ← fillSectors device page 0 sectors (fun _ => Image.zero)
      modifyMem (·.setEntry i ⟨some device, device, page, sectors, .clean, data⟩)
      pure i

/-- Where turn `done` of a transfer starts in the caller's buffer: the byte offset
`done * BLOCK_SECTOR_SIZE` is a u32 and starts again at 0 after 2 to the 23 sectors. -/
def bufferStart (done : ℕ) : ℕ := done % 2 ^ 23

theorem bufferStart_of_lt {done : ℕ} (h : done < 2 ^ 23) : bufferStart done = done :=
  Nat.mod_eq_of_lt h

/-- `while (done < sectors)` of `block_cache_read`; each turn moves at least one
sector, so `fuel` turns are enough from `sectors` on. -/
def readLoop (device lba sectors : ℕ) : ℕ → ℕ → (ℕ → Sector) → CacheR (ℕ → Sector)
  | 0, _, buffer => pure buffer
  | fuel + 1, done, buffer =>
    if done < sectors then do
      let i ← fill device ((lba + done) % 2 ^ 32)
      let e := (← getMem).entries i
      let off := (lba + done) % 2 ^ 32 - e.lba
      let n := min (8 - off) (sectors - done)
      let start := bufferStart done
      readLoop device lba sectors fuel (done + n)
        (fun s => if start ≤ s ∧ s < start + n then e.data (off + (s - start)) else buffer s)
    else pure buffer

def blockCacheRead (device lba sectors : ℕ) : CacheR (ℕ → Sector) :=
  if sectors = 0 then fail
  else readLoop device lba sectors sectors 0 (fun _ => Image.zero)

def writeLoop (device lba sectors : ℕ) (buffer : ℕ → Sector) : ℕ → ℕ → CacheR Unit
  | 0, _ => pure ()
  | fuel + 1, done =>
    if done < sectors then do
      let i ← fill device ((lba + done) % 2 ^ 32)
      let e := (← getMem).entries i
      let off := (lba + done) % 2 ^ 32 - e.lba
      let n := min (8 - off) (sectors - done)
      modifyMem (·.setEntry i { e with
        data := fun s =>
          if off ≤ s ∧ s < off + n then buffer (bufferStart done + (s - off)) else e.data s
        state := .dirty })
      writeLoop device lba sectors buffer fuel (done + n)
    else pure ()

def blockCacheWrite (device lba : ℕ) (buffer : ℕ → Sector) (sectors : ℕ) : CacheR Unit :=
  if sectors = 0 then fail
  else writeLoop device lba sectors buffer sectors 0

def flushEntries (device : ℕ) : List (Fin 16) → CacheR Unit
  | [] => pure ()
  | i :: rest => do
    let m ← getMem
    if (m.entries i).deviceId = device then do
      modifyMem (fun m => m.setEntry i { m.entries i with device := some device })
      writeback i
      flushEntries device rest
    else flushEntries device rest

def blockCacheFlush (device : ℕ) : CacheR Unit := flushEntries device (List.finRange 16)

/-- Drop the cached pages that overlap `[lba, lba + sectors)`. -/
def blockCacheInvalidate (device lba sectors : ℕ) : CacheR Unit :=
  if sectors = 0 then pure ()
  else
    let first := pageLba lba
    let last := pageLba (lba + sectors - 1)
    modifyMem (fun m => { m with entries := fun i =>
      let e := m.entries i
      if e.state ≠ .empty ∧ e.deviceId = device ∧
          first ≤ e.lba ∧ e.lba ≤ last ∧ (e.lba - first) % 8 = 0 then
        { emptyEntry with data := e.data }
      else e })

end BlockCache

end MichCore
