import MichCore.Checksum
import MichCore.TcpReceive

/-!
# The parsers of received frames

`ethernet_parse`, `ipv4_parse`, `ipv6_parse` and `tcp_parse`. Each gets a pointer and a length
and answers a negative code or a view of where the payload is, which the next parser gets.
-/
namespace MichCore.Net

open BoundedBytes BoundedBytes.Buffer
open Tcp (sequenceBefore)

/-- Does every one of `n` bytes pass the test? The loop stops at the first that does not. -/
def everyByte (m : Buffer) (test : UInt8 → Bool) : ℕ → ℕ → Except Fault Bool
  | _, 0 => .ok true
  | i, n + 1 => do
    let b ← m.read i
    if test b = true then everyByte m test (i + 1) n else return false

structure EthernetFrameView where
  frameLength : ℕ
  payload : ℕ
  payloadLength : ℕ
  etherType : ℕ
  vlanTci : ℕ
  broadcast : Bool
  multicast : Bool
  vlan : Bool
  deriving DecidableEq, Repr

/-- 802.1Q and 802.1ad -/
def vlanType (type : ℕ) : Prop := type = 0x8100 ∨ type = 0x88A8
  deriving Decidable

def ethernetParse (m : Buffer) : Except Fault (Except ℤ EthernetFrameView) :=
  if m.length < 14 ∨ 1522 < m.length then .ok (.error (-1))
  else do
    let source ← m.read 6
    if source &&& 1 ≠ 0 then return .error (-2)
    else
      let zero ← everyByte m (· == 0) 6 6
      if zero = true then return .error (-2)
      else
        let type ← m.be16 12
        let broadcast ← everyByte m (· == 0xFF) 0 6
        let first ← m.read 0
        let multicast := !broadcast && first &&& 1 != 0
        if vlanType type then
          if m.length < 18 then return .error (-1)
          else
            let vlanTci ← m.be16 14
            let type ← m.be16 16
            if vlanType type then return .error (-3)
            else if type < 0x0600 then return .error (-3)
            else return .ok ⟨m.length, 18, m.length - 18, type, vlanTci, broadcast, multicast, true⟩
        else if type < 0x0600 then return .error (-3)
        else if 1518 < m.length then return .error (-1)
        else return .ok ⟨m.length, 14, m.length - 14, type, 0, broadcast, multicast, false⟩

structure Ipv4PacketView where
  packetLength : ℕ
  headerLength : ℕ
  payloadLength : ℕ
  source : ℕ
  destination : ℕ
  identification : ℕ
  fragment : ℕ
  ttl : UInt8
  protocol : UInt8
  dscpEcn : UInt8
  deriving DecidableEq, Repr

def ipv4Checksum (sse2 : Bool) (m : Buffer) (length : ℕ) : Except Fault ℕ :=
  if length = 0 then .ok 0xFFFF
  else do
    let sum ← checksumSum sse2 m 0 0 length
    return checksumFinish sum

def unicastAddress (address : ℕ) : Prop :=
  address ≠ 0 ∧ address ≠ 0xFFFFFFFF ∧ address / 2 ^ 24 ≠ 0 ∧ address / 2 ^ 24 < 224
  deriving Decidable

def ipv4Parse (sse2 : Bool) (m : Buffer) : Except Fault (Except ℤ Ipv4PacketView) :=
  if m.length < 20 then .ok (.error (-1))
  else do
    let first ← m.read 0
    let headerLength := (first &&& 0x0F).toNat * 4
    if first >>> 4 ≠ 4 ∨ headerLength < 20 then return .error (-2)
    else if m.length < headerLength then return .error (-1)
    else
      let totalLength ← m.be16 2
      if totalLength < headerLength ∨ m.length < totalLength then return .error (-1)
      else
        let checksum ← ipv4Checksum sse2 m headerLength
        if checksum ≠ 0 then return .error (-3)
        else
          let ttl ← m.read 8
          if ttl = 0 then return .error (-4)
          else
            let source ← m.be32 12
            if ¬ unicastAddress source then return .error (-5)
            else
              let fragment ← m.be16 6
              if fragment &&& 0x8000 ≠ 0 ∨ fragment &&& 0x3FFF ≠ 0 then return .error (-6)
              else
                let destination ← m.be32 16
                let identification ← m.be16 4
                let protocol ← m.read 9
                let dscpEcn ← m.read 1
                return .ok ⟨totalLength, headerLength, totalLength - headerLength, source,
                  destination, identification, fragment, ttl, protocol, dscpEcn⟩

structure Ipv6PacketView where
  source : List UInt8
  destination : List UInt8
  packetLength : ℕ
  payloadOffset : ℕ
  payloadLength : ℕ
  flowLabel : ℕ
  trafficClass : UInt8
  nextHeader : UInt8
  hopLimit : UInt8
  extensionCount : ℕ
  deriving DecidableEq, Repr

def extensionHeader (next : UInt8) : Prop :=
  next = 0 ∨ next = 43 ∨ next = 44 ∨ next = 51 ∨ next = 60
  deriving Decidable

/-- Where the walk over the extension headers ended. -/
structure Extensions where
  next : UInt8
  offset : ℕ
  remaining : ℕ
  count : ℕ
  deriving DecidableEq, Repr

def extensionLength (next size : UInt8) : ℕ :=
  if next = 51 then (size.toNat + 2) * 4 else (size.toNat + 1) * 8

/-- The loop over the extension headers; `IPV6_EXTENSION_MAX` is 8. -/
def skipExtensions (m : Buffer) (next : UInt8) (offset remaining count : ℕ) :
    Except Fault (Except ℤ Extensions) :=
  if extensionHeader next then
    if 8 ≤ count ∨ remaining < 8 then .ok (.error (-5))
    else if next = 44 then .ok (.error (-6))
    else if next = 43 then .ok (.error (-5))
    else do
      let size ← m.read (offset + 1)
      if extensionLength next size < 8 ∨ remaining < extensionLength next size then
        return .error (-5)
      else
        let following ← m.read offset
        skipExtensions m following (offset + extensionLength next size)
          (remaining - extensionLength next size) (count + 1)
  else .ok (.ok ⟨next, offset, remaining, count⟩)
termination_by remaining

def ipv6Parse (m : Buffer) : Except Fault (Except ℤ Ipv6PacketView) :=
  if m.length < 40 then .ok (.error (-1))
  else do
    let first ← m.read 0
    if first >>> 4 ≠ 6 then return .error (-2)
    else
      let payloadLength ← m.be16 4
      if m.length - 40 < payloadLength then return .error (-1)
      else
        let hopLimit ← m.read 7
        if hopLimit = 0 then return .error (-3)
        else
          let multicast ← m.read 8
          if multicast = 0xFF then return .error (-4)
          else
            let second ← m.read 1
            let low ← m.be16 2
            let source ← m.readMany 8 16
            let destination ← m.readMany 24 16
            let next ← m.read 6
            match ← skipExtensions m next 40 payloadLength 0 with
            | .error code => return .error code
            | .ok e =>
              return .ok ⟨source, destination, 40 + payloadLength, e.offset, e.remaining,
                (second &&& 0x0F).toNat * 2 ^ 16 + low, (first <<< 4) ||| (second >>> 4), e.next,
                hopLimit, e.count⟩

/-- What the options of a segment say. -/
structure TcpOptions where
  mss : UInt16
  windowScale : UInt8
  sackPermitted : Bool
  timestampPresent : Bool
  timestampValue : UInt32
  timestampEcho : UInt32
  sackBlocks : List (UInt32 × UInt32)
  deriving DecidableEq, Repr

def TcpOptions.none : TcpOptions := ⟨0, 0, false, false, 0, 0, []⟩

/-- The options that were there already: the bits of `seen`. -/
structure Seen where
  mss : Bool
  windowScale : Bool
  sackPermitted : Bool
  timestamp : Bool
  deriving DecidableEq, Repr

structure TcpSegmentView where
  segmentLength : ℕ
  headerLength : ℕ
  payloadLength : ℕ
  sequence : UInt32
  acknowledgement : UInt32
  sourcePort : UInt16
  destinationPort : UInt16
  window : UInt16
  urgentPointer : UInt16
  flags : UInt8
  options : TcpOptions
  deriving DecidableEq, Repr

def read16 (m : Buffer) (i : ℕ) : Except Fault UInt16 := do
  let word ← m.be16 i
  return UInt16.ofNat word

def read32 (m : Buffer) (i : ℕ) : Except Fault UInt32 := do
  let word ← m.be32 i
  return UInt32.ofNat word

/-- The loop over the blocks of a SACK option; the view has room for two. -/
def sackLoop (m : Buffer) (offset : ℕ) : ℕ → ℕ → List (UInt32 × UInt32) →
    Except Fault (List (UInt32 × UInt32))
  | 0, _, blocks => .ok blocks
  | count + 1, block, blocks => do
    let left ← read32 m (offset + block * 8)
    let right ← read32 m (offset + block * 8 + 4)
    if sequenceBefore right left then sackLoop m offset count (block + 1) blocks
    else if blocks.length < 2 then sackLoop m offset count (block + 1) (blocks ++ [(left, right)])
    else sackLoop m offset count (block + 1) blocks

/-- One option with a length; its data start at `offset`. -/
def parseOption (m : Buffer) (kind : UInt8) (size offset : ℕ) (o : TcpOptions) (seen : Seen) :
    Except Fault (Option (TcpOptions × Seen)) :=
  if kind = 2 then
    if size ≠ 4 ∨ seen.mss = true then .ok none
    else do
      let mss ← read16 m offset
      if mss = 0 then return none
      else return some ({ o with mss := mss }, { seen with mss := true })
  else if kind = 3 then
    if size ≠ 3 ∨ seen.windowScale = true then .ok none
    else do
      let scale ← m.read offset
      if 14 < scale then return none
      else return some ({ o with windowScale := scale }, { seen with windowScale := true })
  else if kind = 4 then
    if size ≠ 2 ∨ seen.sackPermitted = true then .ok none
    else .ok (some ({ o with sackPermitted := true }, { seen with sackPermitted := true }))
  else if kind = 5 then
    if size < 10 ∨ (size - 2) % 8 ≠ 0 then .ok none
    else do
      let blocks ← sackLoop m offset ((size - 2) / 8) 0 o.sackBlocks
      return some ({ o with sackBlocks := blocks }, seen)
  else if kind = 8 then
    if size ≠ 10 ∨ seen.timestamp = true then .ok none
    else do
      let value ← read32 m offset
      let echo ← read32 m (offset + 4)
      return some ({ o with
        timestampValue := value
        timestampEcho := echo
        timestampPresent := true }, { seen with timestamp := true })
  else .ok (some (o, seen))

/-- The loop over the options; `none` is the return of -1. -/
def optionLoop (m : Buffer) (header offset : ℕ) (o : TcpOptions) (seen : Seen) :
    Except Fault (Option TcpOptions) :=
  if offset < header then do
    let kind ← m.read offset
    if kind = 0 then return some o
    else if kind = 1 then optionLoop m header (offset + 1) o seen
    else if header ≤ offset + 1 then return none
    else
      let size ← m.read (offset + 1)
      if size.toNat < 2 ∨ header - (offset + 2) < size.toNat - 2 then return none
      else
        match ← parseOption m kind size.toNat (offset + 2) o seen with
        | none => return none
        | some (o, seen) => optionLoop m header (offset + 2 + (size.toNat - 2)) o seen
  else .ok (some o)
termination_by header - offset

def finFlag : UInt8 := 0x01
def synFlag : UInt8 := 0x02
def rstFlag : UInt8 := 0x04

def tcpParse (m : Buffer) : Except Fault (Option TcpSegmentView) :=
  if m.length < 20 then .ok none
  else do
    let nibble ← m.read 12
    let header := (nibble >>> 4).toNat * 4
    if header < 20 ∨ m.length < header ∨ 60 < header then return none
    else
      let source ← read16 m 0
      let destination ← read16 m 2
      let flags ← m.read 13
      if source = 0 ∨ destination = 0 ∨
          (flags &&& synFlag ≠ 0 ∧ flags &&& (finFlag ||| rstFlag) ≠ 0) then
        return none
      else
        let sequence ← read32 m 4
        let acknowledgement ← read32 m 8
        let window ← read16 m 14
        let urgentPointer ← read16 m 18
        match ← optionLoop m header 20 TcpOptions.none ⟨false, false, false, false⟩ with
        | none => return none
        | some o =>
          return some ⟨m.length, header, m.length - header, sequence, acknowledgement, source,
            destination, window, urgentPointer, flags, o⟩

theorem everyByte_yields (m : Buffer) (test : UInt8 → Bool) {i n : ℕ} (h : i + n ≤ m.length) :
    Yields (everyByte m test i n) (fun _ => True) := by
  induction n generalizing i with
  | zero => exact .ok trivial
  | succ n ih =>
    refine (yields_read).bind fun b _ => ?_
    exact .ite (fun _ => ih (by omega)) fun _ => .ok trivial

variable {m : Buffer}

theorem readMany_yields {i n : ℕ} (h : i + n ≤ m.length := by omega) :
    Yields (m.readMany i n) (fun bytes => bytes = m.slice i n) := ⟨_, readMany_of_le h, rfl⟩

/-- What an accepted frame says about its payload. -/
structure EthernetFrameView.Inside (v : EthernetFrameView) (length : ℕ) : Prop where
  frame : v.frameLength = length
  header : v.payload = 14 ∨ v.payload = 18
  payload : v.payload + v.payloadLength = length

theorem ethernetParse_inside (m : Buffer) :
    Yields (ethernetParse m) (fun r => ∀ v, r = .ok v → v.Inside m.length) := by
  refine .unless nofun fun hl => ?_
  rw [not_or, Nat.not_lt, Nat.not_lt] at hl
  refine (yields_read).bind fun source _ => ?_
  refine .unless nofun fun _ => ?_
  refine (everyByte_yields m _ (by omega)).bind fun zero _ => ?_
  refine .unless nofun fun _ => ?_
  refine (yields_be16).bind fun type _ => ?_
  refine (everyByte_yields m _ (by omega)).bind fun broadcast _ => ?_
  refine (yields_read).bind fun first _ => ?_
  refine .ite (fun _ => ?_) fun _ => ?_
  · refine .unless nofun fun hv => ?_
    refine (yields_be16).bind fun vlanTci _ => ?_
    refine (yields_be16).bind fun type _ => ?_
    refine .unless nofun fun _ => ?_
    refine .unless nofun fun _ => .ok ?_
    rintro v ⟨⟩
    exact ⟨rfl, .inr rfl, Nat.add_sub_cancel' (Nat.le_of_not_lt hv)⟩
  · refine .unless nofun fun _ => ?_
    refine .unless nofun fun _ => .ok ?_
    rintro v ⟨⟩
    exact ⟨rfl, .inl rfl, Nat.add_sub_cancel' hl.1⟩

theorem ipv4Checksum_yields (sse2 : Bool) {length : ℕ} (h : length ≤ m.length) :
    Yields (ipv4Checksum sse2 m length) (fun _ => True) := by
  refine .ite (fun _ => .ok trivial) fun _ => ?_
  exact ⟨_, by rw [checksumSum_eq sse2 (by omega) (by decide)]; rfl, trivial⟩

/-- What an accepted packet says about its header and its payload. -/
structure Ipv4PacketView.Inside (v : Ipv4PacketView) (length : ℕ) : Prop where
  packet : v.packetLength ≤ length
  header : 20 ≤ v.headerLength
  payload : v.headerLength + v.payloadLength = v.packetLength

theorem ipv4Parse_inside (sse2 : Bool) (m : Buffer) :
    Yields (ipv4Parse sse2 m) (fun r => ∀ v, r = .ok v → v.Inside m.length) := by
  refine .unless nofun fun hl => ?_
  rw [Nat.not_lt] at hl
  refine (yields_read).bind fun first _ => ?_
  refine .unless nofun fun hv => ?_
  rw [not_or, Nat.not_lt] at hv
  refine .unless nofun fun hh => ?_
  refine (yields_be16).bind fun totalLength _ => ?_
  refine .unless nofun fun ht => ?_
  rw [not_or, Nat.not_lt, Nat.not_lt] at ht
  refine (ipv4Checksum_yields sse2 (by omega)).bind fun checksum _ => ?_
  refine .unless nofun fun _ => ?_
  refine (yields_read).bind fun ttl _ => ?_
  refine .unless nofun fun _ => ?_
  refine (yields_be32).bind fun source _ => ?_
  refine .unless nofun fun _ => ?_
  refine (yields_be16).bind fun fragment _ => ?_
  refine .unless nofun fun _ => ?_
  refine (yields_be32).bind fun destination _ => ?_
  refine (yields_be16).bind fun identification _ => ?_
  refine (yields_read).bind fun protocol _ => ?_
  refine (yields_read).bind fun dscpEcn _ => .ok ?_
  rintro v ⟨⟩
  exact ⟨ht.2, hv.2, Nat.add_sub_cancel' ht.1⟩

theorem skipExtensions_inside (m : Buffer) (next : UInt8) (offset remaining count : ℕ)
    (h : offset + remaining ≤ m.length) :
    Yields (skipExtensions m next offset remaining count) (fun r => ∀ e, r = .ok e →
      offset ≤ e.offset ∧ e.offset + e.remaining = offset + remaining) := by
  induction remaining using Nat.strong_induction_on generalizing next offset count with
  | _ remaining ih =>
    rw [skipExtensions]
    refine .ite (fun _ => ?_) fun _ => .ok ?_
    · refine .unless nofun fun hro => ?_
      rw [not_or, Nat.not_lt] at hro
      refine .unless nofun fun _ => ?_
      refine .unless nofun fun _ => ?_
      refine (yields_read).bind fun size _ => ?_
      refine .unless nofun fun hh => ?_
      rw [not_or, Nat.not_lt, Nat.not_lt] at hh
      refine (yields_read).bind fun following _ => ?_
      obtain ⟨r, hrun, hr⟩ := ih (remaining - extensionLength next size) (by omega) following
        (offset + extensionLength next size) (count + 1) (by omega)
      refine ⟨r, hrun, fun e he => ?_⟩
      obtain ⟨ho, hend⟩ := hr e he
      exact ⟨by omega, by omega⟩
    · rintro e ⟨⟩
      exact ⟨le_refl _, rfl⟩

structure Ipv6PacketView.Inside (v : Ipv6PacketView) (length : ℕ) : Prop where
  packet : v.packetLength ≤ length
  header : 40 ≤ v.payloadOffset
  payload : v.payloadOffset + v.payloadLength = v.packetLength

theorem ipv6Parse_inside (m : Buffer) :
    Yields (ipv6Parse m) (fun r => ∀ v, r = .ok v → v.Inside m.length) := by
  refine .unless nofun fun hl => ?_
  rw [Nat.not_lt] at hl
  refine (yields_read).bind fun first _ => ?_
  refine .unless nofun fun _ => ?_
  refine (yields_be16).bind fun payloadLength _ => ?_
  refine .unless nofun fun hp => ?_
  refine (yields_read).bind fun hopLimit _ => ?_
  refine .unless nofun fun _ => ?_
  refine (yields_read).bind fun multicast _ => ?_
  refine .unless nofun fun _ => ?_
  refine (yields_read).bind fun second _ => ?_
  refine (yields_be16).bind fun low _ => ?_
  refine (readMany_yields).bind fun source _ => ?_
  refine (readMany_yields).bind fun destination _ => ?_
  refine (yields_read).bind fun next _ => ?_
  refine (skipExtensions_inside m next 40 payloadLength 0 (by omega)).bind fun r hr => ?_
  cases r with
  | error code => exact .ok nofun
  | ok e =>
    obtain ⟨hof, hend⟩ := hr e rfl
    refine .ok ?_
    rintro v ⟨⟩
    refine ⟨?_, hof, hend⟩
    change 40 + payloadLength ≤ m.length
    omega

theorem read16_yields {i : ℕ} (h : i + 1 < m.length := by omega) :
    Yields (read16 m i) (fun v => v = UInt16.ofNat (m.word16 i)) :=
  (yields_be16 h).bind fun _ hw => .ok (by rw [hw])

theorem read32_yields {i : ℕ} (h : i + 3 < m.length := by omega) :
    Yields (read32 m i) (fun v => v = UInt32.ofNat (m.word32 i)) :=
  (yields_be32 h).bind fun _ hw => .ok (by rw [hw])

theorem sackLoop_yields {offset count block : ℕ} {blocks : List (UInt32 × UInt32)}
    (h : offset + (block + count) * 8 ≤ m.length) (hb : blocks.length ≤ 2) :
    Yields (sackLoop m offset count block blocks) (fun blocks => blocks.length ≤ 2) := by
  induction count generalizing block blocks with
  | zero => exact .ok hb
  | succ count ih =>
    refine (read32_yields).bind fun left _ => ?_
    refine (read32_yields).bind fun right _ => ?_
    refine .ite (fun _ => ih (by omega) hb) fun _ => ?_
    refine .ite (fun hr => ih (by omega) ?_) fun _ => ih (by omega) hb
    rw [List.length_append, List.length_singleton]
    exact hr

theorem parseOption_yields {kind : UInt8} {size offset : ℕ} {o : TcpOptions}
    {seen : Seen} (h : offset + (size - 2) ≤ m.length)
    (hb : o.sackBlocks.length ≤ 2) : Yields (parseOption m kind size offset o seen)
      (fun r => ∀ o' seen', r = some (o', seen') → o'.sackBlocks.length ≤ 2) := by
  refine .ite (fun _ => ?_) fun _ => .ite (fun _ => ?_) fun _ => .ite (fun _ => ?_) fun _ =>
    .ite (fun _ => ?_) fun _ => .ite (fun _ => ?_) fun _ => .ok ?_
  · refine .unless nofun fun hl => ?_
    refine (read16_yields).bind fun mss _ => ?_
    refine .unless nofun fun _ => .ok ?_
    rintro o' seen' ⟨⟩
    exact hb
  · refine .unless nofun fun hl => ?_
    refine (yields_read).bind fun scale _ => ?_
    refine .unless nofun fun _ => .ok ?_
    rintro o' seen' ⟨⟩
    exact hb
  · refine .unless nofun fun _ => .ok ?_
    rintro o' seen' ⟨⟩
    exact hb
  · refine .unless nofun fun hl => ?_
    refine (sackLoop_yields (by omega) hb).bind fun blocks hk => .ok ?_
    rintro o' seen' ⟨⟩
    exact hk
  · refine .unless nofun fun hl => ?_
    refine (read32_yields).bind fun value _ => ?_
    refine (read32_yields).bind fun echo _ => .ok ?_
    rintro o' seen' ⟨⟩
    exact hb
  · rintro o' seen' ⟨⟩
    exact hb

theorem optionLoop_yields {header : ℕ} (h : header ≤ m.length) (offset : ℕ)
    (o : TcpOptions) (seen : Seen) (hb : o.sackBlocks.length ≤ 2) :
    Yields (optionLoop m header offset o seen)
      (fun r => ∀ o', r = some o' → o'.sackBlocks.length ≤ 2) := by
  induction hl : header - offset using Nat.strong_induction_on generalizing offset o seen with
  | _ left ih =>
    rw [optionLoop]
    refine .ite (fun hi => ?_) fun _ => .ok ?_
    · refine (yields_read).bind fun kind _ => ?_
      refine .ite (fun _ => .ok ?_) fun _ => ?_
      · rintro o' ⟨⟩
        exact hb
      refine .ite (fun _ => ih _ (by omega) (offset + 1) o seen hb rfl) fun _ => ?_
      refine .unless nofun fun _ => ?_
      refine (yields_read).bind fun size _ => ?_
      refine .unless nofun fun hs => ?_
      rw [not_or, Nat.not_lt, Nat.not_lt] at hs
      refine (parseOption_yields (by omega) hb).bind fun r hr => ?_
      cases r with
      | none => exact .ok nofun
      | some r =>
        exact ih _ (by omega) (offset + 2 + (size.toNat - 2)) r.1 r.2 (hr r.1 r.2 rfl) rfl
    · rintro o' ⟨⟩
      exact hb

structure TcpSegmentView.Inside (v : TcpSegmentView) (length : ℕ) : Prop where
  segment : v.segmentLength = length
  header : 20 ≤ v.headerLength
  payload : v.headerLength + v.payloadLength = length
  sackBlocks : v.options.sackBlocks.length ≤ 2

theorem tcpParse_inside (m : Buffer) :
    Yields (tcpParse m) (fun r => ∀ v, r = some v → v.Inside m.length) := by
  refine .unless nofun fun hl => ?_
  rw [Nat.not_lt] at hl
  refine (yields_read).bind fun nibble _ => ?_
  refine .unless nofun fun hh => ?_
  rw [not_or, not_or, Nat.not_lt, Nat.not_lt] at hh
  refine (read16_yields).bind fun source _ => ?_
  refine (read16_yields).bind fun destination _ => ?_
  refine (yields_read).bind fun flags _ => ?_
  refine .unless nofun fun _ => ?_
  refine (read32_yields).bind fun sequence _ => ?_
  refine (read32_yields).bind fun acknowledgement _ => ?_
  refine (read16_yields).bind fun window _ => ?_
  refine (read16_yields).bind fun urgentPointer _ => ?_
  refine (optionLoop_yields hh.2.1 20 _ _ (Nat.zero_le _)).bind fun r hr => ?_
  cases r with
  | none => exact .ok nofun
  | some o =>
    refine .ok ?_
    rintro v ⟨⟩
    exact ⟨rfl, hh.1, Nat.add_sub_cancel' hh.2.1, hr o rfl⟩

/-- Every parser ends without a read at or behind the length it was given, and a view that it
accepts is inside. Down a frame, from Ethernet over either version of IP to TCP, the payload of
the segment is inside the frame. -/
theorem parsers_in_bounds (sse2 : Bool) (m : Buffer) :
    Yields (ethernetParse m) (fun r => ∀ v, r = .ok v → v.Inside m.length) ∧
    Yields (ipv4Parse sse2 m) (fun r => ∀ v, r = .ok v → v.Inside m.length) ∧
    Yields (ipv6Parse m) (fun r => ∀ v, r = .ok v → v.Inside m.length) ∧
    Yields (tcpParse m) (fun r => ∀ v, r = some v → v.Inside m.length) ∧
    ∀ frame, ethernetParse m = .ok (.ok frame) → (∀ packet segment,
        ipv4Parse sse2 (m.sub frame.payload frame.payloadLength) = .ok (.ok packet) →
        tcpParse (m.sub (frame.payload + packet.headerLength) packet.payloadLength) =
          .ok (some segment) →
        frame.payload + packet.headerLength + segment.headerLength + segment.payloadLength ≤
          m.length) ∧ ∀ packet segment,
        ipv6Parse (m.sub frame.payload frame.payloadLength) = .ok (.ok packet) →
        tcpParse (m.sub (frame.payload + packet.payloadOffset) packet.payloadLength) =
          .ok (some segment) →
        frame.payload + packet.payloadOffset + segment.headerLength + segment.payloadLength ≤
          m.length := by
  refine ⟨ethernetParse_inside m, ipv4Parse_inside sse2 m, ipv6Parse_inside m,
    tcpParse_inside m, fun frame hf => ?_⟩
  have hi := (ethernetParse_inside m).of_eq hf frame rfl
  have hpay := hi.payload
  constructor
  · intro packet segment hpac hse
    have hp := (ipv4Parse_inside sse2 _).of_eq hpac packet rfl
    have hs := (tcpParse_inside _).of_eq hse segment rfl
    have h₁ : packet.packetLength ≤ frame.payloadLength := hp.packet
    have h₂ := hp.payload
    have h₃ : segment.headerLength + segment.payloadLength = packet.payloadLength := hs.payload
    omega
  · intro packet segment hpac hse
    have hp := (ipv6Parse_inside _).of_eq hpac packet rfl
    have hs := (tcpParse_inside _).of_eq hse segment rfl
    have h₁ : packet.packetLength ≤ frame.payloadLength := hp.packet
    have h₂ := hp.payload
    have h₃ : segment.headerLength + segment.payloadLength = packet.payloadLength := hs.payload
    omega

end MichCore.Net
