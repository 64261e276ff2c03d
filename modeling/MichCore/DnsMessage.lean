import MichCore.BoundedBytes

/-!
# DNS messages

`net/dns_message.c`: the encoder of a query and the decoder of a reply. The texts that names are
decoded into are memory with a limit, and the query name is a C string. Offsets are unsigned
32-bit numbers and wrap; an offset that is added to a pointer does not.
-/
namespace MichCore.Dns

open BoundedBytes

/-- The memory of a C string; what follows the end is never looked at. -/
def cString (name : List UInt8) : Memory := fun i => name.getD i 0

/-- The letter in lower case. -/
def lower (b : UInt8) : UInt8 := if 0x41 ≤ b ∧ b ≤ 0x5A then b + 32 else b

/-- The loop of `names_equal` with `left` turns left, from `index` on. -/
def namesEqualFrom (left right : Memory) : ℕ → ℕ → Bool
  | 0, _ => false
  | turns + 1, index =>
    if lower (left index) ≠ lower (right index) then false
    else if left index = 0 then true
    else namesEqualFrom left right turns (index + 1)

/-- `names_equal`; `DNS_NAME_MAX` is 255. -/
def namesEqual (left right : Memory) : Bool := namesEqualFrom left right 256 0

/-- `write_be16` -/
def be16Bytes (value : ℕ) : List UInt8 := [UInt8.ofNat (value / 256), UInt8.ofNat value]

/-- The loop of `encode_name` on what is left of the name, with what was written so far;
`none` is the answer 0. -/
def encodeLoop (limit : ℕ) : ℕ → List UInt8 → List UInt8 → Except Fault (Option (List UInt8))
  | 0, _, _ => .error .fuel
  | fuel + 1, name, out =>
    if name = [] then .ok (some out)
    else
      let label := name.takeWhile (· ≠ 0x2E)
      if label = [] ∨ 63 < label.length then .ok none
      else if limit ≤ out.length + label.length + 1 then .ok none
      else
        encodeLoop limit fuel ((name.dropWhile (· ≠ 0x2E)).drop 1)
          (out ++ UInt8.ofNat label.length :: label)

/-- `encode_name`; every turn of the loop takes a byte off the name. -/
def encodeName (limit : ℕ) (name : List UInt8) : Except Fault (Option (List UInt8)) := do
  match ← encodeLoop limit (name.length + 1) name [] with
  | none => return none
  | some out => if out = [] ∨ limit < out.length + 1 then return none else return some (out ++ [0])

/-- `dns_build_query` into a buffer of `limit` bytes: the message, or `none` for 0. -/
def buildQuery (limit : ℕ) (name : List UInt8) (type transaction : ℕ) :
    Except Fault (Option (List UInt8)) :=
  if limit < 12 + 5 then .ok none
  else if name = [] ∨ 255 < name.length then .ok none
  else do
    match ← encodeName (limit - 12 - 4) name with
    | none => return none
    | some encoded =>
      return some (be16Bytes (transaction % 2 ^ 16) ++ be16Bytes 0x0100 ++ be16Bytes 1 ++
        [0, 0, 0, 0, 0, 0] ++ encoded ++ be16Bytes type ++ be16Bytes 1)

/-- The variables of `skip_name`. `next` is what was stored at the first jump, and `text` is
`none` for the null pointer. -/
structure Walk where
  jumps : ℕ
  cursor : ℕ
  written : ℕ
  next : Option ℕ
  text : Option Memory

/-- One turn of the loop: it goes on, or the function returns, with `none` for -1. -/
inductive Turn where
  | again (w : Walk)
  | done (result : Option (ℕ × Option Memory))

/-- The loop that copies a label: the first `n` of its bytes, which start at `start`. -/
def copyLabel (m : Buffer) (limit start written : ℕ) (t : Memory) : ℕ → Except Fault Memory
  | 0 => .ok t
  | n + 1 => do
    let t ← copyLabel m limit start written t n
    let value ← m.read ((start + n) % 2 ^ 32)
    t.write limit ((written + n) % 2 ^ 32) value

/-- A compression pointer; `DNS_JUMP_MAX` is 16. -/
def followPointer (m : Buffer) (w : Walk) (marker : UInt8) : Except Fault Turn :=
  if m.length ≤ (w.cursor + 1) % 2 ^ 32 then .ok (.done none)
  else do
    let low ← m.read ((w.cursor + 1) % 2 ^ 32)
    let target := (marker &&& 0x3F).toNat * 256 + low.toNat
    if w.cursor ≤ target then return .done none
    else if 16 < w.jumps + 1 then return .done none
    else
      return .again { w with
        jumps := w.jumps + 1
        next := some (w.next.getD ((w.cursor + 2) % 2 ^ 32))
        cursor := target }

/-- The end of the name. -/
def endName (limit : ℕ) (w : Walk) : Except Fault Turn :=
  let next := w.next.getD ((w.cursor + 1) % 2 ^ 32)
  match w.text with
  | none => .ok (.done (some (next, none)))
  | some t =>
    if w.written < limit then do
      let t ← t.write limit w.written 0
      return .done (some (next, some t))
    else .ok (.done (some (next, some t)))

/-- The separator in front of every label but the first. -/
def writeDot (limit : ℕ) (t : Memory) (written : ℕ) : Except Fault (Memory × ℕ) :=
  if written ≠ 0 ∧ (written + 1) % 2 ^ 32 < limit then do
    let t ← t.write limit written 0x2E
    return (t, written + 1)
  else .ok (t, written)

/-- A label of `marker` bytes; `DNS_LABEL_MAX` is 63. -/
def takeLabel (m : Buffer) (limit : ℕ) (w : Walk) (marker : ℕ) : Except Fault Turn :=
  if 63 < marker then .ok (.done none)
  else if m.length < (w.cursor + 1 + marker) % 2 ^ 32 then .ok (.done none)
  else
    let cursor := (w.cursor + 1 + marker) % 2 ^ 32
    match w.text with
    | none =>
      if 255 < (w.written + marker + 1) % 2 ^ 32 then .ok (.done none)
      else
        .ok (.again { w with written := (w.written + marker + 1) % 2 ^ 32, cursor := cursor })
    | some t => do
      let (t, written) ← writeDot limit t w.written
      if limit ≤ (written + marker) % 2 ^ 32 then return .done none
      else
        let t ← copyLabel m limit (w.cursor + 1) written t marker
        return .again { w with
          written := (written + marker) % 2 ^ 32, cursor := cursor, text := some t }

def skipTurn (m : Buffer) (limit : ℕ) (w : Walk) : Except Fault Turn :=
  if w.cursor < m.length then do
    let marker ← m.read w.cursor
    if marker &&& 0xC0 = 0xC0 then followPointer m w marker
    else if marker &&& 0xC0 ≠ 0 then return .done none
    else if marker = 0 then endName limit w
    else takeLabel m limit w marker.toNat
  else .ok (.done none)

def skipLoop (m : Buffer) (limit : ℕ) : ℕ → Walk → Except Fault (Option (ℕ × Option Memory))
  | 0, _ => .error .fuel
  | fuel + 1, w => do
    match ← skipTurn m limit w with
    | .again w => skipLoop m limit fuel w
    | .done result => return result

/-- `skip_name`: the offset behind the name and the text, or `none` for -1. Every label adds
to what was written and there are at most 16 jumps. -/
def skipName (m : Buffer) (offset : ℕ) (text : Option Memory) (limit : ℕ) :
    Except Fault (Option (ℕ × Option Memory)) :=
  skipLoop m limit (max limit 256 + 17) ⟨0, offset, 0, none, text⟩

structure Result where
  ipv4 : List ℕ
  ipv6 : List (List UInt8)
  ttl : ℕ
  deriving DecidableEq, Repr

/-- What `dns_parse_reply` answers: -1, 0 with the truncated flag, or 0 with a result. -/
inductive Reply where
  | rejected
  | truncated
  | accepted (result : Result)
  deriving DecidableEq, Repr

/-- `question_matches`: the offset of the answers. `scratch` is what the local buffers hold
before they are written. -/
def questionMatches (m : Buffer) (name : Memory) (type : ℕ) (scratch : Memory) :
    Except Fault (Option ℕ) := do
  match ← skipName m 12 (some scratch) 256 with
  | none => return none
  | some (next, text) =>
    if m.length < (next + 4) % 2 ^ 32 then return none
    else
      let type' ← m.be16 next
      if type' ≠ type then return none
      else
        let klass ← m.be16 (next + 2)
        if klass ≠ 1 then return none
        else if namesEqual (text.getD scratch) name = false then return none
        else return some ((next + 4) % 2 ^ 32)

/-- The fixed part of a record, and where its data is. -/
structure Record where
  type : ℕ
  klass : ℕ
  ttl : ℕ
  size : ℕ
  data : ℕ
  deriving DecidableEq, Repr

/-- The fields behind the owner of a record; `none` when they do not fit. -/
def readRecord (m : Buffer) (next : ℕ) : Except Fault (Option Record) :=
  if m.length < (next + 10) % 2 ^ 32 then .ok none
  else do
    let type ← m.be16 next
    let klass ← m.be16 (next + 2)
    let ttl ← m.be32 (next + 4)
    let size ← m.be16 (next + 8)
    let data := (next + 10) % 2 ^ 32
    if m.length < (data + size) % 2 ^ 32 then return none
    else return some ⟨type, klass, ttl, size, data⟩

/-- The shortest time of the records that were used so far, 0 before the first. -/
def Result.shorten (result : Result) (ttl : ℕ) : Result :=
  { result with ttl := if result.ttl = 0 ∨ ttl < result.ttl then ttl else result.ttl }

/-- The bytes of an IPv6 address, one read after the other. -/
def readBytes (m : Buffer) (start : ℕ) : ℕ → Except Fault (List UInt8)
  | 0 => .ok []
  | n + 1 => do
    let bytes ← readBytes m start n
    let value ← m.read ((start + n) % 2 ^ 32)
    return bytes ++ [value]

/-- The variables of the loop over the answers. -/
structure Scan where
  cursor : ℕ
  wanted : Memory
  aliases : ℕ
  result : Result

/-- A record with the wanted owner; `DNS_CNAME_MAX` is 8 and `DNS_ADDRESS_MAX` is 4. -/
def useRecord (m : Buffer) (type : ℕ) (s : Scan) (r : Record) : Except Fault (Option Scan) :=
  if r.type = 5 then
    if 8 < s.aliases + 1 then .ok none
    else do
      match ← skipName m r.data (some s.wanted) 256 with
      | none => return none
      | some (_, text) =>
        return some { s with
          wanted := text.getD s.wanted
          aliases := s.aliases + 1
          result := s.result.shorten r.ttl }
  else if r.type = 1 ∧ type = 1 then
    if r.size ≠ 4 then .ok none
    else if s.result.ipv4.length < 4 then do
      let address ← m.be32 r.data
      let result := { s.result with ipv4 := s.result.ipv4 ++ [address] }
      return some { s with result := result.shorten r.ttl }
    else .ok (some { s with result := s.result.shorten r.ttl })
  else if r.type = 28 ∧ type = 28 then
    if r.size ≠ 16 then .ok none
    else if s.result.ipv6.length < 4 then do
      let address ← readBytes m r.data 16
      let result := { s.result with ipv6 := s.result.ipv6 ++ [address] }
      return some { s with result := result.shorten r.ttl }
    else .ok (some { s with result := s.result.shorten r.ttl })
  else .ok (some s)

/-- One turn of the loop over the answers. -/
def scanAnswer (m : Buffer) (type : ℕ) (scratch : Memory) (s : Scan) :
    Except Fault (Option Scan) := do
  match ← skipName m s.cursor (some scratch) 256 with
  | none => return none
  | some (next, owner) =>
    match ← readRecord m next with
    | none => return none
    | some r =>
      let s := { s with cursor := (r.data + r.size) % 2 ^ 32 }
      if r.klass ≠ 1 ∨ namesEqual (owner.getD scratch) s.wanted = false then return some s
      else useRecord m type s r

def scanAnswers (m : Buffer) (type : ℕ) (scratch : Memory) : ℕ → Scan → Except Fault (Option Scan)
  | 0, s => .ok (some s)
  | answers + 1, s => do
    match ← scanAnswer m type scratch s with
    | none => return none
    | some s => scanAnswers m type scratch answers s

/-- The copy of the query name that the loop starts from: 255 bytes at most. -/
def copyName (name : List UInt8) : Memory := cString (name.take 255)

/-- `dns_parse_reply` -/
def parseReply (m : Buffer) (name : List UInt8) (type transaction : ℕ) (scratch : Memory) :
    Except Fault Reply :=
  if m.length < 12 then .ok .rejected
  else do
    let id ← m.be16 0
    if id ≠ transaction % 2 ^ 16 then return .rejected
    else
      let flags ← m.be16 2
      if flags &&& 0x8000 = 0 then return .rejected
      else if flags &&& 0x0200 ≠ 0 then return .truncated
      else if flags &&& 0x000F ≠ 0 then return .rejected
      else
        let questions ← m.be16 4
        if questions ≠ 1 then return .rejected
        else
          let answers ← m.be16 6
          match ← questionMatches m (cString name) type scratch with
          | none => return .rejected
          | some cursor =>
            match ← scanAnswers m type scratch answers ⟨cursor, copyName name, 0, ⟨[], [], 0⟩⟩ with
            | none => return .rejected
            | some s =>
              if s.result.ipv4 = [] ∧ s.result.ipv6 = [] then return .rejected
              else return .accepted s.result

end MichCore.Dns
