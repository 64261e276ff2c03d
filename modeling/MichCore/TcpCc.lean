import Mathlib.Tactic

/-!
# Congestion control

`net/tcp_cc.c`. A policy is a table of functions on the part of a connection that it may write;
of the rest it reads only the segment size of the peer.
-/
namespace MichCore.Tcp

inductive BbrPhase where
  | startup
  | drain
  | probeBw
  | probeRtt
  deriving DecidableEq, Repr

/-- The fields of a connection that a policy writes. -/
structure Congestion where
  congestionWindow : UInt32
  slowStartThreshold : UInt32
  bbrPhase : BbrPhase
  bbrMinRtt : UInt32
  bbrMinRttDeadline : UInt32
  bbrBw : UInt32
  bbrBwWindowEnd : UInt32
  bbrDelivered : UInt32
  bbrIntervalStart : UInt32
  bbrProbeCount : UInt32
  bbrProbeRttStart : UInt32
  bbrStartupRounds : UInt32
  bbrRound : Bool
  deriving DecidableEq, Repr

/-- `tcp_cc_ops`; the segment size of the peer is the first argument of the hooks. -/
structure CcOps where
  init : Congestion → Congestion
  onAck (remoteMss : UInt16) (c : Congestion) (acked flight now : UInt32) : Congestion
  onRtt (remoteMss : UInt16) (c : Congestion) (sample flight now : UInt32) : Congestion
  onFastRetransmit (remoteMss : UInt16) (c : Congestion) (duplicateAcks : UInt32) : Congestion
  onRto (remoteMss : UInt16) (c : Congestion) (now : UInt32) : Congestion

namespace Reno

def onAck (remoteMss : UInt16) (c : Congestion) (acked _flight _now : UInt32) : Congestion :=
  let mss := remoteMss.toUInt32
  let increase :=
    if c.slowStartThreshold ≤ c.congestionWindow then mss * mss / c.congestionWindow
    else if acked ≠ 0 then acked else mss
  let increase := if increase = 0 then 1 else increase
  { c with
    congestionWindow :=
      if 65535 - c.congestionWindow < increase then 65535 else c.congestionWindow + increase }

def onFastRetransmit (remoteMss : UInt16) (c : Congestion) (_duplicateAcks : UInt32) :
    Congestion :=
  let mss := remoteMss.toUInt32
  let threshold := max (c.congestionWindow / 2) (mss * 2)
  { c with slowStartThreshold := threshold, congestionWindow := threshold + mss * 3 }

def onRto (remoteMss : UInt16) (c : Congestion) (_now : UInt32) : Congestion :=
  { c with congestionWindow := remoteMss.toUInt32 }

end Reno

def tcpCcReno : CcOps where
  init c := c
  onAck := Reno.onAck
  onRtt _ c _ _ _ := c
  onFastRetransmit := Reno.onFastRetransmit
  onRto := Reno.onRto

namespace Bbr

/-- The loop for a quotient that does not fit: `shift` counts down from 31. -/
def divideHigh (d : UInt32) : ℕ → UInt32 → UInt32 → UInt32
  | 0, _, res => res
  | shift + 1, rem, res =>
    if d ≤ rem then
      divideHigh d shift (rem - (d <<< UInt32.ofNat shift)) (res ||| (1 <<< UInt32.ofNat shift))
    else divideHigh d shift rem res

/-- The shift-and-subtract loop over the low word, from its highest bit. -/
def divideLow (n : UInt64) (d : UInt32) : ℕ → UInt32 → UInt32 → UInt32
  | 0, _, res => res
  | bits + 1, rem, res =>
    let rem := (rem <<< 1) ||| ((n >>> UInt64.ofNat bits) &&& 1).toUInt32
    if d ≤ rem then divideLow n d bits (rem - d) ((res <<< 1) ||| 1)
    else divideLow n d bits rem (res <<< 1)

def div64By32 (n : UInt64) (d : UInt32) : UInt32 :=
  let rem := (n >>> 32).toUInt32
  if d ≤ rem then divideHigh d 32 rem 0 else divideLow n d 32 rem 0

/-- The bandwidth-delay product, between four segments and 65535 bytes. -/
def bdp (remoteMss : UInt16) (c : Congestion) : UInt32 :=
  if c.bbrBw = 0 ∨ c.bbrMinRtt = 0 then 0
  else
    let product := ((c.bbrBw.toUInt64 * c.bbrMinRtt.toUInt64) >>> 16).toUInt32
    min (max product (remoteMss.toUInt32 * 4)) 65535

/-- `bbr_probe_gains`, at the count modulo 8. -/
def probeGain (count : UInt32) : UInt32 :=
  if count &&& 7 = 3 ∨ count &&& 7 = 6 then 1280 else 1024

def init (c : Congestion) : Congestion :=
  { c with
    bbrPhase := .startup
    bbrMinRtt := 0
    bbrMinRttDeadline := 0
    bbrBw := 0
    bbrBwWindowEnd := 0
    bbrDelivered := 0
    bbrIntervalStart := 0
    bbrProbeCount := 0
    bbrProbeRttStart := 0
    bbrStartupRounds := 0
    bbrRound := false }

/-- `TCP_BBR_WINDOW` is 10000. -/
def onRtt (_remoteMss : UInt16) (c : Congestion) (sample _flight now : UInt32) : Congestion :=
  let c :=
    if sample ≠ 0 ∧ (c.bbrMinRtt = 0 ∨ c.bbrMinRttDeadline ≤ now ∨ sample < c.bbrMinRtt) then
      { c with bbrMinRtt := sample, bbrMinRttDeadline := now + 10000 }
    else c
  { c with bbrRound := true }

/-- The cut of the drain phase; `none` when the flight has come down and the phase ends. -/
def drainCut (remoteMss : UInt16) (c : Congestion) (flight : UInt32) : Option Congestion :=
  if c.bbrPhase = .drain then
    let bdp := bdp remoteMss c
    if bdp ≠ 0 ∧ flight ≤ bdp then none
    else if c.congestionWindow / 2 ≤ flight ∧ bdp < c.congestionWindow then
      let cut := flight / 2
      let window := if cut < c.congestionWindow then c.congestionWindow - cut else bdp
      some { c with congestionWindow := if window < bdp then bdp else window }
    else some c
  else some c

/-- The bandwidth sample at the end of a round. -/
def sampleBandwidth (c : Congestion) (now : UInt32) : Congestion :=
  let c :=
    if c.bbrIntervalStart ≠ 0 ∧ c.bbrIntervalStart < now ∧ c.bbrDelivered ≠ 0 then
      let rate := div64By32 (c.bbrDelivered.toUInt64 * 65536) (now - c.bbrIntervalStart)
      if c.bbrBwWindowEnd ≤ now ∨ c.bbrBw < rate then
        { c with bbrBw := rate, bbrBwWindowEnd := now + 10000 }
      else c
    else c
  { c with bbrDelivered := 0, bbrIntervalStart := now }

def startup (mss bdp : UInt32) (c : Congestion) : Congestion :=
  if c.bbrBw = 0 ∨ c.bbrMinRtt = 0 then
    { c with congestionWindow := c.congestionWindow + (c.congestionWindow / 8 + mss) }
  else
    let target := min ((bdp * 2885) >>> 10) 65535
    let window := if c.congestionWindow < target then target else c.congestionWindow
    let rounds := c.bbrStartupRounds + 1
    { c with
      congestionWindow := window
      bbrStartupRounds := rounds
      bbrPhase := if 2 ≤ rounds ∧ target ≤ window then .drain else c.bbrPhase }

def probeBw (mss bdp now : UInt32) (c : Congestion) : Congestion :=
  if c.bbrMinRttDeadline ≤ now then
    { c with
      bbrPhase := .probeRtt
      bbrProbeRttStart := now
      congestionWindow := max (if bdp ≠ 0 then bdp / 4 else 0) (mss * 4) }
  else
    let base := if bdp ≠ 0 then bdp else mss * 4
    { c with
      congestionWindow := max ((base * probeGain c.bbrProbeCount) >>> 10) (mss * 4)
      bbrProbeCount := c.bbrProbeCount + 1 }

def onAck (remoteMss : UInt16) (c : Congestion) (acked flight now : UInt32) : Congestion :=
  let c := { c with bbrDelivered := c.bbrDelivered + acked }
  match drainCut remoteMss c flight with
  | none => { c with bbrPhase := .probeBw }
  | some c =>
    if c.bbrRound then
      let c := sampleBandwidth { c with bbrRound := false } now
      let mss := remoteMss.toUInt32
      let bdp := bdp remoteMss c
      match c.bbrPhase with
      | .startup => startup mss bdp c
      | .drain => c
      | .probeBw => probeBw mss bdp now c
      | .probeRtt =>
        -- `TCP_BBR_PROBE_RTT_DURATION`
        if c.bbrProbeRttStart + 200 ≤ now then { c with bbrPhase := .probeBw } else c
    else c

def onRto (remoteMss : UInt16) (c : Congestion) (now : UInt32) : Congestion :=
  let mss := remoteMss.toUInt32
  let bdp := bdp remoteMss c
  let window :=
    if c.bbrMinRtt ≠ 0 ∧ now < c.bbrMinRttDeadline then
      max (if bdp ≠ 0 then bdp / 2 else 0) (mss * 4)
    else mss
  { c with
    congestionWindow := window
    bbrPhase :=
      if c.bbrPhase = .startup ∨ c.bbrPhase = .drain then
        if c.bbrMinRtt ≠ 0 then .probeBw else .startup
      else c.bbrPhase }

end Bbr

def tcpCcBbr : CcOps where
  init := Bbr.init
  onAck := Bbr.onAck
  onRtt := Bbr.onRtt
  onFastRetransmit _ c _ := c
  onRto := Bbr.onRto

end MichCore.Tcp
