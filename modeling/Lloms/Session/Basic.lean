import Lloms.Lib.Machine
import Lloms.Lib.MachineInt

/-! The exchange session layer (`session.cpp`): sequence integrity, gap recovery
and liveness, as the pure state machine the source keeps it. Sequence numbers
and counters are `uint64_t` and wrap; the clock is `int64_t` milliseconds. -/
namespace Lloms

namespace Session

inductive State where
  | disconnected
  | logonSent
  | active
  | recovering
  | loggedOut
  deriving DecidableEq, Repr

inductive Admin where
  | none
  | logon
  | logout
  | heartbeat
  | testRequest
  | resendRequest
  | sequenceReset
  deriving DecidableEq, Repr

/-- One inbound message. `gapFill` and `newSeq` belong to a SequenceReset,
`resendFrom` and `resendTo` to a ResendRequest. -/
structure Inbound where
  seq : UInt64 := 0
  admin : Admin := .none
  possDup : Bool := false
  gapFill : Bool := false
  newSeq : UInt64 := 0
  resendFrom : UInt64 := 0
  resendTo : UInt64 := 0
  deriving DecidableEq, Repr

inductive Reject where
  | none
  | notLoggedOn
  | sequenceTooLow
  | logonSequenceTooLow
  | resetBackwards
  | alreadyLoggedOn
  deriving DecidableEq, Repr

structure Outcome where
  deliver : Bool := false
  queue : Bool := false
  drop : Bool := false
  sendHeartbeat : Bool := false
  sendResendRequest : Bool := false
  resendFrom : UInt64 := 0
  resendTo : UInt64 := 0
  sendResend : Bool := false
  replayFrom : UInt64 := 0
  replayTo : UInt64 := 0
  disconnect : Bool := false
  reject : Reject := .none
  deriving DecidableEq, Repr

structure Config where
  heartbeatMs : UInt32 := 30000
  nextInboundSeq : UInt64 := 1
  nextOutboundSeq : UInt64 := 1

structure Stats where
  delivered : UInt64 := 0
  queuedTotal : UInt64 := 0
  duplicatesDropped : UInt64 := 0
  gapsDetected : UInt64 := 0
  gapFillsApplied : UInt64 := 0
  resetsApplied : UInt64 := 0
  resendRequestsSent : UInt64 := 0
  resendRequestsServed : UInt64 := 0
  testRequestsSent : UInt64 := 0
  rejects : UInt64 := 0
  deriving DecidableEq, Repr

end Session

open Session in
structure Session where
  state : State := .disconnected
  nextIn : UInt64
  nextOut : UInt64
  heartbeatMs : UInt32
  lastInboundMs : Int64 := 0
  testRequestOutstanding : Bool := false
  queued : List Inbound := []
  released : List Inbound := []
  stats : Stats := {}
  deriving DecidableEq, Repr

namespace Session

/-- The constructor: a zero in the configuration means the default. -/
def new (cfg : Config) : Session :=
  { nextIn := if cfg.nextInboundSeq = 0 then 1 else cfg.nextInboundSeq
    nextOut := if cfg.nextOutboundSeq = 0 then 1 else cfg.nextOutboundSeq
    heartbeatMs := if cfg.heartbeatMs = 0 then 30000 else cfg.heartbeatMs }

def claimOutboundSeq (s : Session) : Session × UInt64 :=
  ({ s with nextOut := s.nextOut + 1 }, s.nextOut)

def beginLogon (s : Session) (nowMs : Int64) : Session × UInt64 :=
  claimOutboundSeq
    { s with state := .logonSent, lastInboundMs := nowMs, testRequestOutstanding := false }

def takeReleased (s : Session) : Session × List Inbound :=
  ({ s with released := [] }, s.released)

/-- Update the statistics and nothing else. -/
def tally (s : Session) (f : Stats → Stats) : Session := { s with stats := f s.stats }

def countReject (s : Session) : Session :=
  s.tally fun st => { st with rejects := st.rejects + 1 }

/-- One pass of the release loop: the first held message that is next in
sequence leaves the queue. -/
def releaseNext (s : Session) (m : Inbound) : Session :=
  let s := { s with
    queued := s.queued.eraseP fun q => q.seq = s.nextIn
    nextIn := s.nextIn + 1 }
  if m.admin = .none then
    { s with released := s.released ++ [m] }.tally
      fun st => { st with delivered := st.delivered + 1 }
  else s

/-- The `while (progressed)` loop. Every pass that goes on removes a held
message, so the length of the queue is enough fuel (`releaseLoop_done`). -/
def releaseLoop : Nat → Session → Session
  | 0, s => s
  | fuel + 1, s =>
    match s.queued.find? fun q => q.seq = s.nextIn with
    | some m => releaseLoop fuel (s.releaseNext m)
    | none => s

def releaseQueue (s : Session) : Session :=
  let s := releaseLoop s.queued.length s
  if s.queued = [] then { s with state := .active } else s

/-- What follows the switch of `acceptInSequence`: closing a gap can make held
messages contiguous again. -/
def settle (s : Session) : Session :=
  if s.state = .recovering then s.releaseQueue else s

def acceptInSequence (s : Session) (m : Inbound) (nowMs : Int64) : Session × Outcome :=
  let s := { s with lastInboundMs := nowMs, testRequestOutstanding := false }
  match m.admin with
  | .sequenceReset =>
    if m.newSeq ≤ s.nextIn then
      (s.countReject, { drop := true, reject := .resetBackwards })
    else
      let s := { s with nextIn := m.newSeq }
      let s := s.tally fun st =>
        if m.gapFill then { st with gapFillsApplied := st.gapFillsApplied + 1 }
        else { st with resetsApplied := st.resetsApplied + 1 }
      (s.settle, { drop := true })
  | .testRequest =>
    let s := { s with nextIn := s.nextIn + 1 }
    (s.settle, { sendHeartbeat := true, drop := true })
  | .resendRequest =>
    let s := { s with nextIn := s.nextIn + 1 }
    let s := s.tally fun st => { st with resendRequestsServed := st.resendRequestsServed + 1 }
    (s.settle,
      { sendResend := true
        replayFrom := m.resendFrom
        replayTo := if m.resendTo = 0 then s.nextOut - 1 else m.resendTo
        drop := true })
  | .logout =>
    let s := { s with nextIn := s.nextIn + 1, state := .loggedOut }
    (s.settle, { drop := true, disconnect := true })
  | .heartbeat =>
    let s := { s with nextIn := s.nextIn + 1 }
    (s.settle, { drop := true })
  | .logon =>
    let s := { s with nextIn := s.nextIn + 1 }
    if s.state = .active ∨ s.state = .recovering then
      (s.countReject, { drop := true, disconnect := true, reject := .alreadyLoggedOn })
    else
      let s := { s with state := .active }
      (s.settle, { drop := true })
  | .none =>
    if s.state ≠ .active ∧ s.state ≠ .recovering then
      (s.countReject, { drop := true, reject := .notLoggedOn })
    else
      let s := { s with nextIn := s.nextIn + 1 }
      let s := s.tally fun st => { st with delivered := st.delivered + 1 }
      (s.settle, { deliver := true })

def onMessage (s : Session) (m : Inbound) (nowMs : Int64) : Session × Outcome :=
  if s.state = .disconnected ∧ m.admin ≠ .logon then
    (s.countReject, { drop := true, reject := .notLoggedOn })
  else if m.admin = .logon ∧ m.seq < s.nextIn ∧ !m.possDup then
    (s.countReject, { drop := true, disconnect := true, reject := .logonSequenceTooLow })
  else if m.seq < s.nextIn then
    let s := { s with lastInboundMs := nowMs }
    if m.possDup then
      (s.tally fun st => { st with duplicatesDropped := st.duplicatesDropped + 1 },
        { drop := true })
    else
      (s.countReject, { drop := true, disconnect := true, reject := .sequenceTooLow })
  else if m.seq > s.nextIn then
    if m.admin = .sequenceReset then s.acceptInSequence m nowMs
    else
      let s := { s with lastInboundMs := nowMs, testRequestOutstanding := false }
      let firstGap := s.state ≠ .recovering
      let out : Outcome :=
        if firstGap then
          { sendResendRequest := true, resendFrom := s.nextIn, resendTo := m.seq - 1 }
        else {}
      let s := if firstGap then
          { s with state := .recovering }.tally fun st =>
            { st with
              gapsDetected := st.gapsDetected + 1
              resendRequestsSent := st.resendRequestsSent + 1 }
        else s
      let s := { s with queued := s.queued ++ [m] }.tally fun st =>
        { st with queuedTotal := st.queuedTotal + 1 }
      (s, { out with queue := true })
  else s.acceptInSequence m nowMs

def onClock (s : Session) (nowMs : Int64) : Session × Outcome :=
  if s.state ≠ .active ∧ s.state ≠ .recovering ∧ s.state ≠ .logonSent then (s, {})
  else
    let silent := nowMs - s.lastInboundMs
    if silent < Int64.ofNat s.heartbeatMs.toNat then (s, {})
    else if !s.testRequestOutstanding then
      ({ s with testRequestOutstanding := true, lastInboundMs := nowMs }.tally fun st =>
          { st with testRequestsSent := st.testRequestsSent + 1 },
        { sendHeartbeat := true })
    else ({ s with state := .disconnected }, { disconnect := true })

/-! ## Runs -/

/-- The public calls that can change a session. -/
inductive Call where
  | beginLogon (nowMs : Int64)
  | claimOutboundSeq
  | onMessage (m : Inbound) (nowMs : Int64)
  | onClock (nowMs : Int64)
  | takeReleased
  deriving DecidableEq, Repr

/-- What a call hands back: a sequence number, an outcome, or released messages. -/
inductive Reply where
  | seq (n : UInt64)
  | outcome (o : Outcome)
  | messages (ms : List Inbound)
  deriving DecidableEq, Repr

def step (s : Session) : Call → Session × Reply
  | .beginLogon now => ((s.beginLogon now).1, .seq (s.beginLogon now).2)
  | .claimOutboundSeq => (s.claimOutboundSeq.1, .seq s.claimOutboundSeq.2)
  | .onMessage m now => ((s.onMessage m now).1, .outcome (s.onMessage m now).2)
  | .onClock now => ((s.onClock now).1, .outcome (s.onClock now).2)
  | .takeReleased => (s.takeReleased.1, .messages s.takeReleased.2)

abbrev Event := Lib.Event Session Call Reply

end Session

end Lloms
