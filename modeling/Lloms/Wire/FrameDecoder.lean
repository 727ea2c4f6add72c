import Lloms.Lib.Machine
import Lloms.Wire.Message

/-! The incremental frame decoder (`wire.cpp`): a rolling buffer with a read
position, compacted lazily. One round of the loop in `next` is `nextStep`. -/
namespace Lloms.Wire
open Lib

structure Stats where
  framesDecoded : UInt64 := 0
  bytesConsumed : UInt64 := 0
  resyncs : UInt64 := 0
  bytesDiscarded : UInt64 := 0
  badMagic : UInt64 := 0
  badVersion : UInt64 := 0
  badLength : UInt64 := 0
  badChecksum : UInt64 := 0
  unknownType : UInt64 := 0
  seqGaps : UInt64 := 0
  seqMissing : UInt64 := 0
  seqRegressions : UInt64 := 0
  deriving DecidableEq, Repr

structure FrameDecoder where
  buf : List UInt8 := []
  rpos : Nat := 0
  maxBody : Nat := 65536
  nextSeq : UInt64 := 0
  pendingGap : UInt64 := 0
  haveSeq : Bool := false
  stats : Stats := {}
  deriving DecidableEq, Repr

namespace FrameDecoder

def expectedSeq (d : FrameDecoder) : UInt64 := if d.haveSeq then d.nextSeq else 0

def buffered (d : FrameDecoder) : Nat := d.buf.length - d.rpos

def reset (d : FrameDecoder) : FrameDecoder :=
  { d with buf := [], rpos := 0, nextSeq := 0, pendingGap := 0, haveSeq := false, stats := {} }

def count (d : FrameDecoder) (f : Stats → Stats) : FrameDecoder := { d with stats := f d.stats }

def compact (d : FrameDecoder) : FrameDecoder :=
  if d.rpos = 0 then d
  else if d.rpos = d.buf.length then { d with buf := [], rpos := 0 }
  else if d.rpos < 4096 ∧ d.rpos * 2 < d.buf.length then d
  else { d with buf := d.buf.drop d.rpos, rpos := 0 }

def feed (d : FrameDecoder) (data : List UInt8) : FrameDecoder :=
  if data = [] then d
  else
    let d := d.compact
    { d with buf := d.buf ++ data }

/-- The `while` of `resync`: from `p` on, the first place with a magic, or where
fewer than two bytes are left. The length of the buffer is enough fuel. -/
def scanMagic (buf : List UInt8) : Nat → Nat → Nat
  | 0, p => p
  | fuel + 1, p =>
    if p + 2 ≤ buf.length ∧ loadBe16 (buf.drop p) ≠ kMagic then scanMagic buf fuel (p + 1) else p

def resync (d : FrameDecoder) : FrameDecoder × Bool :=
  let d := d.count fun st => { st with resyncs := st.resyncs + 1 }
  let stop := d.buf.length
  let p := scanMagic d.buf stop (d.rpos + 1)
  let found := decide (p + 2 ≤ stop)
  let p := if found then p else stop - 1
  let d := d.count fun st =>
    { st with bytesDiscarded := st.bytesDiscarded + UInt64.ofNat (p - d.rpos) }
  ({ d with rpos := p }.compact, found)

/-- How a round of the loop ends: `next` returns, with a message or without, or
goes round again. -/
inductive Step where
  | done (d : FrameDecoder) (out : Option Message)
  | again (d : FrameDecoder)

/-- A check failed: hunt for the next magic. -/
def hunt (d : FrameDecoder) : Step :=
  match d.resync with
  | (d, true) => .again d
  | (d, false) => .done d none

/-- Sequence accounting of an accepted frame. -/
def accountSeq (d : FrameDecoder) (seq : UInt64) : FrameDecoder :=
  if !d.haveSeq then { d with haveSeq := true, nextSeq := seq + 1 }
  else if seq > d.nextSeq then
    let missing := seq - d.nextSeq
    { d with
      pendingGap := d.pendingGap + missing
      nextSeq := seq + 1 }.count fun st =>
        { st with seqGaps := st.seqGaps + 1, seqMissing := st.seqMissing + missing }
  else if seq < d.nextSeq then
    d.count fun st => { st with seqRegressions := st.seqRegressions + 1 }
  else { d with nextSeq := seq + 1 }

/-- Step over an accepted frame and account for it. -/
def consume (d : FrameDecoder) (seq : UInt64) (frameLen : Nat) : FrameDecoder :=
  let d := { d with rpos := d.rpos + frameLen }.count fun st =>
    { st with
      bytesConsumed := st.bytesConsumed + UInt64.ofNat frameLen
      framesDecoded := st.framesDecoded + 1 }
  (d.accountSeq seq).compact

/-- What follows when framing and integrity hold. `body` is read before the
buffer moves. -/
def accept (d : FrameDecoder) (type : Option MsgType) (seq : UInt64) (frameLen : Nat)
    (body : List UInt8) : Step :=
  let d := d.consume seq frameLen
  match type with
  | none => .again (d.count fun st => { st with unknownType := st.unknownType + 1 })
  | some type =>
    .done { d with pendingGap := 0 }
      (some { seq, gapBefore := d.pendingGap, body := decodeBody type body })

def nextStep (d : FrameDecoder) : Step :=
  if d.buffered < kHeaderSize then .done d none
  else
    let p := d.buf.drop d.rpos
    if loadBe16 p ≠ kMagic then
      (d.count fun st => { st with badMagic := st.badMagic + 1 }).hunt
    else
      let version := p.getD 2 0
      let type := MsgType.ofByte (p.getD 3 0)
      let bodyLen := (loadBe32 (p.drop 4)).toNat
      let seq := loadBe64 (p.drop 8)
      let wantCsum := loadBe16 (p.drop 16)
      if version ≠ kVersion then
        (d.count fun st => { st with badVersion := st.badVersion + 1 }).hunt
      else if bodyLen > d.maxBody then
        (d.count fun st => { st with badLength := st.badLength + 1 }).hunt
      else if type.any fun type => bodyLen ≠ bodySizeFor type then
        (d.count fun st => { st with badLength := st.badLength + 1 }).hunt
      else
        let frameLen := kHeaderSize + bodyLen
        if d.buffered < frameLen then .done d none
        else
          let body := p.drop kHeaderSize
          if fletcher16 (body.take bodyLen) ≠ wantCsum then
            (d.count fun st => { st with badChecksum := st.badChecksum + 1 }).hunt
          else d.accept type seq frameLen body

/-- The `for (;;)` of `next`. Every round that goes on consumes a byte, so the
bytes held are enough fuel (`nextLoop_spec`). -/
def nextLoop : Nat → FrameDecoder → FrameDecoder × Option Message
  | 0, d => (d, none)
  | fuel + 1, d =>
    match d.nextStep with
    | .done d out => (d, out)
    | .again d => nextLoop fuel d

def next (d : FrameDecoder) : FrameDecoder × Option Message := nextLoop (d.buffered + 1) d

/-! ## Runs -/

inductive Call where
  | feed (data : List UInt8)
  | next
  deriving DecidableEq, Repr

/-- The output is the message of a `next` that returned true. -/
def step (d : FrameDecoder) : Call → FrameDecoder × Option Message
  | .feed data => (d.feed data, none)
  | .next => d.next

abbrev Event := Lib.Event FrameDecoder Call (Option Message)

/-- The bytes that some calls feed, in order. -/
def fed (calls : List Call) : List UInt8 :=
  calls.flatMap fun
    | .feed data => data
    | .next => []

/-- The messages that executed calls have returned. -/
def delivered (h : List Event) : List Message := h.filterMap Event.output

end FrameDecoder

end Lloms.Wire
