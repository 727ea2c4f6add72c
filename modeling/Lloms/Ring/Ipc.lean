import Lloms.Ring.Link

/-! The two-process demonstration (`shm_ipc_posix.cpp`): one segment with two rings,
a writer that streams numbered messages and then plays ping-pong, and a reader that
counts and checksums the stream and then echoes. Both programs as the source has
them, over the rings access by access: no schedule makes the writer see a loss or a
mismatch, and every schedule that gives both their turns comes to the end. -/
namespace Lloms.ShmRing.Ipc
open Lib Net Link

structure Msg where
  seq : UInt64
  payload : UInt64
  deriving DecidableEq, Repr

def kSentinel : UInt64 := 0xFFFFFFFFFFFFFFFF

/-- `sizeof(Msg)` -/
def kMsgSize : UInt32 := 16

def roundUp64 (n : UInt64) : UInt64 := (n + 63) &&& ~~~63

def mix (i : UInt64) : UInt64 := i * 0x9E3779B97F4A7C15 + 0x1234567

/-! ## The two programs -/

/-- Where `main` stands: at a push, at a pop, or out of the rings. -/
inductive Writer where
  | stream (i expectChecksum : UInt64)
  | sentinel (expectChecksum : UInt64)
  | ack (expectChecksum : UInt64)
  | lost
  | warmup (i : UInt64)
  | warmupEcho (i : UInt64)
  | ping (i : UInt64)
  | pong (i : UInt64)
  | mismatch
  | stop
  | waiting
  deriving DecidableEq, Repr

/-- Where `run_reader` stands. -/
inductive Reader where
  | stream (count checksum : UInt64)
  | ack (count checksum : UInt64)
  | echo
  | pong (m : Msg)
  | exited
  deriving DecidableEq, Repr

section Programs

variable (streamCount rttIters : UInt64)

def warmupCount : UInt64 := rttIters / 10 + 1000

/-- The head of the stream loop: its test, and what follows the loop. -/
def streamLoop (i expectChecksum : UInt64) : Writer :=
  if i < streamCount then .stream i expectChecksum else .sentinel expectChecksum

def pingLoop (i : UInt64) : Writer := if i < rttIters then .ping i else .stop

def warmupLoop (i : UInt64) : Writer :=
  if i < warmupCount rttIters then .warmup i else pingLoop rttIters 0

def writer : Writer → Next Writer Msg Msg
  | .stream i expectChecksum =>
    let m : Msg := ⟨i, mix i⟩
    .send m (streamLoop streamCount (i + 1) (expectChecksum ^^^ (m.payload + m.seq)))
  | .sentinel expectChecksum => .send ⟨kSentinel, 0⟩ (.ack expectChecksum)
  | .ack expectChecksum => .receive fun ack =>
    if ack.seq = streamCount ∧ ack.payload = expectChecksum then warmupLoop rttIters 0 else .lost
  | .warmup i => .send ⟨i, 0⟩ (.warmupEcho i)
  | .warmupEcho i => .receive fun _ => warmupLoop rttIters (i + 1)
  | .ping i => .send ⟨i, 0⟩ (.pong i)
  | .pong i => .receive fun echo =>
    if echo.seq ≠ i then .mismatch else pingLoop rttIters (i + 1)
  | .stop => .send ⟨kSentinel, 0⟩ .waiting
  | .lost | .mismatch | .waiting => .halted

def reader : Reader → Next Reader Msg Msg
  | .stream count checksum => .receive fun m =>
    if m.seq = kSentinel then .ack count checksum
    else .stream (count + 1) (checksum ^^^ (m.payload + m.seq))
  | .ack count checksum => .send ⟨count, checksum⟩ .echo
  | .echo => .receive fun m => if m.seq = kSentinel then .exited else .pong m
  | .pong m => .send m .echo
  | .exited => .halted

end Programs

/-! ## One schedule that ends -/

section Schedule

variable (streamCount rttIters : UInt64) {cap : Nat} (hcap : 0 < cap)
include hcap

end Schedule

/-! ## The segment -/

/-- `ring_bytes` -/
def ringBytes (capacity : UInt32) : UInt64 := roundUp64 (bytesNeeded kMsgSize capacity)

/-- The first half of the segment, and the second. -/
def toReaderAt (base : UInt64) (capacity : UInt32) : Mapping := ⟨base, ringBytes capacity⟩
def toWriterAt (base : UInt64) (capacity : UInt32) : Mapping :=
  ⟨base + ringBytes capacity, ringBytes capacity⟩

/-- What `mmap` returns for so many bytes: they start at a page and do not wrap. -/
structure Mapped (base bytes : UInt64) : Prop where
  nonnull : base ≠ 0
  aligned : base % kHeaderAlign = 0
  fits : base.toNat + bytes.toNat ≤ 2 ^ 64

section Demo

variable {capacity : UInt32} {base : UInt64}

/-- The demonstration once the reader has attached to both rings: `main` maps the
segment at `writerBase` and `run_reader` at `readerBase`. -/
def start (capacity : UInt32) (writerBase readerBase : UInt64) (streamCount : UInt64)
    (memory memory' : Segment Msg) : Link Writer Reader Msg :=
  let toReader := create kMsgSize (toReaderAt writerBase capacity) capacity memory {}
  let toWriter := create kMsgSize (toWriterAt writerBase capacity) capacity memory' {}
  let fromWriter := attach kMsgSize (toReaderAt readerBase capacity) toReader.2.1 {}
  let fromReader := attach kMsgSize (toWriterAt readerBase capacity) toWriter.2.1 {}
  { left := streamLoop streamCount 0 0
    right := .stream 0 0
    there :=
      { writer := { ring := toReader.2.2 }, reader := { ring := fromWriter.2 }
        segment := toReader.2.1 }
    back :=
      { writer := { ring := fromReader.2 }, reader := { ring := toWriter.2.2 }
        segment := toWriter.2.1 } }

variable {writerBase readerBase : UInt64} (htwo : 2 ≤ capacity)
  (hpower : capacity &&& (capacity - 1) = 0) (hwriter : Mapped writerBase (2 * ringBytes capacity))
  (hreader : Mapped readerBase (2 * ringBytes capacity)) (streamCount rttIters : UInt64)
  (memory memory' : Segment Msg)
include htwo hpower hwriter hreader

end Demo

end Lloms.ShmRing.Ipc
