import Mathlib.Logic.Function.Basic
import Lloms.Lib.Machine
import Lloms.Lib.MachineInt

/-! The ring in memory that two processes share (`shm_ring.hpp`). `create` and
`attach` validate the mapping and bind a handle; `push` and `pop` then work on
whatever the segment holds at each of their accesses. A `Process` takes one
access to shared memory a step, so that anything may happen to the segment in
between. -/
namespace Lloms.ShmRing
open Lib

universe u

inductive ShmAttachStatus where
  | ok
  | tooSmall
  | misaligned
  | badMagic
  | badVersion
  | badCapacity
  | badElemSize
  deriving DecidableEq, Repr

/-- `mem` and `bytes`: where the segment is mapped and how much of it. -/
structure Mapping where
  mem : UInt64
  bytes : UInt64
  deriving DecidableEq, Repr

/-- The contents of the segment. `slots k` is the message `k` strides behind the
header; it is total, so that an access past the mapping can be spoken of. -/
structure Segment (α : Type u) where
  magic : UInt32
  version : UInt32
  capacity : UInt32
  elemSize : UInt32
  head : UInt64
  tail : UInt64
  slots : UInt64 → α

def kMagic : UInt32 := 0x534D5231
def kVersion : UInt32 := 1

/-- `sizeof(ShmRingHeader)` -/
def kHeaderSize : UInt64 := 192

/-- `alignof(ShmRingHeader)` -/
def kHeaderAlign : UInt64 := 64

/-- The handle. `hdr_` and `slots_` point at the segment once `bind` has run. -/
structure ShmSpscRing where
  valid : Bool := false
  mask : UInt64 := 0
  corruption : UInt64 := 0
  deriving DecidableEq, Repr

namespace ShmSpscRing

/-- The slot `slot(index)` points at: so many strides behind the header. -/
def slot (r : ShmSpscRing) (index : UInt64) : UInt64 := index &&& r.mask

def bind {α : Type u} (r : ShmSpscRing) (s : Segment α) : ShmSpscRing :=
  { r with valid := true, mask := (s.capacity - 1).toUInt64 }

end ShmSpscRing

section Open

variable {α : Type u} (sizeofT : UInt32)

/-- `sizeofT` is `sizeof(T)`, in the 32 bits that the header has for it. -/
def bytesNeeded (capacity : UInt32) : UInt64 :=
  kHeaderSize + capacity.toUInt64 * sizeofT.toUInt64

def precheck (m : Mapping) (capacity : UInt32) : ShmAttachStatus :=
  if m.mem = 0 then .tooSmall
  else if m.mem % kHeaderAlign ≠ 0 then .misaligned
  else if capacity < 2 ∨ capacity &&& (capacity - 1) ≠ 0 then .badCapacity
  else if m.bytes < bytesNeeded sizeofT capacity then .tooSmall
  else .ok

def create (m : Mapping) (capacity : UInt32) (s : Segment α) (out : ShmSpscRing) :
    ShmAttachStatus × Segment α × ShmSpscRing :=
  let pre := precheck sizeofT m capacity
  if pre ≠ .ok then (pre, s, out)
  else
    let h := { s with
      capacity, elemSize := sizeofT, version := kVersion, head := 0, tail := 0, magic := kMagic }
    (.ok, h, out.bind h)

/-- The next access of an `attach`. `bind` holds the capacity that has passed the
checks: the handle is bound with a second read of the field. -/
inductive Stage where
  | enter
  | readMagic
  | readVersion
  | readElemSize
  | readCapacity
  | bind (cap : UInt32)
  deriving DecidableEq, Repr

/-- Where an `attach` is after one access: before another, refused, or bound after
its checks on `cap`. -/
inductive Attach where
  | next (stage : Stage)
  | refused (status : ShmAttachStatus)
  | bound (cap : UInt32) (ring : ShmSpscRing)
  deriving DecidableEq, Repr

def attachStep (m : Mapping) (s : Segment α) (out : ShmSpscRing) : Stage → Attach
  | .enter =>
    if m.mem = 0 then .refused .tooSmall
    else if m.mem % kHeaderAlign ≠ 0 then .refused .misaligned
    else if m.bytes < kHeaderSize then .refused .tooSmall
    else .next .readMagic
  | .readMagic => if s.magic ≠ kMagic then .refused .badMagic else .next .readVersion
  | .readVersion => if s.version ≠ kVersion then .refused .badVersion else .next .readElemSize
  | .readElemSize => if s.elemSize ≠ sizeofT then .refused .badElemSize else .next .readCapacity
  | .readCapacity =>
    let cap := s.capacity
    if cap < 2 ∨ cap &&& (cap - 1) ≠ 0 then .refused .badCapacity
    else if m.bytes < bytesNeeded sizeofT cap then .refused .tooSmall
    else .next (.bind cap)
  | .bind cap => .bound cap (out.bind s)

/-- An `attach` during which nobody else writes. -/
def attach (m : Mapping) (s : Segment α) (out : ShmSpscRing) : ShmAttachStatus × ShmSpscRing :=
  if m.mem = 0 then (.tooSmall, out)
  else if m.mem % kHeaderAlign ≠ 0 then (.misaligned, out)
  else if m.bytes < kHeaderSize then (.tooSmall, out)
  else if s.magic ≠ kMagic then (.badMagic, out)
  else if s.version ≠ kVersion then (.badVersion, out)
  else if s.elemSize ≠ sizeofT then (.badElemSize, out)
  else
    let cap := s.capacity
    if cap < 2 ∨ cap &&& (cap - 1) ≠ 0 then (.badCapacity, out)
    else if m.bytes < bytesNeeded sizeofT cap then (.tooSmall, out)
    else (.ok, out.bind s)

end Open

/-! ## Whole calls -/

section Calls

variable {α : Type u}

/-- A `push` during which nobody else writes. -/
def push (r : ShmSpscRing) (s : Segment α) (value : α) : Segment α × Bool :=
  if s.head - s.tail ≥ s.capacity.toUInt64 then (s, false)
  else
    ({ s with
      slots := Function.update s.slots (r.slot s.head) value
      head := s.head + 1 }, true)

/-- A `pop` during which nobody else writes. -/
def pop (r : ShmSpscRing) (s : Segment α) : (ShmSpscRing × Segment α) × Option α :=
  if s.head = s.tail then ((r, s), none)
  else if s.head - s.tail > s.capacity.toUInt64 then
    (({ r with corruption := r.corruption + 1 }, s), none)
  else ((r, { s with tail := s.tail + 1 }), some (s.slots (r.slot s.tail)))

end Calls

/-! ## One access at a time -/

/-- Where a process stands in a call, with what it has loaded. -/
inductive Call (α : Type u) where
  | idle
  | pushHead (value : α) (head : UInt64)
  | pushLoaded (value : α) (head tail : UInt64)
  | pushChecked (value : α) (head tail : UInt64)
  | pushCopied (value : α) (head tail : UInt64)
  | popTail (tail : UInt64)
  | popLoaded (head tail : UInt64)
  | popChecked (head tail : UInt64)
  | popCopied (head tail : UInt64) (out : α)

structure Process (α : Type u) where
  ring : ShmSpscRing
  call : Call α := .idle

/-- What an idle process calls next. -/
inductive Op (α : Type u) where
  | push (value : α)
  | pop
  deriving DecidableEq, Repr

/-- What a step did that others can tell. The steps that return carry the indices
the call had loaded. -/
inductive Action (α : Type u) where
  | silent
  | wrote (slot : UInt64)
  | read (slot : UInt64)
  | pushed (head tail : UInt64) (value : α)
  | pushFull (head tail : UInt64)
  | popped (head tail : UInt64) (out : α)
  | popEmpty (head tail : UInt64)
  | popCorrupt (head tail : UInt64)
  deriving DecidableEq

section Step

variable {α : Type u}

def Process.step (p : Process α) (s : Segment α) (op : Op α) :
    (Process α × Segment α) × Action α :=
  match p.call with
  | .idle =>
    match op with
    | .push value => (({ p with call := .pushHead value s.head }, s), .silent)
    | .pop => (({ p with call := .popTail s.tail }, s), .silent)
  | .pushHead value head => (({ p with call := .pushLoaded value head s.tail }, s), .silent)
  | .pushLoaded value head tail =>
    if head - tail ≥ s.capacity.toUInt64 then (({ p with call := .idle }, s), .pushFull head tail)
    else (({ p with call := .pushChecked value head tail }, s), .silent)
  | .pushChecked value head tail =>
    (({ p with call := .pushCopied value head tail },
      { s with slots := Function.update s.slots (p.ring.slot head) value }),
      .wrote (p.ring.slot head))
  | .pushCopied value head tail =>
    (({ p with call := .idle }, { s with head := head + 1 }), .pushed head tail value)
  | .popTail tail =>
    if s.head = tail then (({ p with call := .idle }, s), .popEmpty s.head tail)
    else (({ p with call := .popLoaded s.head tail }, s), .silent)
  | .popLoaded head tail =>
    if head - tail > s.capacity.toUInt64 then
      (({ ring := { p.ring with corruption := p.ring.corruption + 1 }, call := .idle }, s),
        .popCorrupt head tail)
    else (({ p with call := .popChecked head tail }, s), .silent)
  | .popChecked head tail =>
    (({ p with call := .popCopied head tail (s.slots (p.ring.slot tail)) }, s),
      .read (p.ring.slot tail))
  | .popCopied head tail out =>
    (({ p with call := .idle }, { s with tail := tail + 1 }), .popped head tail out)

end Step

end Lloms.ShmRing
