import Mathlib.Logic.Function.Basic
import Lloms.Lib.Machine
import Lloms.Lib.Holdings
import Lloms.Feed.Shutdown

/-! The io_uring loop with its memory. A `Conn` must live as long as a recv into its
buffer may complete, an `Op` from its submission to its completion, and the submission
queue must have room for what is submitted between two calls of `io_uring_submit`. The
kernel completes requests in any order and takes what it likes of the queue. Whatever
would be undefined behaviour is a `Fault`. -/
namespace Lloms.Feed.UringLoop
open Lib

/-- Heap objects are told apart by the order of their allocation: memory that is used
again is not the old object. -/
abbrev Ptr := Nat

def kQueueDepth : Nat := 256
def kRecvBufSize : Nat := 4096

def EINTR : Int := 4
def EAGAIN : Int := 11

structure Conn where
  fd : Int
  partialBytes : List UInt8 := []
  buf : List UInt8 := List.replicate kRecvBufSize 0
  deriving DecidableEq, Repr

inductive OpKind where
  | accept
  | recv
  deriving DecidableEq, Repr

/-- `conn` is null for an accept. -/
structure Op where
  kind : OpKind
  conn : Option Ptr
  deriving DecidableEq, Repr

/-- What the kernel is asked for. A recv is into the buffer of the `Conn` at `buf`. -/
inductive Wanted where
  | accept
  | recv (fd : Int) (buf : Ptr)
  deriving DecidableEq, Repr

/-- `data` is the tag: the `Op`. -/
structure Sqe where
  wanted : Wanted
  data : Ptr
  deriving DecidableEq, Repr

structure Cqe where
  data : Ptr
  res : Int
  deriving DecidableEq, Repr

inductive Fault where
  | nullSqe
  | deadOp
  | deadConn
  | deadBuffer
  | outOfBuffer
  | badClose
  deriving DecidableEq, Repr

/-- Where `main` is: about to wait, about to peek for another completion, in the final
drain, or past it. -/
inductive Stage where
  | waiting
  | peeking
  | draining
  | closed
  deriving DecidableEq, Repr

/-- `conns` is the map, `connAt` and `opAt` are the heap. `sq` is filled and not yet
taken by the kernel, `flight` is with the kernel, `cq` is completed and not yet seen.
`opened` are the descriptors of accepted connections. -/
structure Loop where
  conns : List (Int × Ptr) := []
  connAt : Ptr → Option Conn := fun _ => none
  opAt : Ptr → Option Op := fun _ => none
  fresh : Ptr := 0
  sq : List Sqe := []
  flight : List Sqe := []
  cq : List Cqe := []
  opened : Int → Bool := fun _ => false
  stage : Stage := .waiting

namespace Loop

/-! ## The helpers -/

/-- `io_uring_get_sqe`, the tag and its `Op`. A full queue has no entry to give. -/
def submit (s : Loop) (wanted : Wanted) (op : Op) : Except Fault Loop :=
  if s.sq.length ≥ kQueueDepth then .error .nullSqe
  else
    .ok { s with
      opAt := Function.update s.opAt s.fresh (some op), fresh := s.fresh + 1
      sq := s.sq ++ [⟨wanted, s.fresh⟩] }

def submitAccept (s : Loop) : Except Fault Loop := s.submit .accept ⟨.accept, none⟩

def submitRecv (s : Loop) (p : Ptr) : Except Fault Loop :=
  match s.connAt p with
  | none => .error .deadConn
  | some c => s.submit (.recv c.fd p) ⟨.recv, some p⟩

/-- A new `Conn` goes into the map. `emplace` leaves a map that has the descriptor as it
is, and the new `Conn` is freed. -/
def emplace (s : Loop) (fd : Int) : Loop × Ptr :=
  if s.conns.any fun e => e.1 = fd then ({ s with fresh := s.fresh + 1 }, s.fresh)
  else
    ({ s with
      conns := s.conns ++ [(fd, s.fresh)]
      connAt := Function.update s.connAt s.fresh (some { fd }), fresh := s.fresh + 1 }, s.fresh)

def closeFd (s : Loop) (fd : Int) : Except Fault Loop :=
  if s.opened fd then .ok { s with opened := Function.update s.opened fd false }
  else .error .badClose

/-- `conns.erase(fd)` frees the `Conn` of the entry. -/
def erase (s : Loop) (fd : Int) : Loop :=
  { s with
    conns := s.conns.filter fun e => e.1 ≠ fd
    connAt := fun p => if (fd, p) ∈ s.conns then none else s.connAt p }

/-! ## Completions -/

inductive Did where
  | quiet
  | delivered (p : Ptr) (bytes : List UInt8)
  | pushed (p : Ptr) (orders : List Order)
  | late (orders : List Order)
  | fault (f : Fault)
  deriving DecidableEq

/-- The bytes that a recv has put into the buffer are decoded as far as they go. -/
def takeData (s : Loop) (p : Ptr) (res : Int) : Except Fault (Loop × List Order) :=
  match s.connAt p with
  | none => .error .deadConn
  | some c =>
    if res > kRecvBufSize then .error .outOfBuffer
    else
      let r := takeIn c.partialBytes (c.buf.take res.toNat)
      .ok ({ s with
        connAt := Function.update s.connAt p (some { c with partialBytes := r.2 }) }, r.1)

def reapAccept (s : Loop) (res : Int) : Except Fault Loop :=
  if res ≥ 0 then
    let r := s.emplace res
    (r.1.submitRecv r.2).bind submitAccept
  else s.submitAccept

def reapRecv (s : Loop) (p : Ptr) (res : Int) : Except Fault (Loop × List Order) :=
  if res > 0 then
    (s.takeData p res).bind fun r => (r.1.submitRecv p).map fun s => (s, r.2)
  else if res = -EAGAIN ∨ res = -EINTR then (s.submitRecv p).map fun s => (s, [])
  else
    match s.connAt p with
    | none => .error .deadConn
    | some c => (s.closeFd c.fd).map fun s => (s.erase c.fd, [])

/-- `delete op` and `io_uring_cqe_seen`. -/
def seen (s : Loop) (e : Cqe) : Loop :=
  { s with opAt := Function.update s.opAt e.data none, cq := s.cq.tail }

/-- A completion in the loop. -/
def reap (s : Loop) (e : Cqe) : Except Fault (Loop × Did) :=
  match s.opAt e.data with
  | none => .error .deadOp
  | some ⟨.accept, _⟩ => (s.reapAccept e.res).map fun s => (s.seen e, .quiet)
  | some ⟨.recv, none⟩ => .error .deadConn
  | some ⟨.recv, some p⟩ => (s.reapRecv p e.res).map fun r => (r.1.seen e, .pushed p r.2)

/-- The reads of a connection that was accepted too late for a recv of its own. -/
def lateOrders (late : List UInt8) : List (List UInt8) → List Order
  | [] => []
  | bytes :: rest =>
    let r := takeIn late bytes
    r.1 ++ lateOrders r.2 rest

/-- A completion in the final drain: nothing is submitted again. -/
def drain (s : Loop) (e : Cqe) (reads : List (List UInt8)) : Except Fault (Loop × Did) :=
  match s.opAt e.data with
  | none => .error .deadOp
  | some ⟨.accept, _⟩ =>
    if e.res ≥ 0 then
      (s.closeFd e.res).map fun s => (s.seen e, .late (lateOrders [] reads))
    else .ok (s.seen e, .quiet)
  | some ⟨.recv, none⟩ => if e.res > 0 then .error .deadConn else .ok (s.seen e, .quiet)
  | some ⟨.recv, some p⟩ =>
    if e.res > 0 then (s.takeData p e.res).map fun r => (r.1.seen e, .pushed p r.2)
    else .ok (s.seen e, .quiet)

/-! ## The kernel and the loop -/

/-- What the kernel answers a request with. -/
inductive Reply where
  | accepted (fd : Nat)
  | data (bytes : List UInt8)
  | failed (errno : Nat)
  deriving DecidableEq, Repr

/-- A request completes. The kernel accepts no descriptor that is open, and receives no
more than the buffer holds; no bytes are the end of the stream. -/
def complete (s : Loop) (e : Sqe) (reply : Reply) : Loop × Did :=
  match e.wanted, reply with
  | .accept, .accepted fd =>
    if s.opened fd then ({ s with cq := s.cq ++ [⟨e.data, -24⟩] }, .quiet)
    else
      ({ s with cq := s.cq ++ [⟨e.data, fd⟩], opened := Function.update s.opened fd true }, .quiet)
  | .recv _ p, .data bytes =>
    let data := bytes.take kRecvBufSize
    match s.connAt p with
    | none => (s, .fault .deadBuffer)
    | some c =>
      ({ s with
        connAt := Function.update s.connAt p (some { c with buf := data ++ c.buf.drop data.length })
        cq := s.cq ++ [⟨e.data, data.length⟩] }, .delivered p data)
  | _, .failed errno => ({ s with cq := s.cq ++ [⟨e.data, -(errno + 1)⟩] }, .quiet)
  | _, _ => ({ s with cq := s.cq ++ [⟨e.data, -22⟩] }, .quiet)

/-- The kernel completes request `i` of those it has; or the loop goes on, where
`sees` tells whether it notices a completion, `taken` how much of the queue a submit
takes, and `reads` what a late connection has to say; or the loop is told to stop; or
the descriptors are closed at the end. -/
inductive Input where
  | complete (i : Nat) (reply : Reply)
  | turn (sees : Bool) (taken : Nat) (reads : List (List UInt8))
  | stop
  | finish
  deriving DecidableEq, Repr

/-- A `Fault` ends the run: the state is no longer that of the program. -/
def orFault (s : Loop) (stage : Stage) : Except Fault (Loop × Did) → Loop × Did
  | .error f => (s, .fault f)
  | .ok r => ({ r.1 with stage }, r.2)

/-- `io_uring_submit` -/
def ioUringSubmit (s : Loop) (taken : Nat) : Loop :=
  { s with sq := s.sq.drop taken, flight := s.flight ++ s.sq.take taken, stage := .waiting }

def turn (s : Loop) (sees : Bool) (taken : Nat) (reads : List (List UInt8)) : Loop × Did :=
  match s.stage, if sees then s.cq.head? else none with
  | .waiting, none => (s, .quiet)
  | .waiting, some e | .peeking, some e => s.orFault .peeking (s.reap e)
  | .peeking, none => (s.ioUringSubmit taken, .quiet)
  | .draining, none => (s, .quiet)
  | .draining, some e => s.orFault .draining (s.drain e reads)
  | .closed, _ => (s, .quiet)

/-- `for (auto& [fd, c] : conns) ::close(fd)` -/
def closeAll (s : Loop) : List (Int × Ptr) → Except Fault Loop
  | [] => .ok s
  | e :: rest => (s.closeFd e.1).bind fun s => closeAll s rest

def step (s : Loop) : Input → Loop × Did
  | .complete i reply =>
    match s.flight[i]? with
    | none => (s, .quiet)
    | some e => complete { s with flight := s.flight.eraseIdx i } e reply
  | .turn sees taken reads => s.turn sees taken reads
  | .stop => if s.stage = .waiting then ({ s with stage := .draining }, .quiet) else (s, .quiet)
  | .finish =>
    if s.stage = .draining then
      s.orFault .closed ((s.closeAll s.conns).map fun s => (s, .quiet))
    else (s, .quiet)

/-- The first accept is in the queue, and is submitted next. -/
def start : Loop :=
  { opAt := Function.update (fun _ => none) 0 (some ⟨.accept, none⟩), fresh := 1
    sq := [⟨.accept, 0⟩], stage := .peeking }

end Loop

end Lloms.Feed.UringLoop
