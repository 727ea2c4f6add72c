import Mathlib.Logic.Function.Basic
import Lloms.Feed.Frame

/-! The network threads of the two feed handlers (`feed_handler_linux.cpp`,
`feed_handler_iouring_linux.cpp`) up to the point where the reader is done. What
the kernel holds for a connection is a `Socket`, and what a handler does with one
connection is a function of its socket and the handler's own record of it. The
loops run one event at a time, in any order, with bytes arriving in between; the
shutdown that follows is a fold. A push onto the ring is retried until it succeeds,
so it is modelled as done. -/
namespace Lloms.Feed

/-! ## Decoding -/

/-- The `while (buf.size() >= kFrameSize)`: the orders pushed and the bytes left.
Every round uses up bytes, so their number is enough fuel. -/
def decodeFrames : Nat → List UInt8 → List Order × List UInt8
  | 0, buf => ([], buf)
  | fuel + 1, buf =>
    if kFrameSize ≤ buf.length then
      let rest := decodeFrames fuel (buf.drop kFrameSize)
      (decode buf :: rest.1, rest.2)
    else ([], buf)

/-- Bytes read are put behind those carried over, and the whole frames decoded. -/
def takeIn (buf data : List UInt8) : List Order × List UInt8 :=
  decodeFrames (buf ++ data).length (buf ++ data)

/-! ## The kernel's side -/

def kReadSize : Nat := 4096

/-- A connection in the kernel: every byte that has arrived on it, how many of them
were read, and whether the peer has closed its side. -/
structure Socket where
  received : List UInt8 := []
  taken : Nat := 0
  hungUp : Bool := false
  deriving DecidableEq, Repr

namespace Socket

def pending (k : Socket) : List UInt8 := k.received.drop k.taken

/-- Bytes arrive, unless the peer has closed its side. -/
def arrive (k : Socket) (data : List UInt8) : Socket :=
  if k.hungUp then k else { k with received := k.received ++ data }

/-- `read` and `recv`: the first bytes that are pending, as many as fit. Nothing
stands for the end of the stream and for `EAGAIN` alike. -/
def read (k : Socket) : Socket × List UInt8 :=
  let data := k.pending.take kReadSize
  ({ k with taken := k.taken + data.length }, data)

end Socket

/-- The `while ((r = read(..)) > 0)`: the socket, the bytes carried over and the
orders pushed. Every round reads a byte, so one more than are pending is enough
fuel. -/
def readLoop : Nat → Socket → List UInt8 → Socket × List UInt8 × List Order
  | 0, k, buf => (k, buf, [])
  | fuel + 1, k, buf =>
    let r := k.read
    if r.2 = [] then (k, buf, [])
    else
      let out := takeIn buf r.2
      let rest := readLoop fuel r.1 out.2
      (rest.1, rest.2.1, out.1 ++ rest.2.2)

/-- Read a connection until nothing is pending. -/
def readAll (k : Socket) (buf : List UInt8) : Socket × List UInt8 × List Order :=
  readLoop (k.pending.length + 1) k buf

/-! ## Connections together -/

/-- Every connection's socket and the handler's record of it, and everything pushed
so far, each order with the connection it came from. -/
structure Host (κ : Type) (σ : Type) where
  sockets : κ → Socket
  conns : κ → σ
  pushed : List (κ × Order) := []

namespace Host

variable {κ : Type} [DecidableEq κ] {σ : Type}

/-- The orders pushed for one connection. -/
def pushedFor (h : Host κ σ) (c : κ) : List Order :=
  (h.pushed.filter fun p => p.1 = c).map Prod.snd

/-- Do `g` with one connection: its new socket and record, and what is pushed. -/
def on (h : Host κ σ) (c : κ) (g : Socket → σ → Socket × σ × List Order) : Host κ σ :=
  let r := g (h.sockets c) (h.conns c)
  { sockets := Function.update h.sockets c r.1
    conns := Function.update h.conns c r.2.1
    pushed := h.pushed ++ r.2.2.map fun o => (c, o) }

def arrive (h : Host κ σ) (c : κ) (data : List UInt8) : Host κ σ :=
  h.on c fun k conn => (k.arrive data, conn, [])

def hangUp (h : Host κ σ) (c : κ) : Host κ σ :=
  h.on c fun k conn => ({ k with hungUp := true }, conn, [])

end Host

/-! ## The epoll handler -/

/-- A connection as the handler knows it: still in the accept backlog, open with the
bytes carried over, or closed. -/
inductive EpollConn where
  | backlog
  | opened (buf : List UInt8)
  | closed
  deriving DecidableEq, Repr

namespace EpollConn

def accept (k : Socket) : EpollConn → Socket × EpollConn × List Order
  | .backlog => (k, .opened [], [])
  | conn => (k, conn, [])

/-- One round of the read loop. The end of the stream closes the connection. -/
def read (k : Socket) : EpollConn → Socket × EpollConn × List Order
  | .opened buf =>
    let r := k.read
    if r.2 = [] then (k, if k.hungUp then .closed else .opened buf, [])
    else
      let out := takeIn buf r.2
      (r.1, .opened out.2, out.1)
  | conn => (k, conn, [])

/-- The final drain of one connection. -/
def drain (k : Socket) : EpollConn → Socket × EpollConn × List Order
  | .opened buf =>
    let r := readAll k buf
    (r.1, .opened r.2.1, r.2.2)
  | conn => (k, conn, [])

end EpollConn

abbrev Epoll (κ : Type) := Host κ EpollConn

namespace Epoll

variable {κ : Type} [DecidableEq κ]

/-- One `read` may be followed by the arrival of more bytes, so it is an event of its
own. -/
inductive Event (κ : Type) where
  | arrive (c : κ) (data : List UInt8)
  | hangUp (c : κ)
  | accept (c : κ)
  | read (c : κ)

def start : Epoll κ := { sockets := fun _ => {}, conns := fun _ => .backlog }

def step (s : Epoll κ) : Event κ → Epoll κ
  | .arrive c data => s.arrive c data
  | .hangUp c => s.hangUp c
  | .accept c => s.on c EpollConn.accept
  | .read c => s.on c EpollConn.read

def run (events : List (Event κ)) : Epoll κ := events.foldl step start

/-- The backlog is accepted. -/
def acceptBacklog (s : Epoll κ) (backlog : List κ) : Epoll κ :=
  backlog.foldl (fun s c => s.on c EpollConn.accept) s

/-- After the loop: the backlog, then every known connection is read until nothing
is pending. -/
def shutdown (s : Epoll κ) (backlog fds : List κ) : Epoll κ :=
  fds.foldl (fun s c => s.on c EpollConn.drain) (acceptBacklog s backlog)

end Epoll

/-! ## The io_uring handler -/

/-- What a completed recv reports. -/
inductive Result where
  | data (bytes : List UInt8)
  | eof
  | again
  deriving DecidableEq, Repr

/-- The recv of a connection: none outstanding, outstanding, or completed with its
completion not yet reaped. -/
inductive Request where
  | idle
  | waiting
  | done (res : Result)
  deriving DecidableEq, Repr

inductive UringConn where
  | backlog
  | opened (buf : List UInt8) (request : Request)
  | closed
  deriving DecidableEq, Repr

namespace UringConn

/-- A new connection gets its first recv. -/
def accept (k : Socket) : UringConn → Socket × UringConn × List Order
  | .backlog => (k, .opened [] .waiting, [])
  | conn => (k, conn, [])

/-- The kernel completes an outstanding recv. -/
def complete (k : Socket) : UringConn → Socket × UringConn × List Order
  | .opened buf .waiting =>
    let r := k.read
    if r.2 = [] then (k, .opened buf (.done (if k.hungUp then .eof else .again)), [])
    else (r.1, .opened buf (.done (.data r.2)), [])
  | conn => (k, conn, [])

/-- A completion in the loop: the recv is submitted again, or the connection is
dead. -/
def reap (k : Socket) : UringConn → Socket × UringConn × List Order
  | .opened buf (.done (.data bytes)) =>
    let out := takeIn buf bytes
    (k, .opened out.2 .waiting, out.1)
  | .opened buf (.done .again) => (k, .opened buf .waiting, [])
  | .opened _ (.done .eof) => (k, .closed, [])
  | conn => (k, conn, [])

/-- A completion in the final drain: nothing is submitted again. -/
def drain (k : Socket) : UringConn → Socket × UringConn × List Order
  | .opened buf (.done (.data bytes)) =>
    let out := takeIn buf bytes
    (k, .opened out.2 .idle, out.1)
  | .opened buf (.done _) => (k, .opened buf .idle, [])
  | conn => (k, conn, [])

/-- An outstanding recv completes during the drain if there is something to report
and is then reaped. Otherwise the wait for it times out. -/
def settle (k : Socket) (conn : UringConn) : Socket × UringConn × List Order :=
  if k.pending = [] ∧ k.hungUp = false then drain k conn
  else
    let r := complete k conn
    drain r.1 r.2.1

/-- A connection that no recv was ever submitted for is read until nothing is
pending, and closed. -/
def drainLate (k : Socket) : UringConn → Socket × UringConn × List Order
  | .backlog =>
    let r := readAll k []
    (r.1, .closed, r.2.2)
  | conn => (k, conn, [])

end UringConn

/-- `acceptCqe` is the connection of an accept that has completed and is not yet
reaped. There is one accept outstanding at a time. -/
structure Uring (κ : Type) extends Host κ UringConn where
  acceptCqe : Option κ := none

namespace Uring

variable {κ : Type} [DecidableEq κ]

inductive Event (κ : Type) where
  | arrive (c : κ) (data : List UInt8)
  | hangUp (c : κ)
  | completeAccept (c : κ)
  | reapAccept
  | complete (c : κ)
  | reap (c : κ)

def start : Uring κ := { sockets := fun _ => {}, conns := fun _ => .backlog }

def completeAccept (s : Uring κ) (c : κ) : Uring κ :=
  if s.acceptCqe = none ∧ s.conns c = .backlog then { s with acceptCqe := some c } else s

/-- The accept is armed again. -/
def reapAccept (s : Uring κ) : Uring κ :=
  match s.acceptCqe with
  | some c => { toHost := s.toHost.on c UringConn.accept, acceptCqe := none }
  | none => s

def step (s : Uring κ) : Event κ → Uring κ
  | .arrive c data => { s with toHost := s.toHost.arrive c data }
  | .hangUp c => { s with toHost := s.toHost.hangUp c }
  | .completeAccept c => s.completeAccept c
  | .reapAccept => s.reapAccept
  | .complete c => { s with toHost := s.toHost.on c UringConn.complete }
  | .reap c => { s with toHost := s.toHost.on c UringConn.reap }

def run (events : List (Event κ)) : Uring κ := events.foldl step start

/-- The tag of a completion. -/
inductive Op (κ : Type) where
  | accept (c : κ)
  | recv (c : κ)

def drain (h : Host κ UringConn) : Op κ → Host κ UringConn
  | .accept c => h.on c UringConn.drainLate
  | .recv c => h.on c UringConn.settle

/-- After the loop: the completions that are still to come are reaped, then the
backlog is accepted and read. -/
def shutdown (s : Uring κ) (ops : List (Op κ)) (backlog : List κ) : Host κ UringConn :=
  backlog.foldl (fun h c => h.on c UringConn.drainLate) (ops.foldl drain s.toHost)

end Uring

end Lloms.Feed
