import Mathlib.Logic.Function.Basic
import Mathlib.Order.Lattice
import Lloms.Lib.Machine
import Lloms.Lib.Holdings

/-! The owner of a shared-memory segment (`posix_shm.cpp`). `create` and
`open_existing` take a descriptor and a mapping, `create` also a name; `close`, which
the destructor and the move assignment call, gives them back. Here any number of
processes do so, one system call a step, and the kernel may refuse what it likes. -/
namespace Lloms.PosixShm
open Lib

/-- A segment, by the order in which `shm_open` made them. -/
abbrev Seg := Nat

/-- A variable of type `PosixSharedMemory`. -/
abbrev Var := Nat

abbrev Pid := Nat

/-- `addr` is the address of the mapping, 0 for `nullptr`. -/
structure PosixSharedMemory where
  addr : UInt64 := 0
  size : UInt64 := 0
  fd : Int := -1
  owner : Bool := false
  name : String := ""
  error : String := ""
  deriving DecidableEq, Repr

namespace PosixSharedMemory

def valid (x : PosixSharedMemory) : Prop := x.addr ≠ 0

/-- What a move leaves behind. Of the strings the language promises nothing. -/
def movedFrom (_ : PosixSharedMemory) (name error : String) : PosixSharedMemory :=
  { addr := 0, size := 0, fd := -1, owner := false, name, error }

end PosixSharedMemory

/-! ## The kernel -/

/-- What the processes share: the names, the size of each segment and how many were
made so far. -/
structure Kernel where
  names : String → Option Seg
  sizes : Seg → UInt64
  made : Nat

/-- What `close` does next when it is done. -/
inductive After where
  | done
  | destroy
  | assign (src : Var) (name error : String)
  deriving DecidableEq, Repr

/-- The next system call of a process. -/
inductive Pc where
  | idle
  | createOpen (v : Var) (name : String) (bytes : UInt64)
  | createTruncate (v : Var) (name : String) (bytes : UInt64) (fd : Int)
  | createMap (v : Var) (name : String) (bytes : UInt64) (fd : Int)
  | createClose (v : Var) (name error : String) (fd : Int)
  | createUnlink (v : Var) (name error : String)
  | existingOpen (v : Var) (name : String) (bytes : UInt64)
  | existingStat (v : Var) (name : String) (bytes : UInt64) (fd : Int)
  | existingMap (v : Var) (name : String) (bytes : UInt64) (fd : Int)
  | existingClose (v : Var) (name error : String) (fd : Int)
  | closeMap (v : Var) (after : After)
  | closeFd (v : Var) (after : After)
  | closeName (v : Var) (after : After)
  deriving DecidableEq, Repr

/-- A process: its variables, where it stands, and what the kernel has open and mapped
for it. A mapping is filed under its address, with its length. -/
structure Proc where
  vars : Var → Option PosixSharedMemory := fun _ => none
  pc : Pc := .idle
  fds : Int → Option Seg := fun _ => none
  maps : UInt64 → Option (UInt64 × Seg) := fun _ => none

/-- What the kernel would answer: it refuses, with an `errno`, or proposes a number for
what is asked. -/
inductive Reply where
  | refused (errno : Nat)
  | granted (n : Nat)
  deriving DecidableEq, Repr

def Reply.errno : Reply → Nat
  | .refused errno => errno
  | .granted errno => errno

def MAP_FAILED : UInt64 := 0xFFFFFFFFFFFFFFFF

section Syscalls

variable (k : Kernel) (q : Proc)

/-- `shm_open(name, O_CREAT | O_EXCL | O_RDWR)`: no empty name, no name that exists, and
no descriptor that is open. -/
def shmOpenNew (name : String) : Reply → (Kernel × Proc) × Int
  | .refused _ => ((k, q), -1)
  | .granted n =>
    if name = "" ∨ k.names name ≠ none ∨ q.fds n ≠ none then ((k, q), -1)
    else
      (({ names := Function.update k.names name (some k.made)
          sizes := Function.update k.sizes k.made 0, made := k.made + 1 },
        { q with fds := Function.update q.fds n (some k.made) }), n)

/-- `shm_open(name, O_RDWR)` -/
def shmOpen (name : String) : Reply → Proc × Int
  | .refused _ => (q, -1)
  | .granted n =>
    match k.names name with
    | none => (q, -1)
    | some seg =>
      if q.fds n ≠ none then (q, -1)
      else ({ q with fds := Function.update q.fds n (some seg) }, n)

/-- `ftruncate(fd, static_cast<off_t>(bytes))`: `off_t` is signed. -/
def ftruncate (fd : Int) (bytes : UInt64) : Reply → Kernel × Int
  | .refused _ => (k, -1)
  | .granted _ =>
    match q.fds fd with
    | none => (k, -1)
    | some seg =>
      if bytes.toInt64 < 0 then (k, -1)
      else ({ k with sizes := Function.update k.sizes seg bytes }, 0)

/-- `fstat`: the size of the segment. -/
def fstat (fd : Int) : Reply → Option UInt64
  | .refused _ => none
  | .granted _ => (q.fds fd).map k.sizes

/-- `mmap(nullptr, bytes, …, fd, 0)`, at an address where nothing is mapped. -/
def mmap (fd : Int) (bytes : UInt64) : Reply → Proc × UInt64
  | .refused _ => (q, MAP_FAILED)
  | .granted n =>
    match q.fds fd with
    | none => (q, MAP_FAILED)
    | some seg =>
      if UInt64.ofNat n = 0 ∨ UInt64.ofNat n = MAP_FAILED ∨ q.maps (UInt64.ofNat n) ≠ none then
        (q, MAP_FAILED)
      else
        ({ q with maps := Function.update q.maps (UInt64.ofNat n) (some (bytes, seg)) },
          UInt64.ofNat n)

def munmap (addr : UInt64) : Proc := { q with maps := Function.update q.maps addr none }

def close (fd : Int) : Proc := { q with fds := Function.update q.fds fd none }

def shmUnlink (name : String) : Kernel := { k with names := Function.update k.names name none }

end Syscalls

/-- The system calls that were made, as far as they name something of the caller's. -/
inductive Syscall where
  | ftruncate (fd : Int)
  | fstat (fd : Int)
  | mmap (fd : Int)
  | munmap (addr size : UInt64)
  | close (fd : Int)
  | shmUnlink (name : String)
  deriving DecidableEq, Repr

/-! ## The class -/

/-- What a process calls next. The two strings of a move are what the source of the
move is left with. -/
inductive Op where
  | construct (v : Var)
  | create (v : Var) (name : String) (bytes : UInt64)
  | openExisting (v : Var) (name : String) (bytes : UInt64)
  | moveConstruct (v src : Var) (name error : String)
  | moveAssign (v src : Var) (name error : String)
  | close (v : Var)
  | destroy (v : Var)
  deriving DecidableEq, Repr

section Class

variable (strerror : Nat → String)

def errnoText (what : String) (reply : Reply) : String := what ++ ": " ++ strerror reply.errno

/-- The result of a call is there, and the call is over. -/
def Proc.result (q : Proc) (v : Var) (x : PosixSharedMemory) : Proc :=
  { q with vars := Function.update q.vars v (some x), pc := .idle }

/-- The fields of `src` go to `v`. -/
def Proc.move (q : Proc) (v src : Var) (name error : String) : Proc :=
  match q.vars src with
  | none => { q with pc := .idle }
  | some x =>
    { q with
      vars := Function.update (Function.update q.vars src (some (x.movedFrom name error))) v (some x)
      pc := .idle }

/-- `close` has returned. -/
def Proc.finish (q : Proc) (v : Var) : After → Proc
  | .done => { q with pc := .idle }
  | .destroy => { q with vars := Function.update q.vars v none, pc := .idle }
  | .assign src name error => q.move v src name error

/-- A call begins. Only an object that exists can be used, and only one that does not
can be constructed. -/
def Proc.call (q : Proc) (op : Op) : Proc :=
  if q.pc ≠ .idle then q
  else
    match op with
    | .construct v => if q.vars v = none then q.result v {} else q
    | .create v name bytes =>
      if q.vars v ≠ none then q
      else if bytes = 0 then q.result v { name, error := "requested size is zero" }
      else { q with pc := .createOpen v name bytes }
    | .openExisting v name bytes =>
      if q.vars v ≠ none then q
      else if bytes = 0 then q.result v { name, error := "requested size is zero" }
      else { q with pc := .existingOpen v name bytes }
    | .moveConstruct v src name error =>
      if q.vars v = none ∧ q.vars src ≠ none then q.move v src name error else q
    | .moveAssign v src name error =>
      if q.vars v ≠ none ∧ q.vars src ≠ none ∧ v ≠ src then
        { q with pc := .closeMap v (.assign src name error) }
      else q
    | .close v => if q.vars v = none then q else { q with pc := .closeMap v .done }
    | .destroy v => if q.vars v = none then q else { q with pc := .closeMap v .destroy }

/-- One system call of a process, with what the code does around it. -/
def Proc.turn (k : Kernel) (q : Proc) (reply : Reply) : (Kernel × Proc) × Option Syscall :=
  match q.pc with
  | .idle => ((k, q), none)
  | .createOpen v name bytes =>
    let r := shmOpenNew k q name reply
    if r.2 < 0 then
      ((r.1.1, r.1.2.result v
        { name, error := errnoText strerror "shm_open(O_CREAT|O_EXCL)" reply }), none)
    else ((r.1.1, { r.1.2 with pc := .createTruncate v name bytes r.2 }), none)
  | .createTruncate v name bytes fd =>
    let r := ftruncate k q fd bytes reply
    if r.2 ≠ 0 then
      ((r.1, { q with pc := .createClose v name (errnoText strerror "ftruncate" reply) fd }),
        some (.ftruncate fd))
    else ((r.1, { q with pc := .createMap v name bytes fd }), some (.ftruncate fd))
  | .createMap v name bytes fd =>
    let r := mmap q fd bytes reply
    if r.2 = MAP_FAILED then
      ((k, { r.1 with pc := .createClose v name (errnoText strerror "mmap" reply) fd }),
        some (.mmap fd))
    else
      ((k, r.1.result v { addr := r.2, size := bytes, fd, owner := true, name }),
        some (.mmap fd))
  | .createClose v name error fd =>
    ((k, { close q fd with pc := .createUnlink v name error }), some (.close fd))
  | .createUnlink v name error =>
    ((shmUnlink k name, q.result v { name, error }), some (.shmUnlink name))
  | .existingOpen v name bytes =>
    let r := shmOpen k q name reply
    if r.2 < 0 then
      ((k, r.1.result v { name, error := errnoText strerror "shm_open" reply }), none)
    else ((k, { r.1 with pc := .existingStat v name bytes r.2 }), none)
  | .existingStat v name bytes fd =>
    match fstat k q fd reply with
    | none =>
      ((k, { q with pc := .existingClose v name (errnoText strerror "fstat" reply) fd }),
        some (.fstat fd))
    | some size =>
      if size < bytes then
        ((k, { q with
            pc := .existingClose v name "segment is smaller than requested mapping" fd }),
          some (.fstat fd))
      else ((k, { q with pc := .existingMap v name bytes fd }), some (.fstat fd))
  | .existingMap v name bytes fd =>
    let r := mmap q fd bytes reply
    if r.2 = MAP_FAILED then
      ((k, { r.1 with pc := .existingClose v name (errnoText strerror "mmap" reply) fd }),
        some (.mmap fd))
    else
      ((k, r.1.result v { addr := r.2, size := bytes, fd, owner := false, name }),
        some (.mmap fd))
  | .existingClose v name error fd =>
    ((k, (close q fd).result v { name, error }), some (.close fd))
  | .closeMap v after =>
    match q.vars v with
    | none => ((k, { q with pc := .idle }), none)
    | some x =>
      if x.addr ≠ 0 then
        ((k, { munmap q x.addr with
            vars := Function.update q.vars v (some { x with addr := 0 }), pc := .closeFd v after }),
          some (.munmap x.addr x.size))
      else ((k, { q with pc := .closeFd v after }), none)
  | .closeFd v after =>
    match q.vars v with
    | none => ((k, { q with pc := .idle }), none)
    | some x =>
      if x.fd ≥ 0 then
        ((k, { close q x.fd with
            vars := Function.update q.vars v (some { x with fd := -1 }), pc := .closeName v after }),
          some (.close x.fd))
      else ((k, { q with pc := .closeName v after }), none)
  | .closeName v after =>
    match q.vars v with
    | none => ((k, { q with pc := .idle }), none)
    | some x =>
      -- only the creator removes the name
      if x.owner ∧ x.name ≠ "" then
        ((shmUnlink k x.name,
          { q with vars := Function.update q.vars v (some { x with owner := false, size := 0 }) }.finish
            v after),
          some (.shmUnlink x.name))
      else
        ((k, { q with vars := Function.update q.vars v (some { x with size := 0 }) }.finish v after),
          none)

end Class

/-! ## All processes -/

structure World where
  kernel : Kernel
  procs : Pid → Proc := fun _ => {}

/-- A process calls a member function, makes its next system call or dies; somebody
calls the static `unlink`. -/
inductive Input where
  | call (p : Pid) (op : Op)
  | turn (p : Pid) (reply : Reply)
  | die (p : Pid)
  | unlink (name : String)
  deriving DecidableEq, Repr

def World.set (w : World) (p : Pid) (r : Kernel × Proc) : World :=
  { kernel := r.1, procs := Function.update w.procs p r.2 }

def World.step (strerror : Nat → String) (w : World) : Input → World × Option Syscall
  | .call p op => (w.set p (w.kernel, (w.procs p).call op), none)
  | .turn p reply =>
    let r := (w.procs p).turn strerror w.kernel reply
    (w.set p r.1, r.2)
  -- the kernel closes and unmaps; the names stay
  | .die p => (w.set p (w.kernel, {}), none)
  | .unlink name => ({ w with kernel := shmUnlink w.kernel name }, none)

end Lloms.PosixShm
