import Lloms.Lib.Machine
import Lloms.Feed.Handler

/-! What the handlers have pushed when the reader is done. Orders and carried-over
bytes are functions of the bytes taken in, however they were cut (`Decoded`), and
each handler keeps that for every connection. The epoll drain leaves nothing
pending. The io_uring drain takes in one completion for each connection. -/
namespace Lloms.Feed
open Lib

/-! ## Frames of a byte string -/

/-- The consecutive 24-byte frames of a byte string, decoded. -/
def frames (s : List UInt8) : List Order :=
  (List.range (s.length / kFrameSize)).map fun i =>
    decode ((s.drop (kFrameSize * i)).take kFrameSize)

/-- The bytes behind the last whole frame. -/
def leftover (s : List UInt8) : List UInt8 := s.drop (kFrameSize * (s.length / kFrameSize))

theorem memcpy_append {s : List UInt8} (t : List UInt8) {off n : Nat} (h : off + n ≤ s.length) :
    memcpy (s ++ t) off n = memcpy s off n := by
  rw [memcpy, memcpy, List.drop_append_of_le_length (by omega),
    List.take_append_of_le_length (by rw [List.length_drop]; omega)]

/-- `decode` reads one frame. -/
theorem decode_append {s : List UInt8} (t : List UInt8) (h : kFrameSize ≤ s.length) :
    decode (s ++ t) = decode s := by
  have h24 : 24 ≤ s.length := h
  have hget : ∀ {i : Nat}, i < 24 → (s ++ t).getD i 0 = s.getD i 0 := fun hi => by
    rw [List.getD_eq_getElem?_getD, List.getD_eq_getElem?_getD, List.getElem?_append_left (by omega)]
  simp only [decode, memcpy_append t (show 0 + 4 ≤ s.length by omega),
    memcpy_append t (show 8 + 8 ≤ s.length by omega),
    memcpy_append t (show 16 + 8 ≤ s.length by omega), hget (show 4 < 24 by omega),
    hget (show 5 < 24 by omega)]

theorem decode_take {s : List UInt8} (h : kFrameSize ≤ s.length) :
    decode (s.take kFrameSize) = decode s := by
  have hlen : kFrameSize ≤ (s.take kFrameSize).length := by
    rw [List.length_take]
    omega
  rw [← decode_append (s.drop kFrameSize) hlen, List.take_append_drop]

theorem frames_of_lt {s : List UInt8} (h : s.length < kFrameSize) :
    frames s = [] ∧ leftover s = s := by
  have hdiv : s.length / kFrameSize = 0 := Nat.div_eq_of_lt h
  rw [frames, leftover, hdiv]
  exact ⟨rfl, rfl⟩

theorem frames_of_le {s : List UInt8} (h : kFrameSize ≤ s.length) :
    frames s = decode s :: frames (s.drop kFrameSize) ∧
      leftover s = leftover (s.drop kFrameSize) := by
  have hpos : 0 < kFrameSize := by decide
  have hdiv : s.length / kFrameSize = (s.drop kFrameSize).length / kFrameSize + 1 := by
    rw [List.length_drop, Nat.div_eq_sub_div hpos h]
  constructor
  · rw [frames, hdiv, List.range_succ_eq_map, List.map_cons, List.map_map, frames]
    congr 1
    · rw [Nat.mul_zero, List.drop_zero, decode_take h]
    · apply List.map_congr_left
      intro i _
      rw [Function.comp_apply, List.drop_drop, Nat.mul_succ, Nat.add_comm]
  · rw [leftover, leftover, hdiv, List.drop_drop, Nat.mul_succ, Nat.add_comm]

/-- Induction over the whole frames of a byte string. -/
theorem frame_induction {P : List UInt8 → Prop} (hshort : ∀ s, s.length < kFrameSize → P s)
    (hlong : ∀ s, kFrameSize ≤ s.length → P (s.drop kFrameSize) → P s) (s : List UInt8) : P s := by
  have hpos : 0 < kFrameSize := by decide
  induction hn : s.length using Nat.strong_induction_on generalizing s with
  | _ n ih =>
    by_cases h : s.length < kFrameSize
    · exact hshort s h
    · refine hlong s (Nat.not_lt.1 h) (ih (s.drop kFrameSize).length ?_ _ rfl)
      rw [List.length_drop]
      omega

/-- Frames are cut off from the front, so what was carried over is all that later
bytes need. -/
theorem frames_append (s t : List UInt8) :
    frames (s ++ t) = frames s ++ frames (leftover s ++ t) ∧
      leftover (s ++ t) = leftover (leftover s ++ t) := by
  induction s using frame_induction with
  | hshort s h =>
    obtain ⟨hframes, hleft⟩ := frames_of_lt h
    rw [hframes, hleft]
    exact ⟨rfl, rfl⟩
  | hlong s h ih =>
    obtain ⟨hframes, hleft⟩ := frames_of_le h
    have hlong : kFrameSize ≤ (s ++ t).length := by
      rw [List.length_append]
      omega
    obtain ⟨hframes', hleft'⟩ := frames_of_le hlong
    rw [hframes', hleft', hframes, hleft, List.drop_append_of_le_length h, decode_append t h]
    exact ⟨by rw [ih.1, List.cons_append], ih.2⟩

theorem decodeFrames_eq (fuel : Nat) (buf : List UInt8) (h : buf.length ≤ fuel) :
    decodeFrames fuel buf = (frames buf, leftover buf) := by
  induction fuel generalizing buf with
  | zero =>
    obtain rfl : buf = [] := List.length_eq_zero_iff.mp (by omega)
    rfl
  | succ fuel ih =>
    rw [decodeFrames]
    split_ifs with hlen
    · have hpos : 0 < kFrameSize := by decide
      obtain ⟨hframes, hleft⟩ := frames_of_le hlen
      rw [ih _ (by rw [List.length_drop]; omega), hframes, hleft]
    · obtain ⟨hframes, hleft⟩ := frames_of_lt (Nat.not_le.1 hlen)
      rw [hframes, hleft]

theorem takeIn_eq (buf data : List UInt8) :
    takeIn buf data = (frames (buf ++ data), leftover (buf ++ data)) :=
  decodeFrames_eq _ _ le_rfl

/-- A string has the frames of a first part of it exactly when no frame ends in the
rest. -/
theorem frames_take_iff (s : List UInt8) (n : Nat) :
    frames (s.take n) = frames s ↔ (s.take n).length / kFrameSize = s.length / kFrameSize := by
  constructor
  · intro h
    have hlen := congrArg List.length h
    simpa [frames] using hlen
  · intro h
    have hsplit := (frames_append (s.take n) (s.drop n)).1
    rw [List.take_append_drop] at hsplit
    have hlen := congrArg List.length hsplit
    have hnone : frames (leftover (s.take n) ++ s.drop n) = [] := by
      apply List.length_eq_zero_iff.mp
      have h1 : (frames s).length = s.length / kFrameSize := by simp [frames]
      have h2 : (frames (s.take n)).length = (s.take n).length / kFrameSize := by simp [frames]
      rw [List.length_append, h1, h2] at hlen
      omega
    rw [hsplit, hnone, List.append_nil]

/-! ## Reading one connection -/

/-- The orders pushed and the bytes carried over are those of the bytes `s`. -/
structure Decoded (s : List UInt8) (orders : List Order) (buf : List UInt8) : Prop where
  orders_eq : orders = frames s
  buf_eq : buf = leftover s

theorem decoded_nil : Decoded [] [] [] := ⟨rfl, rfl⟩

theorem Decoded.takeIn {s : List UInt8} {orders : List Order} {buf : List UInt8}
    (h : Decoded s orders buf) (data : List UInt8) :
    Decoded (s ++ data) (orders ++ (takeIn buf data).1) (takeIn buf data).2 := by
  obtain ⟨hframes, hleft⟩ := frames_append s data
  rw [takeIn_eq]
  exact ⟨by rw [hframes, h.orders_eq, h.buf_eq], by rw [hleft, h.buf_eq]⟩

namespace Socket

theorem read_pending (k : Socket) : k.read.1.pending = k.pending.drop kReadSize := by
  simp only [read, pending, List.length_take, List.length_drop, ← List.drop_drop]
  rcases Nat.le_total kReadSize (k.received.length - k.taken) with h | h
  · rw [Nat.min_eq_left h]
  · rw [Nat.min_eq_right h, List.drop_of_length_le (by simp), List.drop_of_length_le (by simpa using h)]

/-- What was taken and what one read takes are a first part of what was received. -/
theorem take_read (k : Socket) :
    k.received.take k.read.1.taken = k.received.take k.taken ++ k.read.2 := by
  simp only [read, pending]
  rw [List.take_add, List.length_take, ← List.take_eq_take_min]

theorem read_eq_nil {k : Socket} : k.read.2 = [] ↔ k.pending = [] := by
  have hpos : kReadSize ≠ 0 := by decide
  simp [read, List.take_eq_nil_iff, hpos]

theorem taken_read {k : Socket} (h : k.taken ≤ k.received.length) :
    k.read.1.taken ≤ k.received.length := by
  simp only [read, pending, List.length_take, List.length_drop]
  omega

theorem taken_of_pending {k : Socket} (h : k.taken ≤ k.received.length) (hp : k.pending = []) :
    k.taken = k.received.length := by
  have hlen := List.drop_eq_nil_iff.mp hp
  omega

end Socket

/-- The read loop takes in all that is pending. -/
theorem readLoop_spec (fuel : Nat) {k : Socket} {orders : List Order} {buf : List UInt8}
    (hfuel : k.pending.length < fuel) (hk : k.taken ≤ k.received.length)
    (h : Decoded (k.received.take k.taken) orders buf) :
    (readLoop fuel k buf).1 = { k with taken := k.received.length } ∧
      Decoded k.received (orders ++ (readLoop fuel k buf).2.2) (readLoop fuel k buf).2.1 := by
  induction fuel generalizing k orders buf with
  | zero => omega
  | succ fuel ih =>
    rw [readLoop]
    dsimp only
    split_ifs with hnil
    · have htaken := Socket.taken_of_pending hk (Socket.read_eq_nil.mp hnil)
      rw [htaken, List.take_length] at h
      refine ⟨?_, by rwa [List.append_nil]⟩
      rw [← htaken]
    · have hpend : k.pending ≠ [] := fun hp => hnil (Socket.read_eq_nil.mpr hp)
      have hless : k.read.1.pending.length < fuel := by
        have hpos := List.length_pos_of_ne_nil hpend
        have hsize : 0 < kReadSize := by decide
        rw [Socket.read_pending, List.length_drop]
        omega
      have hnext := h.takeIn k.read.2
      rw [← Socket.take_read] at hnext
      obtain ⟨hsock, hdec⟩ := ih hless (Socket.taken_read hk) hnext
      refine ⟨hsock, ?_⟩
      rw [← List.append_assoc]
      exact hdec

theorem readAll_spec {k : Socket} {orders : List Order} {buf : List UInt8}
    (hk : k.taken ≤ k.received.length) (h : Decoded (k.received.take k.taken) orders buf) :
    (readAll k buf).1 = { k with taken := k.received.length } ∧
      Decoded k.received (orders ++ (readAll k buf).2.2) (readAll k buf).2.1 :=
  readLoop_spec _ (Nat.lt_succ_self _) hk h

theorem readAll_of_pending {k : Socket} (h : k.pending = []) (buf : List UInt8) :
    readAll k buf = (k, buf, []) := by
  rw [readAll, readLoop]
  dsimp only
  rw [if_pos (Socket.read_eq_nil.mpr h)]

/-! ## One connection among others -/

/-- What concerns one connection. -/
structure View (σ : Type) where
  socket : Socket
  conn : σ
  orders : List Order

section Views

variable {κ : Type} [DecidableEq κ] {σ : Type}

def View.act (g : Socket → σ → Socket × σ × List Order) (v : View σ) : View σ where
  socket := (g v.socket v.conn).1
  conn := (g v.socket v.conn).2.1
  orders := v.orders ++ (g v.socket v.conn).2.2

def Host.view (h : Host κ σ) (c : κ) : View σ := ⟨h.sockets c, h.conns c, h.pushedFor c⟩

/-- What is done with one connection does not touch another. -/
theorem Host.view_on (h : Host κ σ) (c d : κ) (g : Socket → σ → Socket × σ × List Order) :
    (h.on d g).view c = if d = c then (h.view c).act g else h.view c := by
  by_cases hd : d = c
  · subst hd
    have hall : ∀ os : List Order,
        (((os.map fun o => (d, o)).filter fun p => p.1 = d).map Prod.snd) = os := by
      intro os
      induction os with
      | nil => rfl
      | cons o os ih => simpa using ih
    simp [view, on, View.act, pushedFor, hall]
  · have hnone : ∀ os : List Order,
        (((os.map fun o => (d, o)).filter fun p => p.1 = c).map Prod.snd) = [] := by
      intro os
      induction os with
      | nil => rfl
      | cons o os ih => simp [hd]
    simp [view, on, pushedFor, hd, hnone, Function.update_of_ne (Ne.symm hd)]

/-- A fold over connections, seen from one of them. -/
theorem Host.view_foldl {ο : Type} (conn : ο → κ)
    (g : ο → Socket → σ → Socket × σ × List Order) (ops : List ο) (h : Host κ σ) (c : κ) :
    (ops.foldl (fun h o => h.on (conn o) (g o)) h).view c =
      ops.foldl (fun v o => if conn o = c then v.act (g o) else v) (h.view c) := by
  induction ops generalizing h with
  | nil => rfl
  | cons o ops ih => rw [List.foldl_cons, List.foldl_cons, ih, view_on]

/-- A fold of one idempotent action over some connections. -/
theorem Host.view_foldl_on {g : Socket → σ → Socket × σ × List Order} (cs : List κ) (h : Host κ σ)
    (c : κ) (hidem : ((h.view c).act g).act g = (h.view c).act g) :
    (cs.foldl (fun h c => h.on c g) h).view c =
      if c ∈ cs then (h.view c).act g else h.view c := by
  induction cs generalizing h with
  | nil => rfl
  | cons d cs ih =>
    have hview := h.view_on c d g
    by_cases hd : d = c
    · rw [if_pos hd] at hview
      rw [List.foldl_cons, ih _ (by rw [hview, hidem, hidem]), hview, hidem, ite_self,
        if_pos (by simp [hd])]
    · rw [if_neg hd] at hview
      rw [List.foldl_cons, ih _ (by rw [hview, hidem]), hview]
      simp [Ne.symm hd]

/-- A property of single connections that holds of all of them. -/
def Host.All (I : View σ → Prop) (h : Host κ σ) : Prop := ∀ c, I (h.view c)

theorem Host.All.on {I : View σ → Prop} {h : Host κ σ} (hall : h.All I) (d : κ)
    {g : Socket → σ → Socket × σ × List Order} (hg : ∀ v, I v → I (v.act g)) : (h.on d g).All I := by
  intro c
  rw [view_on]
  split_ifs
  · exact hg _ (hall c)
  · exact hall c

end Views

/-- Every order of every frame that arrived was pushed, and nothing else. -/
def Exact {κ σ : Type} [DecidableEq κ] (h : Host κ σ) : Prop :=
  ∀ c, h.pushedFor c = frames (h.sockets c).received

/-! ## The epoll handler -/

/-- The part of a stream that was read is decoded, and a connection is closed only
at its end. -/
def EpollOk (v : View EpollConn) : Prop :=
  v.socket.taken ≤ v.socket.received.length ∧
    match v.conn with
    | .backlog => v.socket.taken = 0 ∧ v.orders = []
    | .opened buf => Decoded (v.socket.received.take v.socket.taken) v.orders buf
    | .closed => v.socket.hungUp = true ∧ v.orders = frames v.socket.received

theorem arrive_take (k : Socket) (data : List UInt8) (hk : k.taken ≤ k.received.length) :
    (k.arrive data).taken = k.taken ∧ k.taken ≤ (k.arrive data).received.length ∧
      (k.arrive data).received.take k.taken = k.received.take k.taken ∧
      (k.hungUp = true → k.arrive data = k) := by
  unfold Socket.arrive
  split_ifs with h
  · exact ⟨rfl, hk, rfl, fun _ => rfl⟩
  · refine ⟨rfl, ?_, List.take_append_of_le_length hk, fun hup => absurd hup h⟩
    simp only [List.length_append]
    omega

namespace EpollOk

variable {v : View EpollConn} (h : EpollOk v)
include h

theorem arrive (data : List UInt8) : EpollOk (v.act fun k conn => (k.arrive data, conn, [])) := by
  obtain ⟨k, conn, os⟩ := v
  obtain ⟨hk, hconn⟩ := h
  obtain ⟨htaken, hle, htake, hup⟩ := arrive_take k data hk
  refine ⟨by rwa [← htaken] at hle, ?_⟩
  simp only [View.act, List.append_nil] at hconn ⊢
  cases conn with
  | backlog => exact ⟨htaken.trans hconn.1, hconn.2⟩
  | opened buf =>
    dsimp only at hconn ⊢
    rwa [htaken, htake]
  | closed =>
    dsimp only at hconn ⊢
    rwa [hup hconn.1]

theorem hangUp : EpollOk (v.act fun k conn => ({ k with hungUp := true }, conn, [])) := by
  obtain ⟨k, conn, os⟩ := v
  obtain ⟨hk, hconn⟩ := h
  refine ⟨hk, ?_⟩
  simp only [View.act, List.append_nil] at hconn ⊢
  cases conn with
  | backlog => exact hconn
  | opened buf => exact hconn
  | closed => exact ⟨trivial, hconn.2⟩

theorem accept : EpollOk (v.act EpollConn.accept) := by
  obtain ⟨k, conn, os⟩ := v
  obtain ⟨hk, hconn⟩ := h
  cases conn with
  | backlog =>
    obtain ⟨htaken, hnil⟩ : k.taken = 0 ∧ os = [] := hconn
    refine ⟨hk, ?_⟩
    simp only [View.act, EpollConn.accept, htaken, hnil]
    exact decoded_nil
  | opened buf => exact ⟨hk, by simpa [View.act, EpollConn.accept] using hconn⟩
  | closed => exact ⟨hk, by simpa [View.act, EpollConn.accept] using hconn⟩

theorem read : EpollOk (v.act EpollConn.read) := by
  obtain ⟨k, conn, os⟩ := v
  obtain ⟨hk, hconn⟩ := h
  cases conn with
  | backlog => exact ⟨hk, by simpa [View.act, EpollConn.read] using hconn⟩
  | closed => exact ⟨hk, by simpa [View.act, EpollConn.read] using hconn⟩
  | opened buf =>
    have hdec : Decoded (k.received.take k.taken) os buf := hconn
    by_cases hnil : k.read.2 = []
    · have htaken := Socket.taken_of_pending hk (Socket.read_eq_nil.mp hnil)
      by_cases hup : k.hungUp = true
      · have heq : (View.mk k (.opened buf) os).act EpollConn.read = ⟨k, .closed, os⟩ := by
          simp [View.act, EpollConn.read, hnil, hup]
        rw [heq]
        rw [htaken, List.take_length] at hdec
        exact ⟨hk, hup, hdec.orders_eq⟩
      · have heq : (View.mk k (.opened buf) os).act EpollConn.read = ⟨k, .opened buf, os⟩ := by
          simp [View.act, EpollConn.read, hnil, hup]
        rw [heq]
        exact ⟨hk, hdec⟩
    · have heq : (View.mk k (.opened buf) os).act EpollConn.read =
          ⟨k.read.1, .opened (takeIn buf k.read.2).2, os ++ (takeIn buf k.read.2).1⟩ := by
        simp [View.act, EpollConn.read, hnil]
      have hnext := hdec.takeIn k.read.2
      rw [← Socket.take_read] at hnext
      rw [heq]
      exact ⟨Socket.taken_read hk, hnext⟩

/-- A drained connection has pushed all its frames, and draining it again changes
nothing. -/
theorem drain (hback : v.conn = .backlog → v.socket.received = []) :
    (v.act EpollConn.drain).act EpollConn.drain = v.act EpollConn.drain ∧
      (v.act EpollConn.drain).orders = frames (v.act EpollConn.drain).socket.received ∧
      ((∀ buf, v.conn ≠ .opened buf) → v.orders = frames v.socket.received) := by
  obtain ⟨k, conn, os⟩ := v
  cases conn with
  | opened buf =>
    obtain ⟨hsock, hdec⟩ := readAll_spec h.1 h.2
    have heq : (View.mk k (.opened buf) os).act EpollConn.drain =
        ⟨{ k with taken := k.received.length }, .opened (readAll k buf).2.1,
          frames k.received⟩ := by
      simp only [View.act, EpollConn.drain, hsock, hdec.orders_eq]
    have hnone : Socket.pending { k with taken := k.received.length } = [] := List.drop_length
    rw [heq]
    refine ⟨?_, rfl, fun hnot => absurd rfl (hnot buf)⟩
    simp only [View.act, EpollConn.drain, readAll_of_pending hnone, List.append_nil]
  | closed =>
    have heq : (View.mk k .closed os).act EpollConn.drain = ⟨k, .closed, os⟩ := by
      simp [View.act, EpollConn.drain]
    rw [heq]
    exact ⟨heq, h.2.2, fun _ => h.2.2⟩
  | backlog =>
    have heq : (View.mk k .backlog os).act EpollConn.drain = ⟨k, .backlog, os⟩ := by
      simp [View.act, EpollConn.drain]
    have hnil : os = frames k.received := by
      have hreceived : k.received = [] := hback rfl
      rw [hreceived]
      exact h.2.2
    rw [heq]
    exact ⟨heq, hnil, fun _ => hnil⟩

end EpollOk

namespace Epoll

variable {κ : Type} [DecidableEq κ]

theorem step_ok {s : Epoll κ} (h : Host.All EpollOk s) (e : Event κ) :
    Host.All EpollOk (step s e) := by
  cases e with
  | arrive c data => exact h.on c fun v hv => hv.arrive data
  | hangUp c => exact h.on c fun v hv => hv.hangUp
  | accept c => exact h.on c fun v hv => hv.accept
  | read c => exact h.on c fun v hv => hv.read

theorem run_ok (events : List (Event κ)) : Host.All EpollOk (run events) := by
  have hfold : ∀ (s : Epoll κ), Host.All EpollOk s → Host.All EpollOk (events.foldl step s) := by
    induction events with
    | nil => exact fun s hs => hs
    | cons e events ih => exact fun s hs => ih _ (step_ok hs e)
  exact hfold start fun c => ⟨Nat.le_refl _, rfl, rfl⟩

/-- The two lists of a shutdown are complete: every connection in the backlog that
has sent something is accepted, and every open one is drained. -/
structure Complete (s : Epoll κ) (backlog fds : List κ) : Prop where
  accepted : ∀ c, s.conns c = .backlog → (s.sockets c).received ≠ [] → c ∈ backlog
  visited : ∀ c buf, (acceptBacklog s backlog).conns c = .opened buf → c ∈ fds

theorem accept_accept (v : View EpollConn) :
    (v.act EpollConn.accept).act EpollConn.accept = v.act EpollConn.accept := by
  obtain ⟨k, conn, os⟩ := v
  cases conn <;> simp [View.act, EpollConn.accept]

/-- The epoll handler pushes every frame, whatever was pending when its loop ended. -/
theorem shutdown_exact (events : List (Event κ)) {backlog fds : List κ}
    (h : Complete (run events) backlog fds) : Exact (shutdown (run events) backlog fds) := by
  intro c
  have hok := run_ok events c
  have hacc : (acceptBacklog (run events) backlog).view c = _ :=
    Host.view_foldl_on backlog _ c (accept_accept _)
  have hok' : EpollOk ((acceptBacklog (run events) backlog).view c) := by
    rw [hacc]
    split_ifs
    · exact hok.accept
    · exact hok
  have hback : ((acceptBacklog (run events) backlog).view c).conn = .backlog →
      ((acceptBacklog (run events) backlog).view c).socket.received = [] := by
    rw [hacc]
    split_ifs with hmem
    · -- what was accepted is not in the backlog
      intro hconn
      generalize (run events).view c = v at hconn
      obtain ⟨k, conn, os⟩ := v
      cases conn <;> simp [View.act, EpollConn.accept] at hconn
    · intro hconn
      by_contra hne
      exact hmem (h.accepted c hconn hne)
  obtain ⟨hidem, hdrained, hother⟩ := hok'.drain hback
  have hview : (shutdown (run events) backlog fds).view c = _ :=
    Host.view_foldl_on fds _ c hidem
  change ((shutdown (run events) backlog fds).view c).orders =
    frames ((shutdown (run events) backlog fds).view c).socket.received
  rw [hview]
  split_ifs with hmem
  · exact hdrained
  · exact hother fun buf hconn => hmem (h.visited c buf hconn)

end Epoll

end Lloms.Feed
