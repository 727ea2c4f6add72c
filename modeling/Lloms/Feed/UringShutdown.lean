import Lloms.Feed.Shutdown

/-! The io_uring handler at shutdown, against the epoll handler. Its drain reaps one
completion for each connection and submits nothing again, so what a connection has
pending behind that completion stays in the kernel. Frames are lost exactly when one
of them ends there. -/
namespace Lloms.Feed
open Lib

/-- Bytes that were read for a connection and are not yet taken in. -/
def Request.inFlight : Request → List UInt8
  | .done (.data bytes) => bytes
  | _ => []

/-- The bytes that were read are decoded, except those in flight. -/
def UringOk (v : View UringConn) : Prop :=
  v.socket.taken ≤ v.socket.received.length ∧
    match v.conn with
    | .backlog => v.socket.taken = 0 ∧ v.orders = []
    | .opened buf request =>
      (∃ s, v.socket.received.take v.socket.taken = s ++ request.inFlight ∧
        Decoded s v.orders buf) ∧
      (request = .done .eof → v.socket.hungUp = true ∧ v.socket.taken = v.socket.received.length)
    | .closed => v.socket.hungUp = true ∧ v.orders = frames v.socket.received

namespace UringOk

variable {v : View UringConn} (h : UringOk v)
include h

theorem arrive (data : List UInt8) : UringOk (v.act fun k conn => (k.arrive data, conn, [])) := by
  obtain ⟨k, conn, os⟩ := v
  obtain ⟨hk, hconn⟩ := h
  obtain ⟨htaken, hle, htake, hup⟩ := arrive_take k data hk
  refine ⟨by rwa [← htaken] at hle, ?_⟩
  simp only [View.act, List.append_nil] at hconn ⊢
  cases conn with
  | backlog => exact ⟨htaken.trans hconn.1, hconn.2⟩
  | opened buf request =>
    dsimp only at hconn ⊢
    rw [htaken, htake]
    refine ⟨hconn.1, fun heof => ?_⟩
    rw [hup (hconn.2 heof).1]
    exact hconn.2 heof
  | closed =>
    dsimp only at hconn ⊢
    rwa [hup hconn.1]

theorem hangUp : UringOk (v.act fun k conn => ({ k with hungUp := true }, conn, [])) := by
  obtain ⟨k, conn, os⟩ := v
  obtain ⟨hk, hconn⟩ := h
  refine ⟨hk, ?_⟩
  simp only [View.act, List.append_nil] at hconn ⊢
  cases conn with
  | backlog => exact hconn
  | opened buf request => exact ⟨hconn.1, fun heof => ⟨trivial, (hconn.2 heof).2⟩⟩
  | closed => exact ⟨trivial, hconn.2⟩

theorem accept : UringOk (v.act UringConn.accept) := by
  obtain ⟨k, conn, os⟩ := v
  obtain ⟨hk, hconn⟩ := h
  cases conn with
  | backlog =>
    obtain ⟨htaken, hnil⟩ : k.taken = 0 ∧ os = [] := hconn
    refine ⟨hk, ?_⟩
    simp only [View.act, UringConn.accept, htaken, hnil]
    exact ⟨⟨[], rfl, decoded_nil⟩, by simp⟩
  | opened buf request => exact ⟨hk, by simpa [View.act, UringConn.accept] using hconn⟩
  | closed => exact ⟨hk, by simpa [View.act, UringConn.accept] using hconn⟩

theorem complete : UringOk (v.act UringConn.complete) := by
  obtain ⟨k, conn, os⟩ := v
  obtain ⟨hk, hconn⟩ := h
  cases conn with
  | backlog => exact ⟨hk, by simpa [View.act, UringConn.complete] using hconn⟩
  | closed => exact ⟨hk, by simpa [View.act, UringConn.complete] using hconn⟩
  | opened buf request =>
    cases request with
    | idle => exact ⟨hk, by simpa [View.act, UringConn.complete] using hconn⟩
    | done res => exact ⟨hk, by simpa [View.act, UringConn.complete] using hconn⟩
    | waiting =>
      obtain ⟨⟨s, hs, hdec⟩, -⟩ := hconn
      simp only [Request.inFlight, List.append_nil] at hs
      by_cases hnil : k.read.2 = []
      · have htaken := Socket.taken_of_pending hk (Socket.read_eq_nil.mp hnil)
        by_cases hup : k.hungUp = true
        · have heq : (View.mk k (.opened buf .waiting) os).act UringConn.complete =
              ⟨k, .opened buf (.done .eof), os⟩ := by
            simp [View.act, UringConn.complete, hnil, hup]
          rw [heq]
          exact ⟨hk, ⟨s, by simpa [Request.inFlight] using hs, hdec⟩, fun _ => ⟨hup, htaken⟩⟩
        · have heq : (View.mk k (.opened buf .waiting) os).act UringConn.complete =
              ⟨k, .opened buf (.done .again), os⟩ := by
            simp [View.act, UringConn.complete, hnil, hup]
          rw [heq]
          exact ⟨hk, ⟨s, by simpa [Request.inFlight] using hs, hdec⟩, by simp⟩
      · have heq : (View.mk k (.opened buf .waiting) os).act UringConn.complete =
            ⟨k.read.1, .opened buf (.done (.data k.read.2)), os⟩ := by
          simp [View.act, UringConn.complete, hnil]
        rw [heq]
        refine ⟨Socket.taken_read hk, ⟨s, ?_, hdec⟩, by simp⟩
        rw [← hs]
        exact k.take_read

theorem reap : UringOk (v.act UringConn.reap) := by
  obtain ⟨k, conn, os⟩ := v
  obtain ⟨hk, hconn⟩ := h
  cases conn with
  | backlog => exact ⟨hk, by simpa [View.act, UringConn.reap] using hconn⟩
  | closed => exact ⟨hk, by simpa [View.act, UringConn.reap] using hconn⟩
  | opened buf request =>
    cases request with
    | idle => exact ⟨hk, by simpa [View.act, UringConn.reap] using hconn⟩
    | waiting => exact ⟨hk, by simpa [View.act, UringConn.reap] using hconn⟩
    | done res =>
      obtain ⟨⟨s, hs, hdec⟩, hend⟩ := hconn
      cases res with
      | data bytes =>
        refine ⟨hk, ⟨s ++ bytes, ?_, hdec.takeIn bytes⟩, by simp [View.act, UringConn.reap]⟩
        simpa [View.act, UringConn.reap, Request.inFlight] using hs
      | again =>
        simp only [Request.inFlight, List.append_nil] at hs
        have heq : (View.mk k (.opened buf (.done .again)) os).act UringConn.reap =
            ⟨k, .opened buf .waiting, os⟩ := by simp [View.act, UringConn.reap]
        rw [heq]
        exact ⟨hk, ⟨s, by simpa [Request.inFlight] using hs, hdec⟩, by simp⟩
      | eof =>
        simp only [Request.inFlight, List.append_nil] at hs
        obtain ⟨hup, htaken⟩ := hend rfl
        have heq : (View.mk k (.opened buf (.done .eof)) os).act UringConn.reap =
            ⟨k, .closed, os⟩ := by simp [View.act, UringConn.reap]
        rw [heq]
        rw [show k.taken = k.received.length from htaken, List.take_length] at hs
        exact ⟨hk, hup, by rw [hs]; exact hdec.orders_eq⟩

end UringOk

/-! ## One completion -/

/-- The bytes that stay in the kernel once the one completion of a connection is
reaped: all that are pending if it has completed before, else those past the first
read. -/
def Request.unread (k : Socket) : Request → Nat
  | .waiting => k.pending.length - kReadSize
  | _ => k.pending.length

/-- No frame ends in the bytes that stay in the kernel. -/
def EndsInTime (k : Socket) (request : Request) : Prop :=
  (k.received.length - request.unread k) / kFrameSize = k.received.length / kFrameSize

section Settling

variable {k : Socket} {buf : List UInt8} {request : Request} {os : List Order}

theorem settle_of_ne (h : request ≠ .waiting) :
    UringConn.settle k (.opened buf request) = UringConn.drain k (.opened buf request) := by
  cases request with
  | waiting => exact absurd rfl h
  | idle => simp [UringConn.settle, UringConn.complete]
  | done res => simp [UringConn.settle, UringConn.complete]

/-- Where a connection stands after the drain: it is open, and no recv of it can
complete any more. -/
structure Settles (k : Socket) (v : View UringConn) : Prop where
  opened : ∃ buf request, v.conn = .opened buf request
  received : v.socket.received = k.received
  again : v.act UringConn.settle = v

theorem Settles.drainLate {v : View UringConn} (h : Settles k v) :
    v.act UringConn.drainLate = v := by
  obtain ⟨buf, request, hopen⟩ := h.opened
  obtain ⟨k, conn, os⟩ := v
  obtain rfl : conn = .opened buf request := hopen
  simp [View.act, UringConn.drainLate]

theorem settles_idle {k' : Socket} (hk : k'.received = k.received) :
    Settles k ⟨k', .opened buf .idle, os⟩ where
  opened := ⟨_, _, rfl⟩
  received := hk
  again := by simp [View.act, settle_of_ne, UringConn.drain]

/-- A recv that has completed, or is not there: its bytes are taken in. -/
theorem UringOk.settle_done (h : UringOk ⟨k, .opened buf request, os⟩) (hne : request ≠ .waiting) :
    Settles k (View.act UringConn.settle ⟨k, .opened buf request, os⟩) ∧
      (View.act UringConn.settle ⟨k, .opened buf request, os⟩).orders =
        frames (k.received.take k.taken) := by
  obtain ⟨-, ⟨s, hs, hdec⟩, -⟩ := h
  dsimp only at hs hdec
  rw [View.act, settle_of_ne hne]
  cases request with
  | waiting => exact absurd rfl hne
  | idle =>
    simp only [Request.inFlight, List.append_nil] at hs
    simp only [UringConn.drain, List.append_nil]
    exact ⟨settles_idle rfl, by rw [hs, hdec.orders_eq]⟩
  | done res =>
    cases res with
    | data bytes =>
      simp only [Request.inFlight] at hs
      simp only [UringConn.drain]
      exact ⟨settles_idle rfl, by rw [hs]; exact (hdec.takeIn bytes).orders_eq⟩
    | eof | again =>
      simp only [Request.inFlight, List.append_nil] at hs
      simp only [UringConn.drain, List.append_nil]
      exact ⟨settles_idle rfl, by rw [hs, hdec.orders_eq]⟩

/-- A recv that is outstanding: it reads once, if there is something to read. -/
theorem UringOk.settle_waiting (h : UringOk ⟨k, .opened buf .waiting, os⟩) :
    Settles k (View.act UringConn.settle ⟨k, .opened buf .waiting, os⟩) ∧
      (View.act UringConn.settle ⟨k, .opened buf .waiting, os⟩).orders =
        frames (k.received.take k.read.1.taken) := by
  obtain ⟨-, ⟨s, hs, hdec⟩, -⟩ := h
  dsimp only at hs hdec
  simp only [Request.inFlight, List.append_nil] at hs
  by_cases hidle : k.pending = [] ∧ k.hungUp = false
  · have heq : View.act UringConn.settle ⟨k, .opened buf .waiting, os⟩ =
        ⟨k, .opened buf .waiting, os⟩ := by
      simp [View.act, UringConn.settle, hidle, UringConn.drain]
    rw [heq, k.take_read, Socket.read_eq_nil.mpr hidle.1, List.append_nil, hs]
    exact ⟨⟨⟨_, _, rfl⟩, rfl, heq⟩, hdec.orders_eq⟩
  -- the kernel completes it, and the completion is reaped
  · by_cases hnil : k.read.2 = []
    · have hup : k.hungUp = true := by
        by_contra hup
        exact hidle ⟨Socket.read_eq_nil.mp hnil, by simpa using hup⟩
      have heq : View.act UringConn.settle ⟨k, .opened buf .waiting, os⟩ =
          ⟨k, .opened buf .idle, os⟩ := by
        simp [View.act, UringConn.settle, UringConn.complete, hnil, hup, UringConn.drain]
      rw [heq, k.take_read, hnil, List.append_nil, hs]
      exact ⟨settles_idle rfl, hdec.orders_eq⟩
    · have heq : View.act UringConn.settle ⟨k, .opened buf .waiting, os⟩ =
          ⟨k.read.1, .opened (takeIn buf k.read.2).2 .idle, os ++ (takeIn buf k.read.2).1⟩ := by
        simp [View.act, UringConn.settle, UringConn.complete, hidle, hnil, UringConn.drain]
      rw [heq, k.take_read, hs]
      exact ⟨settles_idle rfl, (hdec.takeIn _).orders_eq⟩

/-- The drain pushes the frames of what was read and of one completion. -/
theorem UringOk.settle (h : UringOk ⟨k, .opened buf request, os⟩) :
    Settles k (View.act UringConn.settle ⟨k, .opened buf request, os⟩) ∧
      (View.act UringConn.settle ⟨k, .opened buf request, os⟩).orders =
        frames (k.received.take (k.received.length - request.unread k)) := by
  have hk : k.taken ≤ k.received.length := h.1
  have hlen : k.pending.length = k.received.length - k.taken := List.length_drop
  by_cases hw : request = .waiting
  · subst hw
    have hread : k.read.1.taken = k.received.length - Request.unread k .waiting := by
      simp only [Socket.read, Request.unread, List.length_take, hlen]
      omega
    rw [← hread]
    exact h.settle_waiting
  · have hall : Request.unread k request = k.pending.length := by
      cases request with
      | waiting => exact absurd rfl hw
      | idle => rfl
      | done res => rfl
    rw [hall, show k.received.length - k.pending.length = k.taken by omega]
    exact h.settle_done hw

end Settling

/-! ## The whole shutdown -/

namespace Uring

variable {κ : Type} [DecidableEq κ]

theorem step_ok {s : Uring κ} (h : s.toHost.All UringOk) (e : Event κ) :
    (step s e).toHost.All UringOk := by
  cases e with
  | arrive c data => exact h.on c fun v hv => hv.arrive data
  | hangUp c => exact h.on c fun v hv => hv.hangUp
  | completeAccept c =>
    simp only [step, completeAccept]
    split_ifs
    · exact h
    · exact h
  | reapAccept =>
    simp only [step, reapAccept]
    cases s.acceptCqe with
    | none => exact h
    | some c => exact h.on c fun v hv => hv.accept
  | complete c => exact h.on c fun v hv => hv.complete
  | reap c => exact h.on c fun v hv => hv.reap

theorem run_ok (events : List (Event κ)) : (run events).toHost.All UringOk := by
  have hfold : ∀ (s : Uring κ), s.toHost.All UringOk → (events.foldl step s).toHost.All UringOk := by
    induction events with
    | nil => exact fun s hs => hs
    | cons e events ih => exact fun s hs => ih _ (step_ok hs e)
  exact hfold start fun c => ⟨Nat.le_refl _, rfl, rfl⟩

/-- The two lists of a shutdown are complete: the recv of every open connection is
waited for, and every connection that has sent something before it got a recv is
read. A drain that ends early is not: a wait that fails by anything but its timeout, such
as a second signal, breaks out of it with requests still outstanding. -/
structure Complete (s : Uring κ) (ops : List (Op κ)) (backlog : List κ) : Prop where
  reaped : ∀ c buf request, s.conns c = .opened buf request → Op.recv c ∈ ops
  accepted : ∀ c, s.conns c = .backlog → (s.sockets c).received ≠ [] →
    Op.accept c ∈ ops ∨ c ∈ backlog

def Op.conn : Op κ → κ
  | .accept c => c
  | .recv c => c

def Op.action : Op κ → Socket → UringConn → Socket × UringConn × List Order
  | .accept _ => UringConn.drainLate
  | .recv _ => UringConn.settle

theorem drain_eq (h : Host κ UringConn) (op : Op κ) : drain h op = h.on op.conn op.action := by
  cases op <;> rfl

theorem drainLate_drainLate (v : View UringConn) :
    (v.act UringConn.drainLate).act UringConn.drainLate = v.act UringConn.drainLate := by
  obtain ⟨k, conn, os⟩ := v
  cases conn <;> simp [View.act, UringConn.drainLate]

section Final

variable (c : κ)

/-- An operation of the drain, seen from one connection. -/
def seen (v : View UringConn) (op : Op κ) : View UringConn :=
  if op.conn = c then v.act op.action else v

/-- The view after the shutdown: the completions, then the backlog. -/
theorem view_shutdown (s : Uring κ) (ops : List (Op κ)) (backlog : List κ) :
    (shutdown s ops backlog).view c =
      let v := ops.foldl (seen c) (s.toHost.view c)
      if c ∈ backlog then v.act UringConn.drainLate else v := by
  have hops : ops.foldl drain s.toHost = ops.foldl (fun h op => h.on op.conn op.action) s.toHost := by
    congr 1
    funext h op
    exact drain_eq h op
  rw [shutdown, Host.view_foldl_on backlog _ c (drainLate_drainLate _), hops, Host.view_foldl]
  rfl

theorem seen_opened {k : Socket} {v : View UringConn} (h : Settles k v) (op : Op κ) :
    seen c v op = v := by
  unfold seen
  split_ifs
  · cases op with
    | recv d => exact h.again
    | accept d => exact h.drainLate
  · rfl

/-- An open connection takes in one completion. -/
theorem foldl_opened {k : Socket} {buf : List UInt8} {request : Request} {os : List Order}
    (h : UringOk ⟨k, .opened buf request, os⟩) {ops : List (Op κ)} (hmem : Op.recv c ∈ ops) :
    ops.foldl (seen c) ⟨k, .opened buf request, os⟩ =
      View.act UringConn.settle ⟨k, .opened buf request, os⟩ := by
  have hhit : seen c ⟨k, .opened buf request, os⟩ (.recv c) =
      View.act UringConn.settle ⟨k, .opened buf request, os⟩ := if_pos rfl
  refine foldl_once (fun op => ?_) (fun op => seen_opened c h.settle.1 op) hhit hmem
  unfold seen
  split_ifs
  · cases op with
    | recv d => exact .inr rfl
    | accept d => exact .inl (by simp [View.act, Op.action, UringConn.drainLate])
  · exact .inl rfl

theorem seen_closed (k : Socket) (os : List Order) (op : Op κ) :
    seen c ⟨k, .closed, os⟩ op = ⟨k, .closed, os⟩ := by
  unfold seen
  split_ifs
  · cases op with
    | recv d => simp [View.act, Op.action, UringConn.settle, UringConn.complete, UringConn.drain]
    | accept d => simp [View.act, Op.action, UringConn.drainLate]
  · rfl

theorem seen_backlog (k : Socket) (os : List Order) (op : Op κ) :
    seen c ⟨k, .backlog, os⟩ op = ⟨k, .backlog, os⟩ ∨
      seen c ⟨k, .backlog, os⟩ op = View.act UringConn.drainLate ⟨k, .backlog, os⟩ := by
  unfold seen
  split_ifs
  · cases op with
    | recv d =>
      exact .inl (by simp [View.act, Op.action, UringConn.settle, UringConn.complete,
        UringConn.drain])
    | accept d => exact .inr rfl
  · exact .inl rfl

theorem drainLate_backlog {k : Socket} {os : List Order} (h : UringOk ⟨k, .backlog, os⟩) :
    View.act UringConn.drainLate ⟨k, .backlog, os⟩ =
      ⟨{ k with taken := k.received.length }, .closed, frames k.received⟩ := by
  obtain ⟨hk, htaken, hnil⟩ : k.taken ≤ k.received.length ∧ k.taken = 0 ∧ os = [] := h
  have hdec : Decoded (k.received.take k.taken) os [] := by
    rw [htaken, hnil]
    exact decoded_nil
  obtain ⟨hsock, hall⟩ := readAll_spec hk hdec
  simp only [View.act, UringConn.drainLate, hsock, hall.orders_eq]

/-- A connection that never got a recv is read to its end, or has nothing to read. -/
theorem foldl_backlog {k : Socket} {os : List Order} (h : UringOk ⟨k, .backlog, os⟩)
    {ops : List (Op κ)} {backlog : List κ}
    (hlate : k.received ≠ [] → Op.accept c ∈ ops ∨ c ∈ backlog) :
    let v := ops.foldl (seen c) ⟨k, .backlog, os⟩
    let v := if c ∈ backlog then v.act UringConn.drainLate else v
    v.orders = frames v.socket.received := by
  have hread := drainLate_backlog h
  have hend : ∀ op, seen c (View.act UringConn.drainLate ⟨k, .backlog, os⟩) op =
      View.act UringConn.drainLate ⟨k, .backlog, os⟩ := by
    rw [hread]
    exact seen_closed c _ _
  have hhit : seen c ⟨k, .backlog, os⟩ (.accept c) =
      View.act UringConn.drainLate ⟨k, .backlog, os⟩ := if_pos rfl
  dsimp only
  split_ifs with hmem
  · rcases foldl_two (seen_backlog c k os) hend ops with hv | hv
    · rw [hv, hread]
    · rw [hv, drainLate_drainLate, hread]
  · by_cases hnil : k.received = []
    · rcases foldl_two (seen_backlog c k os) hend ops with hv | hv
      · rw [hv, hnil]
        exact h.2.2
      · rw [hv, hread]
    · have haccept := (hlate hnil).resolve_right hmem
      rw [foldl_once (seen_backlog c k os) hend hhit haccept, hread]

/-- What the shutdown makes of one connection. -/
theorem exact_iff {v : View UringConn} (h : UringOk v) {ops : List (Op κ)} {backlog : List κ}
    (hrecv : ∀ buf request, v.conn = .opened buf request → Op.recv c ∈ ops)
    (hlate : v.conn = .backlog → v.socket.received ≠ [] → Op.accept c ∈ ops ∨ c ∈ backlog) :
    (let v' := ops.foldl (seen c) v
      let v' := if c ∈ backlog then v'.act UringConn.drainLate else v'
      v'.orders = frames v'.socket.received) ↔
    ∀ buf request, v.conn = .opened buf request → EndsInTime v.socket request := by
  obtain ⟨k, conn, os⟩ := v
  cases conn with
  | backlog => exact iff_of_true (foldl_backlog c h (hlate rfl)) fun _ _ hopen => by cases hopen
  | closed =>
    have hlast : View.act UringConn.drainLate ⟨k, .closed, os⟩ = ⟨k, .closed, os⟩ := by
      simp [View.act, UringConn.drainLate]
    dsimp only
    rw [List.foldl_fixed' (seen_closed c k os), hlast, ite_self]
    exact iff_of_true h.2.2 fun _ _ hopen => by cases hopen
  | opened buf request =>
    obtain ⟨hsettles, horders⟩ := h.settle
    dsimp only
    rw [foldl_opened c h (hrecv buf request rfl), hsettles.drainLate, ite_self, horders, hsettles.received,
      frames_take_iff, List.length_take, Nat.min_eq_left (Nat.sub_le _ _)]
    constructor
    · intro hends buf' request' hopen
      cases hopen
      exact hends
    · intro hends
      exact hends buf request rfl

end Final

/-- Nothing is lost in the io_uring handler's shutdown exactly when, for every open
connection, no frame ends behind its one completion. -/
theorem shutdown_exact_iff (events : List (Event κ)) {ops : List (Op κ)} {backlog : List κ}
    (h : Complete (run events) ops backlog) :
    Exact (shutdown (run events) ops backlog) ↔
      ∀ c buf request, (run events).conns c = .opened buf request →
        EndsInTime ((run events).sockets c) request := by
  apply forall_congr'
  intro c
  have hview := view_shutdown c (run events) ops backlog
  have hiff := exact_iff c (run_ok events c) (h.reaped c) (h.accepted c)
  dsimp only at hview hiff
  rw [← hview] at hiff
  exact hiff

end Uring

/-- When the reader is done the epoll handler has pushed every frame that arrived,
in every run. The io_uring handler has exactly when, at the end of its loop, no
connection has a frame that ends behind the completion of its one recv. -/
theorem readers_exact_iff {κ : Type} [DecidableEq κ] (epoll : List (Epoll.Event κ))
    {backlog fds : List κ} (hepoll : Epoll.Complete (Epoll.run epoll) backlog fds)
    (uring : List (Uring.Event κ)) {ops : List (Uring.Op κ)} {late : List κ}
    (huring : Uring.Complete (Uring.run uring) ops late) :
    Exact (Epoll.shutdown (Epoll.run epoll) backlog fds) ∧
      (Exact (Uring.shutdown (Uring.run uring) ops late) ↔
        ∀ c buf request, (Uring.run uring).conns c = .opened buf request →
          EndsInTime ((Uring.run uring).sockets c) request) :=
  ⟨Epoll.shutdown_exact epoll hepoll, Uring.shutdown_exact_iff uring huring⟩

/-- One connection is accepted, and two frames arrive, the second one while the
first has been read. -/
def epollFrames : List (Epoll.Event Unit) :=
  [.accept (), .arrive () (makeFrame 0).bytes, .read (), .arrive () (makeFrame 1).bytes]

def uringFrames : List (Uring.Event Unit) :=
  [.completeAccept (), .reapAccept, .arrive () (makeFrame 0).bytes, .complete (),
    .arrive () (makeFrame 1).bytes]

theorem readers_exact_iff_twoFrames :
    Exact (Epoll.shutdown (Epoll.run epollFrames) [] [()]) ∧
      (Exact (Uring.shutdown (Uring.run uringFrames) [.recv ()] []) ↔
        ∀ c buf request, (Uring.run uringFrames).conns c = .opened buf request →
          EndsInTime ((Uring.run uringFrames).sockets c) request) := by
  apply readers_exact_iff
  · refine ⟨fun c hback => ?_, fun c _ _ => by simp⟩
    have hopen : (Epoll.run epollFrames).conns c ≠ .backlog := by cases c; decide
    exact absurd hback hopen
  · refine ⟨fun c _ _ _ => by simp, fun c hback => ?_⟩
    have hopen : (Uring.run uringFrames).conns c ≠ .backlog := by cases c; decide
    exact absurd hback hopen

/-- The second frame is in the kernel when the completion of the first one is reaped,
and is not read any more. -/
theorem uring_loses_frame :
    (Uring.shutdown (Uring.run uringFrames) [.recv ()] []).pushedFor () = [loadOrder 0] ∧
      frames ((Uring.shutdown (Uring.run uringFrames) [.recv ()] []).sockets ()).received =
        [loadOrder 0, loadOrder 1] ∧
      ¬ Exact (Uring.shutdown (Uring.run uringFrames) [.recv ()] []) := by
  have hpushed : (Uring.shutdown (Uring.run uringFrames) [.recv ()] []).pushedFor () =
      [loadOrder 0] := by decide +kernel
  have hframes :
      frames ((Uring.shutdown (Uring.run uringFrames) [.recv ()] []).sockets ()).received =
        [loadOrder 0, loadOrder 1] := by decide +kernel
  refine ⟨hpushed, hframes, fun hexact => ?_⟩
  have hlen := congrArg List.length (hexact ())
  rw [hpushed, hframes] at hlen
  cases hlen

end Lloms.Feed
