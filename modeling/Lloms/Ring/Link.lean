import Lloms.Lib.Channels
import Lloms.Ring.ShmRefines

/-! Two processes joined by two shared-memory rings, one each way. Each runs a
program that pushes and pops with `push_blocking` and `pop_blocking`
(`shm_ipc_posix.cpp`): it tries again until the call succeeds or its deadline has
passed. A step is one access of one process to a segment. The rings are channels of
their capacity: every step makes one move of the net of the two programs, or none. -/
namespace Lloms.ShmRing
open Lib

universe u v w

/-- `left` writes `there` and reads `back`. A process that is gone has given up on a
call and leaves the rings alone. -/
structure Link (σ : Type u) (τ : Type v) (α : Type w) where
  left : σ
  right : τ
  there : Pair α
  back : Pair α
  leftGone : Bool := false
  rightGone : Bool := false

/-- Whose turn it is, and whether its deadline has passed. -/
inductive LinkTurn where
  | left (late : Bool)
  | right (late : Bool)
  deriving DecidableEq, Repr

namespace Link

variable {σ : Type u} {τ : Type v} {α : Type w}

/-- The link seen from the other side. -/
def swap (s : Link σ τ α) : Link τ σ α :=
  { left := s.right, right := s.left, there := s.back, back := s.there
    leftGone := s.rightGone, rightGone := s.leftGone }

def leftStep (p : σ → Next σ α α) (late : Bool) (s : Link σ τ α) : Link σ τ α :=
  if s.leftGone then s
  else
    match p s.left with
    | .send message next =>
      let r := s.there.step (.producer message)
      match r.2 with
      | .pushed _ _ _ => { s with left := next, there := r.1 }
      | .pushFull _ _ => { s with there := r.1, leftGone := late }
      | _ => { s with there := r.1 }
    | .receive next =>
      let r := s.back.step .consumer
      match r.2 with
      | .popped _ _ out => { s with left := next out, back := r.1 }
      | .popEmpty _ _ | .popCorrupt _ _ => { s with back := r.1, leftGone := late }
      | _ => { s with back := r.1 }
    | .halted => s

def step (p : σ → Next σ α α) (q : τ → Next τ α α) (s : Link σ τ α) : LinkTurn → Link σ τ α
  | .left late => s.leftStep p late
  | .right late => (s.swap.leftStep q late).swap

end Link

/-! ## One ring as a channel -/

section Channel

variable {α : Type u} {cap : SpscRing.Capacity} {index : UInt64} {queue : List α} {s : Pair α}

/-- The ring between the two processes holds the messages of `queue`, the oldest
first. -/
def Holds (cap : SpscRing.Capacity) (index : UInt64) (queue : List α) (s : Pair α) : Prop :=
  PairOk cap s ∧ ∃ outs, SpscRing.Carries index (outs ++ queue) outs (s.view cap)

/-- A `push` in progress is one of this message. -/
def Call.Pushing (message : α) : Call α → Prop
  | .pushHead value _ | .pushLoaded value _ _ | .pushChecked value _ _ | .pushCopied value _ _ =>
    value = message
  | _ => True

/-- How many accesses a `push` still takes if there is room. One that has loaded a
full ring fails first. -/
def Call.pushLeft (cap : SpscRing.Capacity) : Call α → Nat
  | .pushHead _ _ => 4
  | .pushLoaded _ head tail => if head - tail ≥ cap.size then 6 else 3
  | .pushChecked _ _ _ => 2
  | .pushCopied _ _ _ => 1
  | _ => 5

/-- How many accesses a `pop` still takes if there is a message. -/
def Call.popLeft : Call α → Nat
  | .popTail _ => 4
  | .popLoaded _ _ => 3
  | .popChecked _ _ => 2
  | .popCopied _ _ _ => 1
  | _ => 5

theorem Holds.full_iff (h : Holds cap index queue s) :
    s.segment.head - s.segment.tail ≥ cap.size ↔ queue.length = cap.size.toNat := by
  obtain ⟨-, outs, hcarries⟩ := h
  have hdepth : s.segment.head - s.segment.tail ≤ cap.size := hcarries.depth_le
  obtain ⟨hist, hvalues, houts, hinv⟩ := hcarries
  have hfull := hinv.full_iff
  rw [hvalues, houts, List.length_append] at hfull
  rw [← full_tests_agree hdepth]
  exact hfull.trans (by omega)

theorem Holds.empty_iff (h : Holds cap index queue s) :
    s.segment.head = s.segment.tail ↔ queue = [] := by
  obtain ⟨-, outs, hcarries⟩ := h
  have hempty := hcarries.empty_iff
  rw [List.length_append, Nat.add_eq_left, List.length_eq_zero_iff] at hempty
  rw [← hempty]
  exact eq_comm

theorem Holds.length_le (h : Holds cap index queue s) : queue.length ≤ cap.size.toNat := by
  obtain ⟨-, outs, hist, hvalues, houts, hinv⟩ := h
  have hroom := hinv.room
  rw [hvalues, houts, List.length_append] at hroom
  omega

/-- The index a process has loaded is the index: only it stores that one. -/
theorem Holds.loadedHead (h : Holds cap index queue s) {value : α} {head : UInt64}
    (hc : s.writer.call = .pushHead value head) : head = s.segment.head := by
  obtain ⟨-, outs, hcarries⟩ := h
  have hview : (s.view cap).producer = .loadedHead value head := by
    simp only [Pair.view, hc, writerView]
  exact hcarries.loadedHead hview

theorem Holds.loadedTail (h : Holds cap index queue s) {tail : UInt64}
    (hc : s.reader.call = .popTail tail) : tail = s.segment.tail := by
  obtain ⟨-, outs, hcarries⟩ := h
  have hview : (s.view cap).consumer = .loadedTail tail := by
    simp only [Pair.view, hc, readerView]
  exact hcarries.loadedTail hview

/-- A step that neither pushes nor pops a message. -/
theorem Holds.quiet (h : Holds cap index queue s) {t : SpscRing.Turn α}
    (hpush : (s.step t).2.pushed? = none) (hpop : (s.step t).2.popped? = none) :
    Holds cap index queue (s.step t).1 := by
  obtain ⟨hok, outs, hcarries⟩ := h
  obtain ⟨hok', hcarries'⟩ := pair_step hok hcarries t
  rw [hpush, hpop] at hcarries'
  simp only [Option.toList, List.append_nil] at hcarries'
  exact ⟨hok', outs, hcarries'⟩

/-- A step of a process that pushes: the message is in the channel, or nothing has
happened to the channel and the process is nearer to that if there is room. -/
theorem Holds.push (h : Holds cap index queue s) {message : α}
    (hcall : s.writer.call.Pushing message) :
    (∃ head tail, (s.step (.producer message)).2 = .pushed head tail message ∧
      queue.length < cap.size.toNat ∧
      Holds cap index (queue ++ [message]) (s.step (.producer message)).1 ∧
      (s.step (.producer message)).1.writer.call = .idle) ∨
    ((s.step (.producer message)).2.pushed? = none ∧
      Holds cap index queue (s.step (.producer message)).1 ∧
      (s.step (.producer message)).1.writer.call.Pushing message ∧
      (queue.length < cap.size.toNat →
        (s.step (.producer message)).1.writer.call.pushLeft cap < s.writer.call.pushLeft cap)) := by
  have hwriter := h.1.writer
  cases hc : s.writer.call with
  | idle =>
    have hs : s.step (.producer message) =
        ({ s with writer := { s.writer with call := .pushHead message s.segment.head } }, .silent) := by
      simp only [Pair.step, Process.step, hc]
    have hquiet := h.quiet (t := .producer message) (by rw [hs]; rfl) (by rw [hs]; rfl)
    rw [hs] at hquiet ⊢
    exact .inr ⟨rfl, hquiet, rfl, fun _ => by simp [Call.pushLeft]⟩
  | pushHead value head =>
    rw [hc] at hcall
    have hs : s.step (.producer message) = ({ s with
        writer := { s.writer with call := .pushLoaded value head s.segment.tail } }, .silent) := by
      simp only [Pair.step, Process.step, hc]
    have hquiet := h.quiet (t := .producer message) (by rw [hs]; rfl) (by rw [hs]; rfl)
    rw [hs] at hquiet ⊢
    refine .inr ⟨rfl, hquiet, hcall, fun hroom => ?_⟩
    have hnot : ¬ head - s.segment.tail ≥ cap.size := by
      rw [h.loadedHead hc, h.full_iff]
      omega
    simp [Call.pushLeft, hnot]
  | pushLoaded value head tail =>
    rw [hc] at hcall
    have hcapacity : s.segment.capacity.toUInt64 = cap.size := h.1.capacity
    by_cases hfull : head - tail ≥ cap.size
    · have hs : s.step (.producer message) =
          ({ s with writer := { s.writer with call := .idle } }, .pushFull head tail) := by
        simp only [Pair.step, Process.step, hc, hcapacity, if_pos hfull]
      have hquiet := h.quiet (t := .producer message) (by rw [hs]; rfl) (by rw [hs]; rfl)
      rw [hs] at hquiet ⊢
      exact .inr ⟨rfl, hquiet, trivial, fun _ => by simp [Call.pushLeft, hfull]⟩
    · have hs : s.step (.producer message) = ({ s with
          writer := { s.writer with call := .pushChecked value head tail } }, .silent) := by
        simp only [Pair.step, Process.step, hc, hcapacity, if_neg hfull]
      have hquiet := h.quiet (t := .producer message) (by rw [hs]; rfl) (by rw [hs]; rfl)
      rw [hs] at hquiet ⊢
      exact .inr ⟨rfl, hquiet, hcall, fun _ => by simp [Call.pushLeft, hfull]⟩
  | pushChecked value head tail =>
    rw [hc] at hcall
    have hs : s.step (.producer message) = ({ s with
        writer := { s.writer with call := .pushCopied value head tail }
        segment := { s.segment with
          slots := Function.update s.segment.slots (s.writer.ring.slot head) value } },
        .wrote (s.writer.ring.slot head)) := by
      simp only [Pair.step, Process.step, hc]
    have hquiet := h.quiet (t := .producer message) (by rw [hs]; rfl) (by rw [hs]; rfl)
    rw [hs] at hquiet ⊢
    exact .inr ⟨rfl, hquiet, hcall, fun _ => by simp [Call.pushLeft]⟩
  | pushCopied value head tail =>
    rw [hc] at hcall
    obtain rfl : value = message := hcall
    have hs : s.step (.producer value) = ({ s with
        writer := { s.writer with call := .idle }
        segment := { s.segment with head := head + 1 } }, .pushed head tail value) := by
      simp only [Pair.step, Process.step, hc]
    obtain ⟨hok, outs, hcarries⟩ := h
    obtain ⟨hok', hcarries'⟩ := pair_step hok hcarries (.producer value)
    rw [hs] at hok' hcarries' ⊢
    simp only [Action.pushed?, Action.popped?, Option.toList, List.append_nil, List.append_assoc]
      at hcarries'
    have hholds : Holds cap index (queue ++ [value]) _ := ⟨hok', outs, hcarries'⟩
    have hlen := hholds.length_le
    rw [List.length_append, List.length_singleton] at hlen
    exact .inl ⟨head, tail, rfl, hlen, hholds, rfl⟩
  | popTail _ | popLoaded _ _ | popChecked _ _ | popCopied _ _ _ =>
    rw [hc] at hwriter
    exact hwriter.elim

/-- A step of a process that pops: it has the oldest message, or nothing has happened
to the channel and the process is nearer to that if there is one. -/
theorem Holds.pop (h : Holds cap index queue s) :
    (∃ head tail message rest, (s.step .consumer).2 = .popped head tail message ∧
      queue = message :: rest ∧ Holds cap index rest (s.step .consumer).1) ∨
    ((s.step .consumer).2.popped? = none ∧ Holds cap index queue (s.step .consumer).1 ∧
      (queue ≠ [] → (s.step .consumer).1.reader.call.popLeft < s.reader.call.popLeft)) := by
  have hreader := h.1.reader
  cases hc : s.reader.call with
  | idle =>
    have hs : s.step .consumer =
        ({ s with reader := { s.reader with call := .popTail s.segment.tail } }, .silent) := by
      simp only [Pair.step, Process.step, hc]
    have hquiet := h.quiet (t := .consumer) (by rw [hs]; rfl) (by rw [hs]; rfl)
    rw [hs] at hquiet ⊢
    exact .inr ⟨rfl, hquiet, fun _ => by simp [Call.popLeft]⟩
  | popTail tail =>
    by_cases hempty : s.segment.head = tail
    · have hs : s.step .consumer =
          ({ s with reader := { s.reader with call := .idle } }, .popEmpty s.segment.head tail) := by
        simp only [Pair.step, Process.step, hc, if_pos hempty]
      have hquiet := h.quiet (t := .consumer) (by rw [hs]; rfl) (by rw [hs]; rfl)
      rw [hs] at hquiet ⊢
      rw [h.loadedTail hc, h.empty_iff] at hempty
      exact .inr ⟨rfl, hquiet, fun hne => absurd hempty hne⟩
    · have hs : s.step .consumer = ({ s with
          reader := { s.reader with call := .popLoaded s.segment.head tail } }, .silent) := by
        simp only [Pair.step, Process.step, hc, if_neg hempty]
      have hquiet := h.quiet (t := .consumer) (by rw [hs]; rfl) (by rw [hs]; rfl)
      rw [hs] at hquiet ⊢
      exact .inr ⟨rfl, hquiet, fun _ => by simp [Call.popLeft]⟩
  | popLoaded head tail =>
    rw [hc] at hreader
    have hdepth : head - tail ≤ cap.size := hreader
    have hbad : ¬ head - tail > s.segment.capacity.toUInt64 := by
      rw [h.1.capacity]
      exact UInt64.not_lt.mpr hdepth
    have hs : s.step .consumer =
        ({ s with reader := { s.reader with call := .popChecked head tail } }, .silent) := by
      simp only [Pair.step, Process.step, hc, if_neg hbad]
    have hquiet := h.quiet (t := .consumer) (by rw [hs]; rfl) (by rw [hs]; rfl)
    rw [hs] at hquiet ⊢
    exact .inr ⟨rfl, hquiet, fun _ => by simp [Call.popLeft]⟩
  | popChecked head tail =>
    have hs : s.step .consumer = ({ s with
        reader := { s.reader with
          call := .popCopied head tail (s.segment.slots (s.reader.ring.slot tail)) } },
        .read (s.reader.ring.slot tail)) := by
      simp only [Pair.step, Process.step, hc]
    have hquiet := h.quiet (t := .consumer) (by rw [hs]; rfl) (by rw [hs]; rfl)
    rw [hs] at hquiet ⊢
    exact .inr ⟨rfl, hquiet, fun _ => by simp [Call.popLeft]⟩
  | popCopied head tail out =>
    have hs : s.step .consumer = ({ s with
        reader := { s.reader with call := .idle }
        segment := { s.segment with tail := tail + 1 } }, .popped head tail out) := by
      simp only [Pair.step, Process.step, hc]
    obtain ⟨hok, outs, hcarries⟩ := h
    obtain ⟨hok', hcarries'⟩ := pair_step hok hcarries .consumer
    rw [hs] at hok' hcarries' ⊢
    simp only [Action.pushed?, Action.popped?, Option.toList, List.append_nil] at hcarries'
    obtain ⟨rest, hrest⟩ := hcarries'.fifo
    rw [List.append_assoc, List.append_cancel_left_eq] at hrest
    obtain rfl : out :: rest = queue := hrest
    refine .inl ⟨head, tail, out, rest, rfl, rfl, hok', outs ++ [out], ?_⟩
    rwa [List.append_assoc]
  | pushHead _ _ | pushLoaded _ _ _ | pushChecked _ _ _ | pushCopied _ _ _ =>
    rw [hc] at hreader
    exact hreader.elim

end Channel

/-! ## Opening a ring -/

/-- A mapping that `attach` can accept for a ring of this capacity. -/
structure Suits (sizeofT capacity : UInt32) (m : Mapping) : Prop where
  good : GoodCapacity sizeofT m capacity
  nonnull : m.mem ≠ 0
  aligned : m.mem % kHeaderAlign = 0

/-- The header as `create` wrote it. -/
structure Header (sizeofT capacity : UInt32) (s : Segment α) : Prop where
  magic : s.magic = kMagic
  version : s.version = kVersion
  elemSize : s.elemSize = sizeofT
  capacity : s.capacity = capacity

section Opening

variable {α : Type u} {sizeofT capacity : UInt32} {m m' : Mapping}

theorem Suits.attach {m : Mapping} {segment : Segment α} (h : Suits sizeofT capacity m)
    (hheader : Header sizeofT capacity segment) :
    attach sizeofT m segment {} = (.ok, { valid := true, mask := (capacity - 1).toUInt64 }) := by
  rw [attach_of_good h.good h.nonnull h.aligned hheader.magic hheader.version hheader.elemSize
    hheader.capacity, ShmSpscRing.bind, hheader.capacity]

/-- A ring that was created, with both its handles: an empty ring. The two sides may
have mapped the segment at different addresses. -/
theorem pair_opened (hm : Suits sizeofT capacity m) (hm' : Suits sizeofT capacity m')
    (memory : Segment α) :
    ∃ segment ring, create sizeofT m capacity memory {} = (.ok, segment, ring) ∧
      attach sizeofT m' segment {} = (.ok, ring) ∧
      PairOk (capacityOf hm.good) ⟨{ ring }, { ring }, segment⟩ ∧
      SpscRing.Carries 0 [] [] (Pair.view (capacityOf hm.good) ⟨{ ring }, { ring }, segment⟩) ∧
      Header sizeofT capacity segment := by
  have hmask : (capacity - 1).toUInt64 = (capacityOf hm.good).kMask :=
    toUInt64_sub_one hm.good.two_le
  let segment : Segment α :=
    { memory with
      capacity, elemSize := sizeofT, version := kVersion, head := 0, tail := 0, magic := kMagic }
  have hheader : Header sizeofT capacity segment := ⟨rfl, rfl, rfl, rfl⟩
  refine ⟨segment, { valid := true, mask := (capacity - 1).toUInt64 }, ?_, hm'.attach hheader, ?_, ?_,
    hheader⟩
  · simp only [create, precheck_of_good hm.good hm.nonnull hm.aligned]
    rfl
  · exact ⟨rfl, hmask, hmask, trivial, trivial, rfl, rfl⟩
  · exact SpscRing.start_carries 0 _

end Opening

/-! ## The link as a net -/

namespace Link
open Net

variable {σ : Type u} {τ : Type v} {α : Type w} {p : σ → Next σ α α} {q : τ → Next τ α α}
  {cap : SpscRing.Capacity} {s : Link σ τ α} {n n' : Net σ τ α α}

/-- A `push` in progress is the one the program is at. -/
def InProgram (next : Next σ α α) (call : Call α) : Prop :=
  match next with
  | .send message _ => call.Pushing message
  | _ => call = .idle

/-- The link has come as far as the net: its rings hold what is on the way. -/
structure Refines (p : σ → Next σ α α) (q : τ → Next τ α α) (cap : SpscRing.Capacity)
    (s : Link σ τ α) (n : Net σ τ α α) : Prop where
  left : s.left = n.left
  right : s.right = n.right
  there : ∃ index, Holds cap index n.there s.there
  back : ∃ index, Holds cap index n.back s.back
  leftCall : InProgram (p s.left) s.there.writer.call
  rightCall : InProgram (q s.right) s.back.writer.call

theorem Refines.swap (h : Refines p q cap s n) : Refines q p cap s.swap n.swap :=
  ⟨h.right, h.left, h.back, h.there, h.rightCall, h.leftCall⟩

/-- What the call the left program is at still takes. -/
def leftRank (p : σ → Next σ α α) (cap : SpscRing.Capacity) (s : Link σ τ α) : Nat :=
  match p s.left with
  | .send _ _ => s.there.writer.call.pushLeft cap
  | _ => s.back.reader.call.popLeft

theorem inProgram_idle (next : Next σ α α) : InProgram next .idle := by
  cases next <;> trivial

theorem leftStep_send {message : α} {next : σ} {late : Bool} (hp : p s.left = .send message next)
    (hhere : s.leftGone = false) {head tail : UInt64} {value : α}
    (hr : (s.there.step (.producer message)).2 = .pushed head tail value) :
    s.leftStep p late = { s with left := next, there := (s.there.step (.producer message)).1 } := by
  simp only [leftStep, hhere, hp, hr, Bool.false_eq_true, if_false]

theorem leftStep_unsent {message : α} {next : σ} (late : Bool) (hp : p s.left = .send message next)
    (hhere : s.leftGone = false) (hr : (s.there.step (.producer message)).2.pushed? = none) :
    ∃ gone, s.leftStep p late =
      { s with there := (s.there.step (.producer message)).1, leftGone := gone } ∧
      (late = false → gone = false) := by
  simp only [leftStep, hhere, hp, Bool.false_eq_true, if_false]
  cases ha : (s.there.step (.producer message)).2 with
  | pushed head tail value => simp [ha, Action.pushed?] at hr
  | pushFull head tail => exact ⟨late, rfl, id⟩
  | silent | wrote _ | read _ | popped _ _ _ | popEmpty _ _ | popCorrupt _ _ =>
    exact ⟨false, by rw [← hhere], fun _ => rfl⟩

theorem leftStep_receive {next : α → σ} {late : Bool} (hp : p s.left = .receive next)
    (hhere : s.leftGone = false) {head tail : UInt64} {out : α}
    (hr : (s.back.step .consumer).2 = .popped head tail out) :
    s.leftStep p late = { s with left := next out, back := (s.back.step .consumer).1 } := by
  simp only [leftStep, hhere, hp, hr, Bool.false_eq_true, if_false]

theorem leftStep_unreceived {next : α → σ} (late : Bool) (hp : p s.left = .receive next)
    (hhere : s.leftGone = false) (hr : (s.back.step .consumer).2.popped? = none) :
    ∃ gone, s.leftStep p late =
      { s with back := (s.back.step .consumer).1, leftGone := gone } ∧
      (late = false → gone = false) := by
  simp only [leftStep, hhere, hp, Bool.false_eq_true, if_false]
  cases ha : (s.back.step .consumer).2 with
  | popped head tail out => simp [ha, Action.popped?] at hr
  | popEmpty head tail | popCorrupt head tail => exact ⟨late, rfl, id⟩
  | silent | wrote _ | read _ | pushed _ _ _ | pushFull _ _ =>
    exact ⟨false, by rw [← hhere], fun _ => rfl⟩

/-- **A step of a process is a move of the net or none.** If the process is there and
could move, a step that does not move it brings it nearer to the move. -/
theorem Refines.leftStep (h : Refines p q cap s n) (late : Bool) :
    (∃ n', leftMove p cap.size.toNat n = some n' ∧ Refines p q cap (s.leftStep p late) n') ∨
    (Refines p q cap (s.leftStep p late) n ∧
      (s.leftGone = false → leftMove p cap.size.toNat n ≠ none →
        leftRank p cap (s.leftStep p late) < leftRank p cap s)) := by
  cases hhere : s.leftGone with
  | true =>
    have hs : s.leftStep p late = s := by simp [Link.leftStep, hhere]
    rw [hs]
    exact .inr ⟨h, fun hfalse => Bool.noConfusion hfalse⟩
  | false =>
    have hcall := h.leftCall
    cases hp : p s.left with
    | send message next =>
      rw [hp] at hcall
      obtain ⟨index, hthere⟩ := h.there
      rcases hthere.push hcall with
        ⟨head, tail, hr, hroom, hholds, hidle⟩ | ⟨hr, hholds, hpushing, hnearer⟩
      · rw [leftStep_send hp hhere hr]
        refine .inl ⟨_, leftMove_send (h.left ▸ hp) hroom, rfl, h.right, ⟨index, hholds⟩, h.back,
          ?_, h.rightCall⟩
        simp only [hidle]
        exact inProgram_idle _
      · obtain ⟨gone, hs, -⟩ := leftStep_unsent late hp hhere hr
        rw [hs]
        refine .inr ⟨⟨h.left, h.right, ⟨index, hholds⟩, h.back, ?_, h.rightCall⟩, fun _ hmove => ?_⟩
        · simp only [hp]
          exact hpushing
        · simp only [leftRank, hp]
          apply hnearer
          by_contra hfull
          rw [h.left] at hp
          simp [leftMove, hp, hfull] at hmove
    | receive next =>
      obtain ⟨index, hback⟩ := h.back
      rcases hback.pop with ⟨head, tail, message, rest, hr, hqueue, hholds⟩ | ⟨hr, hholds, hnearer⟩
      · rw [leftStep_receive hp hhere hr]
        refine .inl ⟨_, leftMove_receive (h.left ▸ hp) hqueue, rfl, h.right, h.there,
          ⟨index, hholds⟩, ?_, h.rightCall⟩
        rw [hp] at hcall
        have hidle : s.there.writer.call = .idle := hcall
        simp only [hidle]
        exact inProgram_idle _
      · obtain ⟨gone, hs, -⟩ := leftStep_unreceived late hp hhere hr
        rw [hs]
        refine .inr ⟨⟨h.left, h.right, h.there, ⟨index, hholds⟩, h.leftCall, h.rightCall⟩,
          fun _ hmove => ?_⟩
        simp only [leftRank, hp]
        apply hnearer
        rintro hnil
        rw [h.left] at hp
        simp [leftMove, hp, hnil] at hmove
    | halted =>
      have hs : s.leftStep p late = s := by simp [Link.leftStep, hhere, hp]
      rw [hs]
      refine .inr ⟨h, fun _ hmove => ?_⟩
      rw [h.left] at hp
      simp [leftMove, hp] at hmove

/-- A turn that comes before any deadline. -/
def InTime (t : LinkTurn) : Prop := t = .left false ∨ t = .right false

instance : DecidablePred InTime :=
  fun t => inferInstanceAs (Decidable (t = .left false ∨ t = .right false))

def run (p : σ → Next σ α α) (q : τ → Next τ α α) (s : Link σ τ α) (turns : List LinkTurn) :
    Link σ τ α :=
  turns.foldl (step p q) s

/-- Every state of a run is that of the net after some of its moves. -/
theorem Refines.run (h : Refines p q cap s n) (turns : List LinkTurn) :
    ∃ k n', Path (Move p q cap.size.toNat) k n n' ∧ Refines p q cap (run p q s turns) n' := by
  induction turns generalizing s n with
  | nil => exact ⟨0, n, .refl n, h⟩
  | cons t ts ih =>
    have hstep : ∃ k n', Path (Move p q cap.size.toNat) k n n' ∧ Refines p q cap (s.step p q t) n' := by
      cases t with
      | left late =>
        rcases h.leftStep late with ⟨n', hmove, h'⟩ | ⟨h', -⟩
        · exact ⟨1, n', .single (.inl hmove), h'⟩
        · exact ⟨0, n, .refl n, h'⟩
      | right late =>
        rcases h.swap.leftStep late with ⟨n', hmove, h'⟩ | ⟨h', -⟩
        · exact ⟨1, n'.swap, .single (.inr (rightMove_iff.mpr hmove)), h'.swap⟩
        · exact ⟨0, n, .refl n, h'.swap⟩
    obtain ⟨k, n', hpath, h'⟩ := hstep
    obtain ⟨k', n'', hpath', h''⟩ := ih h'
    exact ⟨k + k', n'', hpath.trans hpath', h''⟩

/-- Enough turns for each process to end the call it is in and carry out the next. -/
structure Round (turns : List LinkTurn) : Prop where
  inTime : ∀ t ∈ turns, InTime t
  left : 6 ≤ turns.count (.left false)
  right : 6 ≤ turns.count (.right false)

end Link

end Lloms.ShmRing
