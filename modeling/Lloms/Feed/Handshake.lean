import Lloms.Feed.Consumer
import Lloms.Ring.Fifo

/-! The shutdown handshake of the feed handlers. The reader thread pushes its
orders, spinning while the ring is full, and stores `g_reader_done`; the consumer
thread leaves its loop once it has read that flag and then found the ring empty.
Every load and store is a step of its own, so a run is one sequentially
consistent interleaving of the two threads. -/
namespace Lloms.Feed
open Lib SpscRing RiskGate

/-- Where the consumer thread stands in its loop. `readIndex`, `readTail` and
`readHead` are inside `ring.empty()`, `pop` inside `ring.pop`. -/
inductive Loop where
  | readDone
  | readIndex
  | readTail (head : UInt64)
  | readHead (tail : UInt64)
  | pop
  | work (o : Order)
  | left
  deriving DecidableEq

/-- The two threads: `todo` is what the reader still has to push, the order it is
pushing first. -/
structure Handshake (cap : Capacity) where
  ring : Ring cap Order
  todo : List Order
  readerDone : Bool := false
  loop : Loop := .readDone
  tally : Consumer := {}

/-- Whose turn it is. Which operand of the `==` in `empty()` is loaded first is
the compiler's choice. -/
inductive Thread where
  | reader
  | consumer (headFirst : Bool)
  deriving DecidableEq, Repr

inductive Did (cap : Capacity) where
  | quiet
  | ring (a : Action cap Order)
  | storedDone
  | left
  deriving DecidableEq

namespace Handshake

variable {cap : Capacity}

def reader (s : Handshake cap) : Handshake cap × Did cap :=
  match s.todo with
  | [] =>
    -- after the store the reader only waits for the other thread to end
    if s.readerDone then (s, .quiet) else ({ s with readerDone := true }, .storedDone)
  | o :: rest =>
    let r := push s.ring o
    match r.2 with
    | .pushed _ => ({ s with ring := r.1, todo := rest }, .ring r.2)
    | _ => ({ s with ring := r.1 }, .ring r.2)

def consumer (limits : RiskLimits) (s : Handshake cap) (headFirst : Bool) :
    Handshake cap × Did cap :=
  match s.loop with
  | .readDone => ({ s with loop := if s.readerDone then .readIndex else .pop }, .quiet)
  | .readIndex =>
    ({ s with loop := if headFirst then .readTail s.ring.head else .readHead s.ring.tail }, .quiet)
  | .readTail head =>
    if head = s.ring.tail then ({ s with loop := .left }, .left)
    else ({ s with loop := .pop }, .quiet)
  | .readHead tail =>
    if s.ring.head = tail then ({ s with loop := .left }, .left)
    else ({ s with loop := .pop }, .quiet)
  | .pop =>
    let r := SpscRing.pop id s.ring
    match r.2 with
    | .popped _ o => ({ s with ring := r.1, loop := .work o }, .ring r.2)
    | .popFailed => ({ s with ring := r.1, loop := .readDone }, .ring r.2)
    | _ => ({ s with ring := r.1 }, .ring r.2)
  | .work o => ({ s with tally := (consume limits s.tally o).1, loop := .readDone }, .quiet)
  | .left => (s, .quiet)

def step (limits : RiskLimits) (s : Handshake cap) : Thread → Handshake cap × Did cap
  | .reader => s.reader
  | .consumer headFirst => s.consumer limits headFirst

def start (index : UInt64) (slots : Fin cap.size.toNat → Order) (orders : List Order) :
    Handshake cap :=
  { ring := SpscRing.start cap index slots, todo := orders }

end Handshake

/-! ## What a history says -/

abbrev HandshakeEvent (cap : Capacity) := Lib.Event (Handshake cap) Thread (Did cap)

section History

variable {cap : Capacity}

def Did.pushed? : Did cap → Option Order
  | .ring a => a.pushed?
  | _ => none

def Did.popped? : Did cap → Option Order
  | .ring a => a.popped?
  | _ => none

/-- The orders whose push has returned true. -/
def pushedOrders (h : List (HandshakeEvent cap)) : List Order :=
  h.filterMap fun e => e.output.pushed?

/-- The orders whose pop has returned true. -/
def poppedOrders (h : List (HandshakeEvent cap)) : List Order :=
  h.filterMap fun e => e.output.popped?

theorem pushedOrders_concat (h : List (HandshakeEvent cap)) (e : HandshakeEvent cap) :
    pushedOrders (h ++ [e]) = pushedOrders h ++ e.output.pushed?.toList :=
  filterMap_output_concat Did.pushed? h e

theorem poppedOrders_concat (h : List (HandshakeEvent cap)) (e : HandshakeEvent cap) :
    poppedOrders (h ++ [e]) = poppedOrders h ++ e.output.popped?.toList :=
  filterMap_output_concat Did.popped? h e

end History

/-! ## One step of the ring under each thread -/

section RingSteps

variable {cap : Capacity}

/-- A push in progress carries the order the reader is at. -/
def Pushing (todo : List Order) : Producer Order → Prop
  | .idle => True
  | .loadedHead o _ | .checked o _ | .copied o _ => todo.head? = some o

/-- What a step of `push` leaves alone, and that it is the order at hand that gets
pushed. -/
theorem push_frame {s : Ring cap Order} {o : Order} {rest : List Order}
    (h : Pushing (o :: rest) s.producer) :
    (push s o).1.consumer = s.consumer ∧ (push s o).1.tail = s.tail ∧
    (push s o).2.popped? = none ∧
    (((push s o).2 = .pushed o ∧ (push s o).1.producer = .idle) ∨
      ((push s o).2.pushed? = none ∧ Pushing (o :: rest) (push s o).1.producer)) := by
  cases hp : s.producer with
  | idle => simp [push, hp, Action.pushed?, Action.popped?, Pushing]
  | loadedHead o' head =>
    rw [hp] at h
    by_cases hfull : head + 1 - s.tail > cap.size
    · simp [push, hp, hfull, Action.pushed?, Action.popped?, Pushing]
    · rw [push_of_room hp hfull]
      exact ⟨rfl, rfl, rfl, .inr ⟨rfl, h⟩⟩
  | checked o' head =>
    rw [hp] at h
    have hs : push s o = ({ s with
        slots := Function.update s.slots (cap.slot head) o'
        producer := .copied o' head }, .wrote (cap.slot head)) := by
      simp only [push, hp]
    rw [hs]
    exact ⟨rfl, rfl, rfl, .inr ⟨rfl, h⟩⟩
  | copied o' head =>
    rw [hp] at h
    obtain rfl : o = o' := Option.some.inj h
    simp [push, hp, Action.popped?]

/-- What a step of `pop` leaves alone, and that it ends between two calls when it
returns. -/
theorem pop_frame (s : Ring cap Order) :
    (SpscRing.pop id s).1.producer = s.producer ∧ (SpscRing.pop id s).1.head = s.head ∧
    (SpscRing.pop id s).2.pushed? = none ∧
    ((∃ i o, (SpscRing.pop id s).2 = .popped i o ∧ (SpscRing.pop id s).1.consumer = .idle) ∨
      ((SpscRing.pop id s).2 = .popFailed ∧ (SpscRing.pop id s).1.consumer = .idle) ∨
      (SpscRing.pop id s).2 = .silent ∨ ∃ i, (SpscRing.pop id s).2 = .read i) := by
  cases hc : s.consumer with
  | idle => simp [SpscRing.pop, hc, Action.pushed?]
  | loadedTail tail =>
    by_cases hempty : tail = s.head <;> simp [SpscRing.pop, hc, hempty, Action.pushed?]
  | checked tail => simp [SpscRing.pop, hc, Action.pushed?]
  | copied tail out => simp [SpscRing.pop, hc, Action.pushed?]

end RingSteps

/-! ## The invariant -/

section Invariant

variable {cap : Capacity} (limits : RiskLimits) (index : UInt64) (orders : List Order)

/-- What the consumer thread knows where it stands, after it has popped `outs`. Once
it has read the flag no push is left, so the index it loaded is still the index. -/
def LoopOk (s : Handshake cap) (outs : List Order) : Prop :=
  match s.loop with
  | .readDone | .pop => s.tally = exec (consume limits) {} outs
  | .readIndex => s.readerDone = true ∧ s.tally = exec (consume limits) {} outs
  | .readTail head =>
    s.readerDone = true ∧ head = s.ring.head ∧ s.tally = exec (consume limits) {} outs
  | .readHead tail =>
    s.readerDone = true ∧ tail = s.ring.tail ∧ s.tally = exec (consume limits) {} outs
  | .work o => ∃ before, outs = before ++ [o] ∧ s.tally = exec (consume limits) {} before
  | .left =>
    s.readerDone = true ∧ s.ring.tail = s.ring.head ∧ s.tally = exec (consume limits) {} outs

/-- Both threads after the history `h`. -/
structure HandshakeInv (h : List (HandshakeEvent cap)) (s : Handshake cap) : Prop where
  carries : Carries index (pushedOrders h) (poppedOrders h) s.ring
  split : pushedOrders h ++ s.todo = orders
  pushing : Pushing s.todo s.ring.producer
  done : s.readerDone = true → s.todo = []
  stored : s.readerDone = true → ∃ e ∈ h, e.output = .storedDone
  loop : LoopOk limits s (poppedOrders h)

variable {limits index orders} {h : List (HandshakeEvent cap)} {s : Handshake cap}

/-- What the consumer knows survives a step of the reader. -/
theorem LoopOk.mono {t : Handshake cap} {outs : List Order} (hok : LoopOk limits s outs)
    (hloop : t.loop = s.loop) (htally : t.tally = s.tally)
    (hdone : s.readerDone = true →
      t.readerDone = true ∧ t.ring.head = s.ring.head ∧ t.ring.tail = s.ring.tail) :
    LoopOk limits t outs := by
  unfold LoopOk at hok ⊢
  rw [hloop, htally]
  cases hl : s.loop with
  | readDone | pop | work o =>
    rw [hl] at hok
    exact hok
  | readIndex =>
    rw [hl] at hok
    exact ⟨(hdone hok.1).1, hok.2⟩
  | readTail head =>
    rw [hl] at hok
    obtain ⟨hd, hhead, -⟩ := hdone hok.1
    exact ⟨hd, hok.2.1.trans hhead.symm, hok.2.2⟩
  | readHead tail =>
    rw [hl] at hok
    obtain ⟨hd, -, htail⟩ := hdone hok.1
    exact ⟨hd, hok.2.1.trans htail.symm, hok.2.2⟩
  | left =>
    rw [hl] at hok
    obtain ⟨hd, hhead, htail⟩ := hdone hok.1
    exact ⟨hd, by rw [hhead, htail, hok.2.1], hok.2.2⟩

/-- The invariant after one more step `e` that leads to `t`. -/
theorem HandshakeInv.concat (hI : HandshakeInv limits index orders h s) {e : HandshakeEvent cap}
    {t : Handshake cap}
    (hcarries : Carries index (pushedOrders h ++ e.output.pushed?.toList)
      (poppedOrders h ++ e.output.popped?.toList) t.ring)
    (hsplit : e.output.pushed?.toList ++ t.todo = s.todo)
    (hpushing : Pushing t.todo t.ring.producer)
    (hdone : t.readerDone = true → t.todo = [] ∧ (e.output = .storedDone ∨ s.readerDone = true))
    (hloop : LoopOk limits t (poppedOrders h ++ e.output.popped?.toList)) :
    HandshakeInv limits index orders (h ++ [e]) t := by
  rw [← pushedOrders_concat, ← poppedOrders_concat] at hcarries
  rw [← poppedOrders_concat] at hloop
  refine ⟨hcarries, ?_, hpushing, fun hd => (hdone hd).1, fun hd => ?_, hloop⟩
  · rw [pushedOrders_concat, List.append_assoc, hsplit]
    exact hI.split
  · rcases (hdone hd).2 with he | hs
    · exact ⟨e, by simp, he⟩
    · obtain ⟨e', he', hst⟩ := hI.stored hs
      exact ⟨e', List.mem_append_left _ he', hst⟩

/-- A step that leaves the ring and the reader alone. -/
theorem HandshakeInv.quiet (hI : HandshakeInv limits index orders h s) {e : HandshakeEvent cap}
    (hpush : e.output.pushed? = none) (hpop : e.output.popped? = none) {loop : Loop}
    {tally : Consumer} (hloop : LoopOk limits { s with loop, tally } (poppedOrders h)) :
    HandshakeInv limits index orders (h ++ [e]) { s with loop, tally } := by
  apply hI.concat
  · simpa only [hpush, hpop, Option.toList, List.append_nil] using hI.carries
  · rw [hpush]
    rfl
  · exact hI.pushing
  · exact fun hd => ⟨hI.done hd, .inr hd⟩
  · simpa only [hpop, Option.toList, List.append_nil] using hloop

theorem reader_inv (hI : HandshakeInv limits index orders h s) {e : HandshakeEvent cap}
    (hout : e.output = s.reader.2) :
    HandshakeInv limits index orders (h ++ [e]) s.reader.1 := by
  cases htodo : s.todo with
  | nil =>
    cases hdone : s.readerDone with
    | true =>
      have hs : s.reader = (s, .quiet) := by simp [Handshake.reader, htodo, hdone]
      rw [hs] at hout ⊢
      exact hI.quiet (by rw [hout]; rfl) (by rw [hout]; rfl) hI.loop
    | false =>
      have hs : s.reader = ({ s with readerDone := true }, .storedDone) := by
        simp [Handshake.reader, htodo, hdone]
      rw [hs] at hout ⊢
      apply hI.concat
      · simpa only [hout, Did.pushed?, Did.popped?, Option.toList, List.append_nil]
          using hI.carries
      · rw [hout]
        rfl
      · exact hI.pushing
      · exact fun _ => ⟨htodo, .inl hout⟩
      · simp only [hout, Did.popped?, Option.toList, List.append_nil]
        exact hI.loop.mono rfl rfl fun _ => ⟨rfl, rfl, rfl⟩
  | cons o rest =>
    -- the flag is not up yet, so nothing the consumer knows is about the indices
    have hdone : s.readerDone ≠ true := fun hd => by simp [hI.done hd] at htodo
    have hpushing := hI.pushing
    rw [htodo] at hpushing
    obtain ⟨-, -, hpop, hcase⟩ := push_frame hpushing
    have hcarries := hI.carries.step id (.producer o)
    rcases hcase with ⟨hact, hidle⟩ | ⟨hact, hpushing'⟩
    · have hs : s.reader =
          ({ s with ring := (push s.ring o).1, todo := rest }, .ring (push s.ring o).2) := by
        simp only [Handshake.reader, htodo, hact]
      rw [hs] at hout ⊢
      apply hI.concat
      · rw [hout]
        exact hcarries
      · rw [hout, hact, htodo]
        rfl
      · simp only [hidle, Pushing]
      · exact fun hd => absurd hd hdone
      · rw [hout, Did.popped?, hpop]
        simp only [Option.toList, List.append_nil]
        exact hI.loop.mono rfl rfl fun hd => absurd hd hdone
    · have hs : s.reader = ({ s with ring := (push s.ring o).1 }, .ring (push s.ring o).2) := by
        simp only [Handshake.reader, htodo]
        split
        · rename_i v hv
          simp [hv, Action.pushed?] at hact
        · rfl
      rw [hs] at hout ⊢
      apply hI.concat
      · rw [hout]
        exact hcarries
      · rw [hout, Did.pushed?, hact]
        rfl
      · change Pushing s.todo _
        rw [htodo]
        exact hpushing'
      · exact fun hd => absurd hd hdone
      · rw [hout, Did.popped?, hpop]
        simp only [Option.toList, List.append_nil]
        exact hI.loop.mono rfl rfl fun hd => absurd hd hdone

theorem consumer_inv (hI : HandshakeInv limits index orders h s) (headFirst : Bool)
    {e : HandshakeEvent cap} (hout : e.output = (s.consumer limits headFirst).2) :
    HandshakeInv limits index orders (h ++ [e]) (s.consumer limits headFirst).1 := by
  have hok := hI.loop
  unfold LoopOk at hok
  cases hl : s.loop with
  | readDone =>
    simp only [hl] at hok
    simp only [Handshake.consumer, hl] at hout ⊢
    refine hI.quiet (by rw [hout]; rfl) (by rw [hout]; rfl) ?_
    cases hdone : s.readerDone with
    | true => exact ⟨rfl, hok⟩
    | false => exact hok
  | readIndex =>
    simp only [hl] at hok
    simp only [Handshake.consumer, hl] at hout ⊢
    refine hI.quiet (by rw [hout]; rfl) (by rw [hout]; rfl) ?_
    cases headFirst with
    | true => exact ⟨hok.1, rfl, hok.2⟩
    | false => exact ⟨hok.1, rfl, hok.2⟩
  | readTail head =>
    simp only [hl] at hok
    simp only [Handshake.consumer, hl] at hout ⊢
    obtain ⟨hdone, hhead, htally⟩ := hok
    by_cases heq : head = s.ring.tail
    · rw [if_pos heq] at hout ⊢
      refine hI.quiet (by rw [hout]; rfl) (by rw [hout]; rfl) ?_
      exact ⟨hdone, heq.symm.trans hhead, htally⟩
    · rw [if_neg heq] at hout ⊢
      exact hI.quiet (by rw [hout]; rfl) (by rw [hout]; rfl) htally
  | readHead tail =>
    simp only [hl] at hok
    simp only [Handshake.consumer, hl] at hout ⊢
    obtain ⟨hdone, htail, htally⟩ := hok
    by_cases heq : s.ring.head = tail
    · rw [if_pos heq] at hout ⊢
      refine hI.quiet (by rw [hout]; rfl) (by rw [hout]; rfl) ?_
      exact ⟨hdone, htail.symm.trans heq.symm, htally⟩
    · rw [if_neg heq] at hout ⊢
      exact hI.quiet (by rw [hout]; rfl) (by rw [hout]; rfl) htally
  | pop =>
    simp only [hl] at hok
    obtain ⟨hprod, -, hpush, hcase⟩ := pop_frame s.ring
    have hcarries := hI.carries.step id .consumer
    -- whatever the step of `pop` did, only the ring and the place in the loop change
    have key : ∀ loop, s.consumer limits headFirst =
          ({ s with ring := (SpscRing.pop id s.ring).1, loop },
            .ring (SpscRing.pop id s.ring).2) →
        LoopOk limits { s with ring := (SpscRing.pop id s.ring).1, loop }
          (poppedOrders h ++ (SpscRing.pop id s.ring).2.popped?.toList) →
        HandshakeInv limits index orders (h ++ [e]) (s.consumer limits headFirst).1 := by
      intro loop hs hloop
      rw [hs] at hout ⊢
      apply hI.concat
      · rw [hout]
        exact hcarries
      · rw [hout, Did.pushed?, hpush]
        rfl
      · change Pushing s.todo (SpscRing.pop id s.ring).1.producer
        rw [hprod]
        exact hI.pushing
      · exact fun hd => ⟨hI.done hd, .inr hd⟩
      · rw [hout]
        exact hloop
    rcases hcase with ⟨i, o, hact, -⟩ | ⟨hact, -⟩ | hact | ⟨i, hact⟩
    · refine key (.work o) (by simp only [Handshake.consumer, hl, hact]) ?_
      rw [hact]
      exact ⟨poppedOrders h, rfl, hok⟩
    · refine key .readDone (by simp only [Handshake.consumer, hl, hact]) ?_
      rw [hact]
      exact (List.append_nil (poppedOrders h)).symm ▸ hok
    · refine key .pop (by simp only [Handshake.consumer, hl, hact]) ?_
      rw [hact]
      exact (List.append_nil (poppedOrders h)).symm ▸ hok
    · refine key .pop (by simp only [Handshake.consumer, hl, hact]) ?_
      rw [hact]
      exact (List.append_nil (poppedOrders h)).symm ▸ hok
  | work o =>
    simp only [hl] at hok
    simp only [Handshake.consumer, hl] at hout ⊢
    obtain ⟨before, houts, htally⟩ := hok
    refine hI.quiet (by rw [hout]; rfl) (by rw [hout]; rfl) ?_
    simp only [LoopOk]
    rw [houts, exec_concat, ← htally]
  | left =>
    have hs : s.consumer limits headFirst = (s, .quiet) := by simp only [Handshake.consumer, hl]
    rw [hs] at hout ⊢
    exact hI.quiet (by rw [hout]; rfl) (by rw [hout]; rfl) hI.loop

theorem handshake_inv (hI : HandshakeInv limits index orders h s) (t : Thread) :
    HandshakeInv limits index orders (h ++ [event (Handshake.step limits) s t])
      (Handshake.step limits s t).1 := by
  cases t with
  | reader => exact reader_inv hI rfl
  | consumer headFirst => exact consumer_inv hI headFirst rfl

theorem handshake_start (limits : RiskLimits) (index : UInt64)
    (slots : Fin cap.size.toNat → Order) (orders : List Order) :
    HandshakeInv limits index orders [] (Handshake.start index slots orders) where
  carries := start_carries index slots
  split := rfl
  pushing := trivial
  done := fun hd => by simp [Handshake.start] at hd
  stored := fun hd => by simp [Handshake.start] at hd
  loop := rfl

/-- The step that leaves the loop. -/
theorem loop_of_left {t : Thread} (hleft : (Handshake.step limits s t).2 = .left) :
    (Handshake.step limits s t).1.loop = .left := by
  cases t with
  | reader =>
    simp only [Handshake.step, Handshake.reader] at hleft ⊢
    split at hleft
    · split at hleft <;> simp at hleft
    · split at hleft <;> simp at hleft
  | consumer headFirst =>
    simp only [Handshake.step, Handshake.consumer] at hleft ⊢
    cases hl : s.loop with
    | readTail head =>
      simp only [hl] at hleft ⊢
      split at hleft
      · rw [if_pos ‹_›]
      · simp at hleft
    | readHead tail =>
      simp only [hl] at hleft ⊢
      split at hleft
      · rw [if_pos ‹_›]
      · simp at hleft
    | pop =>
      simp only [hl] at hleft
      split at hleft <;> simp at hleft
    | readDone | readIndex | work o | left => simp [hl] at hleft

end Invariant

/-! ## The account of the run -/

/-- What the consumer prints at the end: every order it consumed was rejected or
went to the engine, and the fills of those that did are counted. -/
theorem tally_counts (limits : RiskLimits) (orders : List Order) :
    (exec (consume limits) {} orders).rejected =
      UInt64.ofNat (orders.countP fun o => check limits o 0 ≠ .accept) ∧
    (exec (consume limits) {} orders).matched =
      UInt64.ofNat ((trace (consume limits) {} orders).map fun e => e.output.length).sum := by
  induction orders using List.reverseRecOn with
  | nil => exact ⟨rfl, rfl⟩
  | append_singleton orders o ih =>
    obtain ⟨hrejected, hmatched⟩ := ih
    rw [exec_concat, trace_concat]
    simp only [List.countP_append, List.map_append, List.sum_append, UInt64.ofNat_add]
    rw [← hrejected, ← hmatched]
    by_cases hacc : check limits o 0 = .accept
    · simp [consume, hacc]
    · simp [consume, hacc]

/-- **The shutdown handshake loses no order.** Whatever the reader pushes and
however the two threads interleave: when the consumer has left its loop, every
order was pushed and popped once, in the reader's order, the consumer's counters
are those of the whole sequence, and `g_reader_done` was stored before it left. -/
theorem handshake_loses_nothing {cap : Capacity} (limits : RiskLimits) (index : UInt64)
    (slots : Fin cap.size.toNat → Order) (orders : List Order) (turns : List Thread) :
    let h := trace (Handshake.step limits) (Handshake.start index slots orders) turns
    let s := exec (Handshake.step limits) (Handshake.start index slots orders) turns
    (s.loop = .left →
      pushedOrders h = orders ∧ poppedOrders h = orders ∧
      s.tally = exec (consume limits) {} orders ∧
      s.tally.rejected = UInt64.ofNat (orders.countP fun o => check limits o 0 ≠ .accept) ∧
      s.tally.matched =
        UInt64.ofNat ((trace (consume limits) {} orders).map fun e => e.output.length).sum) ∧
    ∀ before e after, h = before ++ e :: after → e.output = .left →
      poppedOrders before = orders ∧ ∃ e' ∈ before, e'.output = .storedDone := by
  intro h s
  have hleft : ∀ h' (s' : Handshake cap), HandshakeInv limits index orders h' s' →
      s'.loop = .left → pushedOrders h' = orders ∧ poppedOrders h' = orders ∧
        s'.readerDone = true ∧ s'.tally = exec (consume limits) {} orders := by
    intro h' s' hI hl
    have hok := hI.loop
    simp only [LoopOk, hl] at hok
    obtain ⟨hdone, hempty, htally⟩ := hok
    have hsplit := hI.split
    rw [hI.done hdone, List.append_nil] at hsplit
    have hall : poppedOrders h' = pushedOrders h' :=
      hI.carries.fifo.eq_of_length (hI.carries.empty_iff.mp hempty).symm
    rw [hall, hsplit] at htally
    exact ⟨hsplit, hall.trans hsplit, hdone, htally⟩
  constructor
  · intro hl
    have hI : HandshakeInv limits index orders h s :=
      history_induction (Handshake.step limits) (P := fun _ _ => True)
        (I := HandshakeInv limits index orders) (fun _ _ t _ hI => handshake_inv hI t) _
        (handshake_start limits index slots orders) turns (fun _ _ => trivial)
    obtain ⟨hpushed, hpopped, -, htally⟩ := hleft h s hI hl
    obtain ⟨hrejected, hmatched⟩ := tally_counts limits orders
    exact ⟨hpushed, hpopped, htally, htally ▸ hrejected, htally ▸ hmatched⟩
  · intro before e after hrun
    refine event_of_history (Handshake.step limits) (P := fun _ _ => True)
      (I := HandshakeInv limits index orders)
      (Q := fun h' e => e.output = .left →
        poppedOrders h' = orders ∧ ∃ e' ∈ h', e'.output = .storedDone)
      (fun _ _ t _ hI => handshake_inv hI t) ?_ _ (handshake_start limits index slots orders) turns
      (fun _ _ => trivial) before after e hrun
    intro h' s' t _ hI ht
    have hI' := handshake_inv hI t
    obtain ⟨-, hpopped, hdone, -⟩ := hleft _ _ hI' (loop_of_left ht)
    obtain ⟨e', he', hst⟩ := hI'.stored hdone
    rw [poppedOrders_concat, ht] at hpopped
    refine ⟨by simpa [Did.popped?] using hpopped, e', ?_, hst⟩
    rcases List.mem_append.mp he' with he' | he'
    · exact he'
    · obtain rfl := List.mem_singleton.mp he'
      rw [ht] at hst
      simp at hst

/-- One order through a ring of two slots: the consumer looks before the push has
begun, and again once the flag is up. -/
theorem handshake_loses_nothing_one :
    let o : Order := { id := 7, symbol := 1, side := .buy, type := .limit, price := 100, qty := 5 }
    let cap : Capacity := ⟨2, by decide, by decide⟩
    let start : Handshake cap := Handshake.start 0 (fun _ => {}) [o]
    let turns : List Thread := List.replicate 4 (.consumer true) ++ List.replicate 5 .reader ++
      List.replicate 11 (.consumer false)
    (exec (Handshake.step {}) start turns).loop = .left ∧
    poppedOrders (trace (Handshake.step {}) start turns) = [o] := by
  intro o cap start turns
  have hleft : (exec (Handshake.step {}) start turns).loop = .left := by decide
  exact ⟨hleft, ((handshake_loses_nothing {} 0 (fun _ => {}) [o] turns).1 hleft).2.1⟩

end Lloms.Feed
