import Lloms.Feed.Handshake
import Lloms.Ring.SpscWeak

/-! The shutdown handshake under the memory orders it is written with. The consumer loads
`g_reader_done` relaxed, so it may get the flag without what the reader did before storing
it. It then may take the ring for empty when orders are left in it, and leave. -/
namespace Lloms.Feed
open Lib SpscRing RiskGate

abbrev doneFlag : Loc Unit := .other ()

/-- The two threads. The reader is the producer of the ring. -/
structure WeakHandshake (cap : Capacity) where
  ring : Weak cap Order fun _ : Unit => Bool
  todo : List Order
  stored : Bool := false
  loop : Loop := .readDone
  tally : Consumer := {}

namespace WeakHandshake

variable {cap : Capacity}

def reader (s : WeakHandshake cap) (lag : Nat) : WeakHandshake cap × Did cap :=
  match s.todo with
  | [] =>
    if s.stored then (s, .quiet)
    else
      -- the store is sequentially consistent, but no other access of the two loops is
      let memory := s.ring.memory.store .producer doneFlag true
      ({ s with ring := { s.ring with memory }, stored := true }, .storedDone)
  | o :: rest =>
    let r := s.ring.push o lag
    match r.2 with
    | .pushed _ => ({ s with ring := r.1, todo := rest }, .ring r.2)
    | _ => ({ s with ring := r.1 }, .ring r.2)

/-- A load by the consumer thread outside of `pop`. -/
def load (s : WeakHandshake cap) (l : Loc Unit) (order : LoadOrder) (lag : Nat) :
    WeakHandshake cap × Loc.Val (fun _ : Unit => Bool) l :=
  let r := s.ring.memory.load .consumer l order lag
  ({ s with ring := { s.ring with memory := r.1 } }, r.2)

/-- The flag is loaded in the given order, which in the source is `relaxed`. -/
def consumer (order : LoadOrder) (limits : RiskLimits) (s : WeakHandshake cap) (headFirst : Bool)
    (lag : Nat) : WeakHandshake cap × Did cap :=
  match s.loop with
  | .readDone =>
    let r := s.load doneFlag order lag
    let done : Bool := r.2
    ({ r.1 with loop := if done then .readIndex else .pop }, .quiet)
  | .readIndex =>
    if headFirst then
      let r := s.load .head .acquire lag
      ({ r.1 with loop := .readTail r.2 }, .quiet)
    else
      let r := s.load .tail .acquire lag
      ({ r.1 with loop := .readHead r.2 }, .quiet)
  | .readTail head =>
    let r := s.load .tail .acquire lag
    let tail : UInt64 := r.2
    if head = tail then ({ r.1 with loop := .left }, .left)
    else ({ r.1 with loop := .pop }, .quiet)
  | .readHead tail =>
    let r := s.load .head .acquire lag
    let head : UInt64 := r.2
    if head = tail then ({ r.1 with loop := .left }, .left)
    else ({ r.1 with loop := .pop }, .quiet)
  | .pop =>
    let r := s.ring.pop id lag
    match r.2 with
    | .popped _ o => ({ s with ring := r.1, loop := .work o }, .ring r.2)
    | .popFailed => ({ s with ring := r.1, loop := .readDone }, .ring r.2)
    | _ => ({ s with ring := r.1 }, .ring r.2)
  | .work o => ({ s with tally := (consume limits s.tally o).1, loop := .readDone }, .quiet)
  | .left => (s, .quiet)

def step (order : LoadOrder) (limits : RiskLimits) (s : WeakHandshake cap) :
    Thread × Nat → WeakHandshake cap × Did cap
  | (.reader, lag) => s.reader lag
  | (.consumer headFirst, lag) => s.consumer order limits headFirst lag

def start (index : UInt64) (slots : Fin cap.size.toNat → Order) (orders : List Order) :
    WeakHandshake cap :=
  { ring := Weak.start cap index slots fun _ => false, todo := orders }

end WeakHandshake

/-! ## What a history says -/

abbrev WeakHandshakeEvent (cap : Capacity) :=
  Lib.Event (WeakHandshake cap) (Thread × Nat) (Did cap)

namespace WeakHandshake

variable {cap : Capacity}

/-- The orders whose push has returned true. -/
def pushed (h : List (WeakHandshakeEvent cap)) : List Order :=
  h.filterMap fun e => e.output.pushed?

/-- The orders whose pop has returned true. -/
def popped (h : List (WeakHandshakeEvent cap)) : List Order :=
  h.filterMap fun e => e.output.popped?

theorem pushed_concat (h : List (WeakHandshakeEvent cap)) (e : WeakHandshakeEvent cap) :
    pushed (h ++ [e]) = pushed h ++ e.output.pushed?.toList :=
  filterMap_output_concat Did.pushed? h e

theorem popped_concat (h : List (WeakHandshakeEvent cap)) (e : WeakHandshakeEvent cap) :
    popped (h ++ [e]) = popped h ++ e.output.popped?.toList :=
  filterMap_output_concat Did.popped? h e

/-! ## The invariant -/

/-- The flag is up in one message, which tells of the last push. -/
structure FlagOk (n : Nat) (s : WeakHandshake cap) : Prop where
  stores : s.ring.memory.stores doneFlag = s.stored.toNat
  up : ∀ i ≤ s.ring.memory.stores doneFlag, (s.ring.memory.message doneFlag i).1 = true ↔ 0 < i
  told : ∀ i ≤ s.ring.memory.stores doneFlag, 0 < i →
    n ≤ (s.ring.memory.message doneFlag i).2.1 .head
  todo : s.stored = true → s.todo = []

variable (order : LoadOrder) (limits : RiskLimits) (index : UInt64) (orders : List Order)

/-- What the consumer thread knows where it stands, after it has popped `outs`. Of the
pushes it knows by the flag only if it has acquired it. -/
def LoopOk (s : WeakHandshake cap) (outs : List Order) : Prop :=
  match s.loop with
  | .readDone | .pop => s.tally = exec (consume limits) {} outs
  | .readIndex => s.tally = exec (consume limits) {} outs ∧ s.todo = [] ∧
    (order = .acquire → orders.length ≤ (s.ring.memory.view .consumer).1 .head)
  | .readTail head => s.tally = exec (consume limits) {} outs ∧ s.todo = [] ∧
    (order = .acquire → head = index + UInt64.ofNat orders.length)
  | .readHead tail => s.tally = exec (consume limits) {} outs ∧ s.todo = [] ∧
    tail = index + UInt64.ofNat outs.length ∧
    (order = .acquire → orders.length ≤ (s.ring.memory.view .consumer).1 .head)
  | .work o => ∃ before, outs = before ++ [o] ∧ s.tally = exec (consume limits) {} before
  | .left => s.tally = exec (consume limits) {} outs ∧ s.todo = [] ∧
    (order = .acquire → orders.length ≤ outs.length)

/-- Both threads after the history `h`. -/
structure Inv (h : List (WeakHandshakeEvent cap)) (s : WeakHandshake cap) : Prop where
  ring : s.ring.Inv index (pushed h) (popped h)
  split : pushed h ++ s.todo = orders
  pushing : Pushing s.todo s.ring.producer
  flag : FlagOk orders.length s
  loop : LoopOk order limits index orders s (popped h)

variable {order limits index orders} {h : List (WeakHandshakeEvent cap)} {s : WeakHandshake cap}

/-- What the consumer knows survives a step of the reader. -/
theorem LoopOk.mono {t : WeakHandshake cap} {outs : List Order}
    (hok : LoopOk order limits index orders s outs) (hloop : t.loop = s.loop)
    (htally : t.tally = s.tally) (htodo : s.todo = [] → t.todo = [])
    (hview : t.ring.memory.view .consumer = s.ring.memory.view .consumer) :
    LoopOk order limits index orders t outs := by
  unfold LoopOk at hok ⊢
  rw [hloop, htally, hview]
  cases hl : s.loop with
  | readDone | pop | work o =>
    rw [hl] at hok
    exact hok
  | readIndex | readTail head | readHead tail | left =>
    rw [hl] at hok
    exact ⟨hok.1, htodo hok.2.1, hok.2.2⟩

/-- The invariant after one more step `e` that leads to `t`. -/
theorem Inv.concat (hI : Inv order limits index orders h s) {e : WeakHandshakeEvent cap}
    {t : WeakHandshake cap}
    (hring : t.ring.Inv index (pushed h ++ e.output.pushed?.toList)
      (popped h ++ e.output.popped?.toList))
    (hsplit : e.output.pushed?.toList ++ t.todo = s.todo)
    (hpushing : Pushing t.todo t.ring.producer) (hflag : FlagOk orders.length t)
    (hloop : LoopOk order limits index orders t (popped h ++ e.output.popped?.toList)) :
    Inv order limits index orders (h ++ [e]) t := by
  rw [← pushed_concat, ← popped_concat] at hring
  rw [← popped_concat] at hloop
  refine ⟨hring, ?_, hpushing, hflag, hloop⟩
  rw [pushed_concat, List.append_assoc, hsplit]
  exact hI.split

/-- A step of the consumer outside of `pop`. -/
theorem Inv.quiet (hI : Inv order limits index orders h s) {e : WeakHandshakeEvent cap}
    (hpush : e.output.pushed? = none) (hpop : e.output.popped? = none) {t : WeakHandshake cap}
    (hring : t.ring.Inv index (pushed h) (popped h)) (hproducer : t.ring.producer = s.ring.producer)
    (htodo : t.todo = s.todo) (hflag : FlagOk orders.length t)
    (hloop : LoopOk order limits index orders t (popped h)) :
    Inv order limits index orders (h ++ [e]) t := by
  apply hI.concat
  · simpa only [hpush, hpop, Option.toList, List.append_nil] using hring
  · rw [hpush]
    exact htodo
  · rw [hproducer, htodo]
    exact hI.pushing
  · exact hflag
  · simpa only [hpop, Option.toList, List.append_nil] using hloop

theorem flagOk_start (n : Nat) (index : UInt64) (slots : Fin cap.size.toNat → Order)
    (orders : List Order) : FlagOk n (start index slots orders) where
  stores := rfl
  up i hi := by
    obtain rfl : i = 0 := Nat.le_zero.mp hi
    exact ⟨Bool.noConfusion, fun h => absurd h (Nat.lt_irrefl 0)⟩
  told i hi h := absurd h (Nat.not_lt.mpr hi)
  todo := Bool.noConfusion

theorem start_inv (order : LoadOrder) (limits : RiskLimits) (index : UInt64)
    (slots : Fin cap.size.toNat → Order) (orders : List Order) :
    Inv order limits index orders [] (start index slots orders) where
  ring := Weak.start_inv index slots _
  split := rfl
  pushing := trivial
  flag := flagOk_start _ index slots orders
  loop := rfl

/-! ## The reader -/

/-- The steps of the ring leave the flag alone. -/
theorem FlagOk.congr {n : Nat} {t : WeakHandshake cap} (hflag : FlagOk n s)
    (hstores : t.ring.memory.stores doneFlag = s.ring.memory.stores doneFlag)
    (hmessage : t.ring.memory.message doneFlag = s.ring.memory.message doneFlag)
    (hstored : t.stored = s.stored) (htodo : t.stored = true → t.todo = []) : FlagOk n t where
  stores := by rw [hstores, hstored, hflag.stores]
  up := by
    rw [hstores, hmessage]
    exact hflag.up
  told := by
    rw [hstores, hmessage]
    exact hflag.told
  todo := htodo

/-- The flag is stored when every order has been pushed. -/
theorem FlagOk.store {n : Nat} (hflag : FlagOk n s) (hstored : s.stored = false)
    (htodo : s.todo = []) (hn : n ≤ (s.ring.memory.view .producer).1 .head) :
    FlagOk n { s with
      ring := { s.ring with memory := s.ring.memory.store .producer doneFlag true }
      stored := true } := by
  have hzero : s.ring.memory.stores doneFlag = 0 := by
    rw [hflag.stores, hstored]
    rfl
  have hone : (s.ring.memory.store .producer doneFlag true).stores doneFlag = 1 := by
    rw [Memory.store_stores_self, hzero]
  refine ⟨hone, fun i hi => ?_, fun i hi hpos => ?_, fun _ => htodo⟩
  · rcases Memory.store_message_cases hi with ⟨hold, heq⟩ | ⟨-, rfl, -⟩
    · dsimp only
      rw [heq]
      exact hflag.up i hold
    · dsimp only
      rw [Memory.store_message_new]
      exact ⟨fun _ => Nat.succ_pos _, fun _ => rfl⟩
  · rcases Memory.store_message_cases hi with ⟨hold, -⟩ | ⟨-, -, heq⟩
    · omega
    · dsimp only
      rw [heq, Memory.store_seen_of_ne (by simp)]
      exact hn

/-- It is the order at hand that gets pushed. -/
theorem push_frame {ring : Weak cap Order fun _ : Unit => Bool} {values outs : List Order}
    {o : Order} {rest : List Order} (hring : ring.Inv index values outs)
    (hpushing : Pushing (o :: rest) ring.producer) (lag : Nat) :
    ((ring.push o lag).2 = .pushed o ∧ (ring.push o lag).1.producer = .idle) ∨
      ((ring.push o lag).2.pushed? = none ∧ Pushing (o :: rest) (ring.push o lag).1.producer) := by
  have hstep := hring.pushStep o lag
  generalize ring.push o lag = r at hstep ⊢
  cases hstep with
  | load hp => exact .inr ⟨rfl, rfl⟩
  | full hp hfull => exact .inr ⟨rfl, trivial⟩
  | room hp hroom =>
    rw [hp] at hpushing
    exact .inr ⟨rfl, hpushing⟩
  | write hp =>
    rw [hp] at hpushing
    exact .inr ⟨rfl, hpushing⟩
  | publish hp =>
    rw [hp] at hpushing
    obtain rfl := Option.some.inj hpushing
    exact .inl ⟨rfl, rfl⟩

theorem reader_inv (hI : Inv order limits index orders h s) (lag : Nat)
    {e : WeakHandshakeEvent cap} (hout : e.output = (s.reader lag).2) :
    Inv order limits index orders (h ++ [e]) (s.reader lag).1 := by
  cases htodo : s.todo with
  | nil =>
    cases hstored : s.stored with
    | true =>
      have hs : s.reader lag = (s, .quiet) := by simp [reader, htodo, hstored]
      rw [hs] at hout ⊢
      exact hI.quiet (by rw [hout]; rfl) (by rw [hout]; rfl) hI.ring rfl rfl hI.flag hI.loop
    | false =>
      have hs : s.reader lag = ({ s with
          ring := { s.ring with memory := s.ring.memory.store .producer doneFlag true }
          stored := true }, .storedDone) := by
        simp [reader, htodo, hstored]
      rw [hs] at hout ⊢
      have hview : (s.ring.memory.view .producer).1 .head = (pushed h).length :=
        hI.ring.views.own .producer
      have hsplit := hI.split
      rw [htodo, List.append_nil] at hsplit
      refine hI.quiet (by rw [hout]; rfl) (by rw [hout]; rfl) (hI.ring.store_other _ _ _) rfl rfl
        (hI.flag.store hstored htodo (by rw [hview, hsplit])) (hI.loop.mono rfl rfl id ?_)
      exact Memory.store_view_of_ne Role.noConfusion
  | cons o rest =>
    -- the flag is not up yet, so nothing the consumer knows is about the indices
    have hstored : s.stored ≠ true := fun hd => by simp [hI.flag.todo hd] at htodo
    have hpushing := hI.pushing
    rw [htodo] at hpushing
    obtain ⟨-, hview, hpop⟩ := s.ring.push_consumer o lag
    obtain ⟨hstores, hmessage⟩ := s.ring.push_other o lag ()
    have hring := hI.ring.push o lag
    have hfalse : s.todo = [] → rest = [] := fun hnil => by simp [hnil] at htodo
    rcases push_frame hI.ring hpushing lag with ⟨hact, hidle⟩ | ⟨hact, hpushing'⟩
    · have hs : s.reader lag = ({ s with
          ring := (s.ring.push o lag).1
          todo := rest }, .ring (s.ring.push o lag).2) := by
        simp only [reader, htodo, hact]
      rw [hs] at hout ⊢
      apply hI.concat
      · rw [hout]
        exact hring
      · rw [hout, hact, htodo]
        rfl
      · simp only [hidle, Pushing]
      · exact hI.flag.congr hstores hmessage rfl fun hd => absurd hd hstored
      · rw [hout, Did.popped?, hpop]
        simp only [Option.toList, List.append_nil]
        exact hI.loop.mono rfl rfl hfalse hview
    · have hs : s.reader lag =
          ({ s with ring := (s.ring.push o lag).1 }, .ring (s.ring.push o lag).2) := by
        simp only [reader, htodo]
        split
        · rename_i v hv
          simp [hv, Action.pushed?] at hact
        · rfl
      rw [hs] at hout ⊢
      apply hI.concat
      · rw [hout]
        exact hring
      · rw [hout, Did.pushed?, hact]
        rfl
      · change Pushing s.todo _
        rw [htodo]
        exact hpushing'
      · exact hI.flag.congr hstores hmessage rfl hI.flag.todo
      · rw [hout, Did.popped?, hpop]
        simp only [Option.toList, List.append_nil]
        exact hI.loop.mono rfl rfl id hview

/-! ## The consumer -/

/-- When the flag is up, no push is left. Who has acquired it knows of them all. -/
theorem Inv.load_done (hI : Inv order limits index orders h s) {lag : Nat}
    (hdone : (s.load doneFlag order lag).2 = true) :
    s.todo = [] ∧ (order = .acquire → orders.length ≤
      ((s.load doneFlag order lag).1.ring.memory.view .consumer).1 .head) := by
  have hle := hI.ring.views.ok.index_le .consumer doneFlag lag
  have hpos : 0 < s.ring.memory.index .consumer doneFlag lag := (hI.flag.up _ hle).mp hdone
  constructor
  · refine hI.flag.todo (Bool.eq_true_of_not_eq_false fun hfalse => ?_)
    have hzero := hI.flag.stores
    rw [hfalse, Bool.toNat_false] at hzero
    omega
  · rintro rfl
    have hview := hI.ring.views.ok.load_view .consumer doneFlag lag
    change orders.length ≤ ((s.ring.memory.load .consumer doneFlag .acquire lag).1.view .consumer).1
      .head
    rw [hview]
    exact (hI.flag.told _ hle hpos).trans (le_max_right _ _)

theorem Inv.load_tail (hI : Inv order limits index orders h s) (lag : Nat) :
    (s.load .tail .acquire lag).2 = index + UInt64.ofNat (popped h).length := by
  have hown := hI.ring.own_index .consumer lag
  have hcount := hI.ring.views.stores .consumer
  have hnumbered := hI.ring.views.numbered .consumer _ le_rfl
  change indexAt s.ring.memory .consumer (s.ring.memory.index .consumer .tail lag) = _
  rw [hown, hcount]
  exact hnumbered

theorem Inv.load_head (hI : Inv order limits index orders h s) (lag : Nat) :
    (s.load .head .acquire lag).2 =
      index + UInt64.ofNat (s.ring.memory.index .consumer .head lag) :=
  hI.ring.views.numbered .producer _ (hI.ring.views.index_le .consumer .producer lag)

theorem Inv.length_le (hI : Inv order limits index orders h s) :
    (pushed h).length ≤ orders.length ∧ (s.todo = [] → (pushed h).length = orders.length) := by
  have hsplit := congrArg List.length hI.split
  rw [List.length_append] at hsplit
  refine ⟨by omega, fun htodo => ?_⟩
  rw [htodo] at hsplit
  exact hsplit

/-- A load of `empty()`. -/
theorem Inv.acquired (hI : Inv order limits index orders h s) {e : WeakHandshakeEvent cap}
    (hpush : e.output.pushed? = none) (hpop : e.output.popped? = none) {l : Loc Unit} {lag : Nat}
    {loop : Loop} (hloop : LoopOk order limits index orders
      { (s.load l .acquire lag).1 with loop } (popped h)) :
    Inv order limits index orders (h ++ [e]) { (s.load l .acquire lag).1 with loop } :=
  hI.quiet hpush hpop (hI.ring.acquire .consumer l lag) rfl rfl
    (hI.flag.congr rfl rfl rfl hI.flag.todo) hloop

theorem consumer_inv (hI : Inv order limits index orders h s) (headFirst : Bool) (lag : Nat)
    {e : WeakHandshakeEvent cap} (hout : e.output = (s.consumer order limits headFirst lag).2) :
    Inv order limits index orders (h ++ [e]) (s.consumer order limits headFirst lag).1 := by
  have hok := hI.loop
  unfold LoopOk at hok
  cases hl : s.loop with
  | readDone =>
    simp only [hl] at hok
    simp only [consumer, hl] at hout ⊢
    refine hI.quiet (by rw [hout]; rfl) (by rw [hout]; rfl)
      (hI.ring.load_other .consumer () order lag) rfl rfl
      (hI.flag.congr rfl rfl rfl hI.flag.todo) ?_
    by_cases hdone : (s.load doneFlag order lag).2 = true
    · rw [if_pos hdone]
      exact ⟨hok, hI.load_done hdone⟩
    · rw [if_neg hdone]
      exact hok
  | readIndex =>
    simp only [hl] at hok
    obtain ⟨htally, htodo, hknown⟩ := hok
    cases headFirst with
    | true =>
      have hs : s.consumer order limits true lag = ({ (s.load .head .acquire lag).1 with
          loop := .readTail (s.load .head .acquire lag).2 }, .quiet) := by
        simp only [consumer, hl, if_true]
      rw [hs] at hout ⊢
      refine hI.acquired (by rw [hout]; rfl) (by rw [hout]; rfl) ⟨htally, htodo, fun horder => ?_⟩
      have hseen := s.ring.memory.seen_le_index .consumer .head lag
      have hle := hI.ring.views.index_le .consumer .producer lag
      have hn : s.ring.memory.index .consumer .head lag = orders.length :=
        le_antisymm (hle.trans hI.length_le.1) ((hknown horder).trans hseen)
      rw [hI.load_head, hn]
    | false =>
      have hs : s.consumer order limits false lag = ({ (s.load .tail .acquire lag).1 with
          loop := .readHead (s.load .tail .acquire lag).2 }, .quiet) := by
        simp only [consumer, hl, Bool.false_eq_true, if_false]
      have hgrows : (s.ring.memory.view .consumer).1 .head ≤
          ((s.ring.memory.load .consumer .tail .acquire lag).1.view .consumer).1 .head :=
        (hI.ring.views.ok.view_le_load .consumer).1 .head
      rw [hs] at hout ⊢
      exact hI.acquired (by rw [hout]; rfl) (by rw [hout]; rfl)
        ⟨htally, htodo, hI.load_tail lag, fun horder => (hknown horder).trans hgrows⟩
  | readTail head =>
    simp only [hl] at hok
    obtain ⟨htally, htodo, hknown⟩ := hok
    simp only [consumer, hl] at hout ⊢
    by_cases heq : head = (s.load .tail .acquire lag).2
    · rw [if_pos heq] at hout ⊢
      refine hI.acquired (by rw [hout]; rfl) (by rw [hout]; rfl) ⟨htally, htodo, fun horder => ?_⟩
      rw [hknown horder, hI.load_tail, ← hI.length_le.2 htodo] at heq
      obtain ⟨unread, hstrong⟩ := hI.ring.strong
      have hfifo := hstrong.fifo.length_le
      have hroom := hstrong.room
      have hword := cap.lt_word
      rw [← hI.length_le.2 htodo, add_ofNat_inj hfifo (by omega) heq.symm]
    · rw [if_neg heq] at hout ⊢
      exact hI.acquired (by rw [hout]; rfl) (by rw [hout]; rfl) htally
  | readHead tail =>
    simp only [hl] at hok
    obtain ⟨htally, htodo, rfl, hknown⟩ := hok
    simp only [consumer, hl] at hout ⊢
    by_cases heq : (s.load .head .acquire lag).2 = index + UInt64.ofNat (popped h).length
    · rw [if_pos heq] at hout ⊢
      refine hI.acquired (by rw [hout]; rfl) (by rw [hout]; rfl) ⟨htally, htodo, fun horder => ?_⟩
      have hseen := s.ring.memory.seen_le_index .consumer .head lag
      have hempty : s.ring.memory.index .consumer .head lag = (popped h).length := by
        rw [← hI.ring.empty_iff, hI.ring.latest_tail]
        exact heq.symm
      exact ((hknown horder).trans hseen).trans (le_of_eq hempty)
    · rw [if_neg heq] at hout ⊢
      exact hI.acquired (by rw [hout]; rfl) (by rw [hout]; rfl) htally
  | pop =>
    simp only [hl] at hok
    obtain ⟨hproducer, hpush⟩ := s.ring.pop_producer id lag
    obtain ⟨hstores, hmessage⟩ := s.ring.pop_other id lag ()
    have hring := hI.ring.pop id lag
    -- whatever the step of `pop` did, only the ring and the place in the loop change
    have key : ∀ loop, s.consumer order limits headFirst lag =
          ({ s with ring := (s.ring.pop id lag).1, loop }, .ring (s.ring.pop id lag).2) →
        LoopOk order limits index orders { s with ring := (s.ring.pop id lag).1, loop }
          (popped h ++ (s.ring.pop id lag).2.popped?.toList) →
        Inv order limits index orders (h ++ [e]) (s.consumer order limits headFirst lag).1 := by
      intro loop hs hloop
      rw [hs] at hout ⊢
      apply hI.concat
      · rw [hout]
        exact hring
      · rw [hout, Did.pushed?, hpush]
        rfl
      · change Pushing s.todo (s.ring.pop id lag).1.producer
        rw [hproducer]
        exact hI.pushing
      · exact hI.flag.congr hstores hmessage rfl hI.flag.todo
      · rw [hout]
        exact hloop
    cases hact : (s.ring.pop id lag).2 with
    | popped i o =>
      refine key (.work o) (by simp only [consumer, hl, hact]) ?_
      rw [hact]
      exact ⟨popped h, rfl, hok⟩
    | popFailed =>
      refine key .readDone (by simp only [consumer, hl, hact]) ?_
      rw [hact]
      exact (List.append_nil (popped h)).symm ▸ hok
    | silent | wrote i | pushed v | pushFailed | read i =>
      refine key .pop (by simp only [consumer, hl, hact]) ?_
      rw [hact]
      exact (List.append_nil (popped h)).symm ▸ hok
  | work o =>
    simp only [hl] at hok
    simp only [consumer, hl] at hout ⊢
    obtain ⟨before, houts, htally⟩ := hok
    refine hI.quiet (by rw [hout]; rfl) (by rw [hout]; rfl) hI.ring rfl rfl
      (hI.flag.congr rfl rfl rfl hI.flag.todo) ?_
    simp only [LoopOk]
    rw [houts, exec_concat, ← htally]
  | left =>
    have hs : s.consumer order limits headFirst lag = (s, .quiet) := by simp only [consumer, hl]
    rw [hs] at hout ⊢
    exact hI.quiet (by rw [hout]; rfl) (by rw [hout]; rfl) hI.ring rfl rfl hI.flag hI.loop

theorem step_inv (hI : Inv order limits index orders h s) (t : Thread × Nat) :
    Inv order limits index orders (h ++ [event (step order limits) s t])
      (step order limits s t).1 := by
  obtain ⟨_ | headFirst, lag⟩ := t
  · exact reader_inv hI lag rfl
  · exact consumer_inv hI headFirst lag rfl

/-! ## Runs that leave early -/

/-- How many of the four accesses of a push have been made. -/
def pushStage : Producer Order → Nat
  | .idle => 0
  | .loadedHead _ _ => 1
  | .checked _ _ => 2
  | .copied _ _ => 3

def popStage : SpscRing.Consumer Order → Nat
  | .idle => 0
  | .loadedTail _ => 1
  | .checked _ => 2
  | .copied _ _ => 3

/-- Where the consumer stands in a round in which it pops an order. -/
def loopStage : Loop → Nat
  | .readDone => 0
  | .pop => 1
  | .work _ => 2
  | _ => 3

theorem loopStage_eq_zero {l : Loop} : loopStage l = 0 ↔ l = .readDone := by
  cases l <;> simp [loopStage]

theorem loopStage_eq_one {l : Loop} : loopStage l = 1 ↔ l = .pop := by
  cases l <;> simp [loopStage]

theorem loopStage_eq_two {l : Loop} : loopStage l = 2 ↔ ∃ o, l = .work o := by
  cases l <;> simp [loopStage]

section Stages

variable {ring : Weak cap Order fun _ : Unit => Bool} {values outs : List Order} {o : Order}

/-- A push that sees the pops there are, and so finds room. -/
theorem push_stage (hring : ring.Inv index values outs)
    (hroom : values.length < outs.length + cap.size.toNat) :
    pushStage (ring.push o 0).1.producer = (pushStage ring.producer + 1) % 4 ∧
      (ring.push o 0).2.pushed?.toList.length = (pushStage ring.producer + 1) / 4 := by
  have hstep := hring.pushStep o 0
  have hlast : ring.memory.stores .tail ≤ ring.memory.index .producer .tail 0 := le_max_left _ _
  have hcount : ring.memory.stores .tail = outs.length := hring.views.stores .consumer
  generalize ring.push o 0 = r at hstep ⊢
  cases hstep with
  | full hp hfull => omega
  | load hp | room hp hfree | write hp | publish hp =>
    simp [hp, pushStage, Action.pushed?]

/-- A pop that sees the pushes there are, and so finds an order. -/
theorem pop_stage (hring : ring.Inv index values outs) (hfilled : outs.length < values.length) :
    popStage (ring.pop id 0).1.consumer = (popStage ring.consumer + 1) % 4 ∧
      (ring.pop id 0).2.popped?.toList.length = (popStage ring.consumer + 1) / 4 ∧
      (ring.pop id 0).2 ≠ .popFailed := by
  have hstep := hring.popStep id 0
  have hlast : ring.memory.stores .head ≤ ring.memory.index .consumer .head 0 := le_max_left _ _
  have hcount : ring.memory.stores .head = values.length := hring.views.stores .producer
  generalize ring.pop id 0 = r at hstep ⊢
  cases hstep with
  | empty hc hempty => omega
  | load hc | filled hc hmore | read hc | free hc =>
    simp [hc, popStage, Action.popped?]

end Stages

/-- A run has come to `j` pushes and `k` pops, of the pushes the consumer has seen at most
`bound`, and the flag is not up. -/
structure Calm (order : LoadOrder) (limits : RiskLimits) (index : UInt64) (orders : List Order)
    (j k bound p c l : Nat) (h : List (WeakHandshakeEvent cap)) (s : WeakHandshake cap) : Prop where
  inv : Inv order limits index orders h s
  pushes : (pushed h).length = j
  pops : (popped h).length = k
  seen : (s.ring.memory.view .consumer).1 .head ≤ bound
  producer : pushStage s.ring.producer = p
  consumer : popStage s.ring.consumer = c
  loop : loopStage s.loop = l
  stored : s.stored = false

section Calm

variable {j k bound p c l : Nat}

theorem Calm.todo (hC : Calm order limits index orders j k bound p c l h s) :
    s.todo = orders.drop j := by
  rw [← hC.inv.split, ← hC.pushes, List.drop_left]

/-- A step of the reader. -/
theorem Calm.reader (hC : Calm order limits index orders j k bound p c l h s)
    (hj : j < orders.length) (hroom : j < k + cap.size.toNat) :
    Calm order limits index orders (j + (p + 1) / 4) k bound ((p + 1) % 4) c l
      (h ++ [event (step order limits) s (.reader, 0)]) (step order limits s (.reader, 0)).1 := by
  have htodo : s.todo = orders[j] :: orders.drop (j + 1) := by
    rw [hC.todo, List.drop_eq_getElem_cons hj]
  generalize orders[j] = o at htodo
  obtain ⟨hstage, hlength⟩ :=
    push_stage (o := o) hC.inv.ring (by rw [hC.pushes, hC.pops]; exact hroom)
  obtain ⟨hconsumer, hview, hpop⟩ := s.ring.push_consumer o 0
  rw [hC.producer] at hstage hlength
  have hs : (s.reader 0).2 = .ring (s.ring.push o 0).2 ∧
      (s.reader 0).1.ring = (s.ring.push o 0).1 ∧ (s.reader 0).1.loop = s.loop ∧
      (s.reader 0).1.stored = s.stored := by
    simp only [WeakHandshake.reader, htodo]
    split <;> exact ⟨rfl, rfl, rfl, rfl⟩
  obtain ⟨hout, hring, hloop, hstored⟩ := hs
  refine ⟨step_inv hC.inv _, ?_, ?_, ?_, ?_, ?_, ?_, ?_⟩
  · rw [pushed_concat, List.length_append, hC.pushes]
    exact congrArg (j + ·) ((congrArg (fun d => d.pushed?.toList.length) hout).trans hlength)
  · rw [popped_concat, List.length_append, hC.pops]
    have hnone : (s.reader 0).2.popped? = none := by rw [hout, Did.popped?, hpop]
    exact congrArg (fun d => k + d.toList.length) hnone
  · change ((s.reader 0).1.ring.memory.view .consumer).1 .head ≤ bound
    rw [hring, hview]
    exact hC.seen
  · change pushStage (s.reader 0).1.ring.producer = _
    rw [hring, hstage]
  · change popStage (s.reader 0).1.ring.consumer = c
    rw [hring, hconsumer]
    exact hC.consumer
  · exact (congrArg loopStage hloop).trans hC.loop
  · exact hstored.trans hC.stored

/-- A step of the consumer, of which the rest of the account follows. -/
theorem Calm.consumer_step (hC : Calm order limits index orders j k bound p c l h s)
    {headFirst : Bool} {t : WeakHandshake cap} {d : Did cap} {n c' l' : Nat}
    (hs : s.consumer order limits headFirst 0 = (t, d)) (hpush : d.pushed? = none)
    (hpop : d.popped?.toList.length = n) (hproducer : t.ring.producer = s.ring.producer)
    (hconsumer : popStage t.ring.consumer = c') (hloop : loopStage t.loop = l')
    (hstored : t.stored = s.stored) :
    Calm order limits index orders j (k + n) j p c' l'
      (h ++ [event (step order limits) s (.consumer headFirst, 0)])
      (step order limits s (.consumer headFirst, 0)).1 := by
  have hI := step_inv hC.inv (.consumer headFirst, 0)
  have hout : (event (step order limits) s (.consumer headFirst, 0)).output = d :=
    congrArg Prod.snd hs
  have hnext : (step order limits s (.consumer headFirst, 0)).1 = t := congrArg Prod.fst hs
  generalize event (step order limits) s (.consumer headFirst, 0) = e at hI hout ⊢
  rw [hnext] at hI ⊢
  have hpushes : (pushed (h ++ [e])).length = j := by
    rw [pushed_concat, hout, hpush, List.length_append, hC.pushes]
    rfl
  refine ⟨hI, hpushes, ?_, ?_, (congrArg pushStage hproducer).trans hC.producer, hconsumer, hloop,
    hstored.trans hC.stored⟩
  · rw [popped_concat, hout, List.length_append, hC.pops, hpop]
  · exact (hI.ring.views.seen_le .consumer .producer).trans (le_of_eq hpushes)

/-- The flag is not up, so the consumer goes on to pop. -/
theorem Calm.look (hC : Calm order limits index orders j k bound p c 0 h s) :
    Calm order limits index orders j k j p c 1
      (h ++ [event (step order limits) s (.consumer true, 0)])
      (step order limits s (.consumer true, 0)).1 := by
  have hl : s.loop = .readDone := loopStage_eq_zero.mp hC.loop
  have hdown : (s.load doneFlag order 0).2 ≠ true := fun hdone => by
    have hle := hC.inv.ring.views.ok.index_le .consumer doneFlag 0
    have hpos := (hC.inv.flag.up _ hle).mp hdone
    rw [hC.inv.flag.stores, hC.stored, Bool.toNat_false] at hle
    omega
  have hs : s.consumer order limits true 0 =
      ({ (s.load doneFlag order 0).1 with loop := .pop }, .quiet) := by
    simp only [WeakHandshake.consumer, hl]
    rw [if_neg hdown]
  exact hC.consumer_step (n := 0) hs rfl rfl rfl hC.consumer rfl rfl

theorem Calm.pop (hC : Calm order limits index orders j k bound p c 1 h s) (hkj : k < j) :
    Calm order limits index orders j (k + (c + 1) / 4) j p ((c + 1) % 4) (1 + (c + 1) / 4)
      (h ++ [event (step order limits) s (.consumer true, 0)])
      (step order limits s (.consumer true, 0)).1 := by
  have hl : s.loop = .pop := loopStage_eq_one.mp hC.loop
  obtain ⟨hstage, hlength, hfound⟩ :=
    pop_stage hC.inv.ring (by rw [hC.pushes, hC.pops]; exact hkj)
  obtain ⟨hproducer, hpush⟩ := s.ring.pop_producer id 0
  rw [hC.consumer] at hstage hlength
  have hs : ∃ loop, s.consumer order limits true 0 =
      ({ s with ring := (s.ring.pop id 0).1, loop }, .ring (s.ring.pop id 0).2) ∧
        loopStage loop = 1 + (s.ring.pop id 0).2.popped?.toList.length := by
    simp only [WeakHandshake.consumer, hl]
    cases hact : (s.ring.pop id 0).2 with
    | popFailed => exact absurd hact hfound
    | popped i o => exact ⟨.work o, rfl, rfl⟩
    | silent | wrote i | pushed v | pushFailed | read i => exact ⟨.pop, rfl, rfl⟩
  obtain ⟨loop, hs, hloop⟩ := hs
  exact hC.consumer_step hs hpush hlength hproducer hstage (hloop.trans (by rw [hlength])) rfl

theorem Calm.work (hC : Calm order limits index orders j k bound p c 2 h s) :
    Calm order limits index orders j k j p c 0
      (h ++ [event (step order limits) s (.consumer true, 0)])
      (step order limits s (.consumer true, 0)).1 := by
  obtain ⟨o, hl⟩ := loopStage_eq_two.mp hC.loop
  have hs : s.consumer order limits true 0 =
      ({ s with tally := (consume limits s.tally o).1, loop := .readDone }, .quiet) := by
    simp only [WeakHandshake.consumer, hl]
  exact hC.consumer_step (n := 0) hs rfl rfl rfl hC.consumer rfl rfl

variable (order limits index orders)

/-- Some run comes that far. -/
abbrev CalmRun (slots : Fin cap.size.toNat → Order) (j k bound p c l : Nat) : Prop :=
  Reached (step order limits) (Calm order limits index orders j k bound p c l)
    (start index slots orders)

variable {order limits index orders} {slots : Fin cap.size.toNat → Order}

/-- One more order is pushed. -/
theorem CalmRun.push (hr : CalmRun order limits index orders slots j k bound 0 c l)
    (hj : j < orders.length) (hroom : j < k + cap.size.toNat) :
    CalmRun order limits index orders slots (j + 1) k bound 0 c l := by
  have hloaded : CalmRun order limits index orders slots j k bound 1 c l :=
    hr.next _ (.reader, 0) fun _ _ hC => hC.reader hj hroom
  have hchecked : CalmRun order limits index orders slots j k bound 2 c l :=
    hloaded.next _ (.reader, 0) fun _ _ hC => hC.reader hj hroom
  have hcopied : CalmRun order limits index orders slots j k bound 3 c l :=
    hchecked.next _ (.reader, 0) fun _ _ hC => hC.reader hj hroom
  exact hcopied.next _ (.reader, 0) fun _ _ hC => hC.reader hj hroom

/-- One more order is popped and consumed. -/
theorem CalmRun.pop (hr : CalmRun order limits index orders slots j k bound p 0 0) (hkj : k < j) :
    CalmRun order limits index orders slots j (k + 1) j p 0 0 := by
  have hlooked : CalmRun order limits index orders slots j k j p 0 1 :=
    hr.next _ (.consumer true, 0) fun _ _ hC => hC.look
  have hloaded : CalmRun order limits index orders slots j k j p 1 1 :=
    hlooked.next _ (.consumer true, 0) fun _ _ hC => hC.pop hkj
  have hchecked : CalmRun order limits index orders slots j k j p 2 1 :=
    hloaded.next _ (.consumer true, 0) fun _ _ hC => hC.pop hkj
  have hcopied : CalmRun order limits index orders slots j k j p 3 1 :=
    hchecked.next _ (.consumer true, 0) fun _ _ hC => hC.pop hkj
  have hpopped : CalmRun order limits index orders slots j (k + 1) j p 0 2 :=
    hcopied.next _ (.consumer true, 0) fun _ _ hC => hC.pop hkj
  exact hpopped.next _ (.consumer true, 0) fun _ _ hC => hC.work

/-- Each of the first `k` orders is pushed and then popped. -/
theorem calmRun_together (order : LoadOrder) (limits : RiskLimits) (index : UInt64)
    (slots : Fin cap.size.toNat → Order) {k : Nat} (hk : k ≤ orders.length) :
    CalmRun order limits index orders slots k k k 0 0 0 := by
  induction k with
  | zero =>
    have hI := start_inv order limits index slots orders
    exact Reached.start _ ⟨hI, rfl, rfl, le_rfl, rfl, rfl, rfl, rfl⟩
  | succ k ih =>
    have hroom : 0 < cap.size.toNat := cap.pos
    exact ((ih (by omega)).push hk (by omega)).pop (Nat.lt_succ_self k)

/-- Then orders are pushed until the ring is full, and none is popped. -/
theorem calmRun_ahead (order : LoadOrder) (limits : RiskLimits) (index : UInt64)
    (slots : Fin cap.size.toNat → Order) {j k : Nat} (hkj : k ≤ j) (hj : j ≤ orders.length)
    (hroom : j ≤ k + cap.size.toNat) :
    CalmRun order limits index orders slots j k k 0 0 0 := by
  induction j, hkj using Nat.le_induction with
  | base => exact calmRun_together order limits index slots hj
  | succ j hkj ih => exact (ih (by omega) (by omega)).push hj hroom

end Calm

/-- The flag is up, `k` orders have been popped, and of the pushes the consumer has seen at
most `bound`. -/
structure Parting (order : LoadOrder) (limits : RiskLimits) (index : UInt64) (orders : List Order)
    (k bound : Nat) (l : Loop) (h : List (WeakHandshakeEvent cap)) (s : WeakHandshake cap) :
    Prop where
  inv : Inv order limits index orders h s
  pops : (popped h).length = k
  seen : (s.ring.memory.view .consumer).1 .head ≤ bound
  loop : s.loop = l
  stored : s.stored = true

section Parting

variable {k bound bound' : Nat} {l : Loop}

theorem Parting.consumer_step (hP : Parting order limits index orders k bound l h s)
    {headFirst : Bool} {lag : Nat} {t : WeakHandshake cap} {d : Did cap}
    (hs : s.consumer order limits headFirst lag = (t, d)) (hpop : d.popped? = none)
    (hstored : t.stored = s.stored) (hseen : orders.length ≤ bound' ∨
      (t.ring.memory.view .consumer).1 .head ≤ bound') :
    Parting order limits index orders k bound' t.loop
      (h ++ [event (step order limits) s (.consumer headFirst, lag)])
      (step order limits s (.consumer headFirst, lag)).1 := by
  have hI := step_inv hP.inv (.consumer headFirst, lag)
  have hout : (event (step order limits) s (.consumer headFirst, lag)).output = d :=
    congrArg Prod.snd hs
  have hnext : (step order limits s (.consumer headFirst, lag)).1 = t := congrArg Prod.fst hs
  generalize event (step order limits) s (.consumer headFirst, lag) = e at hI hout ⊢
  rw [hnext] at hI ⊢
  refine ⟨hI, ?_, ?_, rfl, hstored.trans hP.stored⟩
  · rw [popped_concat, hout, hpop, List.length_append, hP.pops]
    rfl
  · rcases hseen with hall | hseen
    · exact (hI.ring.views.seen_le .consumer .producer).trans (hI.length_le.1.trans hall)
    · exact hseen

/-- The reader stores the flag. -/
theorem Calm.store {p c : Nat}
    (hC : Calm order limits index orders orders.length k bound p c 0 h s) :
    Parting order limits index orders k bound .readDone
      (h ++ [event (step order limits) s (.reader, 0)]) (step order limits s (.reader, 0)).1 := by
  have hI := step_inv hC.inv (.reader, 0)
  have hl : s.loop = .readDone := loopStage_eq_zero.mp hC.loop
  have htodo : s.todo = [] := by rw [hC.todo, List.drop_length]
  have hs : step order limits s (.reader, 0) = ({ s with
      ring := { s.ring with memory := s.ring.memory.store .producer doneFlag true }
      stored := true }, .storedDone) := by
    simp [step, WeakHandshake.reader, htodo, hC.stored]
  have hout : (event (step order limits) s (.reader, 0)).output = .storedDone :=
    congrArg Prod.snd hs
  generalize event (step order limits) s (.reader, 0) = e at hI hout ⊢
  rw [hs] at hI ⊢
  refine ⟨hI, ?_, ?_, hl, rfl⟩
  · rw [popped_concat, hout, List.length_append, hC.pops]
    rfl
  · dsimp only
    rw [Memory.store_view_of_ne Role.noConfusion]
    exact hC.seen

/-- The consumer gets the flag. What it then knows of the pushes is no more than before,
unless it has acquired the flag. -/
theorem Parting.look (hP : Parting order limits index orders k k .readDone h s)
    (hknown : order = .acquire → orders.length ≤ k) :
    Parting order limits index orders k k .readIndex
      (h ++ [event (step order limits) s (.consumer true, 0)])
      (step order limits s (.consumer true, 0)).1 := by
  have hle := hP.inv.ring.views.ok.index_le .consumer doneFlag 0
  have hpos : 0 < s.ring.memory.index .consumer doneFlag 0 := by
    have hlast : s.ring.memory.stores doneFlag - 0 ≤ s.ring.memory.index .consumer doneFlag 0 :=
      le_max_left _ _
    rw [hP.inv.flag.stores, hP.stored, Bool.toNat_true] at hlast
    exact hlast
  have hup : (s.load doneFlag order 0).2 = true := (hP.inv.flag.up _ hle).mpr hpos
  have hs : s.consumer order limits true 0 =
      ({ (s.load doneFlag order 0).1 with loop := .readIndex }, .quiet) := by
    simp only [WeakHandshake.consumer, hP.loop]
    rw [if_pos hup]
  refine hP.consumer_step hs rfl rfl ?_
  cases order with
  | acquire => exact .inl (hknown rfl)
  | relaxed =>
    have hview := Memory.load_relaxed_view s.ring.memory .consumer doneFlag 0
    right
    change ((s.ring.memory.load .consumer doneFlag .relaxed 0).1.view .consumer).1 .head ≤ k
    rw [hview]
    simpa using hP.seen

/-- The consumer gets the index it has seen, however many orders have been pushed since. -/
theorem Parting.loadHead (hP : Parting order limits index orders k k .readIndex h s)
    (hk : k ≤ orders.length) :
    Parting order limits index orders k orders.length (.readTail (index + UInt64.ofNat k))
      (h ++ [event (step order limits) s (.consumer true, orders.length - k)])
      (step order limits s (.consumer true, orders.length - k)).1 := by
  have hcount : s.ring.memory.stores .head = orders.length := by
    rw [← hP.inv.length_le.2 (hP.inv.flag.todo hP.stored)]
    exact hP.inv.ring.views.stores .producer
  have hindex : s.ring.memory.index .consumer .head (orders.length - k) = k := by
    rw [Memory.index, hcount, Nat.sub_sub_self hk]
    exact max_eq_left hP.seen
  have hs : s.consumer order limits true (orders.length - k) =
      ({ (s.load .head .acquire (orders.length - k)).1 with
          loop := .readTail (index + UInt64.ofNat k) }, .quiet) := by
    simp only [WeakHandshake.consumer, hP.loop, if_true]
    rw [hP.inv.load_head, hindex]
  exact hP.consumer_step hs rfl rfl (.inl le_rfl)

theorem Parting.leave
    (hP : Parting order limits index orders k bound (.readTail (index + UInt64.ofNat k)) h s) :
    Parting order limits index orders k orders.length .left
      (h ++ [event (step order limits) s (.consumer true, 0)])
      (step order limits s (.consumer true, 0)).1 := by
  have hs : s.consumer order limits true 0 =
      ({ (s.load .tail .acquire 0).1 with loop := .left }, .left) := by
    simp only [WeakHandshake.consumer, hP.loop]
    rw [hP.inv.load_tail, hP.pops, if_pos rfl]
  exact hP.consumer_step hs rfl rfl (.inl le_rfl)

end Parting

/-! ## The account of the run -/

/-- How many orders the consumer may miss when it takes the ring for empty. -/
def unseen (cap : Capacity) : LoadOrder → Nat
  | .relaxed => cap.size.toNat
  | .acquire => 0

theorem run_inv (order : LoadOrder) (limits : RiskLimits) (index : UInt64)
    (slots : Fin cap.size.toNat → Order) (orders : List Order) (turns : List (Thread × Nat)) :
    Inv order limits index orders
      (trace (step order limits) (start index slots orders) turns)
      (exec (step order limits) (start index slots orders) turns) :=
  history_induction (step order limits) (P := fun _ _ => True)
    (I := Inv order limits index orders) (fun _ _ t _ hI => step_inv hI t) _
    (start_inv order limits index slots orders) turns (fun _ _ => trivial)

theorem Inv.popped_prefix (hI : Inv order limits index orders h s) : popped h <+: orders := by
  obtain ⟨unread, hstrong⟩ := hI.ring.strong
  exact hstrong.fifo.trans ⟨s.todo, hI.split⟩

/-- **What the handshake can lose.** The flag is loaded relaxed, and then the consumer may
leave with the last orders still in the ring, as many as there are slots; which ones it has
consumed is any such prefix of what was pushed. If it acquired the flag, it would always
consume all of them. In either case its counters are those of the orders it has popped. -/
theorem leaves_with_iff (order : LoadOrder) (limits : RiskLimits) (index : UInt64)
    (slots : Fin cap.size.toNat → Order) (orders : List Order) :
    (∀ turns,
      (exec (step order limits) (start index slots orders) turns).loop = .left →
      (exec (step order limits) (start index slots orders) turns).tally =
        exec (consume limits) {}
          (popped (trace (step order limits) (start index slots orders) turns))) ∧
    ∀ outs,
      (∃ turns, (exec (step order limits) (start index slots orders) turns).loop = .left ∧
        popped (trace (step order limits) (start index slots orders) turns) = outs) ↔
      outs <+: orders ∧ orders.length ≤ outs.length + unseen cap order := by
  constructor
  · intro turns hleft
    have hok := (run_inv order limits index slots orders turns).loop
    simp only [LoopOk, hleft] at hok
    exact hok.1
  intro outs
  constructor
  · rintro ⟨turns, hleft, rfl⟩
    have hI := run_inv order limits index slots orders turns
    have hok := hI.loop
    simp only [LoopOk, hleft] at hok
    obtain ⟨-, htodo, hknown⟩ := hok
    refine ⟨hI.popped_prefix, ?_⟩
    cases order with
    | relaxed =>
      obtain ⟨unread, hstrong⟩ := hI.ring.strong
      rw [← hI.length_le.2 htodo]
      exact hstrong.room
    | acquire => exact hknown rfl
  · rintro ⟨houts, hlength⟩
    have hle := houts.length_le
    have hknown : order = .acquire → orders.length ≤ outs.length := by
      rintro rfl
      exact hlength
    have hroom : orders.length ≤ outs.length + cap.size.toNat := by
      cases order with
      | relaxed => exact hlength
      | acquire => exact (hknown rfl).trans (Nat.le_add_right _ _)
    have hcalm := calmRun_ahead order limits index slots hle le_rfl hroom
    have hstored := hcalm.next _ (.reader, 0) fun _ _ hC => hC.store
    have hlooked := hstored.next _ (.consumer true, 0) fun _ _ hP => hP.look hknown
    have hloaded := hlooked.next _ (.consumer true, orders.length - outs.length)
      fun _ _ hP => hP.loadHead hle
    obtain ⟨turns, hP⟩ := hloaded.next _ (.consumer true, 0) fun _ _ hP => hP.leave
    refine ⟨turns, hP.loop, ?_⟩
    have hshort := List.prefix_of_prefix_length_le hP.inv.popped_prefix houts hP.pops.le
    exact hshort.eq_of_length hP.pops

end WeakHandshake

end Lloms.Feed
