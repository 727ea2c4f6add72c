import Mathlib.Algebra.GroupWithZero.Nat
import Mathlib.Algebra.Ring.Int.Defs
import Lloms.Lib.Machine
import Lloms.Matching.OrderBook

/-! Continuous matching against one book (`matching_engine.cpp`), and its
reference. `submit` is the source's loop over `bestPrice`, `best` and
`reduceFront`. `walk` is the reference: one pass over a list of resting orders in
priority order. `sweep_walk` says that the loop, on the book, is the walk over
the book's queue. -/
namespace Lloms.MatchingEngine
open Lib OrderBook

/-! ## The engine -/

def crosses (takerSide : Side) (takerType : OrderType) (takerPx bookPx : Price) : Bool :=
  if takerType = .market then true
  else if takerSide = .buy then takerPx ≥ bookPx else takerPx ≤ bookPx

/-- The variables of the loop. `taker` is the local copy whose quantity goes
down. -/
structure Sweep where
  book : OrderBook
  taker : Order
  filled : Qty
  out : List Fill

/-- One round of the loop; `none` where the source leaves it. -/
def sweepStep (s : Sweep) : Option Sweep :=
  let makerSide := opposite s.taker.side
  if s.taker.qty > 0 then
    match s.book.bestPrice makerSide with
    | none => none
    | some bookPx =>
      if crosses s.taker.side s.taker.type s.taker.price bookPx then
        match s.book.best makerSide with
        | none => none
        | some maker =>
          let traded := min s.taker.qty maker.qty
          some
            { book := s.book.reduceFront makerSide traded
              taker := { s.taker with qty := s.taker.qty - traded }
              filled := s.filled + traded
              out := s.out ++ [⟨s.taker.id, maker.id, s.taker.symbol, bookPx, traded⟩] }
      else none
  else none

/-- The `while` loop. A round that goes on uses up the front maker or the taker,
so the makers on the book are enough fuel (`sweep_walk`). -/
def sweep : Nat → Sweep → Sweep
  | 0, s => s
  | fuel + 1, s =>
    match sweepStep s with
    | none => s
    | some s' => sweep fuel s'

/-- `submit` appends to `out`; it returns the book, the filled quantity and the
fills. -/
def submit (b : OrderBook) (taker : Order) (out : List Fill) : OrderBook × Qty × List Fill :=
  let s := sweep (b.queue (opposite taker.side)).length ⟨b, taker, 0, out⟩
  let b := if s.taker.qty > 0 ∧ s.taker.type = .limit then s.book.add s.taker else s.book
  (b, s.filled, s.out)

inductive Call where
  | submit (taker : Order)
  | cancel (id : OrderId)
  deriving DecidableEq, Repr

inductive Reply where
  | filled (qty : Qty) (fills : List Fill)
  | cancelled (found : Bool)
  deriving DecidableEq, Repr

/-- One call on the engine, each `submit` with a fresh output vector. -/
def step (b : OrderBook) : Call → OrderBook × Reply
  | .submit taker =>
    let r := submit b taker []
    (r.1, .filled r.2.1 r.2.2)
  | .cancel id => ((b.cancel id).1, .cancelled (b.cancel id).2)

/-! ## The reference walk -/

/-- The taker may trade at `px`: always for a market order, otherwise within its
limit. -/
def Acceptable (taker : Order) (px : Price) : Prop :=
  taker.type = .market ∨ (taker.side = .buy ∧ px ≤ taker.price) ∨
    (taker.side = .sell ∧ taker.price ≤ px)

instance (taker : Order) (px : Price) : Decidable (Acceptable taker px) :=
  inferInstanceAs (Decidable (_ ∨ (_ ∧ _) ∨ (_ ∧ _)))

/-- What a walk over the makers leaves: the fills in order, the taker's
remaining quantity, the makers that stay, and those used up. -/
structure Walk where
  fills : List Fill
  remaining : Qty
  left : List Node
  exhausted : List Node

/-- Trade with the makers one after another while quantity remains and the price
is acceptable, each time for the smaller of the two quantities. -/
def walk (taker : Order) (remaining : Qty) : List Node → Walk
  | [] => ⟨[], remaining, [], []⟩
  | m :: ms =>
    if 0 < remaining ∧ Acceptable taker m.order.price then
      let traded := min remaining m.order.qty
      let w := walk taker (remaining - traded) ms
      let fill : Fill := ⟨taker.id, m.order.id, taker.symbol, m.order.price, traded⟩
      if traded = m.order.qty then
        { w with fills := fill :: w.fills, exhausted := m :: w.exhausted }
      else
        let m := { m with order := { m.order with qty := m.order.qty - traded } }
        { w with fills := fill :: w.fills, left := m :: w.left }
    else ⟨[], remaining, m :: ms, []⟩

/-- The id index after some orders were used up. -/
def forget (index : OrderId → Option Location) (ms : List Node) : OrderId → Option Location :=
  fun id => if id ∈ ms.map (·.order.id) then none else index id

theorem forget_cons (index : OrderId → Option Location) (m : Node) (ms : List Node) :
    forget index (m :: ms) = forget (Function.update index m.order.id none) ms := by
  funext id
  simp only [forget, List.map_cons, List.mem_cons, Function.update_apply]
  split_ifs <;> simp_all

/-! ## The loop is the walk -/

theorem crosses_iff (taker : Order) (px : Price) :
    crosses taker.side taker.type taker.price px = true ↔ Acceptable taker px := by
  unfold crosses Acceptable
  cases taker.type <;> cases taker.side <;> simp

theorem sweep_of_done {s : Sweep} (h : sweepStep s = none) (fuel : Nat) : sweep fuel s = s := by
  cases fuel with
  | zero => rfl
  | succ fuel => rw [sweep, h]

/-- A round that goes on trades with the best maker. -/
theorem sweepStep_eq_some {s s' : Sweep} (h : sweepStep s = some s') :
    ∃ px maker, s.book.best (opposite s.taker.side) = some maker ∧
      s' = { book := s.book.reduceFront (opposite s.taker.side) (min s.taker.qty maker.qty)
             taker := { s.taker with qty := s.taker.qty - min s.taker.qty maker.qty }
             filled := s.filled + min s.taker.qty maker.qty
             out := s.out ++
               [⟨s.taker.id, maker.id, s.taker.symbol, px, min s.taker.qty maker.qty⟩] } := by
  unfold sweepStep at h
  dsimp only at h
  split_ifs at h
  split at h
  · cases h
  · split_ifs at h
    split at h
    · cases h
    · exact ⟨_, _, ‹_›, (Option.some.inj h).symm⟩

/-- The loop stops at an empty queue, with nothing left to buy or sell, or at a
price the taker does not accept. -/
theorem sweepStep_eq_none {s : Sweep} (hinv : s.book.Inv)
    (h : ∀ m ∈ (s.book.queue (opposite s.taker.side)).head?,
      ¬ (0 < s.taker.qty ∧ Acceptable s.taker m.order.price)) : sweepStep s = none := by
  unfold sweepStep
  dsimp only
  cases hq : s.book.queue (opposite s.taker.side) with
  | nil =>
    rw [bestPrice_of_queue_nil hinv hq]
    simp
  | cons m ms =>
    have hm := h m (by rw [hq]; rfl)
    rw [(best_of_queue_cons hinv hq).1]
    by_cases hqty : s.taker.qty > 0
    · have hno : ¬ crosses s.taker.side s.taker.type s.taker.price m.order.price = true :=
        fun hc => hm ⟨hqty, (crosses_iff _ _).mp hc⟩
      simp only [hqty, if_true, hno]
      rfl
    · simp only [hqty, if_false]

/-- The round that trades with the maker `m`. -/
def trade (s : Sweep) (m : Order) : Sweep :=
  { book := s.book.reduceFront (opposite s.taker.side) (min s.taker.qty m.qty)
    taker := { s.taker with qty := s.taker.qty - min s.taker.qty m.qty }
    filled := s.filled + min s.taker.qty m.qty
    out := s.out ++ [⟨s.taker.id, m.id, s.taker.symbol, m.price, min s.taker.qty m.qty⟩] }

theorem sweepStep_eq_trade {s : Sweep} (hinv : s.book.Inv) {m : Node} {ms : List Node}
    (hq : s.book.queue (opposite s.taker.side) = m :: ms) (hqty : 0 < s.taker.qty)
    (hacc : Acceptable s.taker m.order.price) : sweepStep s = some (trade s m.order) := by
  obtain ⟨hpx, hbest⟩ := best_of_queue_cons hinv hq
  have hc : crosses s.taker.side s.taker.type s.taker.price m.order.price = true :=
    (crosses_iff _ _).mpr hacc
  unfold sweepStep trade
  simp only [gt_iff_lt, hqty, if_true, hpx, hc, hbest]

/-- The walk looks at the taker's quantity only through `remaining`. -/
theorem walk_setQty (taker : Order) (qty remaining : Qty) (ms : List Node) :
    walk { taker with qty } remaining ms = walk taker remaining ms := by
  induction ms generalizing remaining with
  | nil => rfl
  | cons m ms ih =>
    have hacc : Acceptable { taker with qty } m.order.price ↔ Acceptable taker m.order.price :=
      Iff.rfl
    simp only [walk, ih, hacc]

/-- A walk stops at its first maker, if that one is not to be traded with. -/
theorem walk_of_stop {taker : Order} {r : Qty} {ms : List Node}
    (h : ∀ m ∈ ms.head?, ¬ (0 < r ∧ Acceptable taker m.order.price)) :
    walk taker r ms = ⟨[], r, ms, []⟩ := by
  cases ms with
  | nil => rfl
  | cons m ms => rw [walk, if_neg (h m rfl)]

theorem walk_zero (taker : Order) (ms : List Node) : walk taker 0 ms = ⟨[], 0, ms, []⟩ :=
  walk_of_stop fun _ _ hgo => absurd hgo.1 (lt_irrefl _)

/-- What the loop did, in terms of a walk over the makers. -/
structure Swept (s s' : Sweep) (w : Walk) : Prop where
  out : s'.out = s.out ++ w.fills
  taker : s'.taker = { s.taker with qty := w.remaining }
  filled : s'.filled.toInt = s.filled.toInt + (w.fills.map (·.qty.toInt)).sum
  book : Rewrites s.book s'.book (opposite s.taker.side) w.left
    (forget s.book.index w.exhausted)
  done : sweepStep s' = none

theorem swept_of_done {s : Sweep} (hinv : s.book.Inv) (hdone : sweepStep s = none) :
    Swept s s ⟨[], s.taker.qty, s.book.queue (opposite s.taker.side), []⟩ where
  out := (List.append_nil _).symm
  taker := rfl
  filled := by simp
  book := ⟨rfl, rfl, by funext id; simp [forget], rfl, rfl, hinv⟩
  done := hdone

/-- The traded quantity is positive, at most what either side has, and uses up
the taker if it does not use up the maker. -/
theorem traded_bounds {a b : Qty} (ha : 0 < a.toInt) (hb : 0 < b.toInt) :
    0 < (min a b).toInt ∧ (a - min a b).toInt = a.toInt - (min a b).toInt ∧
      (b - min a b).toInt = b.toInt - (min a b).toInt ∧ (min a b).toInt ≤ a.toInt ∧
      (min a b).toInt ≤ b.toInt ∧ (min a b ≠ b → min a b = a ∧ a.toInt < b.toInt) := by
  have hra := toInt_range a
  have hrb := toInt_range b
  have h1 := toInt_sub_cases a (min a b)
  have h2 := toInt_sub_cases b (min a b)
  rcases le_total a b with hab | hab
  · rw [min_eq_left hab] at *
    rw [Int64.le_iff_toInt_le] at hab
    have hne : a ≠ b → a.toInt < b.toInt := fun h => by
      rw [← Int64.toInt_inj.ne] at h
      omega
    split_ifs at h1 h2 <;>
      exact ⟨ha, by omega, by omega, by omega, by omega, fun h => ⟨rfl, hne h⟩⟩
  · rw [min_eq_right hab] at *
    rw [Int64.le_iff_toInt_le] at hab
    split_ifs at h1 h2 <;>
      exact ⟨hb, by omega, by omega, by omega, by omega, fun h => absurd rfl h⟩

/-- The walk by its four ways to go on, over makers that have something left: the
end of the makers, a stop, a maker used up, and a maker the taker ends at. -/
theorem walk_induction {taker : Order} {C : Qty → List Node → Walk → Prop}
    (hnil : ∀ r, C r [] ⟨[], r, [], []⟩)
    (hstop : ∀ r m ms, ¬ (0 < r ∧ Acceptable taker m.order.price) →
      C r (m :: ms) ⟨[], r, m :: ms, []⟩)
    (hused : ∀ r m ms w, 0 < m.order.qty.toInt → Acceptable taker m.order.price →
      (r - m.order.qty).toInt = r.toInt - m.order.qty.toInt → m.order.qty.toInt ≤ r.toInt →
      C (r - m.order.qty) ms w → C r (m :: ms)
        { w with
          fills := ⟨taker.id, m.order.id, taker.symbol, m.order.price, m.order.qty⟩ :: w.fills
          exhausted := m :: w.exhausted })
    (hcut : ∀ r m ms, 0 < r.toInt → Acceptable taker m.order.price →
      (m.order.qty - r).toInt = m.order.qty.toInt - r.toInt → r.toInt < m.order.qty.toInt →
      C r (m :: ms) ⟨[⟨taker.id, m.order.id, taker.symbol, m.order.price, r⟩], 0,
        { m with order := { m.order with qty := m.order.qty - r } } :: ms, []⟩)
    (r : Qty) (ms : List Node) (hpos : ∀ m ∈ ms, 0 < m.order.qty.toInt) :
    C r ms (walk taker r ms) := by
  induction ms generalizing r with
  | nil => exact hnil r
  | cons m ms ih =>
    obtain ⟨hm, hms⟩ := List.forall_mem_cons.mp hpos
    rw [walk]
    split_ifs with hgo
    · have hr := (pos_iff_toInt r).mp hgo.1
      obtain ⟨-, h2, h3, h4, -, h6⟩ := traded_bounds hr hm
      dsimp only
      split_ifs with hex
      · rw [hex] at h2 h4 ⊢
        exact hused r m ms _ hm hgo.2 h2 h4 (ih _ hms)
      · obtain ⟨hmin, hlt⟩ := h6 hex
        have hzero : r - min r m.order.qty = 0 := by
          rw [← Int64.toInt_inj, h2, hmin, Int64.toInt_zero]
          omega
        rw [hzero, walk_zero, hmin]
        rw [hmin] at h3
        exact hcut r m ms hr hgo.2 h3 hlt
    · exact hstop r m ms hgo

section Round

variable {s : Sweep} {m : Node} {ms : List Node} (hinv : s.book.Inv)
  (hq : s.book.queue (opposite s.taker.side) = m :: ms)
  (hfit : 0 ≤ s.filled.toInt ∧ s.filled.toInt + s.taker.qty.toInt < 9223372036854775808)
  (hqty : 0 < s.taker.qty.toInt) (hm : 0 < m.order.qty.toInt)

include hfit hqty hm in
theorem trade_filled : (trade s m.order).filled.toInt =
    s.filled.toInt + (min s.taker.qty m.order.qty).toInt := by
  obtain ⟨h1, h2, h3, h4, h5, h6⟩ := traded_bounds hqty hm
  have hfill := toInt_add_cases s.filled (min s.taker.qty m.order.qty)
  rwa [if_neg (by omega), if_neg (by omega)] at hfill

include hinv hq hqty hm

/-- A round that uses up its maker leaves the rest of the queue. -/
theorem trade_of_exhausted (hex : min s.taker.qty m.order.qty = m.order.qty) :
    Rewrites s.book (trade s m.order).book (opposite s.taker.side) ms
      (Function.update s.book.index m.order.id none) := by
  obtain ⟨h1, h2, h3, h4, h5, h6⟩ := traded_bounds hqty hm
  apply (reduceFront_rewrites hinv hq _).1
  rw [Int64.le_iff_toInt_le, h3, hex, Int64.toInt_zero]
  omega

include hfit

/-- A round that does not use up its maker is the last one. -/
theorem swept_of_partial (hgo : 0 < s.taker.qty ∧ Acceptable s.taker m.order.price)
    (hex : min s.taker.qty m.order.qty ≠ m.order.qty) :
    Swept s (trade s m.order) (walk s.taker s.taker.qty (m :: ms)) := by
  obtain ⟨h1, h2, h3, h4, h5, h6⟩ := traded_bounds hqty hm
  obtain ⟨hmin, hlt⟩ := h6 hex
  have hrw := (reduceFront_rewrites hinv hq (min s.taker.qty m.order.qty)).2 (by
    rw [Int64.le_iff_toInt_le, h3, Int64.toInt_zero, hmin]
    omega)
  have hzero : s.taker.qty - min s.taker.qty m.order.qty = 0 := by
    rw [← Int64.toInt_inj, h2, hmin, Int64.toInt_zero]
    omega
  have hdone : sweepStep (trade s m.order) = none :=
    sweepStep_eq_none hrw.inv (by simp [trade, hzero])
  rw [walk, if_pos hgo]
  dsimp only
  rw [if_neg hex, hzero, walk_zero]
  refine ⟨rfl, by simp only [trade, hzero], ?_, ?_, hdone⟩
  · rw [trade_filled hfit hqty hm]
    simp
  · refine ⟨hrw.queue, hrw.other, ?_, hrw.fresh, hrw.symbol, hrw.inv⟩
    rw [show (trade s m.order).book.index = _ from hrw.index]
    funext id
    simp [forget]

/-- A round that uses up its maker, followed by the walk over the rest. -/
theorem swept_of_exhausted (hgo : 0 < s.taker.qty ∧ Acceptable s.taker m.order.price)
    (hex : min s.taker.qty m.order.qty = m.order.qty) {s' : Sweep}
    (hrest : Swept (trade s m.order) s'
      (walk (trade s m.order).taker (trade s m.order).taker.qty ms)) :
    Swept s s' (walk s.taker s.taker.qty (m :: ms)) := by
  have hrw := trade_of_exhausted hinv hq hqty hm hex
  have hwalk : walk (trade s m.order).taker (trade s m.order).taker.qty ms =
      walk s.taker (s.taker.qty - min s.taker.qty m.order.qty) ms := walk_setQty _ _ _ _
  rw [hwalk] at hrest
  rw [walk, if_pos hgo]
  dsimp only
  rw [if_pos hex]
  refine ⟨?_, hrest.taker, ?_, ?_, hrest.done⟩
  · rw [hrest.out, trade, List.append_assoc]
    rfl
  · rw [hrest.filled, trade_filled hfit hqty hm]
    simp only [List.map_cons, List.sum_cons]
    omega
  · refine ⟨hrest.book.queue, hrest.book.other.trans hrw.other, ?_,
      hrest.book.fresh.trans hrw.fresh, hrest.book.symbol.trans hrw.symbol, hrest.book.inv⟩
    rw [hrest.book.index, hrw.index, forget_cons]

end Round

/-- The loop on the book is the walk over its queue, for any fuel that covers
the queue. -/
theorem sweep_walk (q : List Node) (fuel : Nat) (hfuel : q.length ≤ fuel) (s : Sweep)
    (hinv : s.book.Inv) (hq : s.book.queue (opposite s.taker.side) = q)
    (hfit : 0 ≤ s.filled.toInt ∧ s.filled.toInt + s.taker.qty.toInt < 9223372036854775808) :
    Swept s (sweep fuel s) (walk s.taker s.taker.qty q) := by
  induction q generalizing fuel s with
  | nil =>
    have hdone : sweepStep s = none := sweepStep_eq_none hinv (by simp [hq])
    have hrefl := swept_of_done hinv hdone
    rw [hq] at hrefl
    rw [sweep_of_done hdone]
    exact hrefl
  | cons m ms ih =>
    by_cases hgo : 0 < s.taker.qty ∧ Acceptable s.taker m.order.price
    · have hqty := (pos_iff_toInt s.taker.qty).mp hgo.1
      have hm : 0 < m.order.qty.toInt := hinv.qty_pos (by rw [hq]; exact List.mem_cons_self)
      cases fuel with
      | zero => simp at hfuel
      | succ fuel =>
        rw [sweep, sweepStep_eq_trade hinv hq hgo.1 hgo.2]
        dsimp only
        by_cases hex : min s.taker.qty m.order.qty = m.order.qty
        · have hrw := trade_of_exhausted hinv hq hqty hm hex
          have hfilled := trade_filled hfit hqty hm
          obtain ⟨h1, h2, -⟩ := traded_bounds hqty hm
          refine swept_of_exhausted hinv hq hfit hqty hm hgo hex (ih fuel ?_ _ hrw.inv hrw.queue ?_)
          · simpa using hfuel
          · rw [hfilled]
            simp only [trade]
            omega
        · have hlast := swept_of_partial hinv hq hfit hqty hm hgo hex
          rw [sweep_of_done hlast.done]
          exact hlast
    · have hdone : sweepStep s = none := sweepStep_eq_none hinv (by
        intro n hn
        rw [hq] at hn
        obtain rfl : m = n := by simpa using hn
        exact hgo)
      have hrefl := swept_of_done hinv hdone
      rw [hq] at hrefl
      rw [sweep_of_done hdone, walk, if_neg hgo]
      exact hrefl

/-! ## `submit` -/

/-- The order that rests after a walk: a limit order with something left. -/
def remainder (b : OrderBook) (taker : Order) (w : Walk) : Option Node :=
  if 0 < w.remaining ∧ taker.type = .limit then
    some ⟨b.fresh, { taker with qty := w.remaining }⟩
  else none

/-- What `submit` did to the book and the output, in terms of a walk over the
queue of the other side. -/
structure Submitted (b : OrderBook) (taker : Order) (out : List Fill) (w : Walk)
    (r : OrderBook × Qty × List Fill) : Prop where
  fills : r.2.2 = out ++ w.fills
  filled : r.2.1.toInt = (w.fills.map (·.qty.toInt)).sum
  makers : r.1.queue (opposite taker.side) = w.left
  own : r.1.queue taker.side =
    (remainder b taker w).elim (b.queue taker.side) (enqueue taker.side · (b.queue taker.side))
  index : r.1.index = (remainder b taker w).elim (forget b.index w.exhausted)
    fun n => Function.update (forget b.index w.exhausted) taker.id
      (some ⟨taker.side, taker.price, n.stamp⟩)
  symbol : r.1.symbol = b.symbol
  inv : r.1.Inv

/-- The loop of `submit`, from its start. -/
theorem submit_swept {b : OrderBook} (h : b.Inv) (taker : Order) (out : List Fill) :
    Swept ⟨b, taker, 0, out⟩
      (sweep (b.queue (opposite taker.side)).length ⟨b, taker, 0, out⟩)
      (walk taker taker.qty (b.queue (opposite taker.side))) := by
  have hr := toInt_range taker.qty
  apply sweep_walk _ _ le_rfl ⟨b, taker, 0, out⟩ h rfl
  simp only [Int64.toInt_zero]
  omega

theorem submit_spec {b : OrderBook} (h : b.Inv) (taker : Order) (out : List Fill) :
    Submitted b taker out (walk taker taker.qty (b.queue (opposite taker.side)))
      (submit b taker out) := by
  have hs := submit_swept h taker out
  unfold submit
  generalize sweep (b.queue (opposite taker.side)).length ⟨b, taker, 0, out⟩ = s at *
  generalize walk taker taker.qty (b.queue (opposite taker.side)) = w at *
  obtain ⟨hout, htaker, hfilled, hbook, -⟩ := hs
  have hown : s.book.book taker.side = b.book taker.side := by simpa using hbook.other
  have hown' : s.book.queue taker.side = b.queue taker.side := by rw [queue, ladder, hown]; rfl
  simp only [Int64.toInt_zero, zero_add] at hfilled
  simp only [htaker, gt_iff_lt]
  by_cases hrest : 0 < w.remaining ∧ taker.type = .limit
  · rw [if_pos hrest]
    have hrem : remainder b taker w = some ⟨b.fresh, { taker with qty := w.remaining }⟩ :=
      if_pos hrest
    have hfresh : s.book.fresh = b.fresh := hbook.fresh
    have hpos := (pos_iff_toInt w.remaining).mp hrest.1
    have hqueue := queue_add hbook.inv { taker with qty := w.remaining }
    have hother := s.book.book_add_opposite { taker with qty := w.remaining }
    refine ⟨hout, hfilled, ?_, ?_, ?_, ?_, hbook.inv.add _ hrest.2 hpos⟩
    · rw [queue, ladder, hother]
      exact hbook.queue
    · rw [hqueue, hrem, hown', hfresh]
      rfl
    · rw [hrem]
      simp only [add, hbook.index, hfresh, Option.elim_some]
    · simp only [add, setBook_symbol, hbook.symbol]
  · have hrem : remainder b taker w = none := if_neg hrest
    rw [if_neg hrest]
    refine ⟨hout, hfilled, hbook.queue, ?_, ?_, hbook.symbol, hbook.inv⟩
    · rw [hrem, hown']
      rfl
    · rw [hrem]
      exact hbook.index

theorem step_inv {b : OrderBook} (h : b.Inv) (c : Call) : (step b c).1.Inv := by
  cases c with
  | submit taker => exact (submit_spec h taker []).inv
  | cancel id => exact h.cancel id

theorem exec_inv (symbol : Symbol) (calls : List Call) : (exec step { symbol } calls).Inv :=
  exec_induction step (I := OrderBook.Inv) (fun _ c h => step_inv h c) _ (inv_new symbol) calls

end Lloms.MatchingEngine
