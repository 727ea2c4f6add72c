import Lloms.Matching.Index
import Lloms.Matching.PriceTime

/-! The book stays uncrossed. `add` checks nothing: that a limit remainder does
not meet the other side follows from where the walk over the makers stops. -/
namespace Lloms.MatchingEngine
open Lib OrderBook

/-! ## Where the walk stops -/

theorem acceptable_of_notWorse {taker : Order} {p q : Price}
    (h : NotWorse (opposite taker.side) p q) (hq : Acceptable taker q) : Acceptable taker p := by
  rcases hq with hm | ⟨hs, hle⟩ | ⟨hs, hle⟩
  · exact .inl hm
  · rw [hs] at h
    exact .inr (.inl ⟨hs, le_trans h hle⟩)
  · rw [hs] at h
    exact .inr (.inr ⟨hs, le_trans hle h⟩)

theorem acceptable_limit {taker : Order} (hlimit : taker.type = .limit) (px : Price) :
    Acceptable taker px ↔ NotWorse taker.side taker.price px := by
  unfold Acceptable
  cases hs : taker.side <;> simp [hlimit, NotWorse]

/-- What stays of the makers is some of them, with a quantity of its own. -/
theorem mem_walk_left {taker : Order} {remaining : Qty} {ms : List Node}
    (hpos : ∀ m ∈ ms, 0 < m.order.qty.toInt) :
    ∀ n ∈ (walk taker remaining ms).left,
      ∃ m ∈ ms, n = { m with order := { m.order with qty := n.order.qty } } := by
  apply walk_induction
    (C := fun _ ms w => ∀ n ∈ w.left,
      ∃ m ∈ ms, n = { m with order := { m.order with qty := n.order.qty } })
  · intro r n hn
    cases hn
  · intro r m ms _ n hn
    exact ⟨n, hn, rfl⟩
  · intro r m ms w _ _ _ _ ih n hn
    obtain ⟨m', hm', heq⟩ := ih n hn
    exact ⟨m', List.mem_cons_of_mem _ hm', heq⟩
  · intro r m ms _ _ _ _ n hn
    rcases List.mem_cons.mp hn with rfl | hn
    · exact ⟨m, List.mem_cons_self, rfl⟩
    · exact ⟨n, List.mem_cons_of_mem _ hn, rfl⟩
  · exact hpos

/-- A taker with something left accepts no maker that is left. -/
theorem walk_stops {taker : Order} {remaining : Qty} {ms : List Node}
    (hsorted : ms.Pairwise fun m n =>
      NotWorse (opposite taker.side) m.order.price n.order.price)
    (hpos : ∀ m ∈ ms, 0 < m.order.qty.toInt)
    (hrem : 0 < (walk taker remaining ms).remaining) :
    ∀ n ∈ (walk taker remaining ms).left, ¬ Acceptable taker n.order.price := by
  revert hsorted hrem
  apply walk_induction
    (C := fun _ ms w =>
      ms.Pairwise (fun m n => NotWorse (opposite taker.side) m.order.price n.order.price) →
      0 < w.remaining → ∀ n ∈ w.left, ¬ Acceptable taker n.order.price)
  · intro r _ _ n hn
    cases hn
  · intro r m ms hgo hsorted hrem n hn
    have hno : ¬ Acceptable taker m.order.price := fun hacc => hgo ⟨hrem, hacc⟩
    rcases List.mem_cons.mp hn with rfl | hn
    · exact hno
    · intro hacc
      exact hno (acceptable_of_notWorse ((List.pairwise_cons.mp hsorted).1 n hn) hacc)
  · intro r m ms w _ _ _ _ ih hsorted
    exact ih (List.pairwise_cons.mp hsorted).2
  · -- the taker ended at this maker
    intro r m ms _ _ _ _ _ hrem
    exact absurd hrem (lt_irrefl _)
  · exact hpos

/-! ## The two sides stay apart -/

/-- Every bid is below every ask. -/
def Apart (b : OrderBook) : Prop :=
  ∀ m ∈ b.queue .buy, ∀ n ∈ b.queue .sell, m.order.price < n.order.price

theorem apart_iff (b : OrderBook) (side : Side) : Apart b ↔
    ∀ m ∈ b.queue side, ∀ n ∈ b.queue (opposite side),
      ¬ NotWorse side m.order.price n.order.price := by
  cases side with
  | buy => simp [Apart, NotWorse, opposite]
  | sell =>
    simp only [Apart, NotWorse, opposite, not_le]
    exact ⟨fun h m hm n hn => h n hn m hm, fun h m hm n hn => h n hn m hm⟩

theorem apart_new (symbol : Symbol) : Apart { symbol } := by
  intro m hm
  simp [queue, ladder, ranked, book, OrdMap.empty] at hm

theorem submit_apart {b : OrderBook} (hinv : b.Inv) (h : Apart b) (taker : Order)
    (out : List Fill) : Apart (submit b taker out).1 := by
  have hs := submit_spec hinv taker out
  have hpos : ∀ m ∈ b.queue (opposite taker.side), 0 < m.order.qty.toInt :=
    fun m hm => hinv.qty_pos hm
  rw [apart_iff _ taker.side] at h ⊢
  rw [hs.makers, hs.own]
  intro m hm n hn
  -- a bid or ask that was there before did not meet the maker's price
  have hold : m ∈ b.queue taker.side → ¬ NotWorse taker.side m.order.price n.order.price := by
    intro hm
    obtain ⟨n', hn', heq⟩ := mem_walk_left hpos n hn
    rw [heq]
    exact h m hm n' hn'
  by_cases hrest : 0 < (walk taker taker.qty (b.queue (opposite taker.side))).remaining ∧
      taker.type = .limit
  · rw [remainder, if_pos hrest] at hm
    rcases mem_enqueue.mp hm with rfl | hm
    · intro hw
      exact walk_stops (queue_sorted hinv _) hpos hrest.1 n hn ((acceptable_limit hrest.2 _).mpr hw)
    · exact hold hm
  · rw [remainder, if_neg hrest] at hm
    exact hold hm

theorem cancel_queue_subset {b : OrderBook} (h : b.Indexed) (id : OrderId) (side : Side) :
    (b.cancel id).1.queue side ⊆ b.queue side := by
  cases hi : b.index id with
  | none =>
    simp only [OrderBook.cancel, hi]
    exact fun _ hn => hn
  | some loc =>
    rw [h.queue_cancel hi]
    exact List.filter_subset_self _

theorem cancel_apart {b : OrderBook} (hidx : b.Indexed) (h : Apart b) (id : OrderId) :
    Apart (b.cancel id).1 := by
  intro m hm n hn
  exact h m (cancel_queue_subset hidx id _ hm) n (cancel_queue_subset hidx id _ hn)

theorem exec_apart (symbol : Symbol) (calls : List Call) : Apart (exec step { symbol } calls) := by
  have hrun := exec_induction step (I := fun b => b.Inv ∧ b.Indexed ∧ Apart b)
    (fun b c h => by
      obtain ⟨hinv, hidx, hap⟩ := h
      refine ⟨step_inv hinv c, step_indexed hidx c, ?_⟩
      cases c with
      | submit taker => exact submit_apart hinv hap taker []
      | cancel id => exact cancel_apart hidx hap id)
    { symbol } ⟨inv_new symbol, indexed_new symbol, apart_new symbol⟩ calls
  exact hrun.2.2

/-! ## The arithmetic of the loop -/

/-- The states the loop of `submit` goes through. -/
inductive Round (b : OrderBook) (taker : Order) (out : List Fill) : Sweep → Prop
  | start : Round b taker out ⟨b, taker, 0, out⟩
  | next {s s' : Sweep} : Round b taker out s → sweepStep s = some s' → Round b taker out s'

/-- `taker.qty -= traded`, `filled += traded` and `front.qty -= qty` in
`reduceFront` give their mathematical values. -/
def NoOverflow (s : Sweep) (maker : Order) : Prop :=
  (s.taker.qty - min s.taker.qty maker.qty).toInt =
    s.taker.qty.toInt - (min s.taker.qty maker.qty).toInt ∧
  (s.filled + min s.taker.qty maker.qty).toInt =
    s.filled.toInt + (min s.taker.qty maker.qty).toInt ∧
  (maker.qty - min s.taker.qty maker.qty).toInt =
    maker.qty.toInt - (min s.taker.qty maker.qty).toInt

/-- A round that goes on trades with the first maker of the queue. -/
theorem sweepStep_cases {s s' : Sweep} (hinv : s.book.Inv) (h : sweepStep s = some s') :
    ∃ m ms, s.book.queue (opposite s.taker.side) = m :: ms ∧ 0 < s.taker.qty ∧
      Acceptable s.taker m.order.price ∧ s' = trade s m.order := by
  have hgo : ∃ m ∈ (s.book.queue (opposite s.taker.side)).head?,
      0 < s.taker.qty ∧ Acceptable s.taker m.order.price := by
    by_contra hno
    rw [sweepStep_eq_none hinv fun m hm hgo => hno ⟨m, hm, hgo⟩] at h
    cases h
  obtain ⟨m, hm, hqty, hacc⟩ := hgo
  obtain ⟨ms, hq⟩ := List.head?_eq_some_iff.mp hm
  rw [sweepStep_eq_trade hinv hq hqty hacc] at h
  exact ⟨m, ms, hq, hqty, hacc, (Option.some.inj h).symm⟩

/-- One round on the queues: the front maker goes or is reduced, everything else
stays. -/
theorem trade_queue {s : Sweep} (hinv : s.book.Inv) {m : Node} {ms : List Node}
    (hq : s.book.queue (opposite s.taker.side) = m :: ms) :
    (trade s m.order).book.Inv ∧ (trade s m.order).book.symbol = s.book.symbol ∧
    (trade s m.order).book.queue s.taker.side = s.book.queue s.taker.side ∧
    ((trade s m.order).book.queue (opposite s.taker.side) = ms ∨
      ∃ qty, (trade s m.order).book.queue (opposite s.taker.side) =
        { m with order := { m.order with qty } } :: ms) := by
  obtain ⟨hdead, hlive⟩ := reduceFront_rewrites hinv hq (min s.taker.qty m.order.qty)
  by_cases hleft : m.order.qty - min s.taker.qty m.order.qty ≤ 0
  · have hrw := hdead hleft
    have hother := hrw.queue_opposite
    rw [opposite_opposite] at hother
    exact ⟨hrw.inv, hrw.symbol, hother, .inl hrw.queue⟩
  · have hrw := hlive hleft
    have hother := hrw.queue_opposite
    rw [opposite_opposite] at hother
    exact ⟨hrw.inv, hrw.symbol, hother, .inr ⟨_, hrw.queue⟩⟩

/-- What has been filled and what is still wanted add up to the taker's
quantity, which is what keeps `filled` in range. -/
def Fits (s : Sweep) : Prop :=
  s.book.Inv ∧ 0 ≤ s.filled.toInt ∧ s.filled.toInt + s.taker.qty.toInt < 9223372036854775808

theorem round_fits {b : OrderBook} (hinv : b.Inv) {taker : Order} {out : List Fill} {s : Sweep}
    (h : Round b taker out s) : Fits s := by
  induction h with
  | start =>
    have hr := toInt_range taker.qty
    refine ⟨hinv, by simp, ?_⟩
    simp only [Int64.toInt_zero]
    omega
  | @next s s' _ hstep ih =>
    obtain ⟨hb, hfit⟩ := ih
    obtain ⟨m, ms, hq, hqty, -, rfl⟩ := sweepStep_cases hb hstep
    have hm : 0 < m.order.qty.toInt := hb.qty_pos (by rw [hq]; exact List.mem_cons_self)
    rw [pos_iff_toInt] at hqty
    obtain ⟨h1, h2, -⟩ := traded_bounds hqty hm
    have hfilled := trade_filled hfit hqty hm
    refine ⟨(trade_queue hb hq).1, by omega, ?_⟩
    rw [hfilled]
    simp only [trade, h2]
    omega

theorem round_noOverflow {b : OrderBook} (hinv : b.Inv) {taker : Order} {out : List Fill}
    {s s' : Sweep} (h : Round b taker out s) (hstep : sweepStep s = some s') :
    ∃ maker, s.book.best (opposite s.taker.side) = some maker ∧ NoOverflow s maker := by
  obtain ⟨hb, hfit⟩ := round_fits hinv h
  obtain ⟨m, ms, hq, hqty, -, rfl⟩ := sweepStep_cases hb hstep
  have hm : 0 < m.order.qty.toInt := hb.qty_pos (by rw [hq]; exact List.mem_cons_self)
  rw [pos_iff_toInt] at hqty
  obtain ⟨-, h2, h3, -⟩ := traded_bounds hqty hm
  exact ⟨m.order, (best_of_queue_cons hb hq).2, h2, trade_filled hfit hqty hm, h3⟩

/-! ## The main theorem -/

/-- The two best prices are apart, no level is empty, every resting order is a
limit order with something left under its own side and price, a side with a best
price has a best order, and a submit computes without overflow. -/
structure Healthy (b : OrderBook) : Prop where
  uncrossed : b.bids.entries ≠ [] → b.asks.entries ≠ [] →
    ∃ bid ask, b.bestPrice .buy = some bid ∧ b.bestPrice .sell = some ask ∧ bid < ask
  levels : ∀ side, ∀ e ∈ (b.book side).entries, e.2 ≠ [] ∧ ∀ n ∈ e.2,
    n.order.type = .limit ∧ 0 < n.order.qty ∧ n.order.side = side ∧ n.order.price = e.1
  best : ∀ side px, b.bestPrice side = some px → ∃ order, b.best side = some order
  arithmetic : ∀ taker out s s', Round b taker out s → sweepStep s = some s' →
    ∃ maker, s.book.best (opposite s.taker.side) = some maker ∧ NoOverflow s maker

/-- A side that has a level has a best order. -/
theorem best_of_entries {b : OrderBook} (h : b.Inv) {side : Side}
    (hne : (b.book side).entries ≠ []) : ∃ n ∈ b.queue side,
      b.bestPrice side = some n.order.price ∧ b.best side = some n.order := by
  cases hq : b.queue side with
  | nil =>
    have hl := h.ladder_of_queue_nil hq
    cases side with
    | buy => exact absurd (List.reverse_eq_nil_iff.mp hl) hne
    | sell => exact absurd hl hne
  | cons n ns => exact ⟨n, List.mem_cons_self, best_of_queue_cons h hq⟩

/-- **The book never crosses and never holds a dead entry**, after any calls. -/
theorem exec_healthy (symbol : Symbol) (calls : List Call) :
    Healthy (exec step { symbol } calls) := by
  have hinv := exec_inv symbol calls
  have hapart := exec_apart symbol calls
  generalize exec step { symbol } calls = b at *
  refine ⟨fun hbids hasks => ?_, fun side e he => ?_, fun side px hpx => ?_,
    fun taker out s s' => round_noOverflow hinv⟩
  · obtain ⟨m, hm, hbid, -⟩ := best_of_entries hinv (show (b.book .buy).entries ≠ [] from hbids)
    obtain ⟨n, hn, hask, -⟩ := best_of_entries hinv (show (b.book .sell).entries ≠ [] from hasks)
    exact ⟨_, _, hbid, hask, hapart m hm n hn⟩
  · have hok := hinv side e he
    refine ⟨hok.nonempty, fun n hn => ?_⟩
    obtain ⟨hs, ht, hp, hq, -⟩ := hok.nodes n hn
    exact ⟨ht, (pos_iff_toInt _).mpr hq, hs, hp⟩
  · cases hq : b.queue side with
    | nil =>
      rw [bestPrice_of_queue_nil hinv hq] at hpx
      cases hpx
    | cons n ns => exact ⟨_, (best_of_queue_cons hinv hq).2⟩

end Lloms.MatchingEngine
