import Mathlib.Algebra.BigOperators.Group.List.Basic
import Lloms.Matching.Uncrossed

/-! Where the quantity of an order goes. Every unit of it ends in a fill as taker
or as maker, rests, is taken out by a cancel or, for a market order, is discarded
when the loop finds no more liquidity. The accounts are sums over the calls made
so far; one call moves quantity between them and changes no total. -/
namespace Lloms.MatchingEngine
open Lib OrderBook

abbrev History := List (Event OrderBook Call Reply)

/-! ## The accounts of an order -/

/-- The fills a call appended. -/
def Reply.fills : Reply → List Fill
  | .filled _ fills => fills
  | .cancelled _ => []

/-- The quantity that orders with this id have in a list of nodes. -/
def qtyOf (id : OrderId) (ns : List Node) : Int :=
  (ns.map fun n => if n.order.id = id then n.order.qty.toInt else 0).sum

def restingQty (b : OrderBook) (id : OrderId) : Int :=
  qtyOf id (b.queue .buy) + qtyOf id (b.queue .sell)

def asTaker (id : OrderId) (fills : List Fill) : Int :=
  (fills.map fun f => if f.takerId = id then f.qty.toInt else 0).sum

def asMaker (id : OrderId) (fills : List Fill) : Int :=
  (fills.map fun f => if f.makerId = id then f.qty.toInt else 0).sum

/-- What `submit` still has in `taker.qty` after its loop. -/
def leftover (b : OrderBook) (taker : Order) : Qty :=
  (sweep (b.queue (opposite taker.side)).length ⟨b, taker, 0, []⟩).taker.qty

/-- A cancel that found the order took out what it had resting. -/
def cancelledQty (id : OrderId) (e : Event OrderBook Call Reply) : Int :=
  if e.input = .cancel id ∧ e.output = .cancelled true then restingQty e.pre id else 0

/-- The remainder of a market order. -/
def discardedQty (id : OrderId) (e : Event OrderBook Call Reply) : Int :=
  match e.input with
  | .submit taker =>
    if taker.id = id ∧ taker.type = .market ∧ 0 < leftover e.pre taker then
      (leftover e.pre taker).toInt
    else 0
  | .cancel _ => 0

/-- The quantity a call brings in under this id; `submit` ignores an order
without any. -/
def submittedQty (id : OrderId) : Call → Int
  | .submit taker => if taker.id = id ∧ 0 < taker.qty then taker.qty.toInt else 0
  | .cancel _ => 0

/-- An account summed over the calls made so far. -/
def total (account : Event OrderBook Call Reply → Int) (h : History) : Int := (h.map account).sum

@[simp] theorem total_nil (account : Event OrderBook Call Reply → Int) : total account [] = 0 := rfl

@[simp] theorem total_concat (account : Event OrderBook Call Reply → Int) (h : History)
    (e : Event OrderBook Call Reply) : total account (h ++ [e]) = total account h + account e := by
  simp [total]

/-! ## What a walk moves -/

section Walk

variable (taker : Order) (r : Qty) {ms : List Node}

variable (hpos : ∀ m ∈ ms, 0 < m.order.qty.toInt)
include hpos

/-- What is filled and what is left of the taker add up. -/
theorem walk_filled : ((walk taker r ms).fills.map (·.qty.toInt)).sum +
    (walk taker r ms).remaining.toInt = r.toInt := by
  apply walk_induction
    (C := fun r _ w => (w.fills.map (·.qty.toInt)).sum + w.remaining.toInt = r.toInt)
  · intro r
    simp
  · intro r m ms _
    simp
  · intro r m ms w _ _ hsub _ ih
    simp only [List.map_cons, List.sum_cons]
    omega
  · intro r m ms _ _ _ _
    simp
  · exact hpos

theorem walk_remaining_nonneg (hr : 0 ≤ r.toInt) : 0 ≤ (walk taker r ms).remaining.toInt := by
  revert hr
  apply walk_induction (C := fun r _ w => 0 ≤ r.toInt → 0 ≤ w.remaining.toInt)
  · intro r hr
    exact hr
  · intro r m ms _ hr
    exact hr
  · intro r m ms w _ _ hsub hle ih _
    exact ih (by omega)
  · intro r m ms _ _ _ _ _
    simp
  · exact hpos

/-- What a maker gave is missing from what it has left. -/
theorem walk_makers (id : OrderId) :
    qtyOf id ms = qtyOf id (walk taker r ms).left + asMaker id (walk taker r ms).fills := by
  apply walk_induction (C := fun _ ms w => qtyOf id ms = qtyOf id w.left + asMaker id w.fills)
  · intro r
    simp [qtyOf, asMaker]
  · intro r m ms _
    simp [asMaker]
  · intro r m ms w _ _ _ _ ih
    simp only [qtyOf, asMaker, List.map_cons, List.sum_cons] at ih ⊢
    omega
  · intro r m ms _ _ hsub _
    simp only [qtyOf, asMaker, List.map_cons, List.sum_cons, List.map_nil, List.sum_nil]
    split_ifs <;> omega
  · exact hpos

/-- Every fill is with one of the makers, at its price, which the taker
accepts. -/
theorem walk_fills : ∀ f ∈ (walk taker r ms).fills, 0 < f.qty.toInt ∧ f.takerId = taker.id ∧
    Acceptable taker f.price ∧ ∃ m ∈ ms, m.order.id = f.makerId ∧ m.order.price = f.price := by
  apply walk_induction
    (C := fun _ ms w => ∀ f ∈ w.fills, 0 < f.qty.toInt ∧ f.takerId = taker.id ∧
      Acceptable taker f.price ∧ ∃ m ∈ ms, m.order.id = f.makerId ∧ m.order.price = f.price)
  · intro r f hf
    cases hf
  · intro r m ms _ f hf
    cases hf
  · intro r m ms w hm hacc _ _ ih f hf
    rcases List.mem_cons.mp hf with rfl | hf
    · exact ⟨hm, rfl, hacc, m, List.mem_cons_self, rfl, rfl⟩
    · obtain ⟨h1, h2, h3, m', hm', h4⟩ := ih f hf
      exact ⟨h1, h2, h3, m', List.mem_cons_of_mem _ hm', h4⟩
  · intro r m ms hr hacc _ _ f hf
    obtain rfl := List.mem_singleton.mp hf
    exact ⟨hr, rfl, hacc, m, List.mem_cons_self, rfl, rfl⟩
  · exact hpos

/-- All fills of a walk name its taker. -/
theorem walk_taker (id : OrderId) : asTaker id (walk taker r ms).fills =
    if taker.id = id then ((walk taker r ms).fills.map (·.qty.toInt)).sum else 0 := by
  have hname : ∀ f ∈ (walk taker r ms).fills, f.takerId = taker.id :=
    fun f hf => (walk_fills taker r hpos f hf).2.1
  rw [asTaker, List.map_congr_left fun f hf => by rw [hname f hf]]
  split_ifs
  · rfl
  · simp

end Walk

theorem qtyOf_cons (id : OrderId) (n : Node) (l : List Node) :
    qtyOf id (n :: l) = (if n.order.id = id then n.order.qty.toInt else 0) + qtyOf id l := by
  simp [qtyOf]

theorem qtyOf_enqueue (id : OrderId) (side : Side) (n : Node) (l : List Node) :
    qtyOf id (enqueue side n l) = qtyOf id l + if n.order.id = id then n.order.qty.toInt else 0 := by
  rw [qtyOf, ((enqueue_perm side n l).map _).sum_eq, List.map_cons, List.sum_cons, add_comm]
  rfl

/-! ## One call -/

theorem restingQty_eq (b : OrderBook) (id : OrderId) (side : Side) :
    restingQty b id = qtyOf id (b.queue side) + qtyOf id (b.queue (opposite side)) := by
  cases side with
  | buy => rfl
  | sell => exact add_comm _ _

theorem leftover_eq {b : OrderBook} (h : b.Inv) (taker : Order) : leftover b taker =
    (walk taker taker.qty (b.queue (opposite taker.side))).remaining := by
  rw [leftover, (submit_swept h taker []).taker]

/-- The taker's side of a walk: its quantity is filled, left to rest or left to
be discarded. -/
theorem walk_balance (taker : Order) {ms : List Node} (hpos : ∀ m ∈ ms, 0 < m.order.qty.toInt) :
    (if 0 < taker.qty then taker.qty.toInt else 0) =
      ((walk taker taker.qty ms).fills.map (·.qty.toInt)).sum +
      if 0 < (walk taker taker.qty ms).remaining then (walk taker taker.qty ms).remaining.toInt
      else 0 := by
  by_cases hq : 0 < taker.qty
  · have hfilled := walk_filled taker taker.qty hpos
    have hnonneg := walk_remaining_nonneg taker taker.qty hpos
    rw [pos_iff_toInt] at hq
    simp only [pos_iff_toInt, hq, if_true]
    split_ifs <;> omega
  · rw [walk_of_stop fun _ _ hgo => hq hgo.1]
    simp [hq]

/-- A submit moves the taker's quantity and its makers', and nothing else. -/
theorem submit_balance {b : OrderBook} (h : b.Inv) (taker : Order) (id : OrderId) :
    submittedQty id (.submit taker) + restingQty b id =
      asTaker id (event step b (.submit taker)).output.fills +
      asMaker id (event step b (.submit taker)).output.fills +
      discardedQty id (event step b (.submit taker)) +
      restingQty (step b (.submit taker)).1 id := by
  have hs := submit_spec h taker []
  have hpos : ∀ m ∈ b.queue (opposite taker.side), 0 < m.order.qty.toInt :=
    fun m hm => h.qty_pos hm
  have hfills : (event step b (.submit taker)).output.fills =
      (walk taker taker.qty (b.queue (opposite taker.side))).fills := by
    have := hs.fills
    rwa [List.nil_append] at this
  have hbalance := walk_balance taker hpos
  have hmakers := walk_makers taker taker.qty hpos id
  rw [hfills, walk_taker taker _ hpos, restingQty_eq b id taker.side,
    restingQty_eq _ id taker.side, hmakers,
    show (step b (.submit taker)).1.queue taker.side = _ from hs.own,
    show (step b (.submit taker)).1.queue (opposite taker.side) = _ from hs.makers]
  simp only [submittedQty, discardedQty, event_input, event_pre, leftover_eq h taker, remainder]
  generalize walk taker taker.qty (b.queue (opposite taker.side)) = w at *
  by_cases hid : taker.id = id
  · -- what is left of the taker rests or is discarded, by its type
    cases htype : taker.type with
    | limit =>
      by_cases hrem : 0 < w.remaining
      · simp only [hid, hrem, if_true, true_and, and_self, Option.elim_some, qtyOf_enqueue,
          reduceCtorEq, false_and, and_false, if_false] at hbalance ⊢
        omega
      · simp only [hid, hrem, if_true, if_false, true_and, false_and, Option.elim_none,
          reduceCtorEq] at hbalance ⊢
        omega
    | market =>
      simp only [hid, if_true, true_and, reduceCtorEq, and_false, if_false, Option.elim_none]
      omega
  · by_cases hrest : 0 < w.remaining ∧ taker.type = .limit
    · simp only [hid, hrest, if_true, false_and, and_self, Option.elim_some, qtyOf_enqueue, if_false]
      omega
    · simp only [hid, hrest, false_and, Option.elim_none, if_false]
      omega

/-! ## Cancelling -/

/-- Two resting orders with one id are one list node. -/
def Distinct (b : OrderBook) : Prop :=
  ∀ s s', ∀ n ∈ b.queue s, ∀ n' ∈ b.queue s', n.order.id = n'.order.id → n.stamp = n'.stamp

theorem qtyOf_eq_zero {id : OrderId} {l : List Node} (h : ∀ n ∈ l, n.order.id ≠ id) :
    qtyOf id l = 0 := by
  induction l with
  | nil => rfl
  | cons n l ih =>
    obtain ⟨hn, hl⟩ := List.forall_mem_cons.mp h
    rw [qtyOf_cons, if_neg hn, ih hl]
    rfl

/-- Taking out orders with other ids. -/
theorem qtyOf_filter {id : OrderId} {p : Node → Bool} {l : List Node}
    (h : ∀ n ∈ l, n.order.id = id → p n = true) : qtyOf id (l.filter p) = qtyOf id l := by
  induction l with
  | nil => rfl
  | cons n l ih =>
    obtain ⟨hn, hl⟩ := List.forall_mem_cons.mp h
    cases hp : p n with
    | true => rw [List.filter_cons_of_pos hp, qtyOf_cons, qtyOf_cons, ih hl]
    | false =>
      have hid : n.order.id ≠ id := fun he => by simp [hn he] at hp
      rw [List.filter_cons_of_neg (by simp [hp]), qtyOf_cons, if_neg hid, ih hl, zero_add]

/-- A cancel takes out all its order has resting, and nothing of another. -/
theorem cancel_balance {b : OrderBook} (h : b.Indexed) (hd : Distinct b) (target id : OrderId) :
    restingQty b id = cancelledQty id (event step b (.cancel target)) +
      restingQty (step b (.cancel target)).1 id := by
  cases hi : b.index target with
  | none =>
    have hstep : step b (.cancel target) = (b, .cancelled false) := by
      simp [step, OrderBook.cancel, hi]
    simp [cancelledQty, hstep]
  | some loc =>
    obtain ⟨⟨m, hm, hst, hmid⟩, honly⟩ := h.named hi
    have hqueue : ∀ side, (step b (.cancel target)).1.queue side =
        (b.queue side).filter fun n => n.stamp ≠ loc.it := h.queue_cancel hi
    have hreply : (step b (.cancel target)).2 = .cancelled true := by
      simp [step, OrderBook.cancel, hi]
    by_cases hid : target = id
    · subst hid
      have hgone : restingQty (step b (.cancel target)).1 target = 0 := by
        have hside : ∀ side, qtyOf target ((step b (.cancel target)).1.queue side) = 0 := by
          intro side
          rw [hqueue]
          refine qtyOf_eq_zero fun n hn hnid => ?_
          obtain ⟨hn, hne⟩ := List.mem_filter.mp hn
          have := hd side loc.side n hn m hm (hnid.trans hmid.symm)
          simp [this, hst] at hne
        rw [restingQty, hside, hside]
        rfl
      simp [cancelledQty, hreply, hgone]
    · have hstay : ∀ side, qtyOf id ((step b (.cancel target)).1.queue side) =
          qtyOf id (b.queue side) := by
        intro side
        rw [hqueue]
        refine qtyOf_filter fun n hn hnid => decide_eq_true fun hit => ?_
        exact hid ((honly side n hn hit).symm.trans hnid)
      simp [cancelledQty, hid, restingQty, hstay]

/-! ## Where resting orders come from -/

/-- Every resting order was submitted; since then only its quantity changed. -/
def Origin (calls : List Call) (b : OrderBook) : Prop :=
  ∀ side, ∀ n ∈ b.queue side,
    ∃ o, Call.submit o ∈ calls ∧ n.order = { o with qty := n.order.qty }

theorem remainder_eq_some {b : OrderBook} {taker : Order} {w : Walk} {n : Node}
    (h : remainder b taker w = some n) :
    0 < w.remaining ∧ n = ⟨b.fresh, { taker with qty := w.remaining }⟩ := by
  obtain ⟨hrest, heq⟩ := Option.ite_none_right_eq_some.mp h
  exact ⟨hrest.1, (Option.some.inj heq).symm⟩

/-- After a submit an order of the book is the rest of the taker, or an old one
that a walk over its side has left there. -/
theorem submit_from {b : OrderBook} (h : b.Inv) (taker : Order) (out : List Fill) {side : Side}
    {n : Node} (hn : n ∈ (submit b taker out).1.queue side) :
    (side = taker.side ∧
      remainder b taker (walk taker taker.qty (b.queue (opposite taker.side))) = some n) ∨
    ((∃ m ∈ b.queue side, n = { m with order := { m.order with qty := n.order.qty } }) ∧
      (side = opposite taker.side →
        n ∈ (walk taker taker.qty (b.queue (opposite taker.side))).left)) := by
  have hs := submit_spec h taker out
  rcases eq_or_opposite side taker.side with rfl | rfl
  · have hne : taker.side ≠ opposite taker.side := (opposite_ne taker.side).symm
    rw [hs.own] at hn
    cases hr : remainder b taker (walk taker taker.qty (b.queue (opposite taker.side))) with
    | none =>
      rw [hr] at hn
      exact .inr ⟨⟨n, hn, rfl⟩, fun h => absurd h hne⟩
    | some n₀ =>
      rw [hr] at hn
      rcases mem_enqueue.mp hn with rfl | hn
      · exact .inl ⟨rfl, rfl⟩
      · exact .inr ⟨⟨n, hn, rfl⟩, fun h => absurd h hne⟩
  · rw [hs.makers] at hn
    exact .inr ⟨mem_walk_left (fun m hm => h.qty_pos hm) n hn, fun _ => hn⟩

theorem submit_nodes {b : OrderBook} (h : b.Inv) (taker : Order) (out : List Fill) {side : Side}
    {n : Node} (hn : n ∈ (submit b taker out).1.queue side) :
    (∃ m ∈ b.queue side, n = { m with order := { m.order with qty := n.order.qty } }) ∨
      n = ⟨b.fresh, { taker with qty := n.order.qty }⟩ := by
  rcases submit_from h taker out hn with ⟨-, hrem⟩ | ⟨hold, -⟩
  · obtain ⟨-, rfl⟩ := remainder_eq_some hrem
    exact .inr rfl
  · exact .inl hold

theorem step_origin {calls : List Call} {b : OrderBook} (hinv : b.Inv) (hidx : b.Indexed)
    (h : Origin calls b) (c : Call) : Origin (calls ++ [c]) (step b c).1 := by
  have hold : ∀ side, ∀ n ∈ b.queue side, ∃ o, Call.submit o ∈ calls ++ [c] ∧
      n.order = { o with qty := n.order.qty } := by
    intro side n hn
    obtain ⟨o, ho, heq⟩ := h side n hn
    exact ⟨o, List.mem_append_left _ ho, heq⟩
  intro side n hn
  cases c with
  | submit taker =>
    rcases submit_nodes hinv taker [] hn with ⟨m, hm, heq⟩ | heq
    · obtain ⟨o, ho, heq'⟩ := hold side m hm
      refine ⟨o, ho, ?_⟩
      rw [heq]
      dsimp only
      rw [heq']
    · refine ⟨taker, List.mem_append_right _ (List.mem_singleton_self _), ?_⟩
      rw [heq]
  | cancel id => exact hold side n (cancel_queue_subset hidx id side hn)

/-- A submit under a new id keeps ids apart. -/
theorem submit_distinct {b : OrderBook} (hinv : b.Inv) (h : Distinct b) (taker : Order)
    (hnew : ∀ side, ∀ n ∈ b.queue side, n.order.id ≠ taker.id) :
    Distinct (step b (.submit taker)).1 := by
  intro s s' n hn n' hn' hid
  rcases submit_nodes hinv taker [] hn with ⟨m, hm, heq⟩ | heq
  · rcases submit_nodes hinv taker [] hn' with ⟨m', hm', heq'⟩ | heq'
    · rw [heq, heq'] at hid ⊢
      exact h s s' m hm m' hm' hid
    · rw [heq, heq'] at hid
      exact absurd hid (hnew s m hm)
  · rcases submit_nodes hinv taker [] hn' with ⟨m', hm', heq'⟩ | heq'
    · rw [heq, heq'] at hid
      exact absurd hid.symm (hnew s' m' hm')
    · rw [heq, heq']

/-! ## Whole runs -/

def submittedIds (calls : List Call) : List OrderId :=
  calls.filterMap fun
    | .submit o => some o.id
    | .cancel _ => none

theorem submittedIds_append (calls calls' : List Call) :
    submittedIds (calls ++ calls') = submittedIds calls ++ submittedIds calls' :=
  List.filterMap_append

theorem mem_submittedIds {calls : List Call} {o : Order} (h : Call.submit o ∈ calls) :
    o.id ∈ submittedIds calls := List.mem_filterMap.mpr ⟨_, h, rfl⟩

/-- The quantity that came in under an id is spread over its accounts. -/
def Accounted (id : OrderId) (qty : Int) (h : History) (b : OrderBook) : Prop :=
  qty = total (fun e => asTaker id e.output.fills) h + total (fun e => asMaker id e.output.fills) h +
    restingQty b id + total (cancelledQty id) h + total (discardedQty id) h

/-- What holds of the book after the calls of `h`. -/
structure Books (h : History) (b : OrderBook) : Prop where
  inv : b.Inv
  indexed : b.Indexed
  origin : Origin (h.map Event.input) b
  ledger : (submittedIds (h.map Event.input)).Nodup →
    Distinct b ∧ ∀ id, Accounted id (total (fun e => submittedQty id e.input) h) h b

theorem books_new (symbol : Symbol) : Books [] { symbol } := by
  have hq : ∀ side, OrderBook.queue { symbol } side = [] := by
    intro side
    cases side <;> rfl
  refine ⟨inv_new symbol, indexed_new symbol, ?_, fun _ => ⟨?_, fun id => ?_⟩⟩
  · intro side n hn
    simp [hq] at hn
  · intro s s' n hn
    simp [hq] at hn
  · simp [Accounted, restingQty, hq, qtyOf]

theorem step_books {h : History} {b : OrderBook} (hb : Books h b) (c : Call) :
    Books (h ++ [event step b c]) (step b c).1 := by
  obtain ⟨hinv, hidx, horigin, hledger⟩ := hb
  refine ⟨step_inv hinv c, step_indexed hidx c, ?_, fun hids => ?_⟩
  · rw [List.map_append]
    exact step_origin hinv hidx horigin c
  · rw [List.map_append, submittedIds_append] at hids
    obtain ⟨hnodup, -, hnew⟩ := List.nodup_append.mp hids
    obtain ⟨hdist, hbal⟩ := hledger hnodup
    cases c with
    | submit taker =>
      refine ⟨submit_distinct hinv hdist taker fun side n hn hid => ?_, fun id => ?_⟩
      · -- a resting order was submitted before, so its id is not the new one
        obtain ⟨o, ho, heq⟩ := horigin side n hn
        have hoid : n.order.id = o.id := by rw [heq]
        exact hnew _ (mem_submittedIds ho) _ (List.mem_singleton_self taker.id)
          (hoid.symm.trans hid)
      · have hone := submit_balance hinv taker id
        have hcancel : cancelledQty id (event step b (.submit taker)) = 0 := by simp [cancelledQty]
        have hsum := hbal id
        simp only [Accounted, total_concat, event_input] at hsum ⊢
        omega
    | cancel target =>
      refine ⟨fun s s' n hn n' hn' => ?_, fun id => ?_⟩
      · exact hdist s s' n (cancel_queue_subset hidx target s hn) n'
          (cancel_queue_subset hidx target s' hn')
      · have hone := cancel_balance hidx hdist target id
        have hsum := hbal id
        have hfills : (event step b (.cancel target)).output.fills = [] := rfl
        have hzero : asTaker id [] = 0 ∧ asMaker id [] = 0 ∧
            discardedQty id (event step b (.cancel target)) = 0 ∧
            submittedQty id (.cancel target) = 0 := ⟨rfl, rfl, rfl, rfl⟩
        simp only [Accounted, total_concat, event_input, hfills] at hsum ⊢
        omega

/-- An id that is submitted once brings in its order's quantity. -/
theorem submitted_once {calls : List Call} (hids : (submittedIds calls).Nodup) {o : Order}
    (ho : Call.submit o ∈ calls) (hq : 0 < o.qty) :
    (calls.map (submittedQty o.id)).sum = o.qty.toInt := by
  have hnone : ∀ calls : List Call, o.id ∉ submittedIds calls →
      (calls.map (submittedQty o.id)).sum = 0 := by
    intro calls hno
    refine List.sum_eq_zero fun x hx => ?_
    obtain ⟨c, hc, rfl⟩ := List.mem_map.mp hx
    cases c with
    | cancel id => rfl
    | submit taker =>
      have hne : taker.id ≠ o.id := fun he => hno (he ▸ mem_submittedIds hc)
      simp [submittedQty, hne]
  obtain ⟨before, after, rfl⟩ := List.append_of_mem ho
  rw [submittedIds_append, show submittedIds (.submit o :: after) = o.id :: submittedIds after
    from rfl, List.nodup_middle, List.nodup_cons, List.mem_append, not_or] at hids
  rw [List.map_append, List.map_cons, List.sum_append, List.sum_cons, hnone _ hids.1.1,
    hnone _ hids.1.2]
  simp [submittedQty, hq]

/-! ## The main theorem -/

/-- A fill of `taker` after the calls `earlier`: for a positive quantity, with a
limit order of the other side submitted earlier, at that order's price and within
the taker's limit. -/
structure FillOk (earlier : List Call) (taker : Order) (f : Fill) : Prop where
  qty : 0 < f.qty
  named : f.takerId = taker.id
  limit : Acceptable taker f.price
  maker : ∃ maker, Call.submit maker ∈ earlier ∧ maker.id = f.makerId ∧
    maker.side = opposite taker.side ∧ maker.type = .limit ∧ maker.price = f.price

/-- A submit returned the sum of the fills it appended, all of them proper. -/
def Settled (earlier : List Call) (taker : Order) (reply : Reply) : Prop :=
  ∃ qty fills, reply = .filled qty fills ∧ qty.toInt = (fills.map (·.qty.toInt)).sum ∧
    ∀ f ∈ fills, FillOk earlier taker f

theorem submit_settled {h : History} {b : OrderBook} (hb : Books h b) (taker : Order) :
    Settled (h.map Event.input) taker (step b (.submit taker)).2 := by
  have hs := submit_spec hb.inv taker []
  have hfills := hs.fills
  rw [List.nil_append] at hfills
  have hpos : ∀ m ∈ b.queue (opposite taker.side), 0 < m.order.qty.toInt :=
    fun m hm => hb.inv.qty_pos hm
  refine ⟨_, _, rfl, ?_, fun f hf => ?_⟩
  · rw [hfills]
    exact hs.filled
  · rw [hfills] at hf
    obtain ⟨h1, h2, h3, m, hm, h4, h5⟩ := walk_fills taker taker.qty hpos f hf
    obtain ⟨o, ho, heq⟩ := hb.origin _ m hm
    obtain ⟨hside, htype, -⟩ := hb.inv.of_queue hm
    rw [heq] at h4 h5 hside htype
    exact ⟨(pos_iff_toInt _).mpr h1, h2, h3, o, ho, h4, hside, htype, h5⟩

/-- **Quantity is conserved per order**, at the end of every run in which no id is
submitted twice, and every submit of the run settles properly. -/
theorem quantity_conserved (symbol : Symbol) (calls : List Call)
    (hids : (submittedIds calls).Nodup) :
    (∀ o, Call.submit o ∈ calls → 0 < o.qty →
      Accounted o.id o.qty.toInt (trace step { symbol } calls) (exec step { symbol } calls)) ∧
    ∀ h e t, trace step { symbol } calls = h ++ e :: t → ∀ taker, e.input = .submit taker →
      Settled (h.map Event.input) taker e.output := by
  have hstep : ∀ h b c, True → Books h b → Books (h ++ [event step b c]) (step b c).1 :=
    fun h b c _ hb => step_books hb c
  constructor
  · intro o ho hq
    have hbooks := history_induction step (P := fun _ _ => True) hstep { symbol }
      (books_new symbol) calls fun _ _ => trivial
    have hledger := hbooks.ledger
    rw [trace_inputs] at hledger
    have hsum : total (fun e => submittedQty o.id e.input) (trace step { symbol } calls) =
        o.qty.toInt := by
      rw [total, ← submitted_once hids ho hq, ← trace_inputs step { symbol } calls, List.map_map,
        trace_inputs]
      rfl
    rw [← hsum]
    exact (hledger hids).2 o.id
  · intro h e t hrun
    refine event_of_history step (P := fun _ _ => True) (I := Books)
      (Q := fun h e => ∀ taker, e.input = .submit taker →
        Settled (h.map Event.input) taker e.output)
      hstep (fun h b c _ hb taker hc => ?_) { symbol } (books_new symbol) calls
      (fun _ _ => trivial) h t e hrun
    rw [event_input] at hc
    subst hc
    exact submit_settled hb taker

/-- A sell of 5 gives 3 to a buy and 2 to its cancel; a market buy then finds
nothing. -/
theorem quantity_conserved_cancelled :
    let calls : List Call := [.submit ⟨1, 1, .sell, .limit, 100, 5⟩,
      .submit ⟨2, 1, .buy, .limit, 101, 3⟩, .cancel 1, .submit ⟨3, 1, .buy, .market, 0, 7⟩]
    (submittedIds calls).Nodup ∧
      Accounted 1 5 (trace step { symbol := 1 } calls) (exec step { symbol := 1 } calls) :=
  ⟨by decide, (quantity_conserved 1 _ (by decide)).1 ⟨1, 1, .sell, .limit, 100, 5⟩
    List.mem_cons_self (by decide)⟩

end Lloms.MatchingEngine
