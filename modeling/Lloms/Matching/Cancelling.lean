import Mathlib.Algebra.Order.BigOperators.Group.List
import Lloms.Matching.CancelUndo

/-! Cancelling by id. The index is a second account of the book: `add` overwrites
an entry, `reduceFront` and `cancel` erase one. Whatever the ids, an entry names an
order of the book (`Indexed`). The other direction, that every resting order is
named, is `Complete`, and it is lost when an order comes to rest under the id of
another one. -/
namespace Lloms.MatchingEngine
open Lib OrderBook

/-! ## Every call on the book -/

/-- A call on the book itself or on the engine over it. -/
inductive Op where
  | add (order : Order)
  | cancel (id : OrderId)
  | reduceFront (side : Side) (qty : Qty)
  | submit (taker : Order)
  deriving DecidableEq, Repr

/-- One such call, with what it returns; `add` and `reduceFront` are `void`. -/
def operate (b : OrderBook) : Op → OrderBook × Option Reply
  | .add order => (b.add order, none)
  | .cancel id => ((b.cancel id).1, some (.cancelled (b.cancel id).2))
  | .reduceFront side qty => (b.reduceFront side qty, none)
  | .submit taker =>
    let r := submit b taker []
    (r.1, some (.filled r.2.1 r.2.2))

theorem operate_indexed {b : OrderBook} (h : b.Indexed) (op : Op) : (operate b op).1.Indexed := by
  cases op with
  | add order => exact h.add order
  | cancel id => exact h.cancel id
  | reduceFront side qty => exact h.reduceFront side qty
  | submit taker => exact submit_indexed h taker []

/-! ## The loop ends on every book -/

/-- A round on any book finds a maker, and uses it up or ends the taker. Orders
put there by `add` may have nothing left, or less. -/
theorem sweepStep_shrinks {s s' : Sweep} (h : sweepStep s = some s') :
    s'.taker.side = s.taker.side ∧ (s'.taker.qty = 0 ∨
      (s'.book.queue (opposite s.taker.side)).length + 1 =
        (s.book.queue (opposite s.taker.side)).length) ∧
      s.book.queue (opposite s.taker.side) ≠ [] := by
  obtain ⟨px, maker, hbest, rfl⟩ := sweepStep_eq_some h
  obtain ⟨price, front, rest, tail, rfl, hbl, htail⟩ := best_eq_some _ _ hbest
  have hsplit : ranked (opposite s.taker.side) (s.book.book (opposite s.taker.side)) =
      [] ++ (price, front :: rest) :: tail := htail
  have hqueue : s.book.queue (opposite s.taker.side) =
      front :: (rest ++ tail.flatMap Prod.snd) := by
    rw [queue, htail]
    rfl
  refine ⟨rfl, ?_, by rw [hqueue]; exact List.cons_ne_nil _ _⟩
  rcases le_total s.taker.qty front.order.qty with hle | hle
  · left
    dsimp only
    rw [min_eq_left hle]
    exact Int64.sub_self _
  · right
    have hleft : front.order.qty - min s.taker.qty front.order.qty ≤ 0 := by
      rw [min_eq_right hle, Int64.sub_self]
    have hbook : (s.book.reduceFront (opposite s.taker.side)
        (min s.taker.qty front.order.qty)).queue (opposite s.taker.side) =
        rest ++ tail.flatMap Prod.snd := by
      rw [reduceFront, hbl]
      dsimp only
      rw [if_pos hleft, queue, ladder, book_withIndex, book_setBook]
      exact ranked_putLevel hsplit rest
    rw [hbook, hqueue]
    rfl

/-- The fuel of `submit` reaches the end of the source's loop, whatever orders
the book holds. -/
theorem sweep_ends (fuel : Nat) (s : Sweep)
    (hfuel : (s.book.queue (opposite s.taker.side)).length ≤ fuel) :
    sweepStep (sweep fuel s) = none := by
  induction fuel generalizing s with
  | zero =>
    cases hs : sweepStep s with
    | none => exact hs
    | some s' =>
      have hnil := List.length_eq_zero_iff.mp (Nat.le_zero.mp hfuel)
      exact absurd hnil (sweepStep_shrinks hs).2.2
  | succ fuel ih =>
    rw [sweep]
    cases hs : sweepStep s with
    | none => exact hs
    | some s' =>
      obtain ⟨hside, hless, -⟩ := sweepStep_shrinks hs
      dsimp only
      rcases hless with hzero | hless
      · have hdone : sweepStep s' = none := by
          unfold sweepStep
          dsimp only
          rw [hzero, if_neg (lt_irrefl _)]
        rw [sweep_of_done hdone]
        exact hdone
      · apply ih
        rw [hside]
        omega

/-! ## The index never dangles -/

/-- `loc` is the place of the order `n` of the book. -/
def Places (b : OrderBook) (loc : Location) (n : Node) : Prop :=
  n.stamp = loc.it ∧ ∃ lvl, (b.book loc.side).find? loc.price = some lvl ∧ n ∈ lvl

theorem places_of_level {b : OrderBook} {loc : Location} {n : Node}
    (hn : n ∈ b.levelAt loc.side loc.price) (hst : n.stamp = loc.it) : Places b loc n := by
  cases hf : (b.book loc.side).find? loc.price with
  | none => simp [levelAt, hf] at hn
  | some lvl =>
    rw [levelAt, hf] at hn
    exact ⟨hst, lvl, hf, hn⟩

theorem Places.level {b : OrderBook} {loc : Location} {n : Node} (h : Places b loc n) :
    n ∈ b.levelAt loc.side loc.price := by
  obtain ⟨-, lvl, hf, hn⟩ := h
  rw [levelAt, hf]
  exact hn

/-- In an indexed book a place holds one order, and an order stands in one
place. -/
theorem places_unique {b : OrderBook} (h : b.Indexed) {loc loc' : Location} {n n' : Node}
    (hn : Places b loc n) (hn' : Places b loc' n') (hit : loc.it = loc'.it) :
    loc = loc' ∧ n = n' := by
  have hst : n.stamp = n'.stamp := by rw [hn.1, hn'.1, hit]
  obtain ⟨hside, hprice⟩ := h.home _ _ _ _ n hn.level n' hn'.level hst
  obtain ⟨side, price, it⟩ := loc
  obtain ⟨side', price', it'⟩ := loc'
  dsimp only at hside hprice hit
  subst hside hprice hit
  exact ⟨rfl, h.node_eq hn.level hn'.level hst⟩

/-- A cancel takes the named order out of its level and leaves the rest of the
book. -/
theorem cancel_erases {b : OrderBook} (h : b.Indexed) {id : OrderId} {loc : Location}
    (hi : b.index id = some loc) :
    ∃ n front back, Places b loc n ∧ n.order.id = id ∧
      b.levelAt loc.side loc.price = front ++ n :: back ∧
      ReplacesLevel b (b.cancel id).1 loc.side loc.price (front ++ back) := by
  obtain ⟨n, hn, hst, hid⟩ := h.live id loc hi
  obtain ⟨m, front, back, hfront, hm, hlevel, herase⟩ :=
    List.exists_of_eraseP (p := fun n => n.stamp = loc.it) hn (decide_eq_true hst)
  have hreplaces := cancel_replacesLevel hi
  rw [herase] at hreplaces
  have hmn : m = n := h.node_eq (by rw [hlevel]; simp) hn
    ((of_decide_eq_true hm).trans hst.symm)
  subst hmn
  exact ⟨m, front, back, places_of_level hn hst, hid, hlevel, hreplaces⟩

/-- **The cancel index never dangles**, whatever the calls and however ids are
reused. -/
theorem index_never_dangles (symbol : Symbol) (ops : List Op) :
    let b := exec operate { symbol } ops
    (∀ id loc, b.index id = some loc → ∃ n, Places b loc n ∧ n.order.id = id ∧
      ∀ side, ∀ m ∈ b.queue side, m.stamp = loc.it → m = n) ∧
    (∀ id id' loc loc' n, b.index id = some loc → b.index id' = some loc' →
      Places b loc n → Places b loc' n → id = id') ∧
    ∀ id, (b.cancel id).2 = true → ∃ loc n front back, b.index id = some loc ∧
      Places b loc n ∧ n.order.id = id ∧
      b.levelAt loc.side loc.price = front ++ n :: back ∧
      ReplacesLevel b (b.cancel id).1 loc.side loc.price (front ++ back) := by
  intro b
  have h : b.Indexed := exec_induction operate (I := Indexed)
    (fun _ op h => operate_indexed h op) _ (indexed_new symbol) ops
  have hlive : ∀ id loc, b.index id = some loc → ∃ n, Places b loc n ∧ n.order.id = id := by
    intro id loc hi
    obtain ⟨n, hn, hst, hid⟩ := h.live id loc hi
    exact ⟨n, places_of_level hn hst, hid⟩
  refine ⟨?_, ?_, ?_⟩
  · intro id loc hi
    obtain ⟨n, hn, hid⟩ := hlive id loc hi
    refine ⟨n, hn, hid, fun side m hm hst => ?_⟩
    obtain ⟨price, hm⟩ := mem_queue.mp hm
    have hplace : Places b ⟨side, price, m.stamp⟩ m := places_of_level hm rfl
    exact (places_unique h hplace hn hst).2
  · intro id id' loc loc' n hi hi' hn hn'
    obtain ⟨m, hm, hid⟩ := hlive id loc hi
    obtain ⟨m', hm', hid'⟩ := hlive id' loc' hi'
    have h1 := (places_unique h hm hn rfl).2
    have h2 := (places_unique h hm' hn' rfl).2
    rw [← hid, ← hid', h1, h2]
  · intro id hfound
    cases hi : b.index id with
    | none => simp [OrderBook.cancel, hi] at hfound
    | some loc =>
      obtain ⟨n, front, back, herase⟩ := cancel_erases h hi
      exact ⟨loc, n, front, back, rfl, herase⟩

/-! ## Every resting order is named -/

/-- Some order with this id is on the book. -/
def Rests (b : OrderBook) (id : OrderId) : Prop :=
  ∃ side, ∃ n ∈ b.queue side, n.order.id = id

/-- Every id with a resting order, and no other, can be cancelled; then no order
with that id is left, and every level keeps its other orders as they were. -/
def Cancellable (b : OrderBook) : Prop :=
  ∀ id, ((b.cancel id).2 = true ↔ Rests b id) ∧
    ((b.cancel id).2 = true → ¬ Rests (b.cancel id).1 id ∧
      ∀ side price, (b.cancel id).1.levelAt side price =
        (b.levelAt side price).filter fun n => n.order.id ≠ id)

/-- The index names every resting order. -/
def Complete (b : OrderBook) : Prop :=
  ∀ side, ∀ n ∈ b.queue side, b.index n.order.id = some ⟨side, n.order.price, n.stamp⟩

theorem complete_new (symbol : Symbol) : Complete { symbol } := by
  intro side n hn
  cases side <;> simp [queue, ladder, ranked, book, OrdMap.empty] at hn

theorem cancel_found (b : OrderBook) (id : OrderId) :
    (b.cancel id).2 = true ↔ ∃ loc, b.index id = some loc := by
  unfold OrderBook.cancel
  cases b.index id <;> simp

section Complete

variable {b : OrderBook} (hidx : b.Indexed)
include hidx

/-- In a complete book the order an entry names is the only one with its id. -/
theorem Complete.stamp_iff (h : Complete b) {id : OrderId} {loc : Location}
    (hi : b.index id = some loc) {side : Side} {n : Node} (hn : n ∈ b.queue side) :
    n.stamp = loc.it ↔ n.order.id = id := by
  refine ⟨(hidx.named hi).2 side n hn, fun hid => ?_⟩
  have hloc := h side n hn
  rw [hid, hi] at hloc
  rw [Option.some.inj hloc]

theorem Complete.cancellable (h : Complete b) : Cancellable b := by
  intro id
  rw [cancel_found]
  refine ⟨⟨?_, ?_⟩, ?_⟩
  · rintro ⟨loc, hi⟩
    obtain ⟨⟨m, hm, -, hid⟩, -⟩ := hidx.named hi
    exact ⟨loc.side, m, hm, hid⟩
  · rintro ⟨side, n, hn, rfl⟩
    exact ⟨_, h side n hn⟩
  · rintro ⟨loc, hi⟩
    have hstamp : ∀ side, ∀ n ∈ b.queue side, n.stamp = loc.it ↔ n.order.id = id :=
      fun side n hn => h.stamp_iff hidx hi hn
    refine ⟨?_, fun side price => ?_⟩
    · rintro ⟨side, n, hn, hid⟩
      rw [hidx.queue_cancel hi] at hn
      obtain ⟨hn, hne⟩ := List.mem_filter.mp hn
      exact of_decide_eq_true hne ((hstamp side n hn).mpr hid)
    · have hfilter : (b.levelAt side price).filter (fun n => n.stamp ≠ loc.it) =
          (b.levelAt side price).filter fun n => n.order.id ≠ id := by
        refine List.filter_congr fun n hn => ?_
        rw [decide_eq_decide]
        exact not_congr (hstamp side n (mem_queue.mpr ⟨price, hn⟩))
      rw [← hfilter, cancel_replacesLevel hi]
      split_ifs with hhere
      · rw [hhere.1, hhere.2]
        exact hidx.eraseP_eq_filter _ _ _
      · -- the named order stands in another level
        obtain ⟨m, hm, hst, -⟩ := hidx.live id loc hi
        refine (List.filter_eq_self.mpr fun n hn => ?_).symm
        refine decide_eq_true fun hcon => ?_
        exact hhere (hidx.home _ _ _ _ n hn m hm (hcon.trans hst.symm))

theorem Cancellable.complete (hinv : b.Inv) (h : Cancellable b) : Complete b := by
  intro side n hn
  obtain ⟨hfound, hgone⟩ := h n.order.id
  have htrue := hfound.mpr ⟨side, n, hn, rfl⟩
  obtain ⟨loc, hi⟩ := (cancel_found b n.order.id).mp htrue
  obtain ⟨hnone, -⟩ := hgone htrue
  -- the order is gone after the cancel, so it is the one the entry names
  have hst : n.stamp = loc.it := by
    by_contra hne
    refine hnone ⟨side, n, ?_, rfl⟩
    rw [hidx.queue_cancel hi]
    exact List.mem_filter.mpr ⟨hn, decide_eq_true hne⟩
  obtain ⟨price, hlevel⟩ := mem_queue.mp hn
  have hprice : n.order.price = price := ((hinv.level side price).1 n hlevel).2.2.1
  obtain ⟨m, hm, hmst, -⟩ := hidx.live _ loc hi
  obtain ⟨hs, hp⟩ := hidx.home _ _ _ _ n hlevel m hm (hst.trans hmst.symm)
  rw [hi, hs, hprice, hp, hst]

theorem Complete.cancel (h : Complete b) (id : OrderId) : Complete (b.cancel id).1 := by
  intro side n hn
  cases hi : b.index id with
  | none =>
    have hsame : (b.cancel id).1 = b := by simp only [OrderBook.cancel, hi]
    rw [hsame] at hn ⊢
    exact h side n hn
  | some loc =>
    rw [hidx.queue_cancel hi] at hn
    obtain ⟨hn, hne⟩ := List.mem_filter.mp hn
    have hid : n.order.id ≠ id :=
      fun hid => of_decide_eq_true hne ((h.stamp_iff hidx hi hn).mpr hid)
    have hindex : (b.cancel id).1.index = Function.update b.index id none := by
      simp only [OrderBook.cancel, hi]
    rw [hindex, Function.update_of_ne hid]
    exact h side n hn

end Complete

/-! ## What comes to rest -/

/-- What the makers hold at prices the taker accepts. -/
def acceptedQty (taker : Order) (ms : List Node) : Int :=
  (ms.map fun m => if Acceptable taker m.order.price then m.order.qty.toInt else 0).sum

theorem acceptedQty_cons (taker : Order) (m : Node) (ms : List Node) :
    acceptedQty taker (m :: ms) =
      (if Acceptable taker m.order.price then m.order.qty.toInt else 0) + acceptedQty taker ms := by
  simp [acceptedQty]

theorem acceptedQty_nonneg (taker : Order) {ms : List Node}
    (hpos : ∀ m ∈ ms, 0 < m.order.qty.toInt) : 0 ≤ acceptedQty taker ms := by
  refine List.sum_nonneg fun x hx => ?_
  obtain ⟨m, hm, rfl⟩ := List.mem_map.mp hx
  have hm := hpos m hm
  split_ifs <;> omega

theorem acceptedQty_eq_zero {taker : Order} {ms : List Node}
    (h : ∀ m ∈ ms, ¬ Acceptable taker m.order.price) : acceptedQty taker ms = 0 := by
  refine List.sum_eq_zero fun x hx => ?_
  obtain ⟨m, hm, rfl⟩ := List.mem_map.mp hx
  exact if_neg (h m hm)

/-- Something of the taker is left exactly if it wants more than it can get. -/
theorem walk_remaining_pos (taker : Order) (r : Qty) {ms : List Node}
    (hpos : ∀ m ∈ ms, 0 < m.order.qty.toInt)
    (hsorted : ms.Pairwise fun m n =>
      NotWorse (opposite taker.side) m.order.price n.order.price) :
    0 < (walk taker r ms).remaining ↔ acceptedQty taker ms < r.toInt := by
  rw [pos_iff_toInt]
  revert hsorted
  have hall := hpos
  revert hall
  apply walk_induction
    (C := fun r ms w => (∀ m ∈ ms, 0 < m.order.qty.toInt) →
      ms.Pairwise (fun m n => NotWorse (opposite taker.side) m.order.price n.order.price) →
      (0 < w.remaining.toInt ↔ acceptedQty taker ms < r.toInt))
  · intro r _ _
    rfl
  · intro r m ms hgo hall hsorted
    have hnonneg := acceptedQty_nonneg taker hall
    by_cases hr : 0 < r.toInt
    · -- the stop is at a price that is not accepted, and those behind are worse
      have hno : ¬ Acceptable taker m.order.price := fun hacc => hgo ⟨(pos_iff_toInt r).mpr hr, hacc⟩
      have hzero : acceptedQty taker (m :: ms) = 0 := by
        refine acceptedQty_eq_zero fun n hn => ?_
        rcases List.mem_cons.mp hn with rfl | hn
        · exact hno
        · exact fun hacc =>
            hno (acceptable_of_notWorse ((List.pairwise_cons.mp hsorted).1 n hn) hacc)
      rw [hzero]
    · dsimp only
      omega
  · intro r m ms w _ hacc hsub _ ih hall hsorted
    have hrest := ih (fun n hn => hall n (List.mem_cons_of_mem _ hn))
      (List.pairwise_cons.mp hsorted).2
    rw [acceptedQty_cons, if_pos hacc]
    dsimp only
    omega
  · intro r m ms _ hacc _ hlt hall _
    have hnonneg := acceptedQty_nonneg taker fun n hn => hall n (List.mem_cons_of_mem _ hn)
    rw [acceptedQty_cons, if_pos hacc, Int64.toInt_zero]
    omega
  · exact hpos

/-- A maker the taker does not accept stays as it is. -/
theorem walk_unaccepted {taker : Order} (r : Qty) {ms : List Node}
    (hpos : ∀ m ∈ ms, 0 < m.order.qty.toInt) :
    ∀ m ∈ ms, ¬ Acceptable taker m.order.price → m ∈ (walk taker r ms).left := by
  apply walk_induction
    (C := fun _ ms w => ∀ m ∈ ms, ¬ Acceptable taker m.order.price → m ∈ w.left)
  · intro r m hm
    cases hm
  · intro r m ms _ n hn _
    exact hn
  · intro r m ms w _ hacc _ _ ih n hn hno
    rcases List.mem_cons.mp hn with rfl | hn
    · exact absurd hacc hno
    · exact ih n hn hno
  · intro r m ms _ hacc _ _ n hn hno
    rcases List.mem_cons.mp hn with rfl | hn
    · exact absurd hacc hno
    · exact List.mem_cons_of_mem _ hn
  · exact hpos

/-- The makers a walk uses up and those it leaves are the makers, in order. -/
theorem walk_stamps (taker : Order) (r : Qty) {ms : List Node}
    (hpos : ∀ m ∈ ms, 0 < m.order.qty.toInt) :
    ms.map Node.stamp =
      (walk taker r ms).exhausted.map Node.stamp ++ (walk taker r ms).left.map Node.stamp := by
  apply walk_induction
    (C := fun _ ms w => ms.map Node.stamp = w.exhausted.map Node.stamp ++ w.left.map Node.stamp)
  · intro r
    rfl
  · intro r m ms _
    rfl
  · intro r m ms w _ _ _ _ ih
    simp [ih]
  · intro r m ms _ _ _ _
    rfl
  · exact hpos

/-- The serial numbers of a queue are all different. -/
theorem queue_stamps {b : OrderBook} (hinv : b.Inv) (hidx : b.Indexed) (side : Side) :
    ((b.queue side).map Node.stamp).Nodup := by
  rw [List.Nodup, List.pairwise_map]
  apply (List.Pairwise.and_mem.mp (queue_pairwise hinv side)).imp
  rintro m n ⟨hm, hn, hbefore, hnot⟩ hst
  obtain ⟨p, hm⟩ := mem_queue.mp hm
  obtain ⟨p', hn⟩ := mem_queue.mp hn
  obtain ⟨-, rfl⟩ := hidx.home _ _ _ _ m hm n hn hst
  rw [hidx.node_eq hm hn hst] at hbefore hnot
  exact hnot hbefore

/-! ## An id that is in use -/

/-- A limit order that wants more than the other side offers it: what is left of
it will rest. -/
def LeavesRest (b : OrderBook) (taker : Order) : Prop :=
  taker.type = .limit ∧ acceptedQty taker (b.queue (opposite taker.side)) < taker.qty.toInt

/-- The call brings an order to rest under the id of an order that rests already
and is not traded away on the way: one of the taker's own side, or one at a price
the taker does not accept. -/
def ReusesId (b : OrderBook) : Call → Prop
  | .submit taker => LeavesRest b taker ∧ ∃ side, ∃ n ∈ b.queue side, n.order.id = taker.id ∧
      (side = taker.side ∨ ¬ Acceptable taker n.order.price)
  | .cancel _ => False

section Submit

variable {b : OrderBook} (hinv : b.Inv) (hidx : b.Indexed) (taker : Order)

include hinv in
theorem remainder_ne_none : remainder b taker
      (walk taker taker.qty (b.queue (opposite taker.side))) ≠ none ↔ LeavesRest b taker := by
  have hrem := walk_remaining_pos taker taker.qty (fun m hm => hinv.qty_pos hm)
    (queue_sorted hinv (opposite taker.side))
  rw [LeavesRest, ← hrem, and_comm, remainder]
  split_ifs with hrest <;> simp [hrest]

include hinv hidx

/-- In a complete book the entries that are dropped are those of the makers used
up, so the others keep theirs. -/
theorem forget_complete (h : Complete b) {side : Side} {n m : Node}
    (hm : m ∈ b.queue side) (hn : n = { m with order := { m.order with qty := n.order.qty } })
    (hstay : side = opposite taker.side →
      n ∈ (walk taker taker.qty (b.queue (opposite taker.side))).left) :
    forget b.index (walk taker taker.qty (b.queue (opposite taker.side))).exhausted n.order.id =
      some ⟨side, n.order.price, n.stamp⟩ := by
  have hpos : ∀ m ∈ b.queue (opposite taker.side), 0 < m.order.qty.toInt :=
    fun m hm => hinv.qty_pos hm
  have hnm : n.order.id = m.order.id ∧ n.order.price = m.order.price ∧ n.stamp = m.stamp := by
    rw [hn]
    exact ⟨rfl, rfl, rfl⟩
  obtain ⟨hid, hprice, hst⟩ := hnm
  have hindex := h side m hm
  rw [hid, hprice, hst, ← hindex]
  refine if_neg fun hmem => ?_
  obtain ⟨e, he, heid⟩ := List.mem_map.mp hmem
  have heq := h _ e (walk_exhausted taker.qty hpos e he).1
  rw [heid, hindex] at heq
  obtain ⟨hside, -, hstamp⟩ := Location.mk.inj (Option.some.inj heq)
  have hnodup := queue_stamps hinv hidx (opposite taker.side)
  rw [walk_stamps taker taker.qty hpos] at hnodup
  exact (List.nodup_append.mp hnodup).2.2 _ (List.mem_map_of_mem he) _
    (List.mem_map_of_mem (hstay hside)) (hstamp.symm.trans hst.symm)

theorem Complete.submit (h : Complete b) (hnew : ¬ ReusesId b (.submit taker)) :
    Complete (submit b taker []).1 := by
  have hindex := (submit_spec hinv taker []).index
  have hpos : ∀ m ∈ b.queue (opposite taker.side), 0 < m.order.qty.toInt :=
    fun m hm => hinv.qty_pos hm
  intro side n hn
  rw [hindex]
  rcases submit_from hinv taker [] hn with ⟨rfl, hrem⟩ | ⟨⟨m, hm, heq⟩, hstay⟩
  · rw [hrem]
    obtain ⟨-, rfl⟩ := remainder_eq_some hrem
    exact Function.update_self _ _ _
  · have hkeep := forget_complete hinv hidx taker h hm heq hstay
    have hrest := remainder_ne_none hinv taker
    cases hr : remainder b taker (walk taker taker.qty (b.queue (opposite taker.side))) with
    | none => exact hkeep
    | some n₀ =>
      rw [hr] at hrest
      have hleaves := hrest.mp (Option.some_ne_none n₀)
      have hid : n.order.id ≠ taker.id := by
        intro hid
        rw [heq] at hid
        refine hnew ⟨hleaves, side, m, hm, hid, ?_⟩
        rcases eq_or_opposite side taker.side with rfl | rfl
        · exact .inl rfl
        · have hstop := walk_stops (queue_sorted hinv _) hpos
            (remainder_eq_some hr).1 n (hstay rfl)
          rw [heq] at hstop
          exact .inr hstop
      rw [Option.elim_some, Function.update_of_ne hid]
      exact hkeep

/-- Conversely, the entry of a reused id names the new order, and the old one is
still there. -/
theorem Complete.not_reusesId (h : Complete (MatchingEngine.submit b taker []).1) :
    ¬ ReusesId b (.submit taker) := by
  rintro ⟨hleaves, side, n, hn, hid, hwhere⟩
  have hs := submit_spec hinv taker []
  cases hr : remainder b taker (walk taker taker.qty (b.queue (opposite taker.side))) with
  | none => exact absurd hr ((remainder_ne_none hinv taker).mpr hleaves)
  | some n₀ =>
    have hstill : n ∈ (MatchingEngine.submit b taker []).1.queue side := by
      rcases eq_or_opposite side taker.side with rfl | rfl
      · rw [hs.own, hr]
        exact mem_enqueue.mpr (.inr hn)
      · rw [hs.makers]
        exact walk_unaccepted taker.qty (fun m hm => hinv.qty_pos hm) n hn
          (hwhere.resolve_left (opposite_ne _))
    have hentry := h side n hstill
    rw [hs.index, hr, hid, Option.elim_some, Function.update_self] at hentry
    obtain ⟨-, rfl⟩ := remainder_eq_some hr
    obtain ⟨-, -, hstamp⟩ := Location.mk.inj (Option.some.inj hentry)
    exact absurd hstamp.symm (Nat.ne_of_lt (queue_lt_fresh hidx side n hn))

end Submit

/-! ## The main theorem -/

/-- **Every resting order can be cancelled by its id**, in all the states of a run
exactly if no call of it brings an order to rest under an id in use. -/
theorem cancellable_iff (symbol : Symbol) (calls : List Call) :
    (∀ b ∈ states step { symbol } calls, Cancellable b) ↔
      ∀ e ∈ trace step { symbol } calls, ¬ ReusesId e.pre e.input := by
  constructor
  · intro h
    refine steps_of_states step (P := fun b c => ¬ ReusesId b c) (I := Cancellable)
      (J := fun b => b.Inv ∧ b.Indexed) (A := fun _ => True)
      (fun b c _ hb => ⟨step_inv hb.1 c, step_indexed hb.2 c⟩) ?_ _
      ⟨inv_new symbol, indexed_new symbol⟩ calls (fun _ _ => trivial) h
    rintro b c - ⟨hinv, hidx⟩ - hnext
    cases c with
    | submit taker =>
      have hcomplete := hnext.complete (step_indexed hidx (.submit taker))
        (step_inv hinv (.submit taker))
      exact hcomplete.not_reusesId hinv hidx taker
    | cancel target => exact id
  · intro h
    have hrun := states_induction step (P := fun b c => ¬ ReusesId b c)
      (I := fun b => (b.Inv ∧ b.Indexed) ∧ Complete b) (fun b c hc hb => ?_) { symbol }
      ⟨⟨inv_new symbol, indexed_new symbol⟩, complete_new symbol⟩ calls h
    · exact fun b hb => (hrun b hb).2.cancellable (hrun b hb).1.2
    · obtain ⟨⟨hinv, hidx⟩, hcomplete⟩ := hb
      refine ⟨⟨step_inv hinv c, step_indexed hidx c⟩, ?_⟩
      cases c with
      | submit taker => exact hcomplete.submit hinv hidx taker hc
      | cancel id => exact hcomplete.cancel hidx id

/-- Two bids under the id 0, as the feed handlers submit them: the cancel takes
the later one out, the first one stays with that id and cannot be cancelled any
more. -/
theorem reused_id_uncancellable :
    let b := exec step { symbol := 1 }
      [.submit ⟨0, 1, .buy, .limit, 100, 5⟩, .submit ⟨0, 1, .buy, .limit, 99, 5⟩]
    (b.cancel 0).2 = true ∧ Rests (b.cancel 0).1 0 ∧ ((b.cancel 0).1.cancel 0).2 = false ∧
      ¬ Cancellable b := by
  intro b
  have hfound : (b.cancel 0).2 = true := by decide
  have hstill : Rests (b.cancel 0).1 0 := ⟨.buy, ⟨0, 0, 1, .buy, .limit, 100, 5⟩, by decide, rfl⟩
  exact ⟨hfound, hstill, by decide, fun h => ((h 0).2 hfound).1 hstill⟩

end Lloms.MatchingEngine
