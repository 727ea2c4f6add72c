import Mathlib.Logic.Function.Basic
import Lloms.Lib.OrdMap
import Lloms.Order

/-! The single-symbol limit order book (`order_book.cpp`). A `std::list` node is
an order together with the serial number of its insertion, which is what an
iterator identifies and also the order of arrival. `ladder` reads a side best
price first and `queue` flattens it into price-time priority; every operation is
described by what it does to these two. -/
namespace Lloms
open Lib

structure Node where
  stamp : Nat
  order : Order
  deriving DecidableEq, Repr

abbrev Level := List Node

/-- Where the index says an order rests; `it` identifies the list node. -/
structure Location where
  side : Side
  price : Price
  it : Nat
  deriving DecidableEq, Repr

structure OrderBook where
  symbol : Symbol
  bids : OrdMap Price Level := .empty
  asks : OrdMap Price Level := .empty
  index : OrderId → Option Location := fun _ => none
  /-- The serial number of the next list node. -/
  fresh : Nat := 0

namespace OrderBook

/-! ## Operations -/

def book (b : OrderBook) : Side → OrdMap Price Level
  | .buy => b.bids
  | .sell => b.asks

/-- The book after writing through the reference `book(side)`. -/
def setBook (b : OrderBook) (side : Side) (m : OrdMap Price Level) : OrderBook :=
  match side with
  | .buy => { b with bids := m }
  | .sell => { b with asks := m }

def add (b : OrderBook) (order : Order) : OrderBook :=
  let lvl := ((b.book order.side).find? order.price).getD []
  let m := (b.book order.side).set order.price (lvl ++ [⟨b.fresh, order⟩])
  { b.setBook order.side m with
    index := Function.update b.index order.id (some ⟨order.side, order.price, b.fresh⟩)
    fresh := b.fresh + 1 }

/-- Store a level that lost an order; an empty one is erased. -/
def putLevel (m : OrdMap Price Level) (price : Price) (lvl : Level) : OrdMap Price Level :=
  if lvl = [] then m.erase price else m.set price lvl

/-- `lvl_it->second.erase(loc.it)`, if the level is there. -/
def eraseAt (m : OrdMap Price Level) (loc : Location) : OrdMap Price Level :=
  match m.find? loc.price with
  | none => m
  | some lvl => putLevel m loc.price (lvl.eraseP fun n => n.stamp = loc.it)

def cancel (b : OrderBook) (id : OrderId) : OrderBook × Bool :=
  match b.index id with
  | none => (b, false)
  | some loc =>
    ({ b.setBook loc.side (eraseAt (b.book loc.side) loc) with
        index := Function.update b.index id none }, true)

/-- The level at the best end of the map: `rbegin` for bids, `begin` for asks. -/
def bestLevel (b : OrderBook) : Side → Option (Price × Level)
  | .buy => b.bids.entries.getLast?
  | .sell => b.asks.entries.head?

def bestPrice (b : OrderBook) (side : Side) : Option Price := (b.bestLevel side).map Prod.fst

def best (b : OrderBook) (side : Side) : Option Order :=
  (b.bestLevel side).bind fun e => e.2.head?.map Node.order

def reduceFront (b : OrderBook) (side : Side) (qty : Qty) : OrderBook :=
  match b.bestLevel side with
  | none => b
  | some (price, []) => b.setBook side ((b.book side).erase price)
  | some (price, front :: rest) =>
    let left := front.order.qty - qty
    if left ≤ 0 then
      { b.setBook side (putLevel (b.book side) price rest) with
        index := Function.update b.index front.order.id none }
    else
      b.setBook side ((b.book side).set price
        ({ front with order := { front.order with qty := left } } :: rest))

def qtyAt (b : OrderBook) (side : Side) (price : Price) : Qty :=
  match (b.book side).find? price with
  | none => 0
  | some lvl => lvl.foldl (fun total n => total + n.order.qty) 0

def levelCount (b : OrderBook) (side : Side) : Nat := (b.book side).entries.length

/-! ## Priority -/

/-- A side's map read from its best end. -/
def ranked : Side → OrdMap Price Level → List (Price × Level)
  | .buy, m => m.entries.reverse
  | .sell, m => m.entries

/-- The levels of a side, best price first. -/
def ladder (b : OrderBook) (side : Side) : List (Price × Level) := ranked side (b.book side)

/-- The resting orders of a side in the order the engine meets them. -/
def queue (b : OrderBook) (side : Side) : List Node := (b.ladder side).flatMap Prod.snd

section Frame

variable (b : OrderBook) (side : Side) (m : OrdMap Price Level)

@[simp] theorem book_setBook : (b.setBook side m).book side = m := by cases side <;> rfl

@[simp] theorem book_setBook_opposite :
    (b.setBook side m).book (opposite side) = b.book (opposite side) := by cases side <;> rfl

@[simp] theorem setBook_index : (b.setBook side m).index = b.index := by cases side <;> rfl
@[simp] theorem setBook_fresh : (b.setBook side m).fresh = b.fresh := by cases side <;> rfl
@[simp] theorem setBook_symbol : (b.setBook side m).symbol = b.symbol := by cases side <;> rfl

theorem mem_ladder {e : Price × Level} : e ∈ b.ladder side ↔ e ∈ (b.book side).entries := by
  cases side with
  | buy => exact List.mem_reverse
  | sell => exact Iff.rfl

theorem bestLevel_eq : b.bestLevel side = (b.ladder side).head? := by
  cases side with
  | buy => exact List.head?_reverse.symm
  | sell => rfl

/-- The best order is the front of the first level of the ladder. -/
theorem best_eq_some {order : Order} (h : b.best side = some order) :
    ∃ price front rest tail, front.order = order ∧
      b.bestLevel side = some (price, front :: rest) ∧
      b.ladder side = (price, front :: rest) :: tail := by
  obtain ⟨⟨price, lvl⟩, hl, hhead⟩ := Option.bind_eq_some_iff.mp h
  obtain ⟨front, hfront, horder⟩ := Option.map_eq_some_iff.mp hhead
  obtain ⟨rest, hlvl⟩ := List.head?_eq_some_iff.mp hfront
  obtain rfl : lvl = front :: rest := hlvl
  obtain ⟨tail, htail⟩ := List.head?_eq_some_iff.mp ((b.bestLevel_eq side).symm.trans hl)
  exact ⟨price, front, rest, tail, horder, hl, htail⟩

end Frame

/-- Writing at a price that is there, or erasing it, changes the ladder in one
place. -/
theorem ranked_split {side : Side} {m : OrdMap Price Level} {price : Price} {lvl : Level}
    {front back : List (Price × Level)} (h : ranked side m = front ++ (price, lvl) :: back) :
    (∀ lvl', ranked side (m.set price lvl') = front ++ (price, lvl') :: back) ∧
    ranked side (m.erase price) = front ++ back := by
  cases side with
  | buy =>
    have he : m.entries = back.reverse ++ (price, lvl) :: front.reverse := by
      rw [← List.reverse_reverse m.entries, show m.entries.reverse = _ from h]
      simp
    refine ⟨fun lvl' => ?_, ?_⟩
    · rw [ranked, OrdMap.set_of_split he]
      simp
    · rw [ranked, OrdMap.erase_of_split he]
      simp
  | sell => exact ⟨OrdMap.set_of_split h, OrdMap.erase_of_split h⟩

/-- A price of `side` at least as good as another one: higher for bids, lower
for asks. -/
def NotWorse : Side → Price → Price → Prop
  | .buy, p, q => q ≤ p
  | .sell, p, q => p ≤ q

instance : (side : Side) → (p q : Price) → Decidable (NotWorse side p q)
  | .buy, p, q => inferInstanceAs (Decidable (q ≤ p))
  | .sell, p, q => inferInstanceAs (Decidable (p ≤ q))

theorem notWorse_refl (side : Side) (p : Price) : NotWorse side p p := by
  cases side <;> exact le_rfl

theorem notWorse_of_not {side : Side} {p q : Price} (h : ¬ NotWorse side q p) :
    NotWorse side p q := by
  cases side <;> exact (not_le.mp h).le

theorem ranked_pairwise (side : Side) (m : OrdMap Price Level) :
    (ranked side m).Pairwise fun e e' => ¬ NotWorse side e'.1 e.1 := by
  cases side with
  | buy => exact List.pairwise_reverse.mpr (m.sorted.imp fun h => not_le.mpr h)
  | sell => exact m.sorted.imp fun h => not_le.mpr h

/-- Writing at a price: the better levels stay in front, the worse ones behind. -/
theorem ranked_set (side : Side) (m : OrdMap Price Level) (price : Price) (lvl : Level) :
    ∃ front back, ranked side m =
        front ++ (((m.find? price).map (price, ·)).toList ++ back) ∧
      ranked side (m.set price lvl) = front ++ (price, lvl) :: back ∧
      (∀ e ∈ front, ¬ NotWorse side price e.1) ∧ ∀ e ∈ back, ¬ NotWorse side e.1 price := by
  obtain ⟨pre, post, hset, hold⟩ := m.set_split price lvl
  obtain ⟨hpre, hpost⟩ := OrdMap.split_bounds hset
  cases side with
  | buy =>
    refine ⟨post.reverse, pre.reverse, ?_, ?_, fun e he => ?_, fun e he => ?_⟩
    · rw [ranked, hold]
      cases m.find? price <;> simp
    · rw [ranked, hset]
      simp
    · exact not_le.mpr (hpost e (List.mem_reverse.mp he))
    · exact not_le.mpr (hpre e (List.mem_reverse.mp he))
  | sell =>
    refine ⟨pre, post, ?_, hset, fun e he => not_le.mpr (hpre e he),
      fun e he => not_le.mpr (hpost e he)⟩
    rw [ranked, hold, List.append_assoc]

/-! ## The invariant -/

/-- A level of `side`, in a book whose next serial number is `fresh`: it is not
empty, its orders carry its side and price and have something left, and they
stand in the order of arrival. -/
structure LevelOk (side : Side) (fresh : Nat) (e : Price × Level) : Prop where
  nonempty : e.2 ≠ []
  nodes : ∀ n ∈ e.2, n.order.side = side ∧ n.order.type = .limit ∧ n.order.price = e.1 ∧
    0 < n.order.qty.toInt ∧ n.stamp < fresh
  arrival : e.2.Pairwise fun n n' => n.stamp < n'.stamp

def Inv (b : OrderBook) : Prop := ∀ side, ∀ e ∈ (b.book side).entries, LevelOk side b.fresh e

theorem inv_new (symbol : Symbol) : Inv { symbol } := by
  intro side e he
  cases side <;> simp [book, OrdMap.empty] at he

/-- One side is rewritten at one price. -/
theorem Inv.update {b b' : OrderBook} (h : b.Inv) (side : Side) (hf : b.fresh ≤ b'.fresh)
    (hother : b'.book (opposite side) = b.book (opposite side))
    (hside : ∀ e ∈ (b'.book side).entries, e ∈ (b.book side).entries ∨ LevelOk side b'.fresh e) :
    b'.Inv := by
  have hold : ∀ s, ∀ e ∈ (b.book s).entries, LevelOk s b'.fresh e := by
    intro s e he
    have hok := h s e he
    refine ⟨hok.nonempty, fun n hn => ?_, hok.arrival⟩
    obtain ⟨h1, h2, h3, h4, h5⟩ := hok.nodes n hn
    exact ⟨h1, h2, h3, h4, by omega⟩
  intro s e he
  rcases eq_or_opposite s side with rfl | rfl
  · exact (hside e he).elim (hold s e) id
  · exact hold _ e (hother ▸ he)

theorem LevelOk.sublist {side : Side} {fresh : Nat} {price : Price} {lvl lvl' : Level}
    (h : LevelOk side fresh (price, lvl)) (hs : lvl'.Sublist lvl) (hne : lvl' ≠ []) :
    LevelOk side fresh (price, lvl') :=
  ⟨hne, fun n hn => h.nodes n (hs.subset hn), h.arrival.sublist hs⟩

theorem mem_putLevel {m : OrdMap Price Level} {price : Price} {lvl : Level} {e : Price × Level}
    (h : e ∈ (putLevel m price lvl).entries) : e ∈ m.entries ∨ (lvl ≠ [] ∧ e = (price, lvl)) := by
  unfold putLevel at h
  split_ifs at h with hnil
  · exact .inl (OrdMap.mem_erase h)
  · rcases OrdMap.mem_set h with h | h
    · exact .inr ⟨hnil, h⟩
    · exact .inl h

theorem Inv.cancel {b : OrderBook} (h : b.Inv) (id : OrderId) : (b.cancel id).1.Inv := by
  unfold OrderBook.cancel
  cases hi : b.index id with
  | none => exact h
  | some loc =>
    refine h.update loc.side (by simp) (book_setBook_opposite b loc.side _) fun e he => ?_
    replace he : e ∈ (eraseAt (b.book loc.side) loc).entries := by
      rw [← book_setBook b loc.side (eraseAt (b.book loc.side) loc)]
      exact he
    unfold eraseAt at he
    cases hf : (b.book loc.side).find? loc.price with
    | none =>
      rw [hf] at he
      exact .inl he
    | some lvl =>
      rw [hf] at he
      rcases mem_putLevel he with he | ⟨hnil, rfl⟩
      · exact .inl he
      · have hok := h loc.side (loc.price, lvl) (OrdMap.mem_entries_iff.mpr hf)
        have hok' := hok.sublist List.eraseP_sublist hnil
        exact .inr (by simpa using hok')

/-! ## Adding an order -/

/-- Put an order behind everything that is at least as good, which is the back
of its own price level. -/
def enqueue (side : Side) (n : Node) (l : List Node) : List Node :=
  l.takeWhile (fun m => NotWorse side m.order.price n.order.price) ++
    n :: l.dropWhile (fun m => NotWorse side m.order.price n.order.price)

theorem enqueue_append {side : Side} {n : Node} {as bs : List Node}
    (has : ∀ m ∈ as, NotWorse side m.order.price n.order.price)
    (hbs : ∀ m ∈ bs, ¬ NotWorse side m.order.price n.order.price) :
    enqueue side n (as ++ bs) = as ++ n :: bs := by
  have hdec : ∀ m ∈ as, decide (NotWorse side m.order.price n.order.price) = true :=
    fun m hm => decide_eq_true (has m hm)
  rw [enqueue, List.takeWhile_append_of_pos hdec, List.dropWhile_append_of_pos hdec]
  cases bs with
  | nil => simp
  | cons m bs =>
    have hm := decide_eq_false (hbs m List.mem_cons_self)
    rw [List.takeWhile_cons_of_neg (by simpa using hm), List.dropWhile_cons_of_neg (by simpa using hm)]
    simp

theorem enqueue_perm (side : Side) (n : Node) (l : List Node) :
    (enqueue side n l).Perm (n :: l) := by
  rw [enqueue]
  refine List.perm_middle.trans (List.Perm.cons n ?_)
  rw [List.takeWhile_append_dropWhile]

theorem mem_enqueue {side : Side} {n m : Node} {l : List Node} :
    m ∈ enqueue side n l ↔ m = n ∨ m ∈ l := (enqueue_perm side n l).mem_iff.trans List.mem_cons

theorem book_add (b : OrderBook) (order : Order) :
    (b.add order).book order.side = (b.book order.side).set order.price
      (((b.book order.side).find? order.price).getD [] ++ [⟨b.fresh, order⟩]) :=
  book_setBook b order.side _

theorem book_add_opposite (b : OrderBook) (order : Order) :
    (b.add order).book (opposite order.side) = b.book (opposite order.side) :=
  book_setBook_opposite b order.side _

/-- What `add` finds at a price, a missing level being empty. -/
theorem Inv.level {b : OrderBook} (h : b.Inv) (side : Side) (price : Price) :
    (∀ n ∈ ((b.book side).find? price).getD [], n.order.side = side ∧ n.order.type = .limit ∧
      n.order.price = price ∧ 0 < n.order.qty.toInt ∧ n.stamp < b.fresh) ∧
    (((b.book side).find? price).getD []).Pairwise fun n n' => n.stamp < n'.stamp := by
  cases hf : (b.book side).find? price with
  | none => exact ⟨by simp, .nil⟩
  | some lvl =>
    have hok := h side (price, lvl) (OrdMap.mem_entries_iff.mpr hf)
    exact ⟨hok.nodes, hok.arrival⟩

theorem Inv.add {b : OrderBook} (h : b.Inv) (order : Order) (hlimit : order.type = .limit)
    (hqty : 0 < order.qty.toInt) : (b.add order).Inv := by
  refine h.update order.side (Nat.le_succ _) (b.book_add_opposite order) fun e he => ?_
  rw [book_add] at he
  obtain ⟨hnodes, harr⟩ := h.level order.side order.price
  rcases OrdMap.mem_set he with rfl | he
  · refine .inr ⟨by simp, fun n hn => ?_, ?_⟩
    · rcases List.mem_append.mp hn with hn | hn
      · obtain ⟨h1, h2, h3, h4, h5⟩ := hnodes n hn
        exact ⟨h1, h2, h3, h4, Nat.lt_succ_of_lt h5⟩
      · obtain rfl := List.mem_singleton.mp hn
        exact ⟨rfl, hlimit, rfl, hqty, Nat.lt_succ_self _⟩
    · refine List.pairwise_append.mpr ⟨harr, List.pairwise_singleton _ _, fun n hn n' hn' => ?_⟩
      obtain rfl := List.mem_singleton.mp hn'
      exact (hnodes n hn).2.2.2.2
  · exact .inl he

/-- Every order of the ladder carries the price of its level. -/
theorem Inv.price_of_ladder {b : OrderBook} (h : b.Inv) {side : Side} {e : Price × Level}
    (he : e ∈ b.ladder side) {n : Node} (hn : n ∈ e.2) : n.order.price = e.1 :=
  ((h side e ((b.mem_ladder side).mp he)).nodes n hn).2.2.1

/-- The new order goes to the back of its own price level. -/
theorem queue_add {b : OrderBook} (h : b.Inv) (order : Order) :
    (b.add order).queue order.side = enqueue order.side ⟨b.fresh, order⟩ (b.queue order.side) := by
  obtain ⟨front, back, hold, hnew, hfront, hback⟩ := ranked_set order.side (b.book order.side)
    order.price (((b.book order.side).find? order.price).getD [] ++ [⟨b.fresh, order⟩])
  obtain ⟨hnodes, -⟩ := h.level order.side order.price
  have hladder : b.ladder order.side = _ := hold
  have hq : b.queue order.side = (front.flatMap Prod.snd ++
      ((b.book order.side).find? order.price).getD []) ++ back.flatMap Prod.snd := by
    rw [queue, hladder]
    cases (b.book order.side).find? order.price <;> simp
  rw [hq, enqueue_append, queue, ladder, book_add, hnew]
  · simp
  · intro m hm
    rcases List.mem_append.mp hm with hm | hm
    · obtain ⟨e, he, hme⟩ := List.mem_flatMap.mp hm
      rw [h.price_of_ladder (hladder ▸ List.mem_append_left _ he) hme]
      exact notWorse_of_not (hfront e he)
    · rw [(hnodes m hm).2.2.1]
      exact notWorse_refl _ _
  · intro m hm
    obtain ⟨e, he, hme⟩ := List.mem_flatMap.mp hm
    rw [h.price_of_ladder
      (hladder ▸ List.mem_append_right _ (List.mem_append_right _ he)) hme]
    exact hback e he

/-- Orders that rest already are left where they are. -/
theorem mem_queue_add {b : OrderBook} (h : b.Inv) (order : Order) {side : Side} {n : Node}
    (hn : n ∈ b.queue side) : n ∈ (b.add order).queue side := by
  rcases eq_or_opposite side order.side with rfl | rfl
  · rw [queue_add h]
    exact mem_enqueue.mpr (.inr hn)
  · rw [queue, ladder, book_add_opposite]
    exact hn

/-! ## The front of the queue -/

/-- A resting order is a limit order of its side with something left. -/
theorem Inv.of_queue {b : OrderBook} (h : b.Inv) {side : Side} {n : Node} (hn : n ∈ b.queue side) :
    n.order.side = side ∧ n.order.type = .limit ∧ 0 < n.order.qty.toInt := by
  obtain ⟨e, he, hne⟩ := List.mem_flatMap.mp hn
  obtain ⟨h1, h2, -, h4, -⟩ := (h side e ((b.mem_ladder side).mp he)).nodes n hne
  exact ⟨h1, h2, h4⟩

theorem Inv.qty_pos {b : OrderBook} (h : b.Inv) {side : Side} {n : Node} (hn : n ∈ b.queue side) :
    0 < n.order.qty.toInt := (h.of_queue hn).2.2

theorem Inv.ladder_of_queue_nil {b : OrderBook} (h : b.Inv) {side : Side}
    (hq : b.queue side = []) : b.ladder side = [] := by
  cases hl : b.ladder side with
  | nil => rfl
  | cons e rest =>
    have hne := (h side e ((b.mem_ladder side).mp (by rw [hl]; simp))).nonempty
    rw [queue, hl, List.flatMap_cons, List.append_eq_nil_iff] at hq
    exact absurd hq.1 hne

/-- The first order of the queue stands at the front of the best level. -/
theorem Inv.ladder_of_queue_cons {b : OrderBook} (h : b.Inv) {side : Side} {n : Node}
    {ns : List Node} (hq : b.queue side = n :: ns) :
    ∃ lvl rest, b.ladder side = (n.order.price, n :: lvl) :: rest ∧
      ns = lvl ++ rest.flatMap Prod.snd := by
  cases hl : b.ladder side with
  | nil => simp [queue, hl] at hq
  | cons e rest =>
    obtain ⟨price, lvl⟩ := e
    have hmem : (price, lvl) ∈ b.ladder side := by rw [hl]; simp
    have hok := h side _ ((b.mem_ladder side).mp hmem)
    rw [queue, hl, List.flatMap_cons] at hq
    cases lvl with
    | nil => exact absurd rfl hok.nonempty
    | cons m lvl =>
      obtain ⟨rfl, rfl⟩ := List.cons_eq_cons.mp hq
      have hp : m.order.price = price := h.price_of_ladder hmem List.mem_cons_self
      exact ⟨lvl, rest, by rw [hp], rfl⟩

theorem bestPrice_of_queue_nil {b : OrderBook} (h : b.Inv) {side : Side}
    (hq : b.queue side = []) : b.bestPrice side = none := by
  rw [bestPrice, bestLevel_eq, h.ladder_of_queue_nil hq]
  rfl

theorem best_of_queue_cons {b : OrderBook} (h : b.Inv) {side : Side} {n : Node} {ns : List Node}
    (hq : b.queue side = n :: ns) :
    b.bestPrice side = some n.order.price ∧ b.best side = some n.order := by
  obtain ⟨lvl, rest, hl, -⟩ := h.ladder_of_queue_cons hq
  rw [bestPrice, best, bestLevel_eq, hl]
  exact ⟨rfl, rfl⟩

/-- `b'` is `b` with the queue of one side replaced; the other side, the symbol
and the serial numbers stand. -/
structure Rewrites (b b' : OrderBook) (side : Side) (q : List Node)
    (index : OrderId → Option Location) : Prop where
  queue : b'.queue side = q
  other : b'.book (opposite side) = b.book (opposite side)
  index : b'.index = index
  fresh : b'.fresh = b.fresh
  symbol : b'.symbol = b.symbol
  inv : b'.Inv

theorem Rewrites.queue_opposite {b b' : OrderBook} {side : Side} {q : List Node}
    {index : OrderId → Option Location} (h : Rewrites b b' side q index) :
    b'.queue (opposite side) = b.queue (opposite side) := by
  rw [OrderBook.queue, ladder, h.other]
  rfl

theorem ranked_putLevel {side : Side} {m : OrdMap Price Level} {price : Price} {lvl : Level}
    {front back : List (Price × Level)} (h : ranked side m = front ++ (price, lvl) :: back)
    (lvl' : Level) : (ranked side (putLevel m price lvl')).flatMap Prod.snd =
      front.flatMap Prod.snd ++ (lvl' ++ back.flatMap Prod.snd) := by
  unfold putLevel
  split_ifs with hnil
  · rw [(ranked_split h).2, hnil, List.flatMap_append]
    rfl
  · rw [(ranked_split h).1, List.flatMap_append, List.flatMap_cons]

/-- `reduceFront` takes the first order out, or leaves it in place with less. -/
theorem reduceFront_rewrites {b : OrderBook} (h : b.Inv) {side : Side} {n : Node} {ns : List Node}
    (hq : b.queue side = n :: ns) (qty : Qty) :
    (n.order.qty - qty ≤ 0 → Rewrites b (b.reduceFront side qty) side ns
      (Function.update b.index n.order.id none)) ∧
    (¬ n.order.qty - qty ≤ 0 → Rewrites b (b.reduceFront side qty) side
      ({ n with order := { n.order with qty := n.order.qty - qty } } :: ns) b.index) := by
  obtain ⟨lvl, rest, hl, rfl⟩ := h.ladder_of_queue_cons hq
  have hbest : b.bestLevel side = some (n.order.price, n :: lvl) := by rw [bestLevel_eq, hl]; rfl
  have hok := h side _ ((b.mem_ladder side).mp (by rw [hl]; exact List.mem_cons_self))
  have hsplit : ranked side (b.book side) = [] ++ (n.order.price, n :: lvl) :: rest := hl
  constructor
  · intro hleft
    have hb' : b.reduceFront side qty =
        { b.setBook side (putLevel (b.book side) n.order.price lvl) with
          index := Function.update b.index n.order.id none } := by
      simp only [reduceFront, hbest, if_pos hleft]
    have hbook : (b.reduceFront side qty).book side = putLevel (b.book side) n.order.price lvl := by
      rw [hb']
      exact book_setBook b side _
    refine ⟨?_, ?_, by rw [hb'], by simp [hb'], by simp [hb'], ?_⟩
    · rw [queue, ladder, hbook]
      exact ranked_putLevel hsplit lvl
    · rw [hb']
      exact book_setBook_opposite b side _
    · refine h.update side (by simp [hb']) (by rw [hb']; exact book_setBook_opposite b side _) ?_
      intro e he
      rcases mem_putLevel (hbook ▸ he) with he | ⟨hne, rfl⟩
      · exact .inl he
      · have := hok.sublist (List.sublist_cons_self n lvl) hne
        exact .inr (by simpa [hb'] using this)
  · intro hleft
    have hb' : b.reduceFront side qty = b.setBook side ((b.book side).set n.order.price
        ({ n with order := { n.order with qty := n.order.qty - qty } } :: lvl)) := by
      simp only [reduceFront, hbest, if_neg hleft]
    have hpos : 0 < (n.order.qty - qty).toInt := by
      rw [Int64.le_iff_toInt_le, Int64.toInt_zero] at hleft
      omega
    refine ⟨?_, by simp [hb'], by simp [hb'], by simp [hb'], by simp [hb'], ?_⟩
    · rw [queue, ladder, hb', book_setBook, (ranked_split hsplit).1, List.nil_append,
        List.flatMap_cons]
      rfl
    · refine h.update side (by simp [hb']) (by simp [hb']) fun e he => ?_
      rw [hb', book_setBook] at he
      rcases OrdMap.mem_set he with rfl | he
      · obtain ⟨h1, h2, h3, h4, h5⟩ := hok.nodes n List.mem_cons_self
        have harr := hok.arrival
        refine .inr ⟨by simp, fun m hm => ?_, ?_⟩
        · rcases List.mem_cons.mp hm with rfl | hm
          · exact ⟨h1, h2, h3, hpos, by simpa [hb'] using h5⟩
          · have := hok.nodes m (List.mem_cons_of_mem _ hm)
            simpa [hb'] using this
        · rw [List.pairwise_cons] at harr ⊢
          exact harr
      · exact .inl he

end OrderBook

end Lloms
