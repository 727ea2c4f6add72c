import Mathlib.Order.Monotone.Basic
import Mathlib.Data.Set.Function
import Lloms.Matching.Engine

/-! What the engine does not look at. Ids are only told apart, prices only compared, and
symbols only copied, and the two sides are treated alike: a run in which all these are
changed consistently gives the same answers, changed in the same way. Buying and selling
are two branches in several places of the source. -/
namespace Lloms.MatchingEngine
open Lib OrderBook

/-- Other names for the ids and the symbols, and other prices: in the same order, or with
the two sides exchanged, in the opposite one. `ids` and `prices` are those in use. -/
structure Relabel where
  swap : Bool
  id : OrderId → OrderId
  symbol : Symbol → Symbol
  price : Price → Price
  ids : Set OrderId
  prices : Set Price
  id_inj : ids.InjOn id
  ordered : if swap then StrictAntiOn price prices else StrictMonoOn price prices

namespace Relabel

variable (R : Relabel)

def side (side : Side) : Side := if R.swap then opposite side else side

def order (o : Order) : Order :=
  { o with id := R.id o.id, symbol := R.symbol o.symbol, side := R.side o.side
           price := R.price o.price }

def node (n : Node) : Node := { n with order := R.order n.order }

def level (lvl : Level) : Level := lvl.map R.node

def location (loc : Location) : Location :=
  { loc with side := R.side loc.side, price := R.price loc.price }

def fill (f : Fill) : Fill :=
  { f with takerId := R.id f.takerId, makerId := R.id f.makerId, symbol := R.symbol f.symbol
           price := R.price f.price }

def call : Call → Call
  | .submit taker => .submit (R.order taker)
  | .cancel id => .cancel (R.id id)

def reply : Reply → Reply
  | .filled qty fills => .filled qty (fills.map R.fill)
  | .cancelled found => .cancelled found

/-- The price of a market order is never looked at. -/
def Covers : Call → Prop
  | .submit taker => taker.id ∈ R.ids ∧ (taker.type = .limit → taker.price ∈ R.prices)
  | .cancel id => id ∈ R.ids

/-! ## The sides -/

theorem side_opposite (side : Side) : R.side (opposite side) = opposite (R.side side) := by
  unfold Relabel.side
  split_ifs <;> rfl

theorem price_inj : R.prices.InjOn R.price := by
  have hordered := R.ordered
  split_ifs at hordered
  · exact hordered.injOn
  · exact hordered.injOn

/-- A taker may trade at a price if and only if its image may at the image. -/
theorem acceptable {taker : Order} (hlimit : taker.type = .limit → taker.price ∈ R.prices)
    {px : Price} (hpx : px ∈ R.prices) :
    Acceptable (R.order taker) (R.price px) ↔ Acceptable taker px := by
  unfold Acceptable
  by_cases hmarket : taker.type = .market
  · exact iff_of_true (.inl hmarket) (.inl hmarket)
  · have htaker : taker.price ∈ R.prices := by
      refine hlimit ?_
      cases htype : taker.type with
      | limit => rfl
      | market => exact absurd htype hmarket
    have hordered := R.ordered
    cases hswap : R.swap with
    | false =>
      rw [hswap] at hordered
      have h₁ : R.price px ≤ R.price taker.price ↔ px ≤ taker.price := hordered.le_iff_le hpx htaker
      have h₂ : R.price taker.price ≤ R.price px ↔ taker.price ≤ px := hordered.le_iff_le htaker hpx
      simp only [Relabel.order, Relabel.side, hswap, hmarket, h₁, h₂]
      rfl
    | true =>
      rw [hswap] at hordered
      have h₁ : R.price px ≤ R.price taker.price ↔ taker.price ≤ px := hordered.le_iff_ge hpx htaker
      have h₂ : R.price taker.price ≤ R.price px ↔ px ≤ taker.price := hordered.le_iff_ge htaker hpx
      simp only [Relabel.order, Relabel.side, hswap, hmarket, h₁, h₂]
      cases taker.side <;> simp [opposite]

/-! ## One side of a book -/

/-- One side is the image of another. -/
abbrev SideAlike (m m' : OrdMap Price Level) : Prop := m.Image R.prices R.price R.level m'

/-- The levels from the best price on. -/
theorem ranked {m m' : OrdMap Price Level} (h : R.SideAlike m m') (side : Side) :
    OrderBook.ranked (R.side side) m' =
      (OrderBook.ranked side m).map fun e => (R.price e.1, R.level e.2) := by
  have hordered := R.ordered
  cases hswap : R.swap with
  | false =>
    rw [hswap] at hordered
    have hentries := h.entries_of_strictMonoOn hordered
    cases side <;> simp [OrderBook.ranked, Relabel.side, hswap, hentries]
  | true =>
    rw [hswap] at hordered
    have hentries := h.entries_of_strictAntiOn hordered
    cases side <;> simp [OrderBook.ranked, Relabel.side, hswap, opposite, hentries]

theorem putLevel {m m' : OrdMap Price Level} (h : R.SideAlike m m') {price : Price}
    (hprice : price ∈ R.prices) (lvl : Level) :
    R.SideAlike (OrderBook.putLevel m price lvl)
      (OrderBook.putLevel m' (R.price price) (R.level lvl)) := by
  unfold OrderBook.putLevel
  by_cases hnil : lvl = []
  · rw [if_pos hnil, if_pos (by rw [hnil]; rfl)]
    exact h.erase R.price_inj hprice
  · rw [if_neg hnil, if_neg (by simpa [Relabel.level] using hnil)]
    exact h.set R.price_inj hprice lvl

theorem eraseAt {m m' : OrdMap Price Level} (h : R.SideAlike m m') {loc : Location}
    (hprice : loc.price ∈ R.prices) :
    R.SideAlike (OrderBook.eraseAt m loc) (OrderBook.eraseAt m' (R.location loc)) := by
  have hfind : m'.find? (R.location loc).price = (m.find? loc.price).map R.level :=
    h.find? R.price_inj hprice
  unfold OrderBook.eraseAt
  rw [hfind]
  cases m.find? loc.price with
  | none => exact h
  | some lvl =>
    have herase : (R.level lvl).eraseP (fun n => n.stamp = (R.location loc).it) =
        R.level (lvl.eraseP fun n => n.stamp = loc.it) := List.eraseP_map ..
    simp only [Option.map_some, herase]
    exact R.putLevel h hprice _

/-- Only ids in use rest in the levels. -/
def Known (m : OrdMap Price Level) : Prop :=
  ∀ price lvl, m.find? price = some lvl → ∀ n ∈ lvl, n.order.id ∈ R.ids

variable {R}

theorem Known.set {m : OrdMap Price Level} (h : R.Known m) {price : Price} {lvl : Level}
    (hlvl : ∀ n ∈ lvl, n.order.id ∈ R.ids) : R.Known (m.set price lvl) := by
  intro price' lvl' hfind
  rw [OrdMap.find?_set] at hfind
  split_ifs at hfind
  · exact Option.some.inj hfind ▸ hlvl
  · exact h _ _ hfind

theorem Known.erase {m : OrdMap Price Level} (h : R.Known m) (price : Price) :
    R.Known (m.erase price) := by
  intro price' lvl' hfind
  rw [OrdMap.find?_erase] at hfind
  split_ifs at hfind
  exact h _ _ hfind

theorem Known.putLevel {m : OrdMap Price Level} (h : R.Known m) (price : Price) {lvl : Level}
    (hlvl : ∀ n ∈ lvl, n.order.id ∈ R.ids) : R.Known (OrderBook.putLevel m price lvl) := by
  unfold OrderBook.putLevel
  split_ifs
  · exact h.erase price
  · exact h.set hlvl

/-! ## The book -/

/-- One book is the image of another. -/
structure Alike (R : Relabel) (b b' : OrderBook) : Prop where
  sides : ∀ side, R.SideAlike (b.book side) (b'.book (R.side side))
  known : ∀ side, R.Known (b.book side)
  index : ∀ {id}, id ∈ R.ids → b'.index (R.id id) = (b.index id).map R.location
  located : ∀ {id loc}, id ∈ R.ids → b.index id = some loc → loc.price ∈ R.prices
  fresh : b'.fresh = b.fresh

namespace Alike

variable {b b' : OrderBook}

theorem setBook (h : R.Alike b b') (side : Side) {m m' : OrdMap Price Level}
    (hm : R.SideAlike m m') (hknown : R.Known m) :
    R.Alike (b.setBook side m) (b'.setBook (R.side side) m') where
  sides side' := by
    rcases eq_or_opposite side' side with rfl | rfl
    · rw [book_setBook, book_setBook]
      exact hm
    · rw [R.side_opposite, book_setBook_opposite, book_setBook_opposite, ← R.side_opposite]
      exact h.sides _
  known side' := by
    rcases eq_or_opposite side' side with rfl | rfl
    · rw [book_setBook]
      exact hknown
    · rw [book_setBook_opposite]
      exact h.known _
  index hid := by
    rw [setBook_index, setBook_index]
    exact h.index hid
  located hid := by
    rw [setBook_index]
    exact h.located hid
  fresh := by
    rw [setBook_fresh, setBook_fresh]
    exact h.fresh

theorem setIndex (h : R.Alike b b') {id : OrderId} (hid : id ∈ R.ids) (loc : Option Location)
    (hloc : ∀ l ∈ loc, l.price ∈ R.prices) :
    R.Alike { b with index := Function.update b.index id loc }
      { b' with index := Function.update b'.index (R.id id) (loc.map R.location) } where
  sides := h.sides
  known := h.known
  index {id'} hid' := by
    by_cases heq : id' = id
    · subst heq
      simp only [Function.update_self]
    · have hne : R.id id' ≠ R.id id := fun hsame => heq (R.id_inj hid' hid hsame)
      simp only [Function.update_of_ne heq, Function.update_of_ne hne]
      exact h.index hid'
  located {id' loc'} hid' hfind := by
    by_cases heq : id' = id
    · subst heq
      simp only [Function.update_self] at hfind
      exact hloc loc' hfind
    · simp only [Function.update_of_ne heq] at hfind
      exact h.located hid' hfind
  fresh := h.fresh

theorem setFresh (h : R.Alike b b') (fresh : Nat) :
    R.Alike { b with fresh } { b' with fresh } where
  sides := h.sides
  known := h.known
  index := h.index
  located := h.located
  fresh := rfl

theorem add (h : R.Alike b b') {o : Order} (hid : o.id ∈ R.ids) (hprice : o.price ∈ R.prices) :
    R.Alike (b.add o) (b'.add (R.order o)) := by
  have hlvl : ((b'.book (R.side o.side)).find? (R.price o.price)).getD [] ++
      [⟨b'.fresh, R.order o⟩] =
      R.level (((b.book o.side).find? o.price).getD [] ++ [⟨b.fresh, o⟩]) := by
    rw [(h.sides o.side).find? R.price_inj hprice, h.fresh]
    cases (b.book o.side).find? o.price <;> simp [level, node]
  have hknown : ∀ n ∈ ((b.book o.side).find? o.price).getD [] ++ [⟨b.fresh, o⟩],
      n.order.id ∈ R.ids := by
    intro n hn
    rcases List.mem_append.mp hn with hn | hn
    · cases hfind : (b.book o.side).find? o.price with
      | none => simp [hfind] at hn
      | some lvl =>
        rw [hfind] at hn
        exact h.known o.side _ _ hfind n hn
    · obtain rfl := List.mem_singleton.mp hn
      exact hid
  have hset := h.setBook o.side ((h.sides o.side).set R.price_inj hprice _)
    ((h.known o.side).set hknown)
  rw [← hlvl] at hset
  have hindex := (hset.setIndex hid (some ⟨o.side, o.price, b.fresh⟩)
    fun l hl => Option.some.inj hl ▸ hprice).setFresh (b.fresh + 1)
  simp only [setBook_index, ← h.fresh] at hindex
  rw [OrderBook.add, OrderBook.add, ← h.fresh]
  exact hindex

theorem cancel (h : R.Alike b b') {id : OrderId} (hid : id ∈ R.ids) :
    R.Alike (b.cancel id).1 (b'.cancel (R.id id)).1 ∧
      (b'.cancel (R.id id)).2 = (b.cancel id).2 := by
  unfold OrderBook.cancel
  rw [h.index hid]
  cases hloc : b.index id with
  | none => exact ⟨h, rfl⟩
  | some loc =>
    have hprice := h.located hid hloc
    have hknown : R.Known (OrderBook.eraseAt (b.book loc.side) loc) := by
      unfold OrderBook.eraseAt
      cases hfind : (b.book loc.side).find? loc.price with
      | none => exact h.known _
      | some lvl =>
        refine (h.known _).putLevel _ fun n hn => h.known _ _ _ hfind n ?_
        exact List.mem_of_mem_eraseP hn
    have hset := h.setBook loc.side (R.eraseAt (h.sides loc.side) hprice) hknown
    have hindex := hset.setIndex hid none fun l hl => by cases hl
    simp only [setBook_index] at hindex
    exact ⟨hindex, rfl⟩

theorem ladder (h : R.Alike b b') (side : Side) :
    b'.ladder (R.side side) = (b.ladder side).map fun e => (R.price e.1, R.level e.2) :=
  R.ranked (h.sides side) side

theorem queue (h : R.Alike b b') (side : Side) :
    b'.queue (R.side side) = (b.queue side).map R.node := by
  rw [OrderBook.queue, h.ladder, List.flatMap_map, OrderBook.queue, List.map_flatMap]
  rfl

theorem bestLevel (h : R.Alike b b') (side : Side) :
    b'.bestLevel (R.side side) = (b.bestLevel side).map fun e => (R.price e.1, R.level e.2) := by
  rw [bestLevel_eq, bestLevel_eq, h.ladder, List.head?_map]

theorem price_of_bestLevel (h : R.Alike b b') {side : Side} {e : Price × Level}
    (hbest : b.bestLevel side = some e) : e.1 ∈ R.prices ∧ ∀ n ∈ e.2, n.order.id ∈ R.ids := by
  rw [bestLevel_eq] at hbest
  have hmem := (b.mem_ladder side).mp (List.mem_of_head? hbest)
  exact ⟨(h.sides side).key_mem hmem, h.known side _ _ (OrdMap.mem_entries_iff.mp hmem)⟩

theorem reduceFront (h : R.Alike b b') (side : Side) (qty : Qty) :
    R.Alike (b.reduceFront side qty) (b'.reduceFront (R.side side) qty) := by
  unfold OrderBook.reduceFront
  rw [h.bestLevel]
  cases hbest : b.bestLevel side with
  | none => exact h
  | some e =>
    obtain ⟨hprice, hknown⟩ := h.price_of_bestLevel hbest
    obtain ⟨price, lvl⟩ := e
    cases lvl with
    | nil => exact h.setBook side ((h.sides side).erase R.price_inj hprice) ((h.known side).erase _)
    | cons front rest =>
      have hfront : front.order.id ∈ R.ids := hknown front List.mem_cons_self
      have hrest : ∀ n ∈ rest, n.order.id ∈ R.ids := fun n hn =>
        hknown n (List.mem_cons_of_mem _ hn)
      simp only [Option.map_some, level, List.map_cons]
      split_ifs with hleft hleft' hleft'
      · have hset := h.setBook side (R.putLevel (h.sides side) hprice rest)
          ((h.known side).putLevel price hrest)
        have hindex := hset.setIndex hfront none fun l hl => by cases hl
        simp only [setBook_index] at hindex
        exact hindex
      · exact absurd hleft hleft'
      · exact absurd hleft' hleft
      · refine h.setBook side ((h.sides side).set R.price_inj hprice _) ((h.known side).set ?_)
        intro n hn
        rcases List.mem_cons.mp hn with rfl | hn
        · exact hfront
        · exact hrest n hn

theorem bestPrice (h : R.Alike b b') (side : Side) :
    b'.bestPrice (R.side side) = (b.bestPrice side).map R.price := by
  rw [OrderBook.bestPrice, h.bestLevel, OrderBook.bestPrice, Option.map_map, Option.map_map]
  rfl

theorem best (h : R.Alike b b') (side : Side) :
    b'.best (R.side side) = (b.best side).map R.order := by
  rw [OrderBook.best, h.bestLevel, OrderBook.best]
  cases b.bestLevel side with
  | none => rfl
  | some e => cases he : e.2 <;> simp [he, level, node]

theorem price_of_bestPrice (h : R.Alike b b') {side : Side} {px : Price}
    (hpx : b.bestPrice side = some px) : px ∈ R.prices := by
  obtain ⟨e, he, rfl⟩ := Option.map_eq_some_iff.mp hpx
  exact (h.price_of_bestLevel he).1

end Alike

/-! ## The loop -/

/-- One run of the loop is the image of another. -/
structure Sweeps (R : Relabel) (s s' : Sweep) : Prop where
  book : R.Alike s.book s'.book
  taker : s'.taker = R.order s.taker
  filled : s'.filled = s.filled
  out : s'.out = s.out.map R.fill
  id : s.taker.id ∈ R.ids
  limit : s.taker.type = .limit → s.taker.price ∈ R.prices

theorem Sweeps.step {s s' : Sweep} (h : R.Sweeps s s') :
    (sweepStep s = none ∧ sweepStep s' = none) ∨
      ∃ t t', sweepStep s = some t ∧ sweepStep s' = some t' ∧ R.Sweeps t t' := by
  obtain ⟨b, taker, filled, out⟩ := s
  obtain ⟨b', taker', filled', out'⟩ := s'
  obtain ⟨hbook, htaker, hfilled, hout, hid, hlimit⟩ := h
  obtain rfl : taker' = R.order taker := htaker
  obtain rfl : filled' = filled := hfilled
  obtain rfl : out' = out.map R.fill := hout
  change R.Alike b b' at hbook
  change taker.id ∈ R.ids at hid
  change taker.type = .limit → taker.price ∈ R.prices at hlimit
  have hside : opposite (R.order taker).side = R.side (opposite taker.side) :=
    (R.side_opposite taker.side).symm
  unfold sweepStep
  simp only [hside, hbook.bestPrice, hbook.best]
  by_cases hqty : taker.qty > 0
  · have hqty' : (R.order taker).qty > 0 := hqty
    simp only [if_pos hqty, if_pos hqty']
    cases hpx : b.bestPrice (opposite taker.side) with
    | none => exact .inl ⟨rfl, rfl⟩
    | some px =>
      have hcross : MatchingEngine.crosses (R.order taker).side (R.order taker).type
          (R.order taker).price (R.price px) =
          MatchingEngine.crosses taker.side taker.type taker.price px := by
        rw [Bool.eq_iff_iff, crosses_iff, crosses_iff]
        exact R.acceptable hlimit (hbook.price_of_bestPrice hpx)
      simp only [Option.map_some, hcross]
      split_ifs
      · cases b.best (opposite taker.side) with
        | none => exact .inl ⟨rfl, rfl⟩
        | some maker =>
          refine .inr ⟨_, _, rfl, rfl, hbook.reduceFront _ _, rfl, rfl, ?_, hid, hlimit⟩
          simp [fill, order]
      · exact .inl ⟨rfl, rfl⟩
  · have hqty' : ¬ (R.order taker).qty > 0 := hqty
    simp only [if_neg hqty, if_neg hqty']
    exact .inl ⟨trivial, trivial⟩

theorem Sweeps.sweep {s s' : Sweep} (h : R.Sweeps s s') (fuel : Nat) :
    R.Sweeps (MatchingEngine.sweep fuel s) (MatchingEngine.sweep fuel s') := by
  induction fuel generalizing s s' with
  | zero => exact h
  | succ fuel ih =>
    rw [MatchingEngine.sweep, MatchingEngine.sweep]
    rcases h.step with ⟨hs, hs'⟩ | ⟨t, t', hs, hs', ht⟩
    · rw [hs, hs']
      exact h
    · rw [hs, hs']
      exact ih ht

/-! ## Whole runs -/

theorem Alike.submit {b b' : OrderBook} (h : R.Alike b b') {taker : Order} (hid : taker.id ∈ R.ids)
    (hlimit : taker.type = .limit → taker.price ∈ R.prices) :
    let r := MatchingEngine.submit b taker []
    let r' := MatchingEngine.submit b' (R.order taker) []
    R.Alike r.1 r'.1 ∧ r'.2.1 = r.2.1 ∧ r'.2.2 = r.2.2.map R.fill := by
  have hfuel : (b'.queue (opposite (R.order taker).side)).length =
      (b.queue (opposite taker.side)).length := by
    have hside : opposite (R.order taker).side = R.side (opposite taker.side) :=
      (R.side_opposite taker.side).symm
    rw [hside, h.queue, List.length_map]
  have hstart : R.Sweeps ⟨b, taker, 0, []⟩ ⟨b', R.order taker, 0, []⟩ :=
    ⟨h, rfl, rfl, rfl, hid, hlimit⟩
  have hs := hstart.sweep (b.queue (opposite taker.side)).length
  unfold MatchingEngine.submit
  rw [hfuel]
  set s := MatchingEngine.sweep (b.queue (opposite taker.side)).length ⟨b, taker, 0, []⟩
  set s' := MatchingEngine.sweep (b.queue (opposite taker.side)).length ⟨b', R.order taker, 0, []⟩
  refine ⟨?_, hs.filled, hs.out⟩
  simp only [hs.taker]
  have hsame : ((R.order s.taker).qty > 0 ∧ (R.order s.taker).type = .limit) ↔
      (s.taker.qty > 0 ∧ s.taker.type = .limit) := Iff.rfl
  by_cases hrest : s.taker.qty > 0 ∧ s.taker.type = .limit
  · rw [if_pos hrest, if_pos (hsame.mpr hrest)]
    exact hs.book.add hs.id (hs.limit hrest.2)
  · rw [if_neg hrest, if_neg (mt hsame.mp hrest)]
    exact hs.book

theorem Alike.step {b b' : OrderBook} (h : R.Alike b b') {c : Call} (hc : R.Covers c) :
    R.Alike (MatchingEngine.step b c).1 (MatchingEngine.step b' (R.call c)).1 ∧
      (MatchingEngine.step b' (R.call c)).2 = R.reply (MatchingEngine.step b c).2 := by
  cases c with
  | submit taker =>
    obtain ⟨hbook, hfilled, hout⟩ := h.submit hc.1 hc.2
    refine ⟨hbook, ?_⟩
    simp only [MatchingEngine.step, call, reply, hfilled, hout]
  | cancel id =>
    obtain ⟨hbook, hfound⟩ := h.cancel hc
    refine ⟨hbook, ?_⟩
    simp only [MatchingEngine.step, call, reply, hfound]

theorem alike_new (R : Relabel) (symbol symbol' : Symbol) :
    R.Alike { symbol := symbol } { symbol := symbol' } where
  sides side := by
    cases side <;> simp only [Relabel.side] <;> split_ifs <;> exact OrdMap.Image.empty
  known side := by
    cases side <;> exact fun _ _ h => by cases h
  index _ := rfl
  located _ h := by cases h
  fresh := rfl

/-- A changed run gives the changed answers, and leaves the changed queues. -/
theorem run_relabelled (R : Relabel) (symbol symbol' : Symbol) (calls : List Call)
    (hcovers : ∀ c ∈ calls, R.Covers c) :
    let b := exec step { symbol := symbol } calls
    let b' := exec step { symbol := symbol' } (calls.map R.call)
    (trace step { symbol := symbol' } (calls.map R.call)).map Event.output =
        (trace step { symbol := symbol } calls).map (fun e => R.reply e.output) ∧
      ∀ side, b'.queue (R.side side) = (b.queue side).map R.node := by
  intro b b'
  obtain ⟨hbooks, houts⟩ := lockstep_map step step (fun b b' c hc h => h.step hc)
    { symbol := symbol } { symbol := symbol' } (alike_new R symbol symbol') calls hcovers
  exact ⟨houts, hbooks.queue⟩

/-- The two sides exchanged: every price stands for its complement, which is as far from
the one end as it is from the other. -/
def mirror : Relabel where
  swap := true
  id i := i
  symbol s := s
  price p := ~~~p
  ids := Set.univ
  prices := Set.univ
  id_inj := Set.injOn_id _
  ordered := by
    rw [if_pos rfl]
    intro p _ q _ hlt
    have hp := toInt_range p
    have hq := toInt_range q
    rw [Int64.lt_iff_toInt_lt] at hlt ⊢
    rw [Int64.toInt_not, Int64.toInt_not, Int.bmod_def, Int.bmod_def]
    omega

/-- Buying is selling in the mirror. -/
theorem run_relabelled_mirror :
    let calls := [.submit { id := 1, side := .sell, price := 100, qty := 5 },
      .submit { id := 2, side := .buy, price := 101, qty := 3 }, .cancel 1]
    let b := exec step { symbol := 1 } calls
    let b' := exec step { symbol := 1 } (calls.map mirror.call)
    (trace step { symbol := 1 } (calls.map mirror.call)).map Event.output =
        (trace step { symbol := 1 } calls).map (fun e => mirror.reply e.output) ∧
      ∀ side, b'.queue (mirror.side side) = (b.queue side).map mirror.node :=
  run_relabelled mirror 1 1 _ (by simp [Covers, mirror])

end Relabel

end Lloms.MatchingEngine
