import Mathlib.Algebra.Order.BigOperators.Group.List
import Lloms.Feed.Frame
import Lloms.Matching.Ledger
import Lloms.RiskGate

/-! The consumer thread of the feed handlers (`feed_handler_linux.cpp`,
`feed_handler_iouring_linux.cpp`): every decoded frame goes through the risk gate
and then to the one engine. The engine is built for symbol 1 and its book is
documented as a single-symbol one, but no stage looks at the symbol of a frame. -/
namespace Lloms.Feed
open Lib OrderBook MatchingEngine RiskGate

/-! ## The consumer -/

structure Consumer where
  eng : OrderBook := { symbol := 1 }
  matched : UInt64 := 0
  rejected : UInt64 := 0

/-- What the loop does with one order it popped, and the fills of it. -/
def consume (limits : RiskLimits) (s : Consumer) (o : Order) : Consumer × List Fill :=
  if check limits o 0 ≠ .accept then ({ s with rejected := s.rejected + 1 }, [])
  else
    let r := submit s.eng o []
    ({ s with eng := r.1, matched := s.matched + UInt64.ofNat r.2.2.length }, r.2.2)

/-- A round of `submit` pushes its fill for the engine's own symbol, and both
orders of the fill carry it. -/
def OwnRound (symbol : Symbol) (s s' : Sweep) : Prop :=
  ∃ maker fill, s.book.best (opposite s.taker.side) = some maker ∧ s'.out = s.out ++ [fill] ∧
    fill.symbol = symbol ∧ s.taker.symbol = symbol ∧ maker.symbol = symbol

/-- Every fill of a submit is between orders of the engine's instrument. -/
def OwnFills (b : OrderBook) (o : Order) : Prop :=
  ∀ t t', Round b o [] t → sweepStep t = some t' → OwnRound b.symbol t t'

/-- Every fill of the run is between orders of the engine's instrument. -/
def Separate (limits : RiskLimits) (s : Consumer) (orders : List Order) : Prop :=
  ∀ e ∈ trace (consume limits) s orders, check limits e.input 0 = .accept →
    OwnFills e.pre.eng e.input

/-- An accepted order carries the engine's symbol, or it is a market order that
finds the other side of the book empty and so leaves nothing behind. -/
def Harmless (limits : RiskLimits) (s : Consumer) (o : Order) : Prop :=
  check limits o 0 = .accept →
    o.symbol = s.eng.symbol ∨ (o.type = .market ∧ s.eng.queue (opposite o.side) = [])

/-! ## Books of one instrument -/

def AllOwn (b : OrderBook) : Prop := ∀ side, ∀ n ∈ b.queue side, n.order.symbol = b.symbol

/-- What a round keeps of the engine it started from. -/
structure RoundOf (b : OrderBook) (taker : Order) (s : Sweep) : Prop where
  inv : s.book.Inv
  symbol : s.book.symbol = b.symbol
  taker : s.taker = { taker with qty := s.taker.qty }
  nodes : ∀ side, ∀ n ∈ s.book.queue side,
    ∃ m ∈ b.queue side, n = { m with order := { m.order with qty := n.order.qty } }

theorem round_of {b : OrderBook} (hinv : b.Inv) {taker : Order} {out : List Fill} {s : Sweep}
    (h : Round b taker out s) : RoundOf b taker s := by
  induction h with
  | start => exact ⟨hinv, rfl, rfl, fun side n hn => ⟨n, hn, rfl⟩⟩
  | @next s s' _ hstep ih =>
    obtain ⟨m, ms, hq, -, -, rfl⟩ := sweepStep_cases ih.inv hstep
    obtain ⟨hinv', hsym, hown, hmakers⟩ := trade_queue ih.inv hq
    refine ⟨hinv', hsym.trans ih.symbol, ?_, fun side n hn => ?_⟩
    · have htaker := ih.taker
      simp only [trade]
      rw [htaker]
    · rcases eq_or_opposite side s.taker.side with rfl | rfl
      · rw [hown] at hn
        exact ih.nodes _ n hn
      · rcases hmakers with hms | ⟨qty, hms⟩
        · rw [hms] at hn
          exact ih.nodes _ n (by rw [hq]; exact List.mem_cons_of_mem _ hn)
        · rw [hms] at hn
          rcases List.mem_cons.mp hn with rfl | hn
          · obtain ⟨m', hm', heq⟩ := ih.nodes _ m (by rw [hq]; exact List.mem_cons_self)
            refine ⟨m', hm', ?_⟩
            rw [heq]
          · exact ih.nodes _ n (by rw [hq]; exact List.mem_cons_of_mem _ hn)

/-- The fill of a round names the taker's symbol. -/
theorem ownRound_iff {b : OrderBook} (hinv : b.Inv) {taker : Order} {out : List Fill}
    {s s' : Sweep} (h : Round b taker out s) (hstep : sweepStep s = some s') (symbol : Symbol) :
    ∃ m ms, s.book.queue (opposite taker.side) = m :: ms ∧
      (OwnRound symbol s s' ↔ taker.symbol = symbol ∧ m.order.symbol = symbol) := by
  have hround := round_of hinv h
  obtain ⟨m, ms, hq, -, -, rfl⟩ := sweepStep_cases hround.inv hstep
  have hside : s.taker.side = taker.side := by rw [hround.taker]
  have hsym : s.taker.symbol = taker.symbol := by rw [hround.taker]
  have hbest := (best_of_queue_cons hround.inv hq).2
  refine ⟨m, ms, hside ▸ hq, ?_⟩
  constructor
  · rintro ⟨maker, fill, hmaker, -, -, htaker, hown⟩
    rw [hbest] at hmaker
    obtain rfl := Option.some.inj hmaker
    exact ⟨hsym.symm.trans htaker, hown⟩
  · rintro ⟨htaker, hown⟩
    exact ⟨m.order, _, hbest, rfl, hsym.trans htaker, hsym.trans htaker, hown⟩

/-! ## Orders of one instrument keep to themselves -/

theorem consume_of_accept {limits : RiskLimits} {o : Order} (h : check limits o 0 = .accept)
    (s : Consumer) : (consume limits s o).1.eng = (submit s.eng o []).1 := by
  rw [consume, if_neg (not_not.mpr h)]

theorem consume_of_reject {limits : RiskLimits} {o : Order} (h : check limits o 0 ≠ .accept)
    (s : Consumer) : (consume limits s o).1.eng = s.eng := by
  rw [consume, if_pos h]

theorem consume_inv (limits : RiskLimits) {s : Consumer} (h : s.eng.Inv) (o : Order) :
    (consume limits s o).1.eng.Inv ∧ (consume limits s o).1.eng.symbol = s.eng.symbol := by
  by_cases hacc : check limits o 0 = .accept
  · rw [consume_of_accept hacc]
    have hs := submit_spec h o []
    exact ⟨hs.inv, hs.symbol⟩
  · rw [consume_of_reject hacc]
    exact ⟨h, rfl⟩

section Own

variable {limits : RiskLimits} {s : Consumer} {o : Order} (hinv : s.eng.Inv) (hown : AllOwn s.eng)
  (hok : Harmless limits s o)
include hinv hown hok

theorem consume_allOwn : AllOwn (consume limits s o).1.eng := by
  by_cases hacc : check limits o 0 = .accept
  · intro side n hn
    rw [(consume_inv limits hinv o).2]
    rw [consume_of_accept hacc] at hn
    rcases submit_nodes hinv o [] hn with ⟨m, hm, heq⟩ | heq
    · rw [heq]
      exact hown side m hm
    · rcases hok hacc with hsym | ⟨hmarket, -⟩
      · rw [heq]
        exact hsym
      · -- a market order does not rest
        have hlimit := ((submit_spec hinv o []).inv.of_queue hn).2.1
        rw [heq] at hlimit
        exact absurd (hmarket.symm.trans hlimit) (by simp)
  · rw [consume_of_reject hacc]
    exact hown

theorem ownFills_of_harmless (hacc : check limits o 0 = .accept) : OwnFills s.eng o := by
  intro t t' hround hstep
  obtain ⟨m, ms, hq, hiff⟩ := ownRound_iff hinv hround hstep s.eng.symbol
  obtain ⟨m', hm', heq⟩ := (round_of hinv hround).nodes _ m (by rw [hq]; exact List.mem_cons_self)
  rcases hok hacc with hsym | ⟨-, hempty⟩
  · rw [hiff, heq]
    exact ⟨hsym, hown _ m' hm'⟩
  · rw [hempty] at hm'
    cases hm'

end Own

theorem separate_of_harmless {limits : RiskLimits} {s : Consumer} (hinv : s.eng.Inv)
    (hown : AllOwn s.eng) {orders : List Order}
    (hok : ∀ e ∈ trace (consume limits) s orders, Harmless limits e.pre e.input) :
    Separate limits s orders := by
  intro e he
  obtain ⟨h, t, hrun⟩ := List.append_of_mem he
  exact event_of_history (consume limits) (P := Harmless limits)
    (I := fun _ s => s.eng.Inv ∧ AllOwn s.eng)
    (Q := fun _ e => check limits e.input 0 = .accept → OwnFills e.pre.eng e.input)
    (fun _ _ o hok hs => ⟨(consume_inv limits hs.1 o).1, consume_allOwn hs.1 hs.2 hok⟩)
    (fun _ _ _ hok hs hacc => ownFills_of_harmless hs.1 hs.2 hok hacc)
    s ⟨hinv, hown⟩ orders hok h t e hrun

/-! ## A foreign order stays until somebody trades with it -/

theorem sweep_round {b : OrderBook} {taker : Order} {out : List Fill} (fuel : Nat) {s : Sweep}
    (h : Round b taker out s) : Round b taker out (sweep fuel s) := by
  induction fuel generalizing s with
  | zero => exact h
  | succ fuel ih =>
    rw [sweep]
    cases hs : sweepStep s with
    | none => exact h
    | some s' => exact ih (.next h hs)

section Foreign

variable {b : OrderBook} (hinv : b.Inv) {o : Order} (hfills : OwnFills b o)
include hinv hfills

theorem round_keeps {side : Side} {n : Node} (hn : n ∈ b.queue side)
    (hsym : n.order.symbol ≠ b.symbol) {t : Sweep} (h : Round b o [] t) :
    n ∈ t.book.queue side := by
  induction h with
  | start => exact hn
  | @next t t' hround hstep ih =>
    have hkeep := round_of hinv hround
    obtain ⟨m, ms, hq, hiff⟩ := ownRound_iff hinv hround hstep b.symbol
    have hm := (hiff.mp (hfills t t' hround hstep)).2
    have hside : t.taker.side = o.side := by rw [hkeep.taker]
    rw [← hside] at hq
    obtain ⟨m', ms', hq', -, -, rfl⟩ := sweepStep_cases hkeep.inv hstep
    obtain ⟨rfl, rfl⟩ := List.cons_eq_cons.mp (hq.symm.trans hq')
    obtain ⟨-, -, hown, hmakers⟩ := trade_queue hkeep.inv hq
    rcases eq_or_opposite side t.taker.side with rfl | rfl
    · rw [hown]
      exact ih
    · rw [hq] at ih
      -- the maker that was traded with is not foreign
      have hrest : n ∈ ms := by
        rcases List.mem_cons.mp ih with rfl | ih
        · exact absurd hm hsym
        · exact ih
      rcases hmakers with hms | ⟨qty, hms⟩
      · rw [hms]
        exact hrest
      · rw [hms]
        exact List.mem_cons_of_mem _ hrest

theorem submit_keeps_foreign (h : ¬ AllOwn b) : ¬ AllOwn (submit b o []).1 := by
  simp only [AllOwn, not_forall] at h ⊢
  obtain ⟨side, n, hn, hsym⟩ := h
  refine ⟨side, n, ?_, by rw [(submit_spec hinv o []).symbol]; exact hsym⟩
  have hround : Round b o [] (sweep (b.queue (opposite o.side)).length ⟨b, o, 0, []⟩) :=
    sweep_round _ .start
  have hmem := round_keeps hinv hfills hn hsym hround
  unfold submit
  dsimp only
  split_ifs
  · exact mem_queue_add (round_of hinv hround).inv _ hmem
  · exact hmem

/-- An accepted order that is not harmless and makes no foreign fill rests. -/
theorem submit_rests_foreign (hqty : 0 < o.qty) (hsym : o.symbol ≠ b.symbol)
    (hbook : ¬ (o.type = .market ∧ b.queue (opposite o.side) = [])) :
    ¬ AllOwn (submit b o []).1 := by
  have hnone : sweepStep ⟨b, o, 0, []⟩ = none := by
    cases hs : sweepStep ⟨b, o, 0, []⟩ with
    | none => rfl
    | some t' =>
      obtain ⟨m, ms, -, hiff⟩ := ownRound_iff hinv .start hs b.symbol
      exact absurd (hiff.mp (hfills _ t' .start hs)).1 hsym
  have hlimit : o.type = .limit := by
    cases htype : o.type with
    | limit => rfl
    | market =>
      cases hq : b.queue (opposite o.side) with
      | nil => exact absurd ⟨htype, hq⟩ hbook
      | cons m ms =>
        rw [sweepStep_eq_trade (s := ⟨b, o, 0, []⟩) hinv hq hqty (.inl htype)] at hnone
        cases hnone
  have hsubmit : (submit b o []).1 = b.add o := by
    rw [submit, sweep_of_done hnone]
    exact if_pos ⟨hqty, hlimit⟩
  rw [hsubmit]
  intro hown
  have hmem : ⟨b.fresh, o⟩ ∈ (b.add o).queue o.side := by
    rw [queue_add hinv]
    exact mem_enqueue.mpr (.inl rfl)
  have hadd : (b.add o).symbol = b.symbol := setBook_symbol _ _ _
  exact hsym ((hown _ _ hmem).trans hadd)

end Foreign

section Runs

variable {limits : RiskLimits}

theorem separate_cons {s : Consumer} {o : Order} {orders : List Order} :
    Separate limits s (o :: orders) ↔
      (check limits o 0 = .accept → OwnFills s.eng o) ∧
        Separate limits (consume limits s o).1 orders := List.forall_mem_cons

theorem run_keeps_foreign {s : Consumer} (hinv : s.eng.Inv) {orders : List Order}
    (hsep : Separate limits s orders) (h : ¬ AllOwn s.eng) :
    ¬ AllOwn (exec (consume limits) s orders).eng := by
  induction orders generalizing s with
  | nil => exact h
  | cons o orders ih =>
    obtain ⟨hfirst, hrest⟩ := separate_cons.mp hsep
    refine ih (consume_inv limits hinv o).1 hrest ?_
    by_cases hacc : check limits o 0 = .accept
    · rw [consume_of_accept hacc]
      exact submit_keeps_foreign hinv (hfirst hacc) h
    · rw [consume_of_reject hacc]
      exact h

/-- A run without a foreign fill, but with a step that is not harmless, ends with
a foreign order in the book. -/
theorem foreign_of_not_harmless {s : Consumer} (hinv : s.eng.Inv) {orders : List Order}
    (hsep : Separate limits s orders)
    (hbad : ¬ ∀ e ∈ trace (consume limits) s orders, Harmless limits e.pre e.input) :
    ¬ AllOwn (exec (consume limits) s orders).eng := by
  induction orders generalizing s with
  | nil => exact absurd (by simp [trace]) hbad
  | cons o orders ih =>
    obtain ⟨hfirst, hrest⟩ := separate_cons.mp hsep
    have hinv' := (consume_inv limits hinv o).1
    by_cases hok : Harmless limits s o
    · refine ih hinv' hrest fun hall => hbad ?_
      exact List.forall_mem_cons.mpr ⟨hok, hall⟩
    · simp only [Harmless, Classical.not_imp, not_or] at hok
      obtain ⟨hacc, hsym, hbook⟩ := hok
      have hqty := (pos_iff_toInt _).mpr ((check_accept_iff limits o 0).mp hacc).1
      apply run_keeps_foreign hinv' hrest
      rw [consume_of_accept hacc]
      exact submit_rests_foreign hinv (hfirst hacc) hqty hsym hbook

end Runs

/-! ## Getting to a foreign order -/

/-- A market order for one unit of the engine's own instrument. -/
def probe (symbol : Symbol) (side : Side) : Order := { symbol, side, type := .market, qty := 1 }

theorem probe_accepted (limits : RiskLimits) (symbol : Symbol) (side : Side) :
    check limits (probe symbol side) 0 = .accept := by
  have hone : (1 : Qty).toInt = 1 := rfl
  have habs : (0 + signedQty (probe symbol side)).abs = 1 := by
    cases side with
    | buy => exact (by decide : (0 + 1 : Qty).abs = 1)
    | sell => exact (by decide : (0 + -1 : Qty).abs = 1)
  rw [check_accept_iff, habs, gt_iff_lt, Int64.lt_iff_toInt_lt]
  refine ⟨?_, fun h => ?_, fun h => ?_, fun h => ?_⟩
  · exact Int.zero_lt_one
  · exact h
  · rw [hone]
    omega
  · cases h

section Probe

variable {limits : RiskLimits} {s : Consumer} (hinv : s.eng.Inv) {side : Side} {m : Node}
  {ms : List Node} (hq : s.eng.queue side = m :: ms)
include hinv hq

/-- A probe against a foreign order at the front makes a foreign fill. -/
theorem probe_front (hsym : m.order.symbol ≠ s.eng.symbol) :
    ¬ Separate limits s [probe s.eng.symbol (opposite side)] := by
  intro hsep
  have hfills := (separate_cons.mp hsep).1 (probe_accepted _ _ _)
  have hq' : s.eng.queue (opposite (opposite side)) = m :: ms := by
    rw [opposite_opposite]
    exact hq
  have hqty : (0 : Qty) < (probe s.eng.symbol (opposite side)).qty := (by decide : (0 : Qty) < 1)
  have hstep := sweepStep_eq_trade (s := ⟨s.eng, probe s.eng.symbol (opposite side), 0, []⟩) hinv
    hq' hqty (.inl rfl)
  obtain ⟨m', ms', hq'', hiff⟩ := ownRound_iff hinv .start hstep s.eng.symbol
  obtain ⟨rfl, rfl⟩ := List.cons_eq_cons.mp (hq'.symm.trans hq'')
  exact hsym (hiff.mp (hfills _ _ .start hstep)).2

/-- A probe takes one unit from the front. -/
theorem probe_queue : (consume limits s (probe s.eng.symbol (opposite side))).1.eng.queue side =
    if m.order.qty = 1 then ms
    else { m with order := { m.order with qty := m.order.qty - 1 } } :: ms := by
  have hs := (submit_spec hinv (probe s.eng.symbol (opposite side)) []).makers
  have hside : opposite (probe s.eng.symbol (opposite side)).side = side := opposite_opposite side
  have hm : 0 < m.order.qty.toInt := hinv.qty_pos (by rw [hq]; exact List.mem_cons_self)
  have hone : (1 : Qty).toInt = 1 := rfl
  have hmin : min 1 m.order.qty = 1 := by
    apply min_eq_left
    rw [Int64.le_iff_toInt_le, hone]
    omega
  have hgo : (0 : Qty) < 1 ∧
      Acceptable (probe s.eng.symbol (opposite side)) m.order.price := ⟨by decide, .inl rfl⟩
  rw [consume_of_accept (probe_accepted _ _ _)]
  rw [hside, hq, show (probe s.eng.symbol (opposite side)).qty = 1 from rfl, walk, if_pos hgo] at hs
  rw [hs]
  dsimp only
  rw [hmin, Int64.sub_self, walk_zero]
  by_cases heq : m.order.qty = 1
  · rw [if_pos heq.symm, if_pos heq]
  · rw [if_neg fun h => heq h.symm, if_neg heq]

end Probe

/-- A probe takes one unit from what stands ahead of an order. -/
theorem probe_ahead (limits : RiskLimits) {s : Consumer} (hinv : s.eng.Inv) {side : Side}
    {m : Node} {ahead behind : List Node} (hq : s.eng.queue side = m :: ahead ++ behind) :
    ∃ ahead' : List Node,
      (consume limits s (probe s.eng.symbol (opposite side))).1.eng.queue side = ahead' ++ behind ∧
      (ahead'.map (·.order.qty.toInt)).sum + 1 = ((m :: ahead).map (·.order.qty.toInt)).sum := by
  have hm : 0 < m.order.qty.toInt := hinv.qty_pos (by rw [hq]; exact List.mem_cons_self)
  have hone : (1 : Qty).toInt = 1 := rfl
  rw [probe_queue hinv hq, List.map_cons, List.sum_cons]
  split_ifs with hlast
  · refine ⟨ahead, rfl, ?_⟩
    rw [hlast, hone]
    omega
  · refine ⟨_ :: ahead, rfl, ?_⟩
    have hr := toInt_range m.order.qty
    rw [List.map_cons, List.sum_cons, toInt_sub_cases, hone]
    omega

theorem sum_qty_nonneg {l : List Node} (h : ∀ n ∈ l, 0 < n.order.qty.toInt) :
    0 ≤ (l.map (·.order.qty.toInt)).sum := by
  apply List.sum_nonneg
  intro q hq
  obtain ⟨n, hn, rfl⟩ := List.mem_map.mp hq
  exact (h n hn).le

/-- Enough probes get to a foreign order, wherever it stands. -/
theorem exists_probes (limits : RiskLimits) (units : Nat) {s : Consumer} (hinv : s.eng.Inv)
    {side : Side} {ahead behind : List Node} {n : Node}
    (hq : s.eng.queue side = ahead ++ n :: behind) (hsym : n.order.symbol ≠ s.eng.symbol)
    (hunits : (ahead.map (·.order.qty.toInt)).sum ≤ units) :
    ∃ k, ¬ Separate limits s (List.replicate k (probe s.eng.symbol (opposite side))) := by
  induction units generalizing s ahead with
  | zero =>
    cases ahead with
    | nil => exact ⟨1, probe_front hinv hq hsym⟩
    | cons m ahead =>
      have hpos : ∀ l ∈ m :: ahead, 0 < l.order.qty.toInt := fun l hl =>
        hinv.qty_pos (by rw [hq]; exact List.mem_append_left _ hl)
      obtain ⟨hm, hahead⟩ := List.forall_mem_cons.mp hpos
      have hsum := sum_qty_nonneg hahead
      rw [List.map_cons, List.sum_cons] at hunits
      omega
  | succ units ih =>
    cases ahead with
    | nil => exact ⟨1, probe_front hinv hq hsym⟩
    | cons m ahead =>
      by_cases hfront : m.order.symbol = s.eng.symbol
      · -- the probe takes one unit from a maker of the own instrument
        obtain ⟨hinv', hsym'⟩ :=
          consume_inv limits hinv (probe s.eng.symbol (opposite side))
        obtain ⟨ahead', hq', hunits'⟩ := probe_ahead limits hinv hq
        obtain ⟨k, hk⟩ := ih hinv' hq' (by rw [hsym']; exact hsym) (by omega)
        refine ⟨k + 1, fun hsep => hk ?_⟩
        rw [List.replicate_succ] at hsep
        rw [hsym']
        exact (separate_cons.mp hsep).2
      · exact ⟨1, probe_front hinv hq hfront⟩

/-! ## The main theorem -/

/-- The frame that decodes to a probe for symbol 1. -/
def probeFrame (side : Side) : Frame :=
  { symbol := 1, side := if side = .buy then 0 else 1, type := 1, qty := 1 }

theorem decode_probeFrame (side : Side) : decode (probeFrame side).bytes = probe 1 side := by
  rw [decode_bytes]
  cases side <;> rfl

theorem foreign_reached (limits : RiskLimits) {s : Consumer} (hinv : s.eng.Inv)
    (hsymbol : s.eng.symbol = 1) (h : ¬ AllOwn s.eng) :
    ∃ k side, ¬ Separate limits s
      ((List.replicate k (probeFrame side).bytes).map decode) := by
  simp only [AllOwn, not_forall] at h
  obtain ⟨side, n, hn, hsym⟩ := h
  obtain ⟨ahead, behind, hq⟩ := List.append_of_mem hn
  have hpos : ∀ m ∈ ahead, 0 < m.order.qty.toInt := fun m hm =>
    hinv.qty_pos (by rw [hq]; exact List.mem_append_left _ hm)
  have hsum := sum_qty_nonneg hpos
  obtain ⟨k, hk⟩ := exists_probes limits (ahead.map fun m : Node => m.order.qty.toInt).sum.toNat
    hinv hq hsym (by omega)
  refine ⟨k, opposite side, ?_⟩
  rw [List.map_replicate, decode_probeFrame]
  rwa [hsymbol] at hk

/-- **Where instruments stay apart.** If every accepted frame is harmless, no
fill is between orders of different instruments or of another one than the
engine's. If some accepted frame is not, the run makes such a fill, or will when
more frames arrive, all of them for the engine's own symbol. -/
theorem instruments_apart (limits : RiskLimits) (frames : List (List UInt8)) :
    let harmless := ∀ e ∈ trace (consume limits) {} (frames.map decode),
      Harmless limits e.pre e.input
    (harmless → Separate limits {} (frames.map decode)) ∧
    (¬ harmless → ∃ more : List (List UInt8),
      (∀ f ∈ more, f.length = kFrameSize ∧ (decode f).symbol = 1) ∧
      ¬ Separate limits {} ((frames ++ more).map decode)) := by
  have hinv : (({} : Consumer).eng).Inv := inv_new 1
  have hown : AllOwn (({} : Consumer).eng) := by
    intro side n hn
    cases side <;> cases hn
  refine ⟨separate_of_harmless hinv hown, fun hbad => ?_⟩
  by_cases hsep : Separate limits {} (frames.map decode)
  · have hend := exec_induction (consume limits)
      (I := fun s => s.eng.Inv ∧ s.eng.symbol = 1)
      (fun s o hs => ⟨(consume_inv limits hs.1 o).1, (consume_inv limits hs.1 o).2.trans hs.2⟩)
      {} ⟨hinv, rfl⟩ (frames.map decode)
    obtain ⟨k, side, hk⟩ := foreign_reached limits hend.1 hend.2
      (foreign_of_not_harmless hinv hsep hbad)
    refine ⟨List.replicate k (probeFrame side).bytes, fun f hf => ?_, fun hall => hk ?_⟩
    · rw [List.eq_of_mem_replicate hf, decode_probeFrame]
      exact ⟨Frame.length_bytes _, rfl⟩
    · intro e he
      apply hall e
      rw [List.map_append, trace_append]
      exact List.mem_append_right _ he
  · exact ⟨[], by simp, by rwa [List.append_nil]⟩

/-- A market order for symbol 2 that finds nobody to trade with, and then a trade in
symbol 1. -/
theorem instruments_apart_lonely :
    let lonely : Frame := { symbol := 2, side := 1, type := 1, qty := 1 }
    let sell : Frame := { symbol := 1, side := 1, price := 100, qty := 1 }
    let buy : Frame := { symbol := 1, side := 0, price := 100, qty := 1 }
    Separate { maxOrderQty := 1000 } {} ([lonely.bytes, sell.bytes, buy.bytes].map decode) := by
  intro lonely sell buy
  have horders : [lonely.bytes, sell.bytes, buy.bytes].map decode =
      [⟨0, 2, .sell, .market, 0, 1⟩, ⟨0, 1, .sell, .limit, 100, 1⟩, ⟨0, 1, .buy, .limit, 100, 1⟩] := by
    rw [List.map_cons, List.map_cons, List.map_cons, decode_bytes, decode_bytes, decode_bytes]
    rfl
  refine (instruments_apart { maxOrderQty := 1000 } [lonely.bytes, sell.bytes, buy.bytes]).1 ?_
  rw [horders]
  intro e he hacc
  rcases List.mem_cons.mp he with rfl | he
  · exact .inr (by decide)
  · rcases List.mem_cons.mp he with rfl | he
    · exact .inl (by decide)
    · obtain rfl := List.mem_singleton.mp he
      exact .inl (by decide)

/-- A sell for symbol 2 rests and the buy for symbol 1 that follows trades with
it. -/
theorem foreign_symbol_trades :
    let sell : Frame := { symbol := 2, side := 1, price := 100, qty := 1 }
    let buy : Frame := { symbol := 1, side := 0, price := 100, qty := 1 }
    ¬ Separate { maxOrderQty := 1000 } {} ([sell.bytes, buy.bytes].map decode) := by
  intro sell buy hsep
  have hsell : decode sell.bytes = ⟨0, 2, .sell, .limit, 100, 1⟩ := decode_bytes sell
  have hbuy : decode buy.bytes = ⟨0, 1, .buy, .limit, 100, 1⟩ := decode_bytes buy
  rw [List.map_cons, List.map_cons, hsell, hbuy] at hsep
  let b := (consume { maxOrderQty := 1000 } {} ⟨0, 2, .sell, .limit, 100, 1⟩).1.eng
  have hfills : OwnFills b ⟨0, 1, .buy, .limit, 100, 1⟩ :=
    (separate_cons.mp (separate_cons.mp hsep).2).1 (by decide)
  have htrade : (sweepStep ⟨b, ⟨0, 1, .buy, .limit, 100, 1⟩, 0, []⟩).isSome := by decide
  have hmaker : (b.best .sell).map Order.symbol = some 2 := by decide
  obtain ⟨t', ht'⟩ := Option.isSome_iff_exists.mp htrade
  obtain ⟨maker, fill, hbest, -, -, -, hown⟩ := hfills _ t' .start ht'
  rw [show b.best .sell = some maker from hbest, Option.map_some, hown] at hmaker
  exact absurd hmaker (by decide)

end Lloms.Feed
