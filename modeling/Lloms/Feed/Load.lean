import Mathlib.Algebra.BigOperators.Group.Finset.Basic
import Mathlib.Algebra.BigOperators.Fin
import Mathlib.Algebra.Order.BigOperators.Group.Multiset
import Mathlib.Tactic.Abel
import Lloms.Feed.Frame
import Lloms.Matching.PriceTime

/-! The load benchmark: `c` connections send pairs of a sell and a buy at one
price, and the consumer submits them in the order they arrive. Whether every buy
meets a sell at its own price depends on that order. `slack`, what the resting
sells are worth above the resting buys and the open pairs, never goes down and
grows when a buy takes a cheaper sell, so such a buy leaves orders behind for
good. -/
namespace Lloms.Feed
open Lib OrderBook MatchingEngine

/-! ## The run -/

/-- The frames received from each connection, the engine's book, and the
consumer's tally of fills. -/
structure Load (c : Nat) where
  sent : Fin c → Nat := fun _ => 0
  book : OrderBook := { symbol := 1 }
  matched : Nat := 0

variable {c : Nat}

/-- The next frame of connection `i` reaches the consumer. -/
def loadStep (s : Load c) (i : Fin c) : Load c :=
  let r := submit s.book (loadOrder (s.sent i)) []
  { sent := Function.update s.sent i (s.sent i + 1)
    book := r.1
    matched := s.matched + r.2.2.length }

/-- The consumer's state after the frames arrived in the order of `turns`. -/
def load (turns : List (Fin c)) : Load c := turns.foldl loadStep {}

/-- A buy arrives from connection `i` while another connection's sell at a lower
price waits for its own buy. -/
def Undercut (sent : Fin c → Nat) (i : Fin c) : Prop :=
  sent i % 2 = 1 ∧ ∃ j, sent j % 2 = 1 ∧ loadPrice (sent j) < loadPrice (sent i)

/-- No buy is undercut in the arrival order `turns`. -/
def NeverUndercut (turns : List (Fin c)) : Prop :=
  ∀ pre i post, turns = pre ++ i :: post → ¬ Undercut (fun j => pre.count j) i

/-! ## Orders of one unit -/

/-- The prices of the resting orders of a side. -/
def prices (b : OrderBook) (side : Side) : Multiset Int :=
  ((b.queue side).map fun n => n.order.price.toInt : List Int)

/-- Every resting order is for one unit. -/
def Units (b : OrderBook) : Prop := ∀ side, ∀ n ∈ b.queue side, n.order.qty = 1

theorem walk_unit {taker : Order} {m : Node} {ms : List Node} (hm : m.order.qty = 1)
    (hacc : Acceptable taker m.order.price) :
    walk taker 1 (m :: ms) =
      ⟨[⟨taker.id, m.order.id, taker.symbol, m.order.price, 1⟩], 0, ms, [m]⟩ := by
  have hone : min (1 : Qty) 1 = 1 := min_self 1
  have hzero : (1 - 1 : Qty) = 0 := rfl
  have hpos : (0 : Qty) < 1 := by decide
  rw [walk, if_pos ⟨hpos, hacc⟩]
  simp only [hm, hone, if_true, hzero, walk_zero]

/-- One unit submitted against units: it takes the best maker or rests. -/
inductive UnitSubmit (b : OrderBook) (taker : Order) (b' : OrderBook) (fills : Nat) : Prop
  | takes (m : Node) (hm : m ∈ (b.queue (opposite taker.side)).head?)
      (hacc : Acceptable taker m.order.price) (hfills : fills = 1)
      (hmakers : prices b (opposite taker.side) =
        m.order.price.toInt ::ₘ prices b' (opposite taker.side))
      (hown : prices b' taker.side = prices b taker.side)
  | rests (hno : ∀ m ∈ (b.queue (opposite taker.side)).head?, ¬ Acceptable taker m.order.price)
      (hfills : fills = 0)
      (hmakers : prices b' (opposite taker.side) = prices b (opposite taker.side))
      (hown : prices b' taker.side = taker.price.toInt ::ₘ prices b taker.side)

theorem submit_unit {b : OrderBook} (h : b.Inv) (hu : Units b) {taker : Order}
    (hlimit : taker.type = .limit) (hqty : taker.qty = 1) :
    UnitSubmit b taker (submit b taker []).1 (submit b taker []).2.2.length ∧
      (submit b taker []).1.Inv ∧ Units (submit b taker []).1 := by
  have hs := submit_spec h taker []
  rw [hqty] at hs
  by_cases hgo : ∃ m ∈ (b.queue (opposite taker.side)).head?, Acceptable taker m.order.price
  · obtain ⟨m, hm, hacc⟩ := hgo
    obtain ⟨ms, hq⟩ := List.head?_eq_some_iff.mp hm
    have hmq := hu (opposite taker.side) m (by rw [hq]; exact List.mem_cons_self)
    rw [hq, walk_unit hmq hacc] at hs
    have hown : (submit b taker []).1.queue taker.side = b.queue taker.side := hs.own
    refine ⟨.takes m hm hacc ?_ ?_ ?_, hs.inv, fun side n hn => ?_⟩
    · rw [hs.fills]
      rfl
    · rw [prices, hq, prices, hs.makers]
      rfl
    · rw [prices, hown]
      rfl
    · rcases eq_or_opposite side taker.side with rfl | rfl
      · exact hu _ n (hown ▸ hn)
      · rw [hs.makers] at hn
        exact hu _ n (by rw [hq]; exact List.mem_cons_of_mem _ hn)
  · push Not at hgo
    rw [walk_of_stop fun m hm hgo' => hgo m hm hgo'.2] at hs
    have hpos : (0 : Qty) < 1 := by decide
    have hown : (submit b taker []).1.queue taker.side =
        enqueue taker.side ⟨b.fresh, { taker with qty := 1 }⟩ (b.queue taker.side) := by
      rw [hs.own, remainder, if_pos ⟨hpos, hlimit⟩]
      rfl
    have hperm := enqueue_perm taker.side ⟨b.fresh, { taker with qty := 1 }⟩ (b.queue taker.side)
    refine ⟨.rests hgo ?_ ?_ ?_, hs.inv, fun side n hn => ?_⟩
    · rw [hs.fills]
      rfl
    · rw [prices, hs.makers]
      rfl
    · rw [prices, hown, prices]
      exact Multiset.coe_eq_coe.mpr (hperm.map _)
    · rcases eq_or_opposite side taker.side with rfl | rfl
      · rw [hown, hperm.mem_iff] at hn
        rcases List.mem_cons.mp hn with rfl | hn
        · rfl
        · exact hu _ n hn
      · rw [hs.makers] at hn
        exact hu _ n hn

/-! ## Open pairs -/

/-- The prices of the pairs whose sell has arrived and whose buy has not. -/
def openPrices (sent : Fin c → Nat) : Multiset Int :=
  ∑ j, if sent j % 2 = 1 then {loadPrice (sent j)} else 0

/-- A sum over the connections when one of them moves on. -/
theorem sum_update {M : Type} [AddCommMonoid M] (g : Nat → M) (sent : Fin c → Nat) (i : Fin c)
    (k : Nat) :
    ∑ j, g (Function.update sent i k j) + g (sent i) = ∑ j, g (sent j) + g k := by
  rw [← Finset.add_sum_erase _ _ (Finset.mem_univ i),
    ← Finset.add_sum_erase Finset.univ (fun j => g (sent j)) (Finset.mem_univ i),
    Function.update_self]
  have hrest : ∑ j ∈ Finset.univ.erase i, g (Function.update sent i k j) =
      ∑ j ∈ Finset.univ.erase i, g (sent j) := by
    refine Finset.sum_congr rfl fun j hj => ?_
    rw [Function.update_of_ne (Finset.ne_of_mem_erase hj)]
  rw [hrest]
  abel

theorem loadPrice_succ {k : Nat} (h : k % 2 = 0) : loadPrice (k + 1) = loadPrice k := by
  rw [loadPrice, loadPrice, show (k + 1) / 2 = k / 2 by omega]

theorem openPrices_sell {sent : Fin c → Nat} {i : Fin c} (h : sent i % 2 = 0) :
    openPrices (Function.update sent i (sent i + 1)) = loadPrice (sent i) ::ₘ openPrices sent := by
  have hsum := sum_update (fun k => if k % 2 = 1 then ({loadPrice k} : Multiset Int) else 0) sent i
    (sent i + 1)
  simp only [h, show (sent i + 1) % 2 = 1 by omega, loadPrice_succ h] at hsum
  simpa [openPrices, add_comm] using hsum

theorem openPrices_buy {sent : Fin c → Nat} {i : Fin c} (h : sent i % 2 = 1) :
    openPrices sent = loadPrice (sent i) ::ₘ openPrices (Function.update sent i (sent i + 1)) := by
  have hsum := sum_update (fun k => if k % 2 = 1 then ({loadPrice k} : Multiset Int) else 0) sent i
    (sent i + 1)
  simp only [h, show (sent i + 1) % 2 = 0 by omega] at hsum
  simpa [openPrices, add_comm] using hsum.symm

theorem mem_openPrices {sent : Fin c → Nat} {p : Int} :
    p ∈ openPrices sent ↔ ∃ j, sent j % 2 = 1 ∧ loadPrice (sent j) = p := by
  simp only [openPrices, Multiset.mem_sum, Finset.mem_univ, true_and]
  constructor
  · rintro ⟨j, hj⟩
    split_ifs at hj with ho
    · exact ⟨j, ho, (Multiset.mem_singleton.mp hj).symm⟩
    · simp at hj
  · rintro ⟨j, ho, rfl⟩
    exact ⟨j, by simp [ho]⟩

/-- What the resting sells are worth above the resting buys and the open pairs. -/
def slack (s : Load c) : Int :=
  (prices s.book .sell).sum - (prices s.book .buy).sum - (openPrices s.sent).sum

/-! ## The invariant -/

/-- The best sell is the cheapest one. -/
theorem best_sell_le {b : OrderBook} (h : b.Inv) {m : Node} (hm : m ∈ (b.queue .sell).head?)
    {p : Int} (hp : p ∈ prices b .sell) : m.order.price.toInt ≤ p := by
  obtain ⟨ms, hq⟩ := List.head?_eq_some_iff.mp hm
  have hsort := queue_pairwise h .sell
  rw [hq, List.pairwise_cons] at hsort
  rw [prices, hq] at hp
  obtain ⟨n, hn, rfl⟩ := List.mem_map.mp (Multiset.mem_coe.mp hp)
  rcases List.mem_cons.mp hn with rfl | hn
  · exact le_rfl
  · exact Int64.le_iff_toInt_le.mp (hsort.1 n hn).1.1

theorem acceptable_buy {taker : Order} (hside : taker.side = .buy) (hlimit : taker.type = .limit)
    (px : Price) : Acceptable taker px ↔ px.toInt ≤ taker.price.toInt := by
  simp [Acceptable, hside, hlimit, Int64.le_iff_toInt_le]

theorem acceptable_sell {taker : Order} (hside : taker.side = .sell) (hlimit : taker.type = .limit)
    (px : Price) : Acceptable taker px ↔ taker.price.toInt ≤ px.toInt := by
  simp [Acceptable, hside, hlimit, Int64.le_iff_toInt_le]

structure Tally (turns : List (Fin c)) (s : Load c) : Prop where
  sent : s.sent = fun j => turns.count j
  inv : s.book.Inv
  units : Units s.book
  buys : s.matched + (prices s.book .buy).card = ∑ j, s.sent j / 2
  slack_nonneg : 0 ≤ slack s
  exact : NeverUndercut turns → prices s.book .buy = 0 ∧ prices s.book .sell = openPrices s.sent
  loss : ¬ NeverUndercut turns → 0 < slack s

theorem neverUndercut_nil : NeverUndercut ([] : List (Fin c)) :=
  fun pre i post he => by simp at he

theorem neverUndercut_concat (turns : List (Fin c)) (i : Fin c) :
    NeverUndercut (turns ++ [i]) ↔
      NeverUndercut turns ∧ ¬ Undercut (fun j => turns.count j) i := by
  constructor
  · intro h
    refine ⟨fun pre j post he => h pre j (post ++ [i]) (by simp [he]), h turns i [] rfl⟩
  · rintro ⟨h, hi⟩ pre j post he
    rcases List.eq_nil_or_concat post with rfl | ⟨post, k, rfl⟩
    · obtain ⟨rfl, hj⟩ := List.append_inj' he rfl
      obtain rfl : i = j := by simpa using hj
      exact hi
    · rw [List.concat_eq_append, ← List.cons_append, ← List.append_assoc] at he
      exact h pre j post (List.append_inj' he rfl).1

theorem tally_init : Tally ([] : List (Fin c)) {} where
  sent := rfl
  inv := inv_new 1
  units := fun side n hn => by cases side <;> simp [queue, ladder, ranked, book, OrdMap.empty] at hn
  buys := by simp [prices, queue, ladder, ranked, book, OrdMap.empty]
  slack_nonneg := by
    simp [slack, prices, queue, ladder, ranked, book, OrdMap.empty, openPrices]
  exact := fun _ => by simp [prices, queue, ladder, ranked, book, OrdMap.empty, openPrices]
  loss := fun h => absurd neverUndercut_nil h

theorem count_concat (turns : List (Fin c)) (i : Fin c) :
    (fun j => (turns ++ [i]).count j) =
      Function.update (fun j => turns.count j) i (turns.count i + 1) := by
  funext j
  rw [Function.update_apply, List.count_append]
  split_ifs with h
  · simp [h]
  · simp [Ne.symm h]

section Step

variable {turns : List (Fin c)} {s : Load c} {i : Fin c}

theorem Tally.sent_step (h : Tally turns s) :
    (loadStep s i).sent = fun j => (turns ++ [i]).count j := by
  rw [count_concat, loadStep, h.sent]

/-- The buys received are the halves of the counts, rounded down. -/
theorem halves_step (s : Load c) (i : Fin c) :
    ∑ j, (loadStep s i).sent j / 2 + s.sent i / 2 = ∑ j, s.sent j / 2 + (s.sent i + 1) / 2 :=
  sum_update (· / 2) s.sent i (s.sent i + 1)

theorem Tally.unit_step (h : Tally turns s) : ∃ fills,
    UnitSubmit s.book (loadOrder (s.sent i)) (loadStep s i).book fills ∧
    (loadStep s i).matched = s.matched + fills ∧ (loadStep s i).book.Inv ∧
    Units (loadStep s i).book := by
  obtain ⟨-, hlimit, -, hqty⟩ := loadOrder_spec (s.sent i)
  obtain ⟨hsub, hinv, hunits⟩ := submit_unit h.inv h.units hlimit hqty
  simp only [loadStep]
  exact ⟨_, hsub, rfl, hinv, hunits⟩

/-- The first frame of a pair: the sell takes a buy left behind or rests. -/
theorem Tally.sell (h : Tally turns s) (hi : s.sent i % 2 = 0) :
    Tally (turns ++ [i]) (loadStep s i) := by
  obtain ⟨hside, hlimit, hprice, -⟩ := loadOrder_spec (s.sent i)
  rw [if_pos hi] at hside
  obtain ⟨fills, hsub, hmatched, hinv, hunits⟩ := h.unit_step (i := i)
  have hhalves := halves_step s i
  have hbuys := h.buys
  have hopen : openPrices (loadStep s i).sent = loadPrice (s.sent i) ::ₘ openPrices s.sent :=
    openPrices_sell hi
  have hsum := congrArg Multiset.sum hopen
  rw [Multiset.sum_cons] at hsum
  have hnot : ¬ Undercut (fun j => turns.count j) i := by
    rintro ⟨hodd, -⟩
    rw [h.sent] at hi
    omega
  have hnever : NeverUndercut (turns ++ [i]) ↔ NeverUndercut turns := by
    rw [neverUndercut_concat, and_iff_left hnot]
  have hslack := h.slack_nonneg
  have hloss := h.loss
  unfold slack at hslack hloss
  cases hsub with
  | takes m hm hacc hfills hmakers hown =>
    simp only [hside, opposite] at hmakers hown
    rw [acceptable_sell hside hlimit, hprice] at hacc
    have hcard := congrArg Multiset.card hmakers
    have hmsum := congrArg Multiset.sum hmakers
    rw [Multiset.card_cons] at hcard
    rw [Multiset.sum_cons] at hmsum
    refine ⟨h.sent_step, hinv, hunits, ?_, ?_, fun hn => ?_, fun hn => ?_⟩
    · omega
    · rw [slack, hown]
      omega
    · rw [(h.exact (hnever.mp hn)).1] at hmakers
      exact absurd hmakers.symm (Multiset.cons_ne_zero)
    · have := hloss (fun hn' => hn (hnever.mpr hn'))
      rw [slack, hown]
      omega
  | rests hno hfills hmakers hown =>
    simp only [hside, opposite] at hmakers hown
    rw [hprice] at hown
    have hosum := congrArg Multiset.sum hown
    rw [Multiset.sum_cons] at hosum
    refine ⟨h.sent_step, hinv, hunits, ?_, ?_, fun hn => ?_, fun hn => ?_⟩
    · rw [hmakers]
      omega
    · rw [slack, hmakers]
      omega
    · obtain ⟨hbids, hasks⟩ := h.exact (hnever.mp hn)
      exact ⟨hmakers.trans hbids, by rw [hown, hasks, hopen]⟩
    · have := hloss (fun hn' => hn (hnever.mpr hn'))
      rw [slack, hmakers]
      omega

/-- The second frame of a pair: the buy takes the cheapest sell or rests. -/
theorem Tally.buy (h : Tally turns s) (hi : s.sent i % 2 = 1) :
    Tally (turns ++ [i]) (loadStep s i) := by
  obtain ⟨hside, hlimit, hprice, -⟩ := loadOrder_spec (s.sent i)
  rw [if_neg (by omega)] at hside
  obtain ⟨fills, hsub, hmatched, hinv, hunits⟩ := h.unit_step (i := i)
  have hhalves := halves_step s i
  have hbuys := h.buys
  have hopen : openPrices s.sent = loadPrice (s.sent i) ::ₘ openPrices (loadStep s i).sent :=
    openPrices_buy hi
  have hsum := congrArg Multiset.sum hopen
  rw [Multiset.sum_cons] at hsum
  have hslack := h.slack_nonneg
  have hloss := h.loss
  unfold slack at hslack hloss
  have hnever := neverUndercut_concat turns i
  rw [← h.sent] at hnever
  cases hsub with
  | takes m hm hacc hfills hmakers hown =>
    simp only [hside, opposite] at hm hmakers hown
    rw [acceptable_buy hside hlimit, hprice] at hacc
    have hmsum := congrArg Multiset.sum hmakers
    rw [Multiset.sum_cons] at hmsum
    refine ⟨h.sent_step, hinv, hunits, ?_, ?_, fun hn => ?_, fun hn => ?_⟩
    · rw [hown]
      omega
    · rw [slack, hown]
      omega
    · obtain ⟨hbids, hasks⟩ := h.exact (hnever.mp hn).1
      refine ⟨hown.trans hbids, ?_⟩
      -- the cheapest open pair is the one this buy closes
      have hmem : m.order.price.toInt ∈ openPrices s.sent := by
        rw [← hasks, hmakers]
        exact Multiset.mem_cons_self _ _
      obtain ⟨j, hj, hpj⟩ := mem_openPrices.mp hmem
      have heq : m.order.price.toInt = loadPrice (s.sent i) := by
        apply le_antisymm hacc
        by_contra hlt
        exact (hnever.mp hn).2 ⟨hi, j, hj, by rw [hpj]; exact not_le.mp hlt⟩
      rw [hasks, hopen, heq] at hmakers
      exact ((Multiset.cons_inj_right _).mp hmakers).symm
    · rw [slack, hown]
      by_cases hold : NeverUndercut turns
      · have hcut : Undercut s.sent i := by
          by_contra hc
          exact hn (hnever.mpr ⟨hold, hc⟩)
        obtain ⟨-, j, hj, hlt⟩ := hcut
        have hle := best_sell_le h.inv hm (p := loadPrice (s.sent j)) (by
          rw [(h.exact hold).2]
          exact mem_openPrices.mpr ⟨j, hj, rfl⟩)
        omega
      · have := hloss hold
        omega
  | rests hno hfills hmakers hown =>
    simp only [hside, opposite] at hno hmakers hown
    rw [hprice] at hown
    have hosum := congrArg Multiset.sum hown
    have hcard := congrArg Multiset.card hown
    rw [Multiset.sum_cons] at hosum
    rw [Multiset.card_cons] at hcard
    -- the pair's own sell would have been acceptable
    have hlost : ¬ NeverUndercut turns := by
      intro hold
      have hmem : loadPrice (s.sent i) ∈ prices s.book .sell := by
        rw [(h.exact hold).2]
        exact mem_openPrices.mpr ⟨i, hi, rfl⟩
      obtain ⟨n, hn, -⟩ := List.mem_map.mp (Multiset.mem_coe.mp hmem)
      obtain ⟨m, ms, hq⟩ := List.exists_cons_of_ne_nil (List.ne_nil_of_mem hn)
      have hm : m ∈ (s.book.queue .sell).head? := by rw [hq]; rfl
      refine hno m hm ((acceptable_buy hside hlimit _).mpr ?_)
      rw [hprice]
      exact best_sell_le h.inv hm hmem
    refine ⟨h.sent_step, hinv, hunits, ?_, ?_, fun hn => ?_, fun hn => ?_⟩
    · omega
    · rw [slack, hmakers]
      omega
    · exact absurd (hnever.mp hn).1 hlost
    · have := hloss hlost
      rw [slack, hmakers]
      omega

end Step

theorem load_tally (turns : List (Fin c)) : Tally turns (load turns) := by
  induction turns using List.reverseRecOn with
  | nil => exact tally_init
  | append_singleton turns i ih =>
    rw [load, List.foldl_append]
    rcases Nat.mod_two_eq_zero_or_one ((load turns).sent i) with hi | hi
    · exact ih.sell hi
    · exact ih.buy hi

theorem levelCount_eq_zero {b : OrderBook} (h : b.Inv) (side : Side) :
    b.levelCount side = 0 ↔ prices b side = 0 := by
  have hnil : (b.book side).entries = [] ↔ b.queue side = [] := by
    constructor
    · intro he
      cases side <;> simp [queue, ladder, ranked, he]
    · intro hq
      have hl := h.ladder_of_queue_nil hq
      cases side with
      | buy => exact List.reverse_eq_nil_iff.mp hl
      | sell => exact hl
  rw [levelCount, List.length_eq_zero_iff, hnil, prices, Multiset.coe_eq_zero, List.map_eq_nil_iff]

/-- **When the load benchmark counts exactly.** For any number of connections and
any even number of frames each, all pairs match and the book ends empty in
exactly those arrival orders in which no buy is undercut. -/
theorem load_exact_iff (c n : Nat) (hn : n % 2 = 0) (turns : List (Fin c))
    (hcount : ∀ i, turns.count i = n) :
    ((load turns).matched = c * n / 2 ∧ ∀ side, (load turns).book.levelCount side = 0) ↔
      NeverUndercut turns := by
  have h := load_tally turns
  have hsent : ∀ j, (load turns).sent j = n := fun j => by rw [h.sent]; exact hcount j
  have hopen : openPrices (load turns).sent = 0 := by simp [openPrices, hsent, hn]
  have hhalves : ∑ j, (load turns).sent j / 2 = c * n / 2 := by
    simp only [hsent, Finset.sum_const, Finset.card_univ, Fintype.card_fin, smul_eq_mul]
    rw [Nat.mul_div_assoc _ (Nat.dvd_of_mod_eq_zero hn)]
  have hbuys := h.buys
  constructor
  · rintro ⟨-, hempty⟩
    by_contra hcut
    have hpos := h.loss hcut
    rw [slack, hopen, (levelCount_eq_zero h.inv .sell).mp (hempty .sell),
      (levelCount_eq_zero h.inv .buy).mp (hempty .buy)] at hpos
    simp at hpos
  · intro hnever
    obtain ⟨hbids, hasks⟩ := h.exact hnever
    rw [hopen] at hasks
    refine ⟨?_, fun side => (levelCount_eq_zero h.inv side).mpr ?_⟩
    · rw [hbids, hhalves] at hbuys
      simpa using hbuys
    · cases side with
      | buy => exact hbids
      | sell => exact hasks

instance (sent : Fin c → Nat) (i : Fin c) : Decidable (Undercut sent i) :=
  inferInstanceAs (Decidable (_ ∧ ∃ _, _ ∧ _))

/-- Two connections whose pairs overlap at one price. -/
theorem load_exact_iff_overlapping :
    (load (c := 2) [0, 1, 0, 1]).matched = 2 * 2 / 2 ∧
      ∀ side, (load (c := 2) [0, 1, 0, 1]).book.levelCount side = 0 := by
  refine (load_exact_iff 2 2 rfl [0, 1, 0, 1] (by decide)).mpr ?_
  have h1 := (neverUndercut_concat (c := 2) [] 0).mpr ⟨neverUndercut_nil, by decide⟩
  have h2 := (neverUndercut_concat [0] 1).mpr ⟨h1, by decide⟩
  have h3 := (neverUndercut_concat [0, 1] 0).mpr ⟨h2, by decide⟩
  exact (neverUndercut_concat [0, 1, 0] 1).mpr ⟨h3, by decide⟩

/-- Two connections, four frames each: the second connection's buy at 101 takes
the first one's sell at 100, and three fills are counted for four pairs. -/
theorem undercut_loses_fill :
    ¬ ∀ (c n : Nat), 1 ≤ c → n % 2 = 0 → ∀ turns : List (Fin c), (∀ i, turns.count i = n) →
      (load turns).matched = c * n / 2 ∧ ∀ side, (load turns).book.levelCount side = 0 := by
  intro hall
  have h := (hall 2 4 (by decide) rfl [0, 1, 1, 1, 1, 0, 0, 0] (by decide)).1
  exact absurd h (by decide)

end Lloms.Feed
