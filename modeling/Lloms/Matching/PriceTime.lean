import Mathlib.Data.List.Sort
import Mathlib.Data.List.Pairwise
import Lloms.Matching.Engine

/-! `submit` is price-time priority. The reference sorts the resting orders of a
side by price and arrival, whatever structure holds them, and walks the sorted
list; the engine's levels, ends of maps and fronts of lists do the same. -/
namespace Lloms.MatchingEngine
open Lib OrderBook

/-! ## The priority order -/

/-- All resting orders of a side, as the map happens to list them. -/
def resting (b : OrderBook) (side : Side) : List Node :=
  (b.book side).entries.flatMap Prod.snd

/-- Better price first and, at one price, earlier arrival first. -/
def Before (side : Side) (m n : Node) : Prop :=
  NotWorse side m.order.price n.order.price ∧
    (m.order.price = n.order.price → m.stamp ≤ n.stamp)

instance (side : Side) : DecidableRel (Before side) := fun _ _ =>
  inferInstanceAs (Decidable (_ ∧ (_ → _)))

/-- The resting orders of a side in price-time priority. -/
def priceTime (b : OrderBook) (side : Side) : List Node :=
  (resting b side).insertionSort (Before side)

instance (side : Side) : Std.Total (Before side) where
  total m n := by
    rcases lt_trichotomy m.order.price n.order.price with h | h | h
    · cases side with
      | buy => exact .inr ⟨h.le, fun he => absurd he h.ne'⟩
      | sell => exact .inl ⟨h.le, fun he => absurd he h.ne⟩
    · have hw : NotWorse side m.order.price n.order.price ∧
          NotWorse side n.order.price m.order.price := by
        rw [h]
        exact ⟨notWorse_refl _ _, notWorse_refl _ _⟩
      rcases Nat.le_total m.stamp n.stamp with hs | hs
      · exact .inl ⟨hw.1, fun _ => hs⟩
      · exact .inr ⟨hw.2, fun _ => hs⟩
    · cases side with
      | buy => exact .inl ⟨h.le, fun he => absurd he h.ne'⟩
      | sell => exact .inr ⟨h.le, fun he => absurd he h.ne⟩

instance (side : Side) : IsTrans Node (Before side) where
  trans a b c hab hbc := by
    obtain ⟨h1, h2⟩ := hab
    obtain ⟨h3, h4⟩ := hbc
    cases side with
    | buy =>
      refine ⟨le_trans h3 h1, fun he => ?_⟩
      have hb : a.order.price = b.order.price := le_antisymm (he ▸ h3) h1
      exact (h2 hb).trans (h4 (hb ▸ he))
    | sell =>
      refine ⟨le_trans h1 h3, fun he => ?_⟩
      have hb : a.order.price = b.order.price := le_antisymm h1 (he ▸ h3)
      exact (h2 hb).trans (h4 (hb ▸ he))

/-- The queue is sorted, and strictly: no two orders are before each other. -/
theorem queue_pairwise {b : OrderBook} (h : b.Inv) (side : Side) :
    (b.queue side).Pairwise fun m n => Before side m n ∧ ¬ Before side n m := by
  rw [queue, List.pairwise_flatMap]
  constructor
  · intro e he
    have hok := h side e ((b.mem_ladder side).mp he)
    apply (List.Pairwise.and_mem.mp hok.arrival).imp
    rintro m n ⟨hm, hn, hlt⟩
    have hpm := (hok.nodes m hm).2.2.1
    have hpn := (hok.nodes n hn).2.2.1
    refine ⟨⟨?_, fun _ => hlt.le⟩, fun hb => ?_⟩
    · rw [hpm, hpn]
      exact notWorse_refl _ _
    · exact absurd (hb.2 (hpn.trans hpm.symm)) (by omega)
  · apply (List.Pairwise.and_mem.mp (ranked_pairwise side (b.book side))).imp
    rintro e e' ⟨he, he', hnw⟩ m hm n hn
    have hpm := h.price_of_ladder he hm
    have hpn := h.price_of_ladder he' hn
    rw [← hpm, ← hpn] at hnw
    refine ⟨⟨notWorse_of_not hnw, fun heq => ?_⟩, fun hb => hnw hb.1⟩
    exact absurd (heq ▸ notWorse_refl _ _) hnw

theorem queue_sorted {b : OrderBook} (h : b.Inv) (side : Side) :
    (b.queue side).Pairwise fun m n => NotWorse side m.order.price n.order.price :=
  (queue_pairwise h side).imp fun h => h.1.1

/-- What the engine meets, one after another, is the sorted list. -/
theorem priceTime_eq_queue {b : OrderBook} (h : b.Inv) (side : Side) :
    priceTime b side = b.queue side := by
  have hperm : (resting b side).Perm (b.queue side) := by
    cases side with
    | buy => exact ((List.reverse_perm b.bids.entries).symm.flatMap_right Prod.snd)
    | sell => exact List.Perm.refl _
  have hsort := queue_pairwise h side
  have hanti : ∀ m ∈ b.queue side, ∀ n ∈ b.queue side,
      Before side m n → Before side n m → m = n := by
    have : Std.Symm fun m n : Node => ¬ (Before side m n ∧ Before side n m) :=
      ⟨fun m n h h' => h h'.symm⟩
    intro m hm n hn h1 h2
    by_contra hne
    have hp : (b.queue side).Pairwise fun m n => ¬ (Before side m n ∧ Before side n m) :=
      hsort.imp fun h h' => h.2 h'.2
    exact hp.forall hm hn hne ⟨h1, h2⟩
  have hp := List.perm_insertionSort (Before side) (resting b side)
  refine List.Perm.eq_of_pairwise (fun m n hm hn => hanti m ?_ n hn)
    (List.pairwise_insertionSort (Before side) _) (hsort.imp And.left) (hp.trans hperm)
  exact hperm.mem_iff.mp (hp.mem_iff.mp hm)

/-- A level of the map is what the priority list has at its price, and no empty
level is kept. -/
theorem level_eq_filter {b : OrderBook} (h : b.Inv) (side : Side) (price : Price) :
    (b.book side).find? price ≠ some [] ∧
    ((b.book side).find? price).getD [] =
      (b.queue side).filter fun n => n.order.price = price := by
  obtain ⟨front, back, hold, -, hfront, hback⟩ := ranked_set side (b.book side) price []
  have hladder : b.ladder side = _ := hold
  have hnone : ∀ l : List (Price × Level), (∀ e ∈ l, e ∈ b.ladder side) →
      (∀ e ∈ l, e.1 ≠ price) → (l.flatMap Prod.snd).filter (fun n => n.order.price = price) = [] := by
    intro l hmem hne
    rw [List.filter_eq_nil_iff]
    intro n hn
    obtain ⟨e, he, hne'⟩ := List.mem_flatMap.mp hn
    simpa [h.price_of_ladder (hmem e he) hne'] using hne e he
  have hf := hnone front (fun e he => hladder ▸ List.mem_append_left _ he)
    (fun e he heq => hfront e he (heq ▸ notWorse_refl _ _))
  have hb := hnone back
    (fun e he => hladder ▸ List.mem_append_right _ (List.mem_append_right _ he))
    (fun e he heq => hback e he (heq ▸ notWorse_refl _ _))
  rw [queue, hladder, List.flatMap_append, List.flatMap_append, List.filter_append,
    List.filter_append, hf, hb]
  obtain ⟨hnodes, -⟩ := h.level side price
  cases hfind : (b.book side).find? price with
  | none => simp
  | some lvl =>
    rw [hfind] at hnodes
    have hok := h side (price, lvl) (OrdMap.mem_entries_iff.mpr hfind)
    refine ⟨fun he => hok.nonempty (by simpa using he), ?_⟩
    simp only [Option.getD_some, Option.map_some, Option.toList_some, List.flatMap_cons,
      List.flatMap_nil, List.append_nil, List.nil_append]
    exact (List.filter_eq_self.mpr fun n hn => by simpa using (hnodes n hn).2.2.1).symm

/-! ## The main theorem -/

/-- The reference: walk the other side in price-time priority. -/
def reference (b : OrderBook) (taker : Order) : Walk :=
  walk taker taker.qty (priceTime b (opposite taker.side))

/-- A submit with result `r` went by price-time priority. The fills are appended
and their sum is returned; the makers are those the walk leaves, in place; the
own side is unchanged but for a limit remainder at the back of its price level.
The levels hold these orders and nothing else, and the id index forgot the makers
used up and learnt the remainder. -/
structure ByPriceTime (b : OrderBook) (taker : Order) (out : List Fill)
    (r : OrderBook × Qty × List Fill) : Prop where
  fills : r.2.2 = out ++ (reference b taker).fills
  filled : r.2.1.toInt = ((reference b taker).fills.map (·.qty.toInt)).sum
  makers : priceTime r.1 (opposite taker.side) = (reference b taker).left
  own : priceTime r.1 taker.side = match remainder b taker (reference b taker) with
    | some n => enqueue taker.side n (priceTime b taker.side)
    | none => priceTime b taker.side
  levels : ∀ side price, (r.1.book side).find? price ≠ some [] ∧
    ((r.1.book side).find? price).getD [] =
      (priceTime r.1 side).filter fun n => n.order.price = price
  index : r.1.index = match remainder b taker (reference b taker) with
    | some n => Function.update (forget b.index (reference b taker).exhausted) taker.id
        (some ⟨taker.side, taker.price, n.stamp⟩)
    | none => forget b.index (reference b taker).exhausted
  symbol : r.1.symbol = b.symbol

/-- **`submit` is price-time-priority matching**, in every state the engine can
reach by submits and cancels, for every taker. -/
theorem submit_byPriceTime (symbol : Symbol) (calls : List Call) (taker : Order)
    (out : List Fill) :
    ByPriceTime (exec step { symbol } calls) taker out
      (submit (exec step { symbol } calls) taker out) := by
  have hinv := exec_inv symbol calls
  generalize exec step { symbol } calls = b at *
  have hs := submit_spec hinv taker out
  have href : reference b taker = walk taker taker.qty (b.queue (opposite taker.side)) := by
    rw [reference, priceTime_eq_queue hinv]
  rw [← href] at hs
  refine ⟨hs.fills, hs.filled, ?_, ?_, fun side price => ?_, ?_, hs.symbol⟩
  · rw [priceTime_eq_queue hs.inv, hs.makers]
  · rw [priceTime_eq_queue hs.inv, hs.own, priceTime_eq_queue hinv]
    cases remainder b taker (reference b taker) <;> rfl
  · rw [priceTime_eq_queue hs.inv]
    exact level_eq_filter hs.inv side price
  · rw [hs.index]
    cases remainder b taker (reference b taker) <;> rfl

end Lloms.MatchingEngine
