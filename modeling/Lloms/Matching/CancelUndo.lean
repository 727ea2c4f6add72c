import Lloms.Matching.Ledger

/-! An order that is cancelled before it trades leaves no trace. Two runs are
compared, one with the order and one without: the book of the first is the book
of the second with one more list node, and every call keeps it so. The node
numbers of the two runs differ by the one insertion, so the second book is
described through a renaming of nodes. -/
namespace Lloms.MatchingEngine
open Lib OrderBook

/-! ## Renaming list nodes -/

/-- The numbers that are left after `k` is taken out, closed up. -/
def closeUp (k stamp : Nat) : Nat := if stamp < k then stamp else stamp - 1

theorem closeUp_inj {k i j : Nat} (hi : i ≠ k) (hj : j ≠ k) : closeUp k i = closeUp k j ↔ i = j := by
  unfold closeUp
  split_ifs <;> omega

def renameNode (k : Nat) (n : Node) : Node := { n with stamp := closeUp k n.stamp }

def renameLoc (k : Nat) (loc : Location) : Location := { loc with it := closeUp k loc.it }

/-- A list of nodes without the node `k`, closed up. -/
def without (k : Nat) (l : List Node) : List Node :=
  (l.filter fun n => n.stamp ≠ k).map (renameNode k)

theorem without_append (k : Nat) (l l' : List Node) :
    without k (l ++ l') = without k l ++ without k l' := by
  simp [without]

theorem without_cons_self {k : Nat} {n : Node} (h : n.stamp = k) (l : List Node) :
    without k (n :: l) = without k l := by
  simp [without, h]

theorem without_cons {k : Nat} {n : Node} (h : n.stamp ≠ k) (l : List Node) :
    without k (n :: l) = renameNode k n :: without k l := by
  simp [without, h]

theorem mem_without {k : Nat} {l : List Node} {m : Node} (h : m ∈ without k l) :
    ∃ n ∈ l, n.stamp ≠ k ∧ m = renameNode k n := by
  obtain ⟨n, hn, rfl⟩ := List.mem_map.mp h
  obtain ⟨hn, hne⟩ := List.mem_filter.mp hn
  exact ⟨n, hn, by simpa using hne, rfl⟩

/-- Nodes numbered below `k` are all kept, under their own numbers. -/
theorem without_of_lt {k : Nat} {l : List Node} (h : ∀ n ∈ l, n.stamp < k) : without k l = l := by
  induction l with
  | nil => rfl
  | cons n l ih =>
    obtain ⟨hn, hl⟩ := List.forall_mem_cons.mp h
    rw [without_cons (Nat.ne_of_lt hn), ih hl, renameNode, closeUp, if_pos hn]

/-- Taking out another node commutes with taking out `k`. -/
theorem without_filter {k it : Nat} (hit : it ≠ k) (l : List Node) :
    without k (l.filter fun n => n.stamp ≠ it) =
      (without k l).filter fun n => n.stamp ≠ closeUp k it := by
  rw [without, without, List.filter_map, List.filter_filter, List.filter_filter]
  congr 1
  apply List.filter_congr
  intro n _
  by_cases hk : n.stamp = k
  · simp [hk]
  · simp [hk, renameNode, closeUp_inj hk hit]

theorem notWorse_trans {side : Side} {p q r : Price} (hpq : NotWorse side p q)
    (hqr : NotWorse side q r) : NotWorse side p r := by
  cases side with
  | buy => exact le_trans hqr hpq
  | sell => exact le_trans hpq hqr

/-- A sorted list splits where an order goes in. -/
theorem exists_split {side : Side} (price : Price) {l : List Node}
    (hsorted : l.Pairwise fun m m' => NotWorse side m.order.price m'.order.price) :
    ∃ as bs, l = as ++ bs ∧ (∀ m ∈ as, NotWorse side m.order.price price) ∧
      ∀ m ∈ bs, ¬ NotWorse side m.order.price price := by
  induction l with
  | nil => exact ⟨[], [], rfl, by simp, by simp⟩
  | cons m l ih =>
    obtain ⟨hm, hl⟩ := List.pairwise_cons.mp hsorted
    by_cases hprice : NotWorse side m.order.price price
    · obtain ⟨as, bs, rfl, has, hbs⟩ := ih hl
      exact ⟨m :: as, bs, rfl, List.forall_mem_cons.mpr ⟨hprice, has⟩, hbs⟩
    · refine ⟨[], m :: l, rfl, by simp, List.forall_mem_cons.mpr ⟨hprice, fun m' hm' h => ?_⟩⟩
      exact hprice (notWorse_trans (hm m' hm') h)

/-- A new order goes to the same place with or without the node `k`. -/
theorem without_enqueue {k : Nat} {side : Side} {n : Node} {l : List Node} (hn : n.stamp ≠ k)
    (hsorted : l.Pairwise fun m m' => NotWorse side m.order.price m'.order.price) :
    without k (enqueue side n l) = enqueue side (renameNode k n) (without k l) := by
  obtain ⟨as, bs, rfl, has, hbs⟩ := exists_split n.order.price hsorted
  have has' : ∀ m ∈ without k as, NotWorse side m.order.price (renameNode k n).order.price := by
    intro m hm
    obtain ⟨m', hm', -, rfl⟩ := mem_without hm
    exact has m' hm'
  have hbs' : ∀ m ∈ without k bs, ¬ NotWorse side m.order.price (renameNode k n).order.price := by
    intro m hm
    obtain ⟨m', hm', -, rfl⟩ := mem_without hm
    exact hbs m' hm'
  rw [enqueue_append has hbs, without_append, without_append, without_cons hn,
    enqueue_append has' hbs']

/-! ## The walk past an order -/

section Walk

variable {taker : Order} {ms : List Node}

/-- A maker stays as it is or is named by a fill. -/
theorem walk_keeps (r : Qty) (hpos : ∀ m ∈ ms, 0 < m.order.qty.toInt) :
    ∀ m ∈ ms, m ∈ (walk taker r ms).left ∨
      ∃ f ∈ (walk taker r ms).fills, f.makerId = m.order.id := by
  apply walk_induction
    (C := fun _ ms w => ∀ m ∈ ms, m ∈ w.left ∨ ∃ f ∈ w.fills, f.makerId = m.order.id)
  · intro r m hm
    cases hm
  · intro r m ms _ n hn
    exact .inl hn
  · intro r m ms w _ _ _ _ ih n hn
    rcases List.mem_cons.mp hn with rfl | hn
    · exact .inr ⟨_, List.mem_cons_self, rfl⟩
    · rcases ih n hn with hn | ⟨f, hf, hfn⟩
      · exact .inl hn
      · exact .inr ⟨f, List.mem_cons_of_mem _ hf, hfn⟩
  · intro r m ms _ _ _ _ n hn
    rcases List.mem_cons.mp hn with rfl | hn
    · exact .inr ⟨_, List.mem_cons_self, rfl⟩
    · exact .inl (List.mem_cons_of_mem _ hn)
  · exact hpos

/-- A maker that was used up is named by a fill. -/
theorem walk_exhausted (r : Qty) (hpos : ∀ m ∈ ms, 0 < m.order.qty.toInt) :
    ∀ m ∈ (walk taker r ms).exhausted, m ∈ ms ∧
      ∃ f ∈ (walk taker r ms).fills, f.makerId = m.order.id := by
  apply walk_induction
    (C := fun _ ms w => ∀ m ∈ w.exhausted, m ∈ ms ∧ ∃ f ∈ w.fills, f.makerId = m.order.id)
  · intro r m hm
    cases hm
  · intro r m ms _ n hn
    cases hn
  · intro r m ms w _ _ _ _ ih n hn
    rcases List.mem_cons.mp hn with rfl | hn
    · exact ⟨List.mem_cons_self, _, List.mem_cons_self, rfl⟩
    · obtain ⟨hmem, f, hf, hfn⟩ := ih n hn
      exact ⟨List.mem_cons_of_mem _ hmem, f, List.mem_cons_of_mem _ hf, hfn⟩
  · intro r m ms _ _ _ _ n hn
    cases hn
  · exact hpos

/-- A walk that does not trade with the node `k` goes the same way without it. -/
theorem walk_without {k : Nat} {id : OrderId} (r : Qty)
    (hpos : ∀ m ∈ ms, 0 < m.order.qty.toInt)
    (hsorted : ms.Pairwise fun m n =>
      NotWorse (opposite taker.side) m.order.price n.order.price)
    (hk : ∀ m ∈ ms, m.stamp = k → m.order.id = id)
    (hno : ∀ f ∈ (walk taker r ms).fills, f.makerId ≠ id) :
    walk taker r (without k ms) =
      ⟨(walk taker r ms).fills, (walk taker r ms).remaining, without k (walk taker r ms).left,
        (walk taker r ms).exhausted.map (renameNode k)⟩ := by
  revert hsorted hk hno
  apply walk_induction
    (C := fun r ms w =>
      ms.Pairwise (fun m n => NotWorse (opposite taker.side) m.order.price n.order.price) →
      (∀ m ∈ ms, m.stamp = k → m.order.id = id) → (∀ f ∈ w.fills, f.makerId ≠ id) →
      walk taker r (without k ms) =
        ⟨w.fills, w.remaining, without k w.left, w.exhausted.map (renameNode k)⟩)
  · intro r _ _ _
    rfl
  · intro r m ms hgo hsorted _ _
    -- what stands behind a maker that stops the walk would stop it too
    have hstop : ∀ n ∈ m :: ms, ¬ (0 < r ∧ Acceptable taker n.order.price) := by
      intro n hn hgo'
      rcases List.mem_cons.mp hn with rfl | hn
      · exact hgo hgo'
      · exact hgo ⟨hgo'.1, acceptable_of_notWorse ((List.pairwise_cons.mp hsorted).1 n hn) hgo'.2⟩
    apply walk_of_stop
    intro n hn
    obtain ⟨n', hn', -, rfl⟩ := mem_without (List.mem_of_mem_head? hn)
    exact hstop n' hn'
  · intro r m ms w hm hacc hsub hle ih hsorted hk hno
    have hmk : m.stamp ≠ k := fun h => hno _ List.mem_cons_self (hk m List.mem_cons_self h)
    have hgo : 0 < r ∧ Acceptable taker (renameNode k m).order.price :=
      ⟨(pos_iff_toInt r).mpr (by omega), hacc⟩
    have hmin : min r (renameNode k m).order.qty = m.order.qty :=
      min_eq_right (Int64.le_iff_toInt_le.mpr hle)
    have hrest := ih (List.pairwise_cons.mp hsorted).2
      (fun n hn => hk n (List.mem_cons_of_mem _ hn))
      (fun f hf => hno f (List.mem_cons_of_mem _ hf))
    rw [without_cons hmk, walk, if_pos hgo]
    dsimp only
    rw [hmin, if_pos (show m.order.qty = (renameNode k m).order.qty from rfl), hrest]
    rfl
  · intro r m ms hr hacc hsub hlt hsorted hk hno
    have hmk : m.stamp ≠ k := fun h => hno _ List.mem_cons_self (hk m List.mem_cons_self h)
    have hgo : 0 < r ∧ Acceptable taker (renameNode k m).order.price :=
      ⟨(pos_iff_toInt r).mpr hr, hacc⟩
    have hmin : min r (renameNode k m).order.qty = r :=
      min_eq_left (Int64.le_iff_toInt_le.mpr hlt.le)
    have hne : r ≠ (renameNode k m).order.qty := fun h => by
      have : r.toInt = m.order.qty.toInt := congrArg Int64.toInt h
      omega
    have hleft := without_cons (n := { m with order := { m.order with qty := m.order.qty - r } })
      hmk ms
    rw [without_cons hmk, walk, if_pos hgo]
    dsimp only
    rw [hmin, if_neg hne, Int64.sub_self, walk_zero, hleft]
    rfl
  · exact hpos

end Walk

/-! ## The two books -/

/-- The id a call names. -/
def Call.id : Call → OrderId
  | .submit taker => taker.id
  | .cancel id => id

/-- Book `a` is book `b` with the order `o` resting as node `k`, and with the node
numbers that makes. -/
structure Shadow (o : Order) (k : Nat) (a b : OrderBook) : Prop where
  inv : a.Inv ∧ b.Inv
  indexed : a.Indexed ∧ b.Indexed
  symbol : a.symbol = b.symbol
  fresh : a.fresh = b.fresh + 1 ∧ k ≤ b.fresh
  queue : ∀ side, b.queue side = without k (a.queue side)
  here : ⟨k, o⟩ ∈ a.queue o.side
  only : ∀ side, ∀ n ∈ a.queue side, n.stamp = k ↔ n.order.id = o.id
  index : ∀ id, id ≠ o.id → b.index id = (a.index id).map (renameLoc k)
  own : a.index o.id = some ⟨o.side, o.price, k⟩ ∧ b.index o.id = none

theorem submit_fresh {b : OrderBook} (h : b.Inv) (taker : Order) (out : List Fill) :
    (submit b taker out).1.fresh = b.fresh +
      (remainder b taker (walk taker taker.qty (b.queue (opposite taker.side)))).elim 0
        fun _ => 1 := by
  have hs := submit_swept h taker out
  have hfresh : _ = b.fresh := hs.book.fresh
  unfold submit remainder
  simp only [hs.taker, gt_iff_lt]
  split_ifs with hrest
  · simp only [OrderBook.add, hfresh, Option.elim_some]
  · exact hfresh

section Cancel

variable {o : Order} {k : Nat} {a b : OrderBook}

/-- Cancelling another id answers the same and keeps the two books together. -/
theorem shadow_cancel (h : Shadow o k a b) {id : OrderId} (hid : id ≠ o.id) :
    Shadow o k (a.cancel id).1 (b.cancel id).1 ∧ (a.cancel id).2 = (b.cancel id).2 := by
  have hb := h.index id hid
  cases hi : a.index id with
  | none =>
    rw [hi, Option.map_none] at hb
    simp only [OrderBook.cancel, hi, hb]
    exact ⟨h, trivial⟩
  | some loc =>
    rw [hi, Option.map_some] at hb
    obtain ⟨⟨m, hm, hst, hmid⟩, -⟩ := h.indexed.1.named hi
    -- the node that goes is not `k`, which carries the id of `o`
    have hit : loc.it ≠ k := fun heq =>
      hid (hmid.symm.trans ((h.only _ m hm).mp (hst.trans heq)))
    have hqa := h.indexed.1.queue_cancel hi
    have hqb := h.indexed.2.queue_cancel hb
    refine ⟨⟨⟨h.inv.1.cancel id, h.inv.2.cancel id⟩, ⟨h.indexed.1.cancel id, h.indexed.2.cancel id⟩,
      ?_, ?_, fun side => ?_, ?_, fun side n hn => ?_, fun id' hid' => ?_, ?_⟩, ?_⟩
    · simp only [OrderBook.cancel, hi, hb, setBook_symbol]
      exact h.symbol
    · simp only [OrderBook.cancel, hi, hb, setBook_fresh]
      exact h.fresh
    · rw [hqb, hqa, h.queue side, without_filter hit]
      rfl
    · rw [hqa]
      exact List.mem_filter.mpr ⟨h.here, by simpa using hit.symm⟩
    · rw [hqa] at hn
      exact h.only side n (List.mem_filter.mp hn).1
    · simp only [OrderBook.cancel, hi, hb, Function.update_apply]
      split_ifs
      · rfl
      · exact h.index id' hid'
    · simp only [OrderBook.cancel, hi, hb, Function.update_of_ne hid.symm]
      exact h.own
    · simp only [OrderBook.cancel, hi, hb]

end Cancel

section Submit

variable {o : Order} {k : Nat} {a b : OrderBook} (h : Shadow o k a b) {taker : Order}
  (hno : ∀ f ∈ (walk taker taker.qty (a.queue (opposite taker.side))).fills, f.makerId ≠ o.id)
include h hno

/-- The walk over the makers is the same in both books. -/
theorem shadow_walk : walk taker taker.qty (b.queue (opposite taker.side)) =
    ⟨(walk taker taker.qty (a.queue (opposite taker.side))).fills,
      (walk taker taker.qty (a.queue (opposite taker.side))).remaining,
      without k (walk taker taker.qty (a.queue (opposite taker.side))).left,
      (walk taker taker.qty (a.queue (opposite taker.side))).exhausted.map (renameNode k)⟩ := by
  rw [h.queue]
  exact walk_without taker.qty (fun m hm => h.inv.1.qty_pos hm) (queue_sorted h.inv.1 _)
    (fun m hm => (h.only _ m hm).mp) hno

/-- The index after the makers that were used up are forgotten. -/
theorem shadow_forget : let w := walk taker taker.qty (a.queue (opposite taker.side))
    (∀ id, id ≠ o.id → forget b.index (w.exhausted.map (renameNode k)) id =
      (forget a.index w.exhausted id).map (renameLoc k)) ∧
    forget a.index w.exhausted o.id = some ⟨o.side, o.price, k⟩ ∧
    forget b.index (w.exhausted.map (renameNode k)) o.id = none := by
  intro w
  have hids : (w.exhausted.map (renameNode k)).map (·.order.id) =
      w.exhausted.map (·.order.id) := by
    rw [List.map_map]
    rfl
  have hout : o.id ∉ w.exhausted.map (·.order.id) := by
    intro hmem
    obtain ⟨m, hm, hmid⟩ := List.mem_map.mp hmem
    obtain ⟨-, f, hf, hfm⟩ := walk_exhausted taker.qty (fun m hm => h.inv.1.qty_pos hm) m hm
    exact hno f hf (hfm.trans hmid)
  refine ⟨fun id hid => ?_, ?_, ?_⟩
  · simp only [forget, hids]
    split_ifs
    · rfl
    · exact h.index id hid
  · simp only [forget, hout, if_false]
    exact h.own.1
  · simp only [forget, hids, hout, if_false]
    exact h.own.2

/-- What rests of the taker is the same order, under the next number of each
book. -/
theorem shadow_remainder :
    let w := walk taker taker.qty (a.queue (opposite taker.side))
    remainder b taker (walk taker taker.qty (b.queue (opposite taker.side))) =
      (remainder a taker w).map (renameNode k) ∧
    ∀ n, remainder a taker w = some n → n.stamp = a.fresh ∧ n.stamp ≠ k := by
  intro w
  obtain ⟨hfresh, hk⟩ := h.fresh
  have hclose : closeUp k a.fresh = b.fresh := by
    rw [closeUp, if_neg (by omega), hfresh]
    rfl
  rw [shadow_walk h hno]
  unfold remainder
  dsimp only
  split_ifs with hrest
  · refine ⟨?_, ?_⟩
    · rw [Option.map_some, renameNode, hclose]
    · intro n hn
      obtain rfl := Option.some.inj hn
      exact ⟨rfl, by dsimp only; omega⟩
  · exact ⟨rfl, fun n hn => by cases hn⟩

theorem shadow_submit_queue (side : Side) : (submit b taker []).1.queue side =
    without k ((submit a taker []).1.queue side) := by
  have hsa := submit_spec h.inv.1 taker []
  have hsb := submit_spec h.inv.2 taker []
  obtain ⟨hrem, hnew⟩ := shadow_remainder h hno
  rcases eq_or_opposite side taker.side with rfl | rfl
  · rw [hsb.own, hsa.own, hrem, h.queue]
    cases hr : remainder a taker (walk taker taker.qty (a.queue (opposite taker.side))) with
    | none => rfl
    | some n => exact (without_enqueue (hnew n hr).2 (queue_sorted h.inv.1 _)).symm
  · rw [hsb.makers, hsa.makers, shadow_walk h hno]

theorem shadow_submit_here : ⟨k, o⟩ ∈ (submit a taker []).1.queue o.side := by
  have hsa := submit_spec h.inv.1 taker []
  have hhere := h.here
  rcases eq_or_opposite o.side taker.side with hside | hside
  · rw [hside] at hhere ⊢
    rw [hsa.own]
    cases remainder a taker (walk taker taker.qty (a.queue (opposite taker.side))) with
    | none => exact hhere
    | some n => exact mem_enqueue.mpr (.inr hhere)
  · rw [hside] at hhere ⊢
    rw [hsa.makers]
    rcases walk_keeps taker.qty (fun m hm => h.inv.1.qty_pos hm) _ hhere with hmem | ⟨f, hf, hfm⟩
    · exact hmem
    · exact absurd hfm (hno f hf)

variable (hid : taker.id ≠ o.id)

omit hno in
include hid in
theorem shadow_submit_only (side : Side) (n : Node) (hn : n ∈ (submit a taker []).1.queue side) :
    n.stamp = k ↔ n.order.id = o.id := by
  obtain ⟨hfresh, hk⟩ := h.fresh
  rcases submit_nodes h.inv.1 taker [] hn with ⟨m, hm, heq⟩ | heq
  · rw [heq]
    exact h.only side m hm
  · rw [heq]
    exact ⟨fun hst => by dsimp only at hst; omega, fun h => absurd h hid⟩

include hid in
theorem shadow_submit_index :
    (∀ id, id ≠ o.id → (submit b taker []).1.index id =
      ((submit a taker []).1.index id).map (renameLoc k)) ∧
    (submit a taker []).1.index o.id = some ⟨o.side, o.price, k⟩ ∧
    (submit b taker []).1.index o.id = none := by
  obtain ⟨hrem, hnew⟩ := shadow_remainder h hno
  obtain ⟨hforget, howna, hownb⟩ := shadow_forget h hno
  rw [(submit_spec h.inv.1 taker []).index, (submit_spec h.inv.2 taker []).index, hrem,
    shadow_walk h hno]
  cases hr : remainder a taker (walk taker taker.qty (a.queue (opposite taker.side))) with
  | none => exact ⟨hforget, howna, hownb⟩
  | some n =>
    refine ⟨fun id hne => ?_, ?_, ?_⟩
    · simp only [Option.map_some, Option.elim_some, Function.update_apply]
      split_ifs
      · rfl
      · exact hforget id hne
    · simp only [Option.elim_some, Function.update_of_ne hid.symm]
      exact howna
    · simp only [Option.map_some, Option.elim_some, Function.update_of_ne hid.symm]
      exact hownb

include hid in
/-- A submit that does not trade with `o` answers the same and keeps the two
books together. -/
theorem shadow_submit : Shadow o k (submit a taker []).1 (submit b taker []).1 ∧
    (submit a taker []).2 = (submit b taker []).2 := by
  have hsa := submit_spec h.inv.1 taker []
  have hsb := submit_spec h.inv.2 taker []
  obtain ⟨hfresh, hk⟩ := h.fresh
  obtain ⟨hindex, hown⟩ := shadow_submit_index h hno hid
  refine ⟨⟨⟨hsa.inv, hsb.inv⟩, ⟨submit_indexed h.indexed.1 _ _, submit_indexed h.indexed.2 _ _⟩,
    ?_, ?_, shadow_submit_queue h hno, shadow_submit_here h hno, shadow_submit_only h hid,
    hindex, hown⟩, ?_⟩
  · rw [hsa.symbol, hsb.symbol, h.symbol]
  · rw [submit_fresh h.inv.1, submit_fresh h.inv.2, (shadow_remainder h hno).1]
    cases remainder a taker (walk taker taker.qty (a.queue (opposite taker.side))) with
    | none => exact ⟨hfresh, hk⟩
    | some n =>
      simp only [Option.map_some, Option.elim_some]
      omega
  · have hfills : (submit a taker []).2.2 = (submit b taker []).2.2 := by
      rw [hsa.fills, hsb.fills, shadow_walk h hno]
    have hfilled : (submit a taker []).2.1 = (submit b taker []).2.1 := by
      rw [← Int64.toInt_inj, hsa.filled, hsb.filled, shadow_walk h hno]
    exact Prod.ext hfilled hfills

end Submit

/-! ## The beginning -/

theorem walk_of_no_fills {taker : Order} {r : Qty} {ms : List Node}
    (h : (walk taker r ms).fills = []) : walk taker r ms = ⟨[], r, ms, []⟩ := by
  apply walk_of_stop
  intro m hm hgo
  obtain ⟨ms', rfl⟩ := List.head?_eq_some_iff.mp hm
  rw [walk, if_pos hgo] at h
  dsimp only at h
  split_ifs at h

theorem queue_lt_fresh {b : OrderBook} (h : b.Indexed) (side : Side) :
    ∀ n ∈ b.queue side, n.stamp < b.fresh := by
  intro n hn
  obtain ⟨price, hn⟩ := mem_queue.mp hn
  exact h.old side price n hn

/-- An order that rests without a fill is the one thing the submit adds. -/
theorem shadow_start {b : OrderBook} (hinv : b.Inv) (hidx : b.Indexed) {o : Order}
    (hlimit : o.type = .limit) (hqty : 0 < o.qty)
    (hnew : ∀ side, ∀ n ∈ b.queue side, n.order.id ≠ o.id)
    (hrest : (submit b o []).2.2 = []) : Shadow o b.fresh (submit b o []).1 b := by
  have hs := submit_spec hinv o []
  have hfresh := submit_fresh hinv o []
  have hfills := hs.fills
  rw [hrest, List.nil_append] at hfills
  rw [walk_of_no_fills hfills.symm] at hs hfresh
  have hrem : remainder b o ⟨[], o.qty, b.queue (opposite o.side), []⟩ = some ⟨b.fresh, o⟩ :=
    if_pos ⟨hqty, hlimit⟩
  have hown := hs.own
  have hindex := hs.index
  rw [hrem, Option.elim_some] at hown hindex hfresh
  have hold : ∀ side, without b.fresh (b.queue side) = b.queue side :=
    fun side => without_of_lt (queue_lt_fresh hidx side)
  refine ⟨⟨hs.inv, hinv⟩, ⟨submit_indexed hidx o [], hidx⟩, hs.symbol, ⟨hfresh, le_rfl⟩,
    fun side => ?_, ?_, fun side n hn => ?_, fun id hid => ?_, ?_, ?_⟩
  · rcases eq_or_opposite side o.side with rfl | rfl
    · have hself : (⟨b.fresh, o⟩ : Node).stamp = b.fresh := rfl
      rw [hown, enqueue, without_append, without_cons_self hself, ← without_append,
        List.takeWhile_append_dropWhile, hold]
    · rw [hs.makers, hold]
  · rw [hown]
    exact mem_enqueue.mpr (.inl rfl)
  · rcases submit_nodes hinv o [] hn with ⟨m, hm, heq⟩ | heq
    · have hlt := queue_lt_fresh hidx side m hm
      rw [heq]
      exact ⟨fun hst => absurd hst (Nat.ne_of_lt hlt), fun hid => absurd hid (hnew side m hm)⟩
    · rw [heq]
      exact ⟨fun _ => rfl, fun _ => rfl⟩
  · rw [hindex, Function.update_of_ne hid]
    simp only [forget, List.map_nil, List.not_mem_nil, if_false]
    cases hi : b.index id with
    | none => rfl
    | some loc =>
      obtain ⟨⟨m, hm, hst, -⟩, -⟩ := hidx.named hi
      have hlt := queue_lt_fresh hidx loc.side m hm
      rw [Option.map_some, renameLoc, closeUp, if_pos (hst ▸ hlt)]
  · rw [hindex, Function.update_self]
  · cases hi : b.index o.id with
    | none => rfl
    | some loc =>
      obtain ⟨⟨m, hm, -, hmid⟩, -⟩ := hidx.named hi
      exact absurd hmid (hnew _ m hm)

/-! ## The end -/

/-- The levels of a side as prices with their orders in time priority. -/
def levels (b : OrderBook) (side : Side) : OrdMap Price (List Order) :=
  (b.book side).mapVal (List.map Node.order)

/-- Where an index entry points: side, price and position in the level. -/
def place (b : OrderBook) (loc : Location) : Side × Price × Option Nat :=
  (loc.side, loc.price, (b.levelAt loc.side loc.price).findIdx? fun n => n.stamp = loc.it)

/-- Two books with the same content: the same levels, the same orders in the same
order in each, and an index with the same ids for the same places. The numbers of
the list nodes may differ. -/
structure SameBook (a b : OrderBook) : Prop where
  symbol : a.symbol = b.symbol
  levels : ∀ side, levels a side = levels b side
  index : ∀ id, (a.index id).map (place a) = (b.index id).map (place b)

theorem levelAt_eq_filter {b : OrderBook} (h : b.Inv) (side : Side) (price : Price) :
    b.levelAt side price = (b.queue side).filter fun n => n.order.price = price :=
  (level_eq_filter h side price).2

/-- The levels of a book that keeps none empty, in terms of its queue. -/
theorem find?_levels {b : OrderBook} (h : b.Inv) (side : Side) (price : Price) :
    (levels b side).find? price =
      if (b.levelAt side price).map Node.order = [] then none
      else some ((b.levelAt side price).map Node.order) := by
  obtain ⟨hne, -⟩ := level_eq_filter h side price
  rw [levels, OrdMap.find?_mapVal, levelAt]
  cases hf : (b.book side).find? price with
  | none => rfl
  | some lvl =>
    have hlvl : lvl ≠ [] := fun hnil => hne (by rw [hf, hnil])
    rw [Option.getD_some, if_neg (by simpa using hlvl)]
    rfl

theorem findIdx?_rename {k it : Nat} (hit : it ≠ k) {l : List Node} (h : ∀ n ∈ l, n.stamp ≠ k) :
    (l.map (renameNode k)).findIdx? (fun n => n.stamp = closeUp k it) =
      l.findIdx? fun n => n.stamp = it := by
  induction l with
  | nil => rfl
  | cons n l ih =>
    obtain ⟨hn, hl⟩ := List.forall_mem_cons.mp h
    simp only [List.map_cons, List.findIdx?_cons, ih hl, renameNode, closeUp_inj hn hit]

/-- Cancelling `o` takes the one extra node out. -/
theorem shadow_end {o : Order} {k : Nat} {a b : OrderBook} (h : Shadow o k a b) :
    (a.cancel o.id).2 = true ∧ SameBook (a.cancel o.id).1 b := by
  have hqueue : ∀ side, (a.cancel o.id).1.queue side = (a.queue side).filter fun n => n.stamp ≠ k :=
    h.indexed.1.queue_cancel h.own.1
  have hinv : (a.cancel o.id).1.Inv := h.inv.1.cancel o.id
  have hlevel : ∀ side price,
      b.levelAt side price = ((a.cancel o.id).1.levelAt side price).map (renameNode k) := by
    intro side price
    rw [levelAt_eq_filter hinv, levelAt_eq_filter h.inv.2, h.queue, without, ← hqueue,
      List.filter_map]
    rfl
  have hne : ∀ side price, ∀ n ∈ (a.cancel o.id).1.levelAt side price, n.stamp ≠ k := by
    intro side price n hn
    have hmem := mem_queue.mpr ⟨price, hn⟩
    rw [hqueue] at hmem
    simpa using (List.mem_filter.mp hmem).2
  refine ⟨by simp [OrderBook.cancel, h.own.1], ?_, fun side => OrdMap.ext_find? fun price => ?_,
    fun id => ?_⟩
  · simp only [OrderBook.cancel, h.own.1, setBook_symbol]
    exact h.symbol
  · have horders : (b.levelAt side price).map Node.order =
        ((a.cancel o.id).1.levelAt side price).map Node.order := by
      rw [hlevel, List.map_map]
      rfl
    rw [find?_levels hinv, find?_levels h.inv.2, horders]
  · have hindex : (a.cancel o.id).1.index = Function.update a.index o.id none := by
      simp only [OrderBook.cancel, h.own.1]
    by_cases hid : id = o.id
    · rw [hindex, hid, Function.update_self, h.own.2]
      rfl
    · rw [hindex, Function.update_of_ne hid, h.index id hid, Option.map_map]
      cases hi : a.index id with
      | none => rfl
      | some loc =>
        obtain ⟨⟨m, hm, hst, hmid⟩, -⟩ := h.indexed.1.named hi
        have hit : loc.it ≠ k := fun heq =>
          hid (hmid.symm.trans ((h.only _ m hm).mp (hst.trans heq)))
        have hpos := findIdx?_rename hit (hne loc.side loc.price)
        rw [← hlevel] at hpos
        exact congrArg (fun p => some (loc.side, loc.price, p)) hpos.symm

/-! ## The main theorem -/

/-- The calls of a run neither name `o` nor trade with it. -/
def Avoids (o : Order) (b : OrderBook) (ops : List Call) : Prop :=
  (∀ c ∈ ops, c.id ≠ o.id) ∧
    ∀ e ∈ trace step b ops, ∀ f ∈ e.output.fills, f.makerId ≠ o.id

theorem shadow_step {o : Order} {k : Nat} {a b : OrderBook} {c : Call}
    (hok : c.id ≠ o.id ∧ ∀ f ∈ (step a c).2.fills, f.makerId ≠ o.id) (h : Shadow o k a b) :
    Shadow o k (step a c).1 (step b c).1 ∧ (step a c).2 = (step b c).2 := by
  obtain ⟨hid, hno⟩ := hok
  cases c with
  | cancel id =>
    obtain ⟨hnext, hreply⟩ := shadow_cancel h hid
    exact ⟨hnext, congrArg Reply.cancelled hreply⟩
  | submit taker =>
    have hfills := (submit_spec h.inv.1 taker []).fills
    rw [List.nil_append] at hfills
    have hno' : ∀ f ∈ (walk taker taker.qty (a.queue (opposite taker.side))).fills,
        f.makerId ≠ o.id := by
      rw [← hfills]
      exact hno
    obtain ⟨hnext, hreply⟩ := shadow_submit h hno' hid
    refine ⟨hnext, ?_⟩
    simp only [step, hreply]

/-- **An order cancelled before it trades leaves no trace.** -/
theorem cancel_leaves_no_trace (symbol : Symbol) (calls ops : List Call) (o : Order)
    (hlimit : o.type = .limit) (hqty : 0 < o.qty)
    (hnew : ∀ side, ∀ n ∈ (exec step { symbol } calls).queue side, n.order.id ≠ o.id)
    (hrest : (step (exec step { symbol } calls) (.submit o)).2.fills = [])
    (hops : Avoids o (step (exec step { symbol } calls) (.submit o)).1 ops) :
    let e := exec step { symbol } calls
    let withO := (step e (.submit o)).1
    (trace step withO ops).map Event.output = (trace step e ops).map Event.output ∧
    (step (exec step withO ops) (.cancel o.id)).2 = .cancelled true ∧
    SameBook (step (exec step withO ops) (.cancel o.id)).1 (exec step e ops) := by
  intro e withO
  have hstart : Shadow o e.fresh withO e :=
    shadow_start (exec_inv symbol calls) (exec_indexed symbol calls) hlimit hqty hnew hrest
  have hok : ∀ ev ∈ trace step withO ops, ev.input.id ≠ o.id ∧
      ∀ f ∈ (step ev.pre ev.input).2.fills, f.makerId ≠ o.id := by
    intro ev hev
    refine ⟨hops.1 _ (input_mem_of_mem_trace step withO ops ev hev), ?_⟩
    have hfills := hops.2 ev hev
    rw [event_of_mem_trace step withO ops ev hev] at hfills
    exact hfills
  obtain ⟨hend, houts⟩ := lockstep step step
    (P := fun s c => c.id ≠ o.id ∧ ∀ f ∈ (step s c).2.fills, f.makerId ≠ o.id)
    (R := Shadow o e.fresh) (fun _ _ _ hc h => shadow_step hc h) withO e hstart ops hok
  obtain ⟨hfound, hsame⟩ := shadow_end hend
  exact ⟨houts, congrArg Reply.cancelled hfound, hsame⟩

/-- The order becomes the best bid, is outbid, sees its competitor traded away
and a cancel on the other side. -/
theorem cancel_leaves_no_trace_outbid :
    let e := exec step { symbol := 1 } [.submit ⟨1, 1, .sell, .limit, 105, 4⟩]
    let o : Order := ⟨9, 1, .buy, .limit, 100, 5⟩
    let withO := (step e (.submit o)).1
    let ops : List Call := [.submit ⟨2, 1, .buy, .limit, 101, 2⟩,
      .submit ⟨3, 1, .sell, .limit, 101, 1⟩, .cancel 1]
    Avoids o withO ops ∧
    (trace step withO ops).map Event.output = (trace step e ops).map Event.output ∧
    (step (exec step withO ops) (.cancel o.id)).2 = .cancelled true ∧
    SameBook (step (exec step withO ops) (.cancel o.id)).1 (exec step e ops) := by
  intro e o withO ops
  have hops : Avoids o withO ops := ⟨by decide, by decide⟩
  have hnew : ∀ side, ∀ n ∈ e.queue side, n.order.id ≠ o.id := by
    intro side
    cases side <;> decide
  exact ⟨hops, cancel_leaves_no_trace 1 _ ops o rfl (by decide) hnew (by decide) hops⟩

end Lloms.MatchingEngine
