import Mathlib.Data.List.Pairwise
import Lloms.Matching.Engine

/-! The id index of the book. Every operation rewrites one price level, so the
book is read here as a function from side and price to the orders there. An entry
of the index names a list node that is in the book; with ids used twice it need
not name every one. -/
namespace Lloms.OrderBook
open Lib

/-! ## The book by side and price -/

/-- The orders at one price, a missing level being empty. -/
def levelAt (b : OrderBook) (side : Side) (price : Price) : Level :=
  ((b.book side).find? price).getD []

theorem levelAt_of_ladder {b : OrderBook} {side : Side} {e : Price × Level}
    (h : e ∈ b.ladder side) : b.levelAt side e.1 = e.2 := by
  obtain ⟨pre, post, hent⟩ := List.append_of_mem ((b.mem_ladder side).mp h)
  rw [levelAt, OrdMap.find?_of_split hent]
  rfl

@[simp] theorem book_withIndex (b : OrderBook) (index : OrderId → Option Location) (fresh : Nat)
    (side : Side) : OrderBook.book { b with index, fresh } side = b.book side := by
  cases side <;> rfl

theorem find?_putLevel (m : OrdMap Price Level) (price p : Price) (lvl : Level) :
    ((putLevel m price lvl).find? p).getD [] = if p = price then lvl else (m.find? p).getD [] := by
  unfold putLevel
  split_ifs with hnil hp hp
  · rw [OrdMap.find?_erase, if_pos hp, hnil]
    rfl
  · rw [OrdMap.find?_erase, if_neg hp]
  · rw [OrdMap.find?_set, if_pos hp]
    rfl
  · rw [OrdMap.find?_set, if_neg hp]

/-- `b'` is `b` with the level at one side and price replaced. -/
def ReplacesLevel (b b' : OrderBook) (side : Side) (price : Price) (lvl : Level) : Prop :=
  ∀ s p, b'.levelAt s p = if s = side ∧ p = price then lvl else b.levelAt s p

theorem replacesLevel_of_book {b b' : OrderBook} {side : Side} {price : Price} {lvl : Level}
    (hside : ∀ p, ((b'.book side).find? p).getD [] =
      if p = price then lvl else ((b.book side).find? p).getD [])
    (hother : b'.book (opposite side) = b.book (opposite side)) :
    ReplacesLevel b b' side price lvl := by
  intro s p
  rcases eq_or_opposite s side with rfl | rfl
  · simpa [levelAt] using hside p
  · rw [levelAt, hother, if_neg fun h => opposite_ne side h.1]
    rfl

theorem add_replacesLevel (b : OrderBook) (order : Order) :
    ReplacesLevel b (b.add order) order.side order.price
      (b.levelAt order.side order.price ++ [⟨b.fresh, order⟩]) := by
  apply replacesLevel_of_book _ (b.book_add_opposite order)
  intro p
  rw [book_add, OrdMap.find?_set]
  split_ifs <;> rfl

theorem cancel_replacesLevel {b : OrderBook} {id : OrderId} {loc : Location}
    (h : b.index id = some loc) :
    ReplacesLevel b (b.cancel id).1 loc.side loc.price
      ((b.levelAt loc.side loc.price).eraseP fun n => n.stamp = loc.it) := by
  simp only [cancel, h]
  apply replacesLevel_of_book
  · intro p
    rw [book_withIndex, book_setBook, eraseAt, levelAt]
    cases hf : (b.book loc.side).find? loc.price with
    | none =>
      split_ifs with hp
      · rw [hp, hf]
        rfl
      · rfl
    | some lvl => exact find?_putLevel _ _ _ _
  · exact book_setBook_opposite b loc.side _

/-- `reduceFront` leaves an empty side alone; otherwise it rewrites the best
level, which loses its front or has it reduced. -/
theorem reduceFront_cases (b : OrderBook) (side : Side) (qty : Qty) :
    (b.reduceFront side qty).index = b.index ∧
      (∀ s p, (b.reduceFront side qty).levelAt s p = b.levelAt s p) ∨
    ∃ price front rest, b.levelAt side price = front :: rest ∧
      ((b.reduceFront side qty).index = Function.update b.index front.order.id none ∧
        ReplacesLevel b (b.reduceFront side qty) side price rest ∨
      ∃ left, (b.reduceFront side qty).index = b.index ∧
        ReplacesLevel b (b.reduceFront side qty) side price
          ({ front with order := { front.order with qty := left } } :: rest)) := by
  have hlevel : ∀ e, b.bestLevel side = some e → b.levelAt side e.1 = e.2 := by
    intro e hbest
    rw [bestLevel_eq] at hbest
    exact levelAt_of_ladder (List.mem_of_mem_head? hbest)
  unfold reduceFront
  cases hbest : b.bestLevel side with
  | none => exact .inl ⟨rfl, fun _ _ => rfl⟩
  | some e =>
    obtain ⟨price, lvl⟩ := e
    have hl : b.levelAt side price = lvl := hlevel _ hbest
    cases lvl with
    | nil =>
      refine .inl ⟨setBook_index _ _ _, fun s p => ?_⟩
      have hrep : ReplacesLevel b (b.setBook side ((b.book side).erase price)) side price [] := by
        apply replacesLevel_of_book _ (book_setBook_opposite b side _)
        intro p
        rw [book_setBook, OrdMap.find?_erase]
        split_ifs <;> rfl
      rw [show OrderBook.levelAt _ s p = _ from hrep s p]
      split_ifs with hsp
      · rw [hsp.1, hsp.2, hl]
      · rfl
    | cons front rest =>
      refine .inr ⟨price, front, rest, hl, ?_⟩
      dsimp only
      split_ifs with hleft
      · refine .inl ⟨rfl, replacesLevel_of_book (fun p => ?_) (book_setBook_opposite b side _)⟩
        rw [book_withIndex, book_setBook]
        exact find?_putLevel _ _ _ _
      · refine .inr ⟨front.order.qty - qty, setBook_index _ _ _,
          replacesLevel_of_book (fun p => ?_) (book_setBook_opposite b side _)⟩
        rw [book_setBook, OrdMap.find?_set]
        split_ifs <;> rfl

/-! ## The invariant -/

/-- Serial numbers are below the next one, go up along each level and are used
once in the book; an entry of the index names a node of the recorded level that
carries the entry's id. -/
structure Indexed (b : OrderBook) : Prop where
  old : ∀ side price, ∀ n ∈ b.levelAt side price, n.stamp < b.fresh
  arrival : ∀ side price, (b.levelAt side price).Pairwise fun n n' => n.stamp < n'.stamp
  home : ∀ side price side' price', ∀ n ∈ b.levelAt side price, ∀ n' ∈ b.levelAt side' price',
    n.stamp = n'.stamp → side = side' ∧ price = price'
  live : ∀ id loc, b.index id = some loc →
    ∃ n ∈ b.levelAt loc.side loc.price, n.stamp = loc.it ∧ n.order.id = id

theorem indexed_new (symbol : Symbol) : Indexed { symbol } := by
  have hnil : ∀ side price, OrderBook.levelAt { symbol } side price = [] := by
    intro side price
    cases side <;> rfl
  refine ⟨?_, ?_, ?_, ?_⟩
  · simp [hnil]
  · simp [hnil]
  · simp [hnil]
  · intro id loc h
    cases h

/-- What an index entry and a level need to know of a node. -/
def tag (n : Node) : Nat × OrderId := (n.stamp, n.order.id)

/-- In an indexed book a serial number identifies a node of a level. -/
theorem Indexed.node_eq {b : OrderBook} (h : b.Indexed) {side : Side} {price : Price} {n n' : Node}
    (hn : n ∈ b.levelAt side price) (hn' : n' ∈ b.levelAt side price)
    (hs : n.stamp = n'.stamp) : n = n' := by
  have : Std.Symm fun m m' : Node => m.stamp ≠ m'.stamp := ⟨fun _ _ h => h.symm⟩
  by_contra hne
  exact ((h.arrival side price).imp fun hlt => Nat.ne_of_lt hlt).forall hn hn' hne hs

/-- A level loses nodes or has one rewritten under the same tag, and every entry
that stays still finds its node. -/
theorem Indexed.shrink {b b' : OrderBook} (h : b.Indexed) {side : Side} {price : Price}
    {lvl : Level} (hlevel : ReplacesLevel b b' side price lvl) (hfresh : b'.fresh = b.fresh)
    (hsub : (lvl.map tag).Sublist ((b.levelAt side price).map tag))
    (hindex : ∀ id loc, b'.index id = some loc → b.index id = some loc ∧
      (loc.side = side → loc.price = price → ∃ n ∈ lvl, n.stamp = loc.it ∧ n.order.id = id)) :
    b'.Indexed := by
  -- every node of the new book has the stamp of a node of the old one in the same place
  have hback : ∀ s p, ∀ n ∈ b'.levelAt s p, ∃ m ∈ b.levelAt s p, m.stamp = n.stamp := by
    intro s p n hn
    rw [hlevel s p] at hn
    split_ifs at hn with hsp
    · obtain ⟨m, hm, hmn⟩ := List.mem_map.mp (hsub.subset (List.mem_map_of_mem hn))
      obtain ⟨rfl, rfl⟩ := hsp
      exact ⟨m, hm, congrArg Prod.fst hmn⟩
    · exact ⟨n, hn, rfl⟩
  refine ⟨fun s p n hn => ?_, fun s p => ?_, fun s p s' p' n hn n' hn' hst => ?_,
    fun id loc hid => ?_⟩
  · obtain ⟨m, hm, hmn⟩ := hback s p n hn
    rw [← hmn, hfresh]
    exact h.old s p m hm
  · rw [hlevel s p]
    split_ifs with hsp
    · obtain ⟨rfl, rfl⟩ := hsp
      have harr : ((b.levelAt s p).map tag).Pairwise fun t t' => t.1 < t'.1 :=
        List.pairwise_map.mpr (h.arrival s p)
      have hnew := harr.sublist hsub
      rwa [List.pairwise_map] at hnew
    · exact h.arrival s p
  · obtain ⟨m, hm, hmn⟩ := hback s p n hn
    obtain ⟨m', hm', hmn'⟩ := hback s' p' n' hn'
    exact h.home s p s' p' m hm m' hm' (by rw [hmn, hmn', hst])
  · obtain ⟨hold, hnew⟩ := hindex id loc hid
    rw [hlevel]
    split_ifs with hsp
    · exact hnew hsp.1 hsp.2
    · exact h.live id loc hold

theorem Indexed.add {b : OrderBook} (h : b.Indexed) (order : Order) : (b.add order).Indexed := by
  have hlevel := b.add_replacesLevel order
  have hfresh : (b.add order).fresh = b.fresh + 1 := rfl
  -- a node of the new book is an old one or the one just appended
  have hmem : ∀ s p, ∀ n ∈ (b.add order).levelAt s p, n ∈ b.levelAt s p ∨
      (n = ⟨b.fresh, order⟩ ∧ s = order.side ∧ p = order.price) := by
    intro s p n hn
    rw [hlevel s p] at hn
    split_ifs at hn with hsp
    · obtain ⟨rfl, rfl⟩ := hsp
      rcases List.mem_append.mp hn with hn | hn
      · exact .inl hn
      · exact .inr ⟨List.mem_singleton.mp hn, rfl, rfl⟩
    · exact .inl hn
  refine ⟨fun s p n hn => ?_, fun s p => ?_, fun s p s' p' n hn n' hn' hst => ?_,
    fun id loc hid => ?_⟩
  · rw [hfresh]
    rcases hmem s p n hn with hn | ⟨rfl, -⟩
    · exact Nat.lt_succ_of_lt (h.old s p n hn)
    · exact Nat.lt_succ_self _
  · rw [hlevel s p]
    split_ifs with hsp
    · obtain ⟨rfl, rfl⟩ := hsp
      refine List.pairwise_append.mpr ⟨h.arrival _ _, List.pairwise_singleton _ _, ?_⟩
      intro n hn n' hn'
      obtain rfl := List.mem_singleton.mp hn'
      exact h.old _ _ n hn
    · exact h.arrival s p
  · rcases hmem s p n hn with hn | ⟨rfl, rfl, rfl⟩
    · rcases hmem s' p' n' hn' with hn' | ⟨rfl, rfl, rfl⟩
      · exact h.home s p s' p' n hn n' hn' hst
      · exact absurd hst (Nat.ne_of_lt (h.old s p n hn))
    · rcases hmem s' p' n' hn' with hn' | ⟨rfl, rfl, rfl⟩
      · exact absurd hst.symm (Nat.ne_of_lt (h.old s' p' n' hn'))
      · exact ⟨rfl, rfl⟩
  · rw [show (b.add order).index = Function.update b.index order.id _ from rfl,
      Function.update_apply] at hid
    split_ifs at hid with heq
    · obtain rfl := Option.some.inj hid
      refine ⟨⟨b.fresh, order⟩, ?_, rfl, heq.symm⟩
      rw [hlevel, if_pos ⟨rfl, rfl⟩]
      exact List.mem_append_right _ (List.mem_singleton_self _)
    · obtain ⟨n, hn, hst, hnid⟩ := h.live id loc hid
      refine ⟨n, ?_, hst, hnid⟩
      rw [hlevel]
      split_ifs with hsp
      · rw [← hsp.1, ← hsp.2]
        exact List.mem_append_left _ hn
      · exact hn

theorem Indexed.cancel {b : OrderBook} (h : b.Indexed) (id : OrderId) :
    (b.cancel id).1.Indexed := by
  cases hi : b.index id with
  | none =>
    simp only [OrderBook.cancel, hi]
    exact h
  | some loc =>
    obtain ⟨m, hm, hst, hid⟩ := h.live id loc hi
    refine h.shrink (cancel_replacesLevel hi) (by simp [OrderBook.cancel, hi])
      (List.eraseP_sublist.map _) fun id' loc' hid' => ?_
    simp only [OrderBook.cancel, hi, Function.update_apply] at hid'
    split_ifs at hid' with heq
    refine ⟨hid', fun hside hprice => ?_⟩
    obtain ⟨n, hn, hnst, hnid⟩ := h.live id' loc' hid'
    refine ⟨n, (List.mem_eraseP_of_neg ?_).mpr (hside ▸ hprice ▸ hn), hnst, hnid⟩
    intro hcon
    have : n = m := h.node_eq (hside ▸ hprice ▸ hn) hm (by simpa [hst] using hcon)
    exact heq (by rw [← hnid, this, hid])

theorem Indexed.reduceFront {b : OrderBook} (h : b.Indexed) (side : Side) (qty : Qty) :
    (b.reduceFront side qty).Indexed := by
  have hfresh : (b.reduceFront side qty).fresh = b.fresh := by
    unfold OrderBook.reduceFront
    split
    · rfl
    · simp
    · dsimp only
      split_ifs <;> simp
  rcases b.reduceFront_cases side qty with ⟨hindex, hlevel⟩ |
    ⟨price, front, rest, hl, ⟨hindex, hlevel⟩ | ⟨left, hindex, hlevel⟩⟩
  · obtain ⟨h1, h2, h3, h4⟩ := h
    refine ⟨?_, ?_, ?_, ?_⟩
    · simpa only [hlevel, hfresh] using h1
    · simpa only [hlevel] using h2
    · simpa only [hlevel] using h3
    · simpa only [hlevel, hindex] using h4
  · refine h.shrink hlevel hfresh (by rw [hl]; exact (List.sublist_cons_self _ _).map _) ?_
    intro id loc hid
    rw [hindex, Function.update_apply] at hid
    split_ifs at hid with heq
    refine ⟨hid, fun hside hprice => ?_⟩
    obtain ⟨n, hn, hst, hnid⟩ := h.live id loc hid
    rw [hside, hprice, hl] at hn
    rcases List.mem_cons.mp hn with rfl | hn
    · exact absurd hnid.symm heq
    · exact ⟨n, hn, hst, hnid⟩
  · refine h.shrink hlevel hfresh (by rw [hl]; exact List.Sublist.refl _) ?_
    intro id loc hid
    rw [hindex] at hid
    refine ⟨hid, fun hside hprice => ?_⟩
    obtain ⟨n, hn, hst, hnid⟩ := h.live id loc hid
    rw [hside, hprice, hl] at hn
    rcases List.mem_cons.mp hn with rfl | hn
    · exact ⟨_, List.mem_cons_self, hst, hnid⟩
    · exact ⟨n, List.mem_cons_of_mem _ hn, hst, hnid⟩

/-! ## Cancelling in the queue -/

/-- A level stands in the queue as one block, and rewriting it rewrites the
block. -/
theorem queue_block {b : OrderBook} {side : Side} {price : Price} {lvl : Level}
    (h : (b.book side).find? price = some lvl) :
    ∃ front back, b.queue side = front ++ (lvl ++ back) ∧
      (∀ n ∈ front ++ back, ∃ p, p ≠ price ∧ n ∈ b.levelAt side p) ∧
      ∀ lvl', (ranked side (putLevel (b.book side) price lvl')).flatMap Prod.snd =
        front ++ (lvl' ++ back) := by
  obtain ⟨front, back, hold, -, hfront, hback⟩ := ranked_set side (b.book side) price []
  rw [h, Option.map_some, Option.toList_some, List.singleton_append] at hold
  refine ⟨front.flatMap Prod.snd, back.flatMap Prod.snd, ?_, ?_, ranked_putLevel hold⟩
  · rw [queue, ladder, hold, List.flatMap_append, List.flatMap_cons]
  · intro n hn
    rw [← List.flatMap_append] at hn
    obtain ⟨e, he, hne⟩ := List.mem_flatMap.mp hn
    refine ⟨e.1, fun heq => ?_, ?_⟩
    · rcases List.mem_append.mp he with he | he
      · exact hfront e he (heq ▸ notWorse_refl _ _)
      · exact hback e he (heq ▸ notWorse_refl _ _)
    · have hmem : e ∈ b.ladder side := by
        rw [ladder, hold]
        rcases List.mem_append.mp he with he | he
        · exact List.mem_append_left _ he
        · exact List.mem_append_right _ (List.mem_cons_of_mem _ he)
      rw [levelAt_of_ladder hmem]
      exact hne

theorem mem_queue {b : OrderBook} {side : Side} {n : Node} :
    n ∈ b.queue side ↔ ∃ price, n ∈ b.levelAt side price := by
  constructor
  · intro hn
    obtain ⟨e, he, hne⟩ := List.mem_flatMap.mp hn
    refine ⟨e.1, ?_⟩
    rw [levelAt_of_ladder he]
    exact hne
  · rintro ⟨price, hn⟩
    cases hf : (b.book side).find? price with
    | none => simp [levelAt, hf] at hn
    | some lvl =>
      obtain ⟨front, back, hq, -, -⟩ := queue_block hf
      rw [levelAt, hf] at hn
      rw [hq]
      exact List.mem_append_right _ (List.mem_append_left _ hn)

/-- An entry names a resting node, and only that one. -/
theorem Indexed.named {b : OrderBook} (h : b.Indexed) {id : OrderId} {loc : Location}
    (hi : b.index id = some loc) :
    (∃ m ∈ b.queue loc.side, m.stamp = loc.it ∧ m.order.id = id) ∧
    ∀ side, ∀ n ∈ b.queue side, n.stamp = loc.it → n.order.id = id := by
  obtain ⟨m, hm, hst, hid⟩ := h.live id loc hi
  refine ⟨⟨m, mem_queue.mpr ⟨_, hm⟩, hst, hid⟩, fun side n hn hit => ?_⟩
  obtain ⟨price, hn⟩ := mem_queue.mp hn
  obtain ⟨rfl, rfl⟩ := h.home _ _ _ _ n hn m hm (hit.trans hst.symm)
  rw [h.node_eq hn hm (hit.trans hst.symm)]
  exact hid

theorem Indexed.eraseP_eq_filter {b : OrderBook} (h : b.Indexed) (side : Side) (price : Price)
    (it : Nat) : (b.levelAt side price).eraseP (fun n => n.stamp = it) =
      (b.levelAt side price).filter fun n => n.stamp ≠ it := by
  have harr := h.arrival side price
  generalize b.levelAt side price = lvl at harr
  induction lvl with
  | nil => rfl
  | cons n ns ih =>
    obtain ⟨hn, hns⟩ := List.pairwise_cons.mp harr
    by_cases hit : n.stamp = it
    · rw [List.eraseP_cons_of_pos (by simpa using hit), List.filter_cons_of_neg (by simpa using hit)]
      refine (List.filter_eq_self.mpr fun m hm => ?_).symm
      simpa [← hit] using Nat.ne_of_gt (hn m hm)
    · rw [List.eraseP_cons_of_neg (by simpa using hit), List.filter_cons_of_pos (by simpa using hit),
        ih hns]

/-- `cancel` takes the one node out that the index names, on whichever side. -/
theorem Indexed.queue_cancel {b : OrderBook} (h : b.Indexed) {id : OrderId} {loc : Location}
    (hi : b.index id = some loc) (side : Side) :
    (b.cancel id).1.queue side = (b.queue side).filter fun n => n.stamp ≠ loc.it := by
  obtain ⟨m, hm, hst, -⟩ := h.live id loc hi
  have hkeep : ∀ s p, (s ≠ loc.side ∨ p ≠ loc.price) → ∀ n ∈ b.levelAt s p,
      decide (n.stamp ≠ loc.it) = true := by
    intro s p hne n hn
    refine decide_eq_true fun hcon => ?_
    obtain ⟨h1, h2⟩ := h.home s p _ _ n hn m hm (hcon.trans hst.symm)
    exact hne.elim (fun hs => hs h1) fun hp => hp h2
  simp only [OrderBook.cancel, hi]
  rcases eq_or_opposite side loc.side with rfl | rfl
  · cases hf : (b.book loc.side).find? loc.price with
    | none => simp [levelAt, hf] at hm
    | some lvl =>
      obtain ⟨front, back, hq, hout, hput⟩ := queue_block hf
      have hlvl : b.levelAt loc.side loc.price = lvl := by rw [levelAt, hf]; rfl
      have hfilter := h.eraseP_eq_filter loc.side loc.price loc.it
      rw [hlvl] at hfilter
      have hstay : ∀ n ∈ front ++ back, decide (n.stamp ≠ loc.it) = true := by
        intro n hn
        obtain ⟨p, hp, hn⟩ := hout n hn
        exact hkeep _ p (.inr hp) n hn
      rw [queue, ladder, book_withIndex, book_setBook, eraseAt, hf]
      dsimp only
      rw [hput, hq, List.filter_append, List.filter_append, hfilter,
        List.filter_eq_self.mpr fun n hn => hstay n (List.mem_append_left _ hn),
        List.filter_eq_self.mpr fun n hn => hstay n (List.mem_append_right _ hn)]
  · rw [queue, ladder, book_withIndex, book_setBook_opposite]
    refine (List.filter_eq_self.mpr fun n hn => ?_).symm
    obtain ⟨p, hn⟩ := mem_queue.mp hn
    exact hkeep _ p (.inl (opposite_ne _)) n hn

end Lloms.OrderBook

namespace Lloms.MatchingEngine
open Lib OrderBook

/-! ## The engine keeps the index -/

theorem sweepStep_indexed {s s' : Sweep} (h : s.book.Indexed) (hs : sweepStep s = some s') :
    s'.book.Indexed := by
  obtain ⟨px, maker, -, rfl⟩ := sweepStep_eq_some hs
  exact h.reduceFront _ _

theorem sweep_indexed (fuel : Nat) (s : Sweep) (h : s.book.Indexed) :
    (sweep fuel s).book.Indexed := by
  induction fuel generalizing s with
  | zero => exact h
  | succ fuel ih =>
    rw [sweep]
    cases hs : sweepStep s with
    | none => exact h
    | some s' => exact ih s' (sweepStep_indexed h hs)

theorem submit_indexed {b : OrderBook} (h : b.Indexed) (taker : Order) (out : List Fill) :
    (submit b taker out).1.Indexed := by
  unfold submit
  have hs := sweep_indexed (b.queue (opposite taker.side)).length ⟨b, taker, 0, out⟩ h
  dsimp only
  split_ifs
  · exact hs.add _
  · exact hs

theorem step_indexed {b : OrderBook} (h : b.Indexed) (c : Call) : (step b c).1.Indexed := by
  cases c with
  | submit taker => exact submit_indexed h taker []
  | cancel id => exact h.cancel id

theorem exec_indexed (symbol : Symbol) (calls : List Call) : (exec step { symbol } calls).Indexed :=
  exec_induction step (I := Indexed) (fun _ c h => step_indexed h c) _ (indexed_new symbol) calls

end Lloms.MatchingEngine
