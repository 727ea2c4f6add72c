import Lloms.Lib.Machine
import Lloms.Order

/-! The pre-trade risk gate (`risk_gate.cpp`). `check` is computed in `int64_t`,
with the two's complement wrap of the targets the library is built for: the sum
of position and quantity, `llabs` and the two collar bounds can all leave the
range. `Within` is what an accepted order promises over the integers, and
`runSafe_iff_unharmed` says exactly which runs keep the promise. -/
namespace Lloms.RiskGate
open Lib

structure RiskLimits where
  maxOrderQty : Qty := 0
  maxPosition : Qty := 0
  referencePrice : Price := 0
  priceBand : Price := 0
  deriving DecidableEq, Repr

inductive RiskDecision where
  | accept
  | rejectInvalid
  | rejectOrderTooLarge
  | rejectPositionBreach
  | rejectPriceOutOfBand
  deriving DecidableEq, Repr

def signedQty (order : Order) : Qty :=
  if order.side = .buy then order.qty else -order.qty

def check (limits : RiskLimits) (order : Order) (currentPosition : Qty) : RiskDecision :=
  if order.qty ≤ 0 then .rejectInvalid
  else if limits.maxOrderQty > 0 ∧ order.qty > limits.maxOrderQty then .rejectOrderTooLarge
  else
    let resulting := currentPosition + signedQty order
    if limits.maxPosition > 0 ∧ resulting.abs > limits.maxPosition then .rejectPositionBreach
    else if order.type = .limit ∧ limits.priceBand > 0 then
      let lo := limits.referencePrice - limits.priceBand
      let hi := limits.referencePrice + limits.priceBand
      if order.price < lo ∨ order.price > hi then .rejectPriceOutOfBand else .accept
    else .accept

/-- The caller's loop: an order is checked against the running net position and
an accepted one is added to it. -/
def step (limits : RiskLimits) (position : Qty) (order : Order) : Qty × RiskDecision :=
  match check limits order position with
  | .accept => (position + signedQty order, .accept)
  | d => (position, d)

/-- The signed quantity as a mathematical integer. -/
def signed (order : Order) : Int :=
  if order.side = .buy then order.qty.toInt else -order.qty.toInt

/-- What acceptance promises about an order met at net position `position`, over
the integers. A limit that is not positive is switched off. -/
structure Within (limits : RiskLimits) (position : Qty) (order : Order) : Prop where
  qty_pos : 0 < order.qty.toInt
  size : 0 < limits.maxOrderQty.toInt → order.qty.toInt ≤ limits.maxOrderQty.toInt
  position : 0 < limits.maxPosition.toInt →
    |position.toInt + signed order| ≤ limits.maxPosition.toInt
  collar : order.type = .limit → 0 < limits.priceBand.toInt →
    limits.referencePrice.toInt - limits.priceBand.toInt ≤ order.price.toInt ∧
      order.price.toInt ≤ limits.referencePrice.toInt + limits.priceBand.toInt

/-- The order is refused whatever the net position is: by its quantity, by its
size, or by a collar that it misses or that does not fit in 64 bits. -/
def RefusedAnyway (limits : RiskLimits) (order : Order) : Prop :=
  order.qty.toInt ≤ 0 ∨
  (0 < limits.maxOrderQty.toInt ∧ limits.maxOrderQty.toInt < order.qty.toInt) ∨
  (order.type = .limit ∧ 0 < limits.priceBand.toInt ∧
    (limits.referencePrice.toInt - limits.priceBand.toInt < -2 ^ 63 ∨
     2 ^ 63 ≤ limits.referencePrice.toInt + limits.priceBand.toInt ∨
     order.price.toInt < limits.referencePrice.toInt - limits.priceBand.toInt ∨
     limits.referencePrice.toInt + limits.priceBand.toInt < order.price.toInt))

/-- The position test sees a sum that wrapped back inside the limit, or the one
value whose `llabs` is negative. -/
def WrapsInside (limits : RiskLimits) (position : Qty) (order : Order) : Prop :=
  0 < limits.maxPosition.toInt ∧
    (|position.toInt + signed order| = 2 ^ 63 ∨
     2 ^ 64 ≤ |position.toInt + signed order| + limits.maxPosition.toInt)

/-- The step does not meet the overflow: the true sum is one the position test
gets right, or another test refuses the order. -/
def Unharmed (limits : RiskLimits) (position : Qty) (order : Order) : Prop :=
  WrapsInside limits position order → RefusedAnyway limits order

theorem signedQty_toInt (order : Order) (h : 0 < order.qty.toInt) :
    (signedQty order).toInt = signed order := by
  unfold signedQty signed
  split
  · rfl
  · exact toInt_neg_of_pos _ h

theorem abs_signed (order : Order) (h : 0 < order.qty.toInt) :
    |signed order| = order.qty.toInt := by
  unfold signed
  split
  · exact abs_of_pos h
  · rw [abs_neg, abs_of_pos h]

/-- The position test, over the integers: it lets through the limit itself and
the sums that wrapped inside it. -/
theorem position_test (position : Qty) (order : Order) (limit : Qty)
    (hq : 0 < order.qty.toInt) (hl : 0 < limit.toInt) :
    ¬ (position + signedQty order).abs > limit ↔
      |position.toInt + signed order| ≤ limit.toInt ∨
      |position.toInt + signed order| = 2 ^ 63 ∨
      2 ^ 64 ≤ |position.toInt + signed order| + limit.toInt := by
  have hp := toInt_range position
  have hm := toInt_range limit
  have hn := toInt_range order.qty
  have hs := abs_signed order hq
  have hsum := toInt_add_cases position (signedQty order)
  rw [signedQty_toInt order hq] at hsum
  rw [gt_iff_lt, Int64.lt_iff_toInt_lt, toInt_abs, hsum]
  simp only [Int.abs_eq_natAbs] at hs ⊢
  split_ifs <;> omega

/-- The collar test: a bound that wrapped ends up on the far side of the other
one, so an overflowing collar refuses every price. -/
theorem collar_test (reference band price : Price) (hb : 0 < band.toInt) :
    ¬ (price < reference - band ∨ price > reference + band) ↔
      (-2 ^ 63 ≤ reference.toInt - band.toInt ∧ reference.toInt + band.toInt < 2 ^ 63) ∧
      reference.toInt - band.toInt ≤ price.toInt ∧
      price.toInt ≤ reference.toInt + band.toInt := by
  have hr := toInt_range reference
  have hn := toInt_range band
  have hp := toInt_range price
  rw [gt_iff_lt, Int64.lt_iff_toInt_lt, Int64.lt_iff_toInt_lt, toInt_add_cases, toInt_sub_cases]
  split_ifs <;> omega

/-- Acceptance is the conjunction of the four tests. -/
theorem check_accept_iff (limits : RiskLimits) (order : Order) (position : Qty) :
    check limits order position = .accept ↔
      0 < order.qty.toInt ∧
      (0 < limits.maxOrderQty.toInt → order.qty.toInt ≤ limits.maxOrderQty.toInt) ∧
      (0 < limits.maxPosition.toInt → ¬ (position + signedQty order).abs > limits.maxPosition) ∧
      (order.type = .limit → 0 < limits.priceBand.toInt →
        ¬ (order.price < limits.referencePrice - limits.priceBand ∨
          order.price > limits.referencePrice + limits.priceBand)) := by
  have hq : order.qty ≤ 0 ↔ ¬ 0 < order.qty.toInt := by
    rw [Int64.le_iff_toInt_le, Int64.toInt_zero, not_lt]
  have hs : order.qty > limits.maxOrderQty ↔ ¬ order.qty.toInt ≤ limits.maxOrderQty.toInt := by
    rw [gt_iff_lt, Int64.lt_iff_toInt_lt, not_le]
  unfold check
  simp only [hq, hs, gt_iff_lt, pos_iff_toInt]
  split_ifs <;> simp_all

/-- One step keeps the promise exactly when it does not meet the overflow. -/
theorem check_sound_iff (limits : RiskLimits) (order : Order) (position : Qty) :
    (check limits order position = .accept → Within limits position order) ↔
      Unharmed limits position order := by
  rw [check_accept_iff]
  constructor
  · rintro h ⟨hl, hw⟩
    by_contra hn
    simp only [RefusedAnyway, not_or, not_and, not_lt] at hn
    obtain ⟨hq, hsize, hcollar⟩ := hn
    have hq : 0 < order.qty.toInt := by omega
    have hin := h ⟨hq, hsize, fun _ => (position_test position order _ hq hl).mpr (.inr hw),
      fun ht hb => (collar_test _ _ _ hb).mpr (by have := hcollar ht hb; omega)⟩
    have hp := hin.position hl
    have hm := toInt_range limits.maxPosition
    omega
  · rintro h ⟨hq, hsize, hpos, hcollar⟩
    refine ⟨hq, hsize, fun hl => ?_, fun ht hb => ((collar_test _ _ _ hb).mp (hcollar ht hb)).2⟩
    rcases (position_test position order _ hq hl).mp (hpos hl) with hin | hw
    · exact hin
    · rcases h ⟨hl, hw⟩ with h1 | h2 | ⟨ht, hb, h3⟩
      · omega
      · have := hsize h2.1
        omega
      · have := (collar_test _ _ _ hb).mp (hcollar ht hb)
        omega

theorem step_accept (limits : RiskLimits) (position : Qty) (order : Order)
    (h : check limits order position = .accept) :
    step limits position order = (position + signedQty order, .accept) := by
  simp [step, h]

theorem step_output (limits : RiskLimits) (position : Qty) (order : Order) :
    (step limits position order).2 = check limits order position := by
  unfold step
  split <;> simp_all

/-- The gate's law over a run that starts at `start`: every accepted order is
within the limits, and with a position limit the net position never leaves it
after an accepted order. -/
def RunSafe (limits : RiskLimits) (start : Qty) (orders : List Order) : Prop :=
  (∀ e ∈ trace (step limits) start orders,
    e.output = .accept → Within limits e.pre e.input) ∧
  (0 < limits.maxPosition.toInt → ∀ e ∈ trace (step limits) start orders,
    e.output = .accept → |e.post.toInt| ≤ limits.maxPosition.toInt)

/-- An accepted order within the limits is added without wrapping. -/
theorem post_within (limits : RiskLimits) (position : Qty) (order : Order)
    (hl : 0 < limits.maxPosition.toInt) (hw : Within limits position order) :
    |(position + signedQty order).toInt| ≤ limits.maxPosition.toInt := by
  have hp := hw.position hl
  have hm := toInt_range limits.maxPosition
  have hsum := toInt_add_cases position (signedQty order)
  rw [signedQty_toInt order hw.qty_pos] at hsum
  simp only [Int.abs_eq_natAbs] at hp ⊢
  split_ifs at hsum <;> omega

/-- **The gate is exact up to overflow.** A run keeps the limits exactly when
none of its steps meets a sum that wrapped inside the position limit. -/
theorem runSafe_iff_unharmed (limits : RiskLimits) (start : Qty) (orders : List Order) :
    RunSafe limits start orders ↔
      ∀ e ∈ trace (step limits) start orders, Unharmed limits e.pre e.input := by
  constructor
  · rintro ⟨h, -⟩ e he
    rw [← check_sound_iff]
    intro ha
    apply h e he
    rw [event_of_mem_trace _ _ _ e he, event_output, step_output, ha]
  · intro h
    have hw : ∀ e ∈ trace (step limits) start orders,
        e.output = .accept → Within limits e.pre e.input := by
      intro e he ha
      rw [event_of_mem_trace _ _ _ e he, event_output, step_output] at ha
      exact (check_sound_iff _ _ _).mpr (h e he) ha
    refine ⟨hw, fun hl e he ha => ?_⟩
    have hin := hw e he ha
    have hev := event_of_mem_trace _ _ _ e he
    rw [hev, event_output, step_output] at ha
    rw [hev, event_post, step_accept _ _ _ ha]
    exact post_within limits e.pre e.input hl hin

/-- With a position limit of one, one unit long, the gate accepts a buy of
`2 ^ 63 - 1`. -/
theorem position_limit_overrun :
    ¬ RunSafe { maxPosition := 1 } 0
      [{ side := .buy, type := .market, qty := 1 },
       { side := .buy, type := .market, qty := 9223372036854775807 }] := by
  rintro ⟨h, -⟩
  have hin := h _ (List.mem_cons_of_mem _ (List.mem_singleton_self _)) (by decide)
  have hp := hin.position (by decide)
  revert hp
  decide

end Lloms.RiskGate
