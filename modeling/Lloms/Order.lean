import Lloms.Lib.MachineInt

/-! Core value types of the matching core (`order.hpp`). Prices and quantities
are integer ticks and base units in `int64_t`. -/
namespace Lloms

inductive Side where
  | buy
  | sell
  deriving DecidableEq, Repr

/-- `Type` in the source. -/
inductive OrderType where
  | limit
  | market
  deriving DecidableEq, Repr

abbrev OrderId := UInt64
abbrev Symbol := UInt32
abbrev Price := Int64
abbrev Qty := Int64

def opposite : Side → Side
  | .buy => .sell
  | .sell => .buy

@[simp] theorem opposite_opposite (s : Side) : opposite (opposite s) = s := by cases s <;> rfl

theorem eq_or_opposite (s t : Side) : s = t ∨ s = opposite t := by cases s <;> cases t <;> simp [opposite]

theorem opposite_ne (s : Side) : opposite s ≠ s := by cases s <;> simp [opposite]

structure Order where
  id : OrderId := 0
  symbol : Symbol := 0
  side : Side := .buy
  type : OrderType := .limit
  price : Price := 0
  qty : Qty := 0
  deriving DecidableEq, Repr

structure Fill where
  takerId : OrderId
  makerId : OrderId
  symbol : Symbol
  price : Price
  qty : Qty
  deriving DecidableEq, Repr

end Lloms
