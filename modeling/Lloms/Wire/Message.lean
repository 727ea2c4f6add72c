import Mathlib.Data.List.Basic
import Lloms.Order

/-! The wire format (`wire.hpp`, `wire.cpp`): big-endian loads, the message
types and their bodies, and the body checksum. A pointer into a byte buffer is
the list of bytes from there on, so `p.drop n` is `p + n`. -/
namespace Lloms.Wire

/-! ## Byte order -/

def loadBe16 (p : List UInt8) : UInt16 :=
  (p.getD 0 0).toUInt16 <<< 8 ||| (p.getD 1 0).toUInt16

def loadBe32 (p : List UInt8) : UInt32 :=
  (p.getD 0 0).toUInt32 <<< 24 ||| (p.getD 1 0).toUInt32 <<< 16 |||
    (p.getD 2 0).toUInt32 <<< 8 ||| (p.getD 3 0).toUInt32

def loadBe64 (p : List UInt8) : UInt64 :=
  (List.range 8).foldl (fun v i => v <<< 8 ||| (p.getD i 0).toUInt64) 0

def loadBeI64 (p : List UInt8) : Int64 := (loadBe64 p).toInt64

/-! ## Messages -/

def kMagic : UInt16 := 0x4B58
def kVersion : UInt8 := 1
def kHeaderSize : Nat := 20

inductive MsgType where
  | heartbeat
  | trade
  | quote
  | newOrder
  | orderAck
  deriving DecidableEq, Repr

/-- The cast from the type byte; `none` for a value that no enumerator has. -/
def MsgType.ofByte (b : UInt8) : Option MsgType :=
  if b = 0 then some .heartbeat
  else if b = 1 then some .trade
  else if b = 2 then some .quote
  else if b = 3 then some .newOrder
  else if b = 4 then some .orderAck
  else none

structure Trade where
  symbol : Symbol
  price : Price
  qty : Qty
  tsNs : Int64
  deriving DecidableEq, Repr

structure Quote where
  symbol : Symbol
  bidPx : Price
  bidQty : Qty
  askPx : Price
  askQty : Qty
  tsNs : Int64
  deriving DecidableEq, Repr

structure NewOrder where
  clientOrderId : UInt64
  symbol : Symbol
  side : Side
  type : OrderType
  tif : UInt8
  price : Price
  qty : Qty
  deriving DecidableEq, Repr

/-- The status is an enumeration over a byte; the decoder casts any byte to it. -/
structure OrderAck where
  clientOrderId : UInt64
  exchangeOrderId : UInt64
  status : UInt8
  rejectReason : UInt8
  filledQty : Qty
  avgPx : Price
  deriving DecidableEq, Repr

/-- The tagged union of a message's bodies. -/
inductive Body where
  | heartbeat
  | trade (t : Trade)
  | quote (q : Quote)
  | newOrder (n : NewOrder)
  | orderAck (a : OrderAck)
  deriving DecidableEq, Repr

def Body.type : Body → MsgType
  | .heartbeat => .heartbeat
  | .trade _ => .trade
  | .quote _ => .quote
  | .newOrder _ => .newOrder
  | .orderAck _ => .orderAck

/-- A decoded message; `body.type` is its type. -/
structure Message where
  seq : UInt64
  gapBefore : UInt64
  body : Body
  deriving DecidableEq, Repr

def bodySizeFor : MsgType → Nat
  | .heartbeat => 0
  | .trade => 28
  | .quote => 44
  | .newOrder => 31
  | .orderAck => 34

def decodeBody (type : MsgType) (b : List UInt8) : Body :=
  match type with
  | .heartbeat => .heartbeat
  | .trade => .trade
      { symbol := loadBe32 b
        price := loadBeI64 (b.drop 4)
        qty := loadBeI64 (b.drop 12)
        tsNs := loadBeI64 (b.drop 20) }
  | .quote => .quote
      { symbol := loadBe32 b
        bidPx := loadBeI64 (b.drop 4)
        bidQty := loadBeI64 (b.drop 12)
        askPx := loadBeI64 (b.drop 20)
        askQty := loadBeI64 (b.drop 28)
        tsNs := loadBeI64 (b.drop 36) }
  | .newOrder => .newOrder
      { clientOrderId := loadBe64 b
        symbol := loadBe32 (b.drop 8)
        side := if b.getD 12 0 = 0 then .buy else .sell
        type := if b.getD 13 0 = 0 then .limit else .market
        tif := b.getD 14 0
        price := loadBeI64 (b.drop 15)
        qty := loadBeI64 (b.drop 23) }
  | .orderAck => .orderAck
      { clientOrderId := loadBe64 b
        exchangeOrderId := loadBe64 (b.drop 8)
        status := b.getD 16 0
        rejectReason := b.getD 17 0
        filledQty := loadBeI64 (b.drop 18)
        avgPx := loadBeI64 (b.drop 26) }

@[simp] theorem decodeBody_type (type : MsgType) (b : List UInt8) :
    (decodeBody type b).type = type := by cases type <;> rfl

/-! ## Checksum -/

/-- `(x & 0xff) + (x >> 8)`. -/
def fold8 (x : UInt32) : UInt32 := (x &&& (0xff : UInt32)) + (x >>> 8)

/-- The inner loop over one block. -/
def fletcherBlock (sums : UInt32 × UInt32) (block : List UInt8) : UInt32 × UInt32 :=
  block.foldl (fun s b => (s.1 + b.toUInt32, s.2 + (s.1 + b.toUInt32))) sums

/-- The outer loop, one block of at most 21 bytes a round; the length of the data
is enough fuel. -/
def fletcherLoop : Nat → UInt32 × UInt32 → List UInt8 → UInt32 × UInt32
  | 0, sums, _ => sums
  | fuel + 1, sums, data =>
    if data = [] then sums
    else
      let s := fletcherBlock sums (data.take 21)
      fletcherLoop fuel (fold8 s.1, fold8 s.2) (data.drop 21)

def fletcher16 (data : List UInt8) : UInt16 :=
  let s := fletcherLoop data.length (0xff, 0xff) data
  (fold8 s.2 <<< 8 ||| fold8 s.1).toUInt16

/-! ## Locality

A read that stays inside the bytes at hand does not see what follows them. -/

section Locality

variable {w : List UInt8} (t : List UInt8)

theorem getD_append {i : Nat} (h : i < w.length) : (w ++ t).getD i 0 = w.getD i 0 := by
  rw [List.getD_eq_getElem?_getD, List.getD_eq_getElem?_getD, List.getElem?_append_left h]

theorem loadBe16_append (h : 2 ≤ w.length) : loadBe16 (w ++ t) = loadBe16 w := by
  rw [loadBe16, loadBe16, getD_append t (by omega), getD_append t (by omega)]

theorem loadBe32_append (h : 4 ≤ w.length) : loadBe32 (w ++ t) = loadBe32 w := by
  rw [loadBe32, loadBe32, getD_append t (by omega), getD_append t (by omega),
    getD_append t (by omega), getD_append t (by omega)]

theorem loadBe64_append (h : 8 ≤ w.length) : loadBe64 (w ++ t) = loadBe64 w := by
  refine List.foldl_ext _ _ _ fun v i hi => ?_
  rw [getD_append t (by have := List.mem_range.mp hi; omega)]

theorem loadBeI64_append (h : 8 ≤ w.length) : loadBeI64 (w ++ t) = loadBeI64 w := by
  rw [loadBeI64, loadBeI64, loadBe64_append t h]

theorem loadBeI64_drop_append {n : Nat} (h : n + 8 ≤ w.length) :
    loadBeI64 ((w ++ t).drop n) = loadBeI64 (w.drop n) := by
  rw [List.drop_append_of_le_length (by omega), loadBeI64_append t (by simp; omega)]

/-- A body of full length is decoded from its own bytes. -/
theorem decodeBody_append (type : MsgType) (h : bodySizeFor type ≤ w.length) :
    decodeBody type (w ++ t) = decodeBody type w := by
  cases type with
  | heartbeat => rfl
  | trade =>
    have h' : 28 ≤ w.length := h
    simp only [decodeBody, loadBe32_append t (show 4 ≤ w.length by omega),
      loadBeI64_drop_append t (show 4 + 8 ≤ w.length by omega),
      loadBeI64_drop_append t (show 12 + 8 ≤ w.length by omega),
      loadBeI64_drop_append t (show 20 + 8 ≤ w.length by omega)]
  | quote =>
    have h' : 44 ≤ w.length := h
    simp only [decodeBody, loadBe32_append t (show 4 ≤ w.length by omega),
      loadBeI64_drop_append t (show 4 + 8 ≤ w.length by omega),
      loadBeI64_drop_append t (show 12 + 8 ≤ w.length by omega),
      loadBeI64_drop_append t (show 20 + 8 ≤ w.length by omega),
      loadBeI64_drop_append t (show 28 + 8 ≤ w.length by omega),
      loadBeI64_drop_append t (show 36 + 8 ≤ w.length by omega)]
  | newOrder =>
    have h' : 31 ≤ w.length := h
    have hsym : loadBe32 ((w ++ t).drop 8) = loadBe32 (w.drop 8) := by
      rw [List.drop_append_of_le_length (by omega), loadBe32_append t (by simp; omega)]
    simp only [decodeBody, loadBe64_append t (show 8 ≤ w.length by omega), hsym,
      getD_append t (show 12 < w.length by omega), getD_append t (show 13 < w.length by omega),
      getD_append t (show 14 < w.length by omega),
      loadBeI64_drop_append t (show 15 + 8 ≤ w.length by omega),
      loadBeI64_drop_append t (show 23 + 8 ≤ w.length by omega)]
  | orderAck =>
    have h' : 34 ≤ w.length := h
    have hid : loadBe64 ((w ++ t).drop 8) = loadBe64 (w.drop 8) := by
      rw [List.drop_append_of_le_length (by omega), loadBe64_append t (by simp; omega)]
    simp only [decodeBody, loadBe64_append t (show 8 ≤ w.length by omega), hid,
      getD_append t (show 16 < w.length by omega), getD_append t (show 17 < w.length by omega),
      loadBeI64_drop_append t (show 18 + 8 ≤ w.length by omega),
      loadBeI64_drop_append t (show 26 + 8 ≤ w.length by omega)]

end Locality

end Lloms.Wire
