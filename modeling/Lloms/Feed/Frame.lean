import Lloms.Lib.Bytes
import Lloms.Order

/-! The 24-byte frame between the load client and the feed handlers: the struct
the client sends as it lies in memory (`bench_feed_client.cpp`), and the `decode`
of the receiving side (`feed_handler_linux.cpp`). Both run on the same
little-endian hosts. -/
namespace Lloms.Feed
open Lib

structure Frame where
  symbol : UInt32 := 0
  side : UInt8 := 0
  type : UInt8 := 0
  pad : UInt16 := 0
  price : Int64 := 0
  qty : Int64 := 0
  deriving DecidableEq, Repr

/-- The frame as it lies in memory. -/
def Frame.bytes (f : Frame) : List UInt8 :=
  toLe 4 f.symbol.toNat ++ (f.side :: f.type :: (toLe 2 f.pad.toNat ++
    (toLe 8 f.price.toUInt64.toNat ++ toLe 8 f.qty.toUInt64.toNat)))

def kFrameSize : Nat := 24

theorem Frame.length_bytes (f : Frame) : f.bytes.length = kFrameSize := by
  simp [bytes, kFrameSize]

/-- `n` bytes copied from `off` on, as a number. -/
def memcpy (buf : List UInt8) (off n : Nat) : Nat := ofLe ((buf.drop off).take n)

def decode (buf : List UInt8) : Order :=
  let side := buf.getD 4 0
  let type := buf.getD 5 0
  { symbol := UInt32.ofNat (memcpy buf 0 4)
    side := if side = 0 then .buy else .sell
    type := if type = 0 then .limit else .market
    price := (UInt64.ofNat (memcpy buf 8 8)).toInt64
    qty := (UInt64.ofNat (memcpy buf 16 8)).toInt64 }

/-- The bytes of a frame decode to its own fields. -/
theorem decode_bytes (f : Frame) :
    decode f.bytes =
      { symbol := f.symbol
        side := if f.side = 0 then .buy else .sell
        type := if f.type = 0 then .limit else .market
        price := f.price
        qty := f.qty } := by
  have hsym : memcpy f.bytes 0 4 = f.symbol.toNat := by
    rw [memcpy, Frame.bytes, List.drop_zero, List.take_append_of_le_length (by simp),
      List.take_of_length_le (by simp), ofLe_toLe _ _ f.symbol.toNat_lt]
  have hprice : memcpy f.bytes 8 8 = f.price.toUInt64.toNat := by
    have hdrop : f.bytes.drop 8 =
        toLe 8 f.price.toUInt64.toNat ++ toLe 8 f.qty.toUInt64.toNat := by
      simp [Frame.bytes, List.drop_append]
    rw [memcpy, hdrop, List.take_append_of_le_length (by simp),
      List.take_of_length_le (by simp), ofLe_toLe _ _ f.price.toUInt64.toNat_lt]
  have hqty : memcpy f.bytes 16 8 = f.qty.toUInt64.toNat := by
    have hdrop : f.bytes.drop 16 = toLe 8 f.qty.toUInt64.toNat := by
      simp [Frame.bytes, List.drop_append, List.drop_of_length_le]
    rw [memcpy, hdrop, List.take_of_length_le (by simp), ofLe_toLe _ _ f.qty.toUInt64.toNat_lt]
  have hside : f.bytes.getD 4 0 = f.side := by
    simp [Frame.bytes, List.getD_eq_getElem?_getD]
  have htype : f.bytes.getD 5 0 = f.type := by
    simp [Frame.bytes, List.getD_eq_getElem?_getD]
  simp only [decode, hsym, hprice, hqty, hside, htype, UInt32.ofNat_toNat, UInt64.ofNat_toNat,
    Int64.toInt64_toUInt64]

/-! ## The load client -/

def makeFrame (i : UInt64) : Frame :=
  { symbol := 1
    side := if i % 2 = 0 then 1 else 0
    type := 0
    pad := 0
    price := 100 + (i / 2 % 32).toInt64
    qty := 1 }

/-- The order a feed handler decodes from the `k`-th frame of a connection. -/
def loadOrder (k : Nat) : Order := decode (makeFrame (UInt64.ofNat k)).bytes

/-- The price of the `k`-th frame. -/
def loadPrice (k : Nat) : Int := 100 + (k / 2 % 32 : Nat)

/-- Even frames sell and odd frames buy one unit, limit, at the same price in
pairs. The 64-bit index wraps at a multiple of the period, so the count itself
decides. -/
theorem loadOrder_spec (k : Nat) :
    (loadOrder k).side = (if k % 2 = 0 then .sell else .buy) ∧
    (loadOrder k).type = .limit ∧ (loadOrder k).price.toInt = loadPrice k ∧
    (loadOrder k).qty = 1 := by
  have hside : UInt64.ofNat k % 2 = 0 ↔ k % 2 = 0 := by
    rw [← UInt64.toNat_inj, UInt64.toNat_mod, UInt64.toNat_ofNat']
    change k % 18446744073709551616 % 2 = 0 ↔ _
    omega
  have hidx : (UInt64.ofNat k / 2 % 32).toNat = k / 2 % 32 := by
    rw [UInt64.toNat_mod, UInt64.toNat_div, UInt64.toNat_ofNat']
    change k % 18446744073709551616 / 2 % 32 = _
    omega
  have hprice : (100 + (UInt64.ofNat k / 2 % 32).toInt64 : Int64).toInt = loadPrice k := by
    have hsmall : ((UInt64.ofNat k / 2 % 32).toInt64).toInt = (k / 2 % 32 : Nat) := by
      rw [toInt_toInt64_of_lt (by omega), hidx]
    have h100 : (100 : Int64).toInt = 100 := rfl
    rw [toInt_add_cases, hsmall, h100, loadPrice]
    omega
  rw [loadOrder, decode_bytes]
  refine ⟨?_, rfl, hprice, rfl⟩
  by_cases hk : k % 2 = 0
  · simp [makeFrame, hside.mpr hk, hk]
  · simp [makeFrame, mt hside.mp hk, hk]

end Lloms.Feed
