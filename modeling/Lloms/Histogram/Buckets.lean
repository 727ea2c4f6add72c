import Lloms.Lib.LogLinear
import Lloms.Lib.MachineInt
import Lloms.Lib.Ranks

/-! The bucketing of the latency histogram (`latency_histogram.cpp`) in 64-bit
arithmetic as it is computed, and that it is the log-linear bucketing over all
numbers: the one subtraction that wraps is made up for by the addition around it. -/
namespace Lloms
open Lib

/-! ## Bit lengths -/

/-- `bit_length` where the compiler counts leading zeros. -/
def bitLength (v : UInt64) : Nat := if v = 0 then 0 else 64 - v.toBitVec.clz.toNat

/-- `bit_length` elsewhere: the loop, which shifts out one bit a round. -/
def bitLengthLoop : Nat → UInt64 → Nat
  | 0, _ => 0
  | fuel + 1, v => if v = 0 then 0 else bitLengthLoop fuel (v >>> 1) + 1

theorem bitLength_eq_size (v : UInt64) : bitLength v = v.toNat.size := by
  rw [bitLength]
  by_cases h : v = 0
  · rw [if_pos h, h]
    rfl
  · have hne : v.toBitVec ≠ 0 := fun h' => h (UInt64.toBitVec_inj.mp h')
    have hlow := BitVec.two_pow_sub_clz_le_toNat_of_ne_zero (by decide) hne
    have hhigh := BitVec.toNat_lt_two_pow_sub_clz (x := v.toBitVec)
    have hsize := Nat.lt_size.mpr hlow
    have hsize' := Nat.size_le.mpr hhigh
    have hclz := BitVec.clz_lt_iff_ne_zero.mpr hne
    rw [BitVec.lt_def] at hclz
    change v.toBitVec.clz.toNat < 64 at hclz
    rw [if_neg h]
    change _ = v.toBitVec.toNat.size
    omega

/-- Both ways to compute it agree. -/
theorem bitLengthLoop_eq (fuel : Nat) (v : UInt64) (h : v.toNat.size ≤ fuel) :
    bitLengthLoop fuel v = v.toNat.size := by
  induction fuel generalizing v with
  | zero => exact (Nat.le_zero.mp h).symm
  | succ fuel ih =>
    rw [bitLengthLoop]
    by_cases hv : v = 0
    · rw [if_pos hv, hv]
      rfl
    · have hpos : v.toNat ≠ 0 := fun h0 => hv (UInt64.toNat_inj.mp h0)
      have hsize : v.toNat.size = (v >>> 1).toNat.size + 1 := by
        rw [UInt64.toNat_shiftRight]
        have hbit := Nat.bit_testBit_zero_shiftRight_one v.toNat
        have hsize := Nat.size_bit (b := v.toNat.testBit 0) (n := v.toNat >>> 1)
          (by rw [hbit]; exact hpos)
        rw [hbit] at hsize
        exact hsize
      rw [if_neg hv, ih _ (by omega), hsize]

/-! ## Precision -/

/-- `sub_bits_`, which never leaves its range. -/
structure Precision where
  subBits : Nat
  ge : 1 ≤ subBits
  le : subBits ≤ 14

def clampi (v lo hi : Int) : Int := if v < lo then lo else if v > hi then hi else v

namespace Precision

/-- What the constructor makes of `precision_bits`. -/
def ofInt (precisionBits : Int) : Precision where
  subBits := (clampi precisionBits 1 14).toNat
  ge := by
    unfold clampi
    split_ifs <;> omega
  le := by
    unfold clampi
    split_ifs <;> omega

variable (p : Precision)

def subCount : UInt64 := 1 <<< UInt64.ofNat p.subBits

def subHalf : UInt64 := p.subCount >>> 1

/-- `counts_.size()`. -/
def countsSize : Nat :=
  let maxBucket := 64 - UInt64.ofNat p.subBits
  ((maxBucket + 2) * p.subHalf).toNat + 1

def indexFor (value : UInt64) : UInt64 :=
  let masked := value ||| (p.subCount - 1)
  let bucket := UInt64.ofNat (bitLength masked) - UInt64.ofNat p.subBits
  let sub := value >>> bucket
  (bucket + 1) * p.subHalf + (sub - p.subHalf)

def valueFromIndex (index : UInt64) : UInt64 :=
  if index < p.subCount then index
  else
    let bucket := index / p.subHalf - 1
    let offset := index % p.subHalf
    let sub := offset + p.subHalf
    sub <<< bucket

theorem subBits_ofInt (precisionBits : Int) :
    ((ofInt precisionBits).subBits : Int) = clampi precisionBits 1 14 := by
  simp only [ofInt, clampi]
  split_ifs <;> omega

theorem toNat_subBits : (UInt64.ofNat p.subBits).toNat = p.subBits :=
  UInt64.toNat_ofNat_of_lt' (p.le.trans_lt (by decide))

theorem toNat_subCount : p.subCount.toNat = 2 ^ p.subBits := by
  have hlt : 2 ^ p.subBits < 2 ^ 64 := Nat.pow_lt_pow_right (by decide) (p.le.trans_lt (by decide))
  rw [subCount, UInt64.toNat_shiftLeft, toNat_subBits, Nat.mod_eq_of_lt (p.le.trans_lt (by decide)),
    UInt64.toNat_one, Nat.shiftLeft_eq, Nat.one_mul, Nat.mod_eq_of_lt hlt]

theorem toNat_subHalf : p.subHalf.toNat = 2 ^ (p.subBits - 1) := by
  rw [subHalf, UInt64.toNat_shiftRight, toNat_subCount]
  change 2 ^ p.subBits >>> 1 = _
  rw [Nat.shiftRight_eq_div_pow, LogLinear.two_pow_eq p.ge]
  omega

/-! ## Both mappings -/

theorem subHalf_le : 2 ^ (p.subBits - 1) ≤ 2 ^ 13 :=
  Nat.pow_le_pow_right (by decide) (by have := p.le; omega)

/-- Places for every shift of a 64-bit number, and one more. -/
theorem countsSize_eq : p.countsSize = (64 - p.subBits + 2) * 2 ^ (p.subBits - 1) + 1 := by
  have hge := p.ge
  have hle := p.le
  have hhalf := p.subHalf_le
  have hbits := p.toNat_subBits
  have hmax : (64 - UInt64.ofNat p.subBits + 2).toNat = 64 - p.subBits + 2 := by
    have h64 : (64 : UInt64).toNat = 64 := rfl
    have h2 : (2 : UInt64).toNat = 2 := rfl
    rw [UInt64.toNat_add, UInt64.toNat_sub, hbits]
    omega
  have hprod : (64 - p.subBits + 2) * 2 ^ (p.subBits - 1) ≤ 66 * 2 ^ 13 :=
    Nat.mul_le_mul (by omega) hhalf
  rw [countsSize, toNat_mul_of_lt (by rw [hmax, toNat_subHalf]; omega), hmax, toNat_subHalf]

theorem shift_le (v : UInt64) : LogLinear.shift p.subBits v.toNat ≤ 64 - p.subBits :=
  Nat.sub_le_sub_right (Nat.size_le.mpr v.toNat_lt) _

/-- **No wrap shows**: the index is the one that unbounded numbers give. -/
theorem toNat_indexFor (v : UInt64) :
    (p.indexFor v).toNat = LogLinear.index p.subBits v.toNat := by
  have hge := p.ge
  have hle := p.le
  have hshift := p.shift_le v
  have hhalf := p.subHalf_le
  have hpos := Nat.two_pow_pos (p.subBits - 1)
  have hlead := LogLinear.leading_lt p.subBits v.toNat
  have hcount : 2 ^ p.subBits ≤ 2 ^ 14 := Nat.pow_le_pow_right (by decide) hle
  have hmask : (p.subCount - 1).toNat = 2 ^ p.subBits - 1 := by
    rw [toNat_sub_one_of_pos (by rw [toNat_subCount]; exact Nat.two_pow_pos _), toNat_subCount]
  have hlen : bitLength (v ||| (p.subCount - 1)) =
      LogLinear.shift p.subBits v.toNat + p.subBits := by
    rw [bitLength_eq_size, UInt64.toNat_or, hmask, LogLinear.size_mask]
  have hbucket : (UInt64.ofNat (bitLength (v ||| (p.subCount - 1))) -
      UInt64.ofNat p.subBits).toNat = LogLinear.shift p.subBits v.toNat := by
    rw [UInt64.toNat_sub, toNat_subBits, hlen, UInt64.toNat_ofNat']
    omega
  unfold indexFor
  dsimp only
  generalize UInt64.ofNat (bitLength (v ||| (p.subCount - 1))) - UInt64.ofNat p.subBits = bucket
    at hbucket
  have hsub : (v >>> bucket).toNat = v.toNat / 2 ^ LogLinear.shift p.subBits v.toNat := by
    rw [UInt64.toNat_shiftRight, hbucket, Nat.mod_eq_of_lt (by omega), Nat.shiftRight_eq_div_pow]
  have hnext : (bucket + 1).toNat = LogLinear.shift p.subBits v.toNat + 1 := by
    have h1 : (1 : UInt64).toNat = 1 := rfl
    rw [UInt64.toNat_add]
    omega
  have hprod : (LogLinear.shift p.subBits v.toNat + 1) * 2 ^ (p.subBits - 1) ≤ 64 * 2 ^ 13 :=
    Nat.mul_le_mul (by omega) hhalf
  have hbase : ((bucket + 1) * p.subHalf).toNat =
      (LogLinear.shift p.subBits v.toNat + 1) * 2 ^ (p.subBits - 1) := by
    rw [toNat_mul_of_lt (by rw [hnext, toNat_subHalf]; omega), hnext, toNat_subHalf]
  have hfull := hbase
  rw [Nat.add_mul, Nat.one_mul] at hfull hprod
  -- the leading bits less half of their range wrap for small values
  rw [toNat_add_sub_of_le, hfull, toNat_subHalf, hsub, Nat.add_sub_cancel]
  · rfl
  · rw [UInt64.le_iff_toNat_le, hfull, toNat_subHalf]
    exact Nat.le_add_left _ _
  · rw [hfull, toNat_subHalf, hsub, Nat.add_sub_cancel]
    omega

theorem indexFor_lt (v : UInt64) : (p.indexFor v).toNat < p.countsSize - 1 := by
  rw [toNat_indexFor, countsSize_eq, Nat.add_sub_cancel]
  exact LogLinear.index_lt p.ge v.toNat_lt

theorem toNat_valueFromIndex {i : UInt64} (h : i.toNat < p.countsSize - 1) :
    (p.valueFromIndex i).toNat = LogLinear.lowest p.subBits i.toNat := by
  rw [countsSize_eq, Nat.add_sub_cancel] at h
  have hge := p.ge
  have hle := p.le
  have hlt := LogLinear.lowest_lt p.ge (hle.trans (by decide)) h
  rw [LogLinear.lowest] at hlt
  rw [valueFromIndex, LogLinear.lowest]
  by_cases hsmall : i < p.subCount
  · have hsmall' : i.toNat < 2 ^ p.subBits := by
      rwa [UInt64.lt_iff_toNat_lt, toNat_subCount] at hsmall
    rw [if_pos hsmall, if_pos hsmall']
  · have hsmall' : ¬ i.toNat < 2 ^ p.subBits := by
      rwa [UInt64.lt_iff_toNat_lt, toNat_subCount] at hsmall
    rw [if_neg hsmall'] at hlt
    rw [if_neg hsmall, if_neg hsmall']
    have hpos := Nat.two_pow_pos (p.subBits - 1)
    have hhalf := p.subHalf_le
    have hquot : i.toNat / 2 ^ (p.subBits - 1) < 64 - p.subBits + 2 :=
      Nat.div_lt_of_lt_mul (by rwa [Nat.mul_comm])
    have hquot' : 2 ≤ i.toNat / 2 ^ (p.subBits - 1) := by
      rw [LogLinear.two_pow_eq hge] at hsmall'
      exact (Nat.le_div_iff_mul_le hpos).mpr (Nat.le_of_not_lt hsmall')
    have hmod := Nat.mod_lt i.toNat hpos
    have hbucket : (i / p.subHalf - 1).toNat = i.toNat / 2 ^ (p.subBits - 1) - 1 := by
      rw [toNat_sub_one_of_pos (by rw [UInt64.toNat_div, toNat_subHalf]; omega), UInt64.toNat_div,
        toNat_subHalf]
    have hsub : (i % p.subHalf + p.subHalf).toNat =
        i.toNat % 2 ^ (p.subBits - 1) + 2 ^ (p.subBits - 1) := by
      rw [UInt64.toNat_add, UInt64.toNat_mod, toNat_subHalf]
      omega
    have hsmallShift : i.toNat / 2 ^ (p.subBits - 1) - 1 < 64 := by omega
    dsimp only
    rw [UInt64.toNat_shiftLeft, hsub, hbucket, Nat.mod_eq_of_lt hsmallShift, Nat.shiftLeft_eq,
      Nat.mod_eq_of_lt hlt]

/-! ## The retraction -/

theorem indexFor_mono : Monotone fun v => (p.indexFor v).toNat := by
  intro v w h
  dsimp only
  rw [toNat_indexFor, toNat_indexFor]
  exact LogLinear.index_mono p.ge (UInt64.le_iff_toNat_le.mp h)

/-- The least value of the bucket a value falls into. -/
def floor (v : UInt64) : UInt64 := p.valueFromIndex (p.indexFor v)

theorem toNat_floor (v : UInt64) :
    (p.floor v).toNat = LogLinear.lowest p.subBits (LogLinear.index p.subBits v.toNat) := by
  rw [floor, toNat_valueFromIndex p (p.indexFor_lt v), toNat_indexFor]

theorem floor_le (v : UInt64) : p.floor v ≤ v := by
  rw [UInt64.le_iff_toNat_le, toNat_floor]
  exact LogLinear.lowest_index_le p.ge _

theorem sub_floor_mul_le (v : UInt64) :
    (v.toNat - (p.floor v).toNat) * 2 ^ (p.subBits - 1) ≤ (p.floor v).toNat := by
  rw [toNat_floor]
  exact LogLinear.sub_lowest_mul_le p.ge _

theorem indexFor_floor (v : UInt64) : p.indexFor (p.floor v) = p.indexFor v := by
  rw [← UInt64.toNat_inj, toNat_indexFor, toNat_indexFor, toNat_floor]
  exact LogLinear.index_lowest p.ge _

/-- Values of up to `b` bits are kept as they are. -/
theorem floor_of_lt {v : UInt64} (h : v.toNat < 2 ^ p.subBits) : p.floor v = v := by
  rw [← UInt64.toNat_inj, toNat_floor]
  exact LogLinear.lowest_index_of_lt p.ge h

theorem floor_lt_of_index_lt {v w : UInt64} (h : p.indexFor v < p.indexFor w) :
    p.floor v < p.floor w := by
  have hmono : Monotone p.indexFor := fun _ _ hvw => UInt64.le_iff_toNat_le.mpr (p.indexFor_mono hvw)
  exact lt_of_retraction (g := p.valueFromIndex) hmono p.indexFor_floor h

theorem floor_mono {v w : UInt64} (h : v ≤ w) : p.floor v ≤ p.floor w := by
  have hindex : p.indexFor v ≤ p.indexFor w := UInt64.le_iff_toNat_le.mpr (p.indexFor_mono h)
  rcases eq_or_lt_of_le hindex with heq | hlt
  · rw [floor, floor, heq]
  · exact (p.floor_lt_of_index_lt hlt).le

/-- `index_for` with integers for the 64-bit words. -/
def exactIndexFor (value : Nat) : Int :=
  let masked := value ||| (2 ^ p.subBits - 1)
  let bucket : Int := masked.size - p.subBits
  let sub : Int := value / 2 ^ bucket.toNat
  (bucket + 1) * 2 ^ (p.subBits - 1) + (sub - 2 ^ (p.subBits - 1))

theorem exactIndexFor_eq (v : Nat) : p.exactIndexFor v = LogLinear.index p.subBits v := by
  have hbucket : (((v ||| (2 ^ p.subBits - 1)).size : Int) - p.subBits) =
      LogLinear.shift p.subBits v := by
    rw [LogLinear.size_mask]
    push_cast
    ring
  rw [exactIndexFor, LogLinear.index]
  simp only [hbucket, Int.toNat_natCast]
  push_cast
  ring

end Precision

/-! ## The histogram -/

/-- The sum for the mean, a floating-point number, is left out. -/
structure LatencyHistogram extends Precision where
  counts : List UInt64
  total : UInt64 := 0
  min : UInt64 := 0xFFFFFFFFFFFFFFFF
  max : UInt64 := 0
  counts_length : counts.length = toPrecision.countsSize

namespace LatencyHistogram

def create (precisionBits : Int) : LatencyHistogram where
  toPrecision := .ofInt precisionBits
  counts := List.replicate (Precision.ofInt precisionBits).countsSize 0
  counts_length := List.length_replicate

def record (h : LatencyHistogram) (value : UInt64) : LatencyHistogram :=
  let idx := (h.indexFor value).toNat
  { h with
    total := h.total + 1
    min := if value < h.min then value else h.min
    max := if value > h.max then value else h.max
    counts :=
      if idx < h.counts.length then h.counts.modify idx (· + 1)
      else h.counts.modify (h.counts.length - 1) (· + 1)
    counts_length := by split_ifs <;> rw [List.length_modify, h.counts_length] }

def reset (h : LatencyHistogram) : LatencyHistogram where
  toPrecision := h.toPrecision
  counts := List.replicate h.counts.length 0
  counts_length := by rw [List.length_replicate, h.counts_length]

theorem indexFor_lt_length (h : LatencyHistogram) (v : UInt64) :
    (h.indexFor v).toNat < h.counts.length := by
  have hlt := h.indexFor_lt v
  rw [h.counts_length]
  omega

/-- The last counter is never used for want of another. -/
theorem record_counts (h : LatencyHistogram) (v : UInt64) :
    (h.record v).counts = h.counts.modify (h.indexFor v).toNat (· + 1) :=
  if_pos (h.indexFor_lt_length v)

/-- **Bucketing is a monotone, in-range, low-error retraction**, for every precision
and all values: the index is exact in spite of the wrapping words and below the size
of the table, and the least value of a bucket lies in it, is off by no more than its
`2^(b-1)`th part, and grows with the bucket. -/
theorem bucketing_retracts (h : LatencyHistogram) (v w : UInt64) :
    (v ≤ w → h.indexFor v ≤ h.indexFor w) ∧
    ((h.indexFor v).toNat < h.counts.length ∧
      (h.record v).counts = h.counts.modify (h.indexFor v).toNat (· + 1) ∧
      ((h.indexFor v).toNat : Int) = h.exactIndexFor v.toNat) ∧
    (let L := h.valueFromIndex (h.indexFor v);
      L ≤ v ∧ (v.toNat - L.toNat) * 2 ^ (h.subBits - 1) ≤ L.toNat ∧
        h.indexFor L = h.indexFor v) ∧
    (h.indexFor v < h.indexFor w →
      h.valueFromIndex (h.indexFor v) < h.valueFromIndex (h.indexFor w)) := by
  refine ⟨fun hvw => ?_, ⟨h.indexFor_lt_length v, h.record_counts v, ?_⟩,
    ⟨h.floor_le v, h.sub_floor_mul_le v, h.indexFor_floor v⟩, fun hlt => ?_⟩
  · exact UInt64.le_iff_toNat_le.mpr (h.indexFor_mono hvw)
  · rw [h.exactIndexFor_eq, h.toNat_indexFor]
  · exact h.floor_lt_of_index_lt hlt

end LatencyHistogram

end Lloms
