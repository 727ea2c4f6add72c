import Mathlib.Algebra.Group.Nat.Defs
import Mathlib.Order.Lattice
import Mathlib.Algebra.Order.Group.Unbundled.Int
import Mathlib.Tactic.Common

/-! Two's complement 64-bit integers read as mathematical ones. Everything is
stated through `toInt` and `toNat`, so that a caller's arithmetic ends in
`omega`. -/
namespace Lloms.Lib

instance instLinearOrderInt64 : LinearOrder Int64 where
  le_refl := Int64.le_refl
  le_trans := fun _ _ _ => Int64.le_trans
  le_antisymm := fun _ _ => Int64.le_antisymm
  le_total := Int64.le_total
  lt_iff_le_not_ge := fun a b => by
    simp only [Int64.lt_iff_toInt_lt, Int64.le_iff_toInt_le]; omega
  toDecidableLE := inferInstance
  toDecidableEq := inferInstance
  toDecidableLT := inferInstance
  min_def := fun _ _ => rfl
  max_def := fun _ _ => rfl
  compare_eq_compareOfLessAndEq := fun _ _ => rfl

instance instLinearOrderUInt64 : LinearOrder UInt64 where
  le_refl := UInt64.le_refl
  le_trans := fun _ _ _ => UInt64.le_trans
  le_antisymm := fun _ _ => UInt64.le_antisymm
  le_total := UInt64.le_total
  lt_iff_le_not_ge := fun a b => by
    simp only [UInt64.lt_iff_toNat_lt, UInt64.le_iff_toNat_le]; omega
  toDecidableLE := inferInstance
  toDecidableEq := inferInstance
  toDecidableLT := inferInstance
  min_def := fun _ _ => rfl
  max_def := fun _ _ => rfl
  compare_eq_compareOfLessAndEq := fun _ _ => rfl

/-! ## Signed -/

theorem toInt_range (a : Int64) : -9223372036854775808 ≤ a.toInt ∧ a.toInt < 9223372036854775808 :=
  ⟨a.le_toInt, a.toInt_lt⟩

theorem pos_iff_toInt (a : Int64) : 0 < a ↔ 0 < a.toInt := by
  rw [Int64.lt_iff_toInt_lt, Int64.toInt_zero]

/-- A sum wraps at most once, and only past one of the two ends. -/
theorem toInt_add_cases (a b : Int64) :
    (a + b).toInt =
      if a.toInt + b.toInt < -9223372036854775808 then a.toInt + b.toInt + 18446744073709551616
      else if 9223372036854775808 ≤ a.toInt + b.toInt then
        a.toInt + b.toInt - 18446744073709551616
      else a.toInt + b.toInt := by
  have ha := toInt_range a
  have hb := toInt_range b
  rw [Int64.toInt_add, Int.bmod_def]
  omega

theorem toInt_sub_cases (a b : Int64) :
    (a - b).toInt =
      if a.toInt - b.toInt < -9223372036854775808 then a.toInt - b.toInt + 18446744073709551616
      else if 9223372036854775808 ≤ a.toInt - b.toInt then
        a.toInt - b.toInt - 18446744073709551616
      else a.toInt - b.toInt := by
  have ha := toInt_range a
  have hb := toInt_range b
  rw [Int64.toInt_sub, Int.bmod_def]
  omega

/-- Negation is exact except at the least value. -/
theorem toInt_neg_of_pos (a : Int64) (h : 0 < a.toInt) : (-a).toInt = -a.toInt := by
  have ha := toInt_range a
  rw [Int64.toInt_neg, Int.bmod_def]
  omega

/-- `llabs` as it is computed: the least value is its own absolute value. -/
theorem toInt_abs (a : Int64) :
    a.abs.toInt = if a.toInt = -9223372036854775808 then -9223372036854775808 else |a.toInt| := by
  have hmin : a.toBitVec = BitVec.intMin 64 ↔ a.toInt = -9223372036854775808 := by
    rw [← BitVec.toInt_inj]
    exact Iff.rfl
  have h : a.abs.toInt = a.toBitVec.abs.toInt := rfl
  rw [h, BitVec.toInt_abs_eq_natAbs]
  by_cases hm : a.toBitVec = BitVec.intMin 64
  · rw [if_pos hm, if_pos (hmin.mp hm)]
    rfl
  · rw [if_neg hm, if_neg (fun e => hm (hmin.mpr e)), Int64.toInt_toBitVec, Int.abs_eq_natAbs]

/-- A difference of two times in order reads as `n` or more exactly when it is,
as long as it fits; one that does not fit reads as negative. -/
theorem not_sub_lt_ofNat {a b : Int64} {n : Nat} (hn : n < 2 ^ 63) (hab : b ≤ a) :
    ¬ a - b < Int64.ofNat n ↔
      n ≤ a.toInt - b.toInt ∧ a.toInt - b.toInt < 9223372036854775808 := by
  have ha := toInt_range a
  have hb := toInt_range b
  rw [Int64.le_iff_toInt_le] at hab
  rw [Int64.lt_iff_toInt_lt, Int64.toInt_ofNat_of_lt hn, toInt_sub_cases]
  omega

/-! ## Unsigned -/

theorem toNat_add_one_of_lt {a b : UInt64} (h : a < b) : (a + 1).toNat = a.toNat + 1 := by
  have hb := b.toNat_lt
  rw [UInt64.lt_iff_toNat_lt] at h
  rw [UInt64.toNat_add, UInt64.toNat_one]
  omega

/-- A counter below some number does not wrap at its next step. -/
theorem lt_add_one_of_lt {a b : UInt64} (h : a < b) : a < a + 1 := by
  rw [UInt64.lt_iff_toNat_lt, toNat_add_one_of_lt h]
  omega

theorem add_one_le_of_lt {a b : UInt64} (h : a < b) : a + 1 ≤ b := by
  rw [UInt64.le_iff_toNat_le, toNat_add_one_of_lt h]
  exact UInt64.lt_iff_toNat_lt.mp h

theorem toNat_sub_one_of_pos {a : UInt64} (h : 0 < a.toNat) : (a - 1).toNat = a.toNat - 1 := by
  apply UInt64.toNat_sub_of_le
  rw [UInt64.le_iff_toNat_le, UInt64.toNat_one]
  omega

/-- A difference may wrap where a larger number is added to it. -/
theorem toNat_add_sub_of_le {a b c : UInt64} (h : c ≤ a)
    (hfit : a.toNat - c.toNat + b.toNat < 2 ^ 64) :
    (a + (b - c)).toNat = a.toNat - c.toNat + b.toNat := by
  have ha := a.toNat_lt
  rw [UInt64.le_iff_toNat_le] at h
  rw [UInt64.toNat_add, UInt64.toNat_sub]
  omega

theorem toNat_mul_of_lt {a b : UInt64} (h : a.toNat * b.toNat < 2 ^ 64) :
    (a * b).toNat = a.toNat * b.toNat := by
  rw [UInt64.toNat_mul, Nat.mod_eq_of_lt h]

theorem le_sub_one_iff_lt {a b c : UInt64} (h : c < b) : a ≤ b - 1 ↔ a < b := by
  rw [UInt64.lt_iff_toNat_lt] at h
  rw [UInt64.le_iff_toNat_le, UInt64.lt_iff_toNat_lt, toNat_sub_one_of_pos (by omega)]
  omega

theorem toInt_toInt64_of_lt {a : UInt64} (h : a.toNat < 9223372036854775808) :
    a.toInt64.toInt = a.toNat := by
  have hlt : 2 * a.toBitVec.toNat < 2 ^ 64 := by
    rw [UInt64.toNat_toBitVec]
    omega
  exact BitVec.toInt_eq_toNat_of_lt hlt

/-! ## Masks -/

section Masks

variable {c : UInt64} (hpos : 0 < c.toNat) (hc : c &&& (c - 1) = 0)
include hpos hc

theorem isPowerOfTwo_of_mask : c.toNat.isPowerOfTwo := by
  rw [← Nat.and_sub_one_eq_zero_iff_isPowerOfTwo (by omega), ← toNat_sub_one_of_pos hpos,
    ← UInt64.toNat_and, hc, UInt64.toNat_zero]

/-- Masking with a power of two less one is the remainder. -/
theorem toNat_and_mask (a : UInt64) : (a &&& (c - 1)).toNat = a.toNat % c.toNat := by
  obtain ⟨k, hk⟩ := isPowerOfTwo_of_mask hpos hc
  rw [UInt64.toNat_and, toNat_sub_one_of_pos hpos, hk, Nat.and_two_pow_sub_one_eq_mod]

theorem dvd_two_pow_of_mask : c.toNat ∣ 2 ^ 64 := by
  obtain ⟨k, hk⟩ := isPowerOfTwo_of_mask hpos hc
  have hlt := c.toNat_lt
  rw [hk] at hlt ⊢
  exact Nat.pow_dvd_pow 2 (Nat.le_of_lt ((Nat.pow_lt_pow_iff_right (by decide)).mp hlt))

end Masks

/-- A counter that runs from `start`, masked, is the remainder of the count: the
wrap at 64 bits is invisible. -/
theorem toNat_add_ofNat_mod {c : Nat} (hc : c ∣ 2 ^ 64) (start : UInt64) (k : Nat) :
    (start + UInt64.ofNat k).toNat % c = (start.toNat + k) % c := by
  rw [UInt64.toNat_add, UInt64.toNat_ofNat', Nat.add_mod_mod, Nat.mod_mod_of_dvd _ hc]

/-- Two counts no further apart than the word are equal when their indices are. -/
theorem add_ofNat_inj {start : UInt64} {j k : Nat} (hjk : j ≤ k) (hlt : k < j + 2 ^ 64)
    (h : start + UInt64.ofNat j = start + UInt64.ofNat k) : j = k := by
  have h' := congrArg UInt64.toNat h
  simp only [UInt64.toNat_add, UInt64.toNat_ofNat'] at h'
  omega

/-- The distance of two indices is the distance of the counts. -/
theorem toNat_add_ofNat_sub {start : UInt64} {j k : Nat} (hjk : j ≤ k) (hlt : k < j + 2 ^ 64) :
    ((start + UInt64.ofNat k) - (start + UInt64.ofNat j)).toNat = k - j := by
  simp only [UInt64.toNat_sub, UInt64.toNat_add, UInt64.toNat_ofNat']
  omega

end Lloms.Lib
