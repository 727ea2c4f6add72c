import Mathlib.Data.Nat.Size
import Mathlib.Tactic.Ring

/-! Log-linear bucketing: a number is known by its leading `b` bits and by how many
low bits were dropped to get at them. The index of a bucket is monotone in the
number, and the least number of a bucket is a retraction of it with a relative
error of `2^(b-1)`. -/
namespace Lloms.Lib.LogLinear

/-- How many low bits are dropped. -/
def shift (b v : Nat) : Nat := v.size - b

/-- `2^(b-1)` places for each shift, and one more for the numbers below. -/
def index (b v : Nat) : Nat := shift b v * 2 ^ (b - 1) + v / 2 ^ shift b v

/-- The least number of a bucket. -/
def lowest (b i : Nat) : Nat :=
  if i < 2 ^ b then i else (i % 2 ^ (b - 1) + 2 ^ (b - 1)) * 2 ^ (i / 2 ^ (b - 1) - 1)

theorem size_or (v m : Nat) : (v ||| m).size = max v.size m.size := by
  refine eq_of_forall_ge_iff fun n => ?_
  rw [max_le_iff, Nat.size_le, Nat.size_le, Nat.size_le]
  exact ⟨fun h => ⟨Nat.left_le_or.trans_lt h, Nat.right_le_or.trans_lt h⟩,
    fun h => Nat.or_lt_two_pow h.1 h.2⟩

theorem size_two_pow_sub_one (b : Nat) : (2 ^ b - 1).size = b := by
  have hpos := Nat.two_pow_pos b
  refine le_antisymm (Nat.size_le.mpr (by omega)) ?_
  cases b with
  | zero => exact Nat.zero_le _
  | succ b =>
    have hb := Nat.two_pow_pos b
    exact Nat.lt_size.mpr (by rw [Nat.pow_succ]; omega)

/-- With the low `b` bits set a number is at least `b` bits long. -/
theorem size_mask (b v : Nat) : (v ||| (2 ^ b - 1)).size = shift b v + b := by
  rw [size_or, size_two_pow_sub_one, shift]
  omega

theorem shift_mono (b : Nat) {v w : Nat} (h : v ≤ w) : shift b v ≤ shift b w :=
  Nat.sub_le_sub_right (Nat.size_le_size h) b

/-- What is left are at most `b` bits. -/
theorem leading_lt (b v : Nat) : v / 2 ^ shift b v < 2 ^ b := by
  have hv : v < 2 ^ (shift b v + b) :=
    (Nat.lt_size_self v).trans_le (Nat.pow_le_pow_right (by omega) (by unfold shift; omega))
  rw [Nat.pow_add] at hv
  exact Nat.div_lt_of_lt_mul hv

section Positive

variable {b : Nat} (hb : 1 ≤ b)
include hb

theorem two_pow_eq : 2 ^ b = 2 * 2 ^ (b - 1) := by
  rw [← Nat.pow_succ']
  congr 1
  omega

/-- Where bits are dropped, `b` are left. -/
theorem le_leading {v : Nat} (h : 0 < shift b v) : 2 ^ (b - 1) ≤ v / 2 ^ shift b v := by
  have hv : 2 ^ (b - 1 + shift b v) ≤ v := by
    refine Nat.lt_size.mp ?_
    unfold shift at h ⊢
    omega
  rw [Nat.pow_add] at hv
  exact (Nat.le_div_iff_mul_le (Nat.two_pow_pos _)).mpr hv

theorem index_mono {v w : Nat} (h : v ≤ w) : index b v ≤ index b w := by
  unfold index
  rcases Nat.eq_or_lt_of_le (shift_mono b h) with heq | hlt
  · rw [heq]
    exact Nat.add_le_add_left (Nat.div_le_div_right h) _
  · have hv := leading_lt b v
    have hw := le_leading hb (Nat.zero_lt_of_lt hlt)
    rw [two_pow_eq hb] at hv
    have hstep : (shift b v + 1) * 2 ^ (b - 1) ≤ shift b w * 2 ^ (b - 1) :=
      Nat.mul_le_mul_right _ hlt
    rw [Nat.add_mul] at hstep
    omega

/-- Numbers of `n` bits fill the places of `n - b` shifts and the one below. -/
theorem index_lt {v n : Nat} (hv : v < 2 ^ n) :
    index b v < (n - b + 2) * 2 ^ (b - 1) := by
  have hshift : shift b v ≤ n - b := Nat.sub_le_sub_right (Nat.size_le.mpr hv) b
  have hlead := leading_lt b v
  have hstep : shift b v * 2 ^ (b - 1) ≤ (n - b) * 2 ^ (b - 1) := Nat.mul_le_mul_right _ hshift
  rw [two_pow_eq hb] at hlead
  rw [index, Nat.add_mul]
  omega

/-- The least number of the bucket has the leading bits and zeros below. -/
theorem lowest_index (v : Nat) : lowest b (index b v) = v / 2 ^ shift b v * 2 ^ shift b v := by
  have hlead := leading_lt b v
  by_cases h : shift b v = 0
  · have hindex : index b v = v := by
      rw [index, h]
      simp
    rw [h, Nat.pow_zero, Nat.div_one] at hlead ⊢
    rw [hindex, lowest, if_pos hlead, Nat.mul_one]
  · have hle := le_leading hb (Nat.pos_of_ne_zero h)
    have hpos := Nat.two_pow_pos (b - 1)
    rw [two_pow_eq hb] at hlead
    -- the leading bits less the topmost are the place within the shift
    obtain ⟨r, hr⟩ := Nat.exists_eq_add_of_le hle
    have hindex : index b v = r + 2 ^ (b - 1) * (shift b v + 1) := by
      rw [index, hr]
      ring
    have hmod : index b v % 2 ^ (b - 1) = r := by
      rw [hindex, Nat.add_mul_mod_self_left, Nat.mod_eq_of_lt (by omega)]
    have hdiv : index b v / 2 ^ (b - 1) = shift b v + 1 := by
      rw [hindex, Nat.add_mul_div_left _ _ hpos, Nat.div_eq_of_lt (by omega), Nat.zero_add]
    have hlarge : ¬ index b v < 2 ^ b := by
      have hshift : 2 ^ (b - 1) * 2 ≤ 2 ^ (b - 1) * (shift b v + 1) :=
        Nat.mul_le_mul_left _ (by omega)
      rw [two_pow_eq hb, hindex]
      omega
    rw [lowest, if_neg hlarge, hmod, hdiv, hr, Nat.add_sub_cancel, Nat.add_comm r]

theorem lowest_index_le (v : Nat) : lowest b (index b v) ≤ v := by
  rw [lowest_index hb]
  exact Nat.div_mul_le_self v _

/-- Numbers of up to `b` bits have a bucket each. -/
theorem lowest_index_of_lt {v : Nat} (h : v < 2 ^ b) : lowest b (index b v) = v := by
  have hshift : shift b v = 0 := Nat.sub_eq_zero_of_le (Nat.size_le.mpr h)
  rw [lowest_index hb, hshift, Nat.pow_zero, Nat.div_one, Nat.mul_one]

/-- A bucket is no wider than its least number divided by `2^(b-1)`. -/
theorem sub_lowest_mul_le (v : Nat) :
    (v - lowest b (index b v)) * 2 ^ (b - 1) ≤ lowest b (index b v) := by
  have hsplit := Nat.div_add_mod' v (2 ^ shift b v)
  rw [lowest_index hb]
  by_cases h : shift b v = 0
  · rw [h]
    simp
  · have hle := le_leading hb (Nat.pos_of_ne_zero h)
    have hmod := Nat.mod_lt v (Nat.two_pow_pos (shift b v))
    calc (v - v / 2 ^ shift b v * 2 ^ shift b v) * 2 ^ (b - 1)
        ≤ 2 ^ shift b v * 2 ^ (b - 1) := Nat.mul_le_mul_right _ (by omega)
      _ = 2 ^ (b - 1) * 2 ^ shift b v := Nat.mul_comm _ _
      _ ≤ v / 2 ^ shift b v * 2 ^ shift b v := Nat.mul_le_mul_right _ hle

theorem index_lowest (v : Nat) : index b (lowest b (index b v)) = index b v := by
  by_cases h : shift b v = 0
  · rw [lowest_index hb, h, Nat.pow_zero, Nat.div_one, Nat.mul_one]
  · have hle := le_leading hb (Nat.pos_of_ne_zero h)
    have hpow := Nat.two_pow_pos (shift b v)
    have hshift : shift b (lowest b (index b v)) = shift b v := by
      refine le_antisymm (shift_mono b (lowest_index_le hb v)) ?_
      -- the topmost bit is still there
      have htop : 2 ^ (b - 1 + shift b v) ≤ lowest b (index b v) := by
        rw [lowest_index hb, Nat.pow_add]
        exact Nat.mul_le_mul_right _ hle
      have hsize := Nat.lt_size.mpr htop
      have hv : shift b v = v.size - b := rfl
      have hl : shift b (lowest b (index b v)) = (lowest b (index b v)).size - b := rfl
      omega
    rw [index, hshift, lowest_index hb, Nat.mul_div_cancel _ hpow]
    rfl

theorem lowest_lt {i n : Nat} (hn : b ≤ n) (hi : i < (n - b + 2) * 2 ^ (b - 1)) :
    lowest b i < 2 ^ n := by
  have hpos := Nat.two_pow_pos (b - 1)
  rw [lowest]
  split
  · rename_i hsmall
    exact hsmall.trans_le (Nat.pow_le_pow_right (by omega) hn)
  · have hmod := Nat.mod_lt i hpos
    have hdiv : i / 2 ^ (b - 1) < n - b + 2 := Nat.div_lt_of_lt_mul (by rwa [Nat.mul_comm])
    calc (i % 2 ^ (b - 1) + 2 ^ (b - 1)) * 2 ^ (i / 2 ^ (b - 1) - 1)
        < 2 ^ b * 2 ^ (i / 2 ^ (b - 1) - 1) :=
          Nat.mul_lt_mul_of_pos_right (by rw [two_pow_eq hb]; omega) (Nat.two_pow_pos _)
      _ ≤ 2 ^ b * 2 ^ (n - b) := Nat.mul_le_mul_left _ (Nat.pow_le_pow_right (by omega) (by omega))
      _ = 2 ^ n := by rw [← Nat.pow_add, Nat.add_sub_cancel' hn]

end Positive

end Lloms.Lib.LogLinear
