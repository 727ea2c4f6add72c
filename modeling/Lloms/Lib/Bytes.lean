import Mathlib.Algebra.Group.Nat.Defs
import Mathlib.Tactic.Common

/-! Little-endian integers in byte strings, as a copy of memory reads and writes
them. -/
namespace Lloms.Lib

/-- The number whose bytes, least significant first, are `l`. -/
def ofLe : List UInt8 → Nat
  | [] => 0
  | b :: l => b.toNat + 256 * ofLe l

/-- The low `n` bytes of a number, least significant first. -/
def toLe : Nat → Nat → List UInt8
  | 0, _ => []
  | n + 1, x => UInt8.ofNat x :: toLe n (x / 256)

@[simp] theorem length_toLe (n x : Nat) : (toLe n x).length = n := by
  induction n generalizing x with
  | zero => rfl
  | succ n ih => rw [toLe, List.length_cons, ih]

theorem ofLe_toLe (n x : Nat) (h : x < 256 ^ n) : ofLe (toLe n x) = x := by
  induction n generalizing x with
  | zero =>
    have : x = 0 := by simpa using h
    rw [this]
    rfl
  | succ n ih =>
    have hdiv : x / 256 < 256 ^ n := by
      rw [Nat.pow_succ] at h
      exact Nat.div_lt_of_lt_mul (by omega)
    rw [toLe, ofLe, ih _ hdiv, UInt8.toNat_ofNat']
    omega

end Lloms.Lib
