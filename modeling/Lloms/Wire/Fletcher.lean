import Mathlib.Data.Nat.ModEq
import Lloms.Wire.Checksum

/-! The checksum against its plain definition: the sum of the bytes and the sum of
their running sums, modulo 255. The loop is run once more with additions that fail
where they leave 32 bits; none does, on a body of any length. -/
namespace Lloms.Wire
open Lloms.Lib

/-! ## The loop with its additions checked -/

/-- An addition that must stay inside 32 bits. -/
def addChecked (x y : UInt32) : Option UInt32 :=
  if x.toNat + y.toNat < 2 ^ 32 then some (x + y) else none

def fold8Checked (x : UInt32) : Option UInt32 := addChecked (x &&& (0xff : UInt32)) (x >>> 8)

def foldsChecked (s : UInt32 × UInt32) : Option (UInt32 × UInt32) := do
  let sum1 ← fold8Checked s.1
  let sum2 ← fold8Checked s.2
  return (sum1, sum2)

def fletcherBlockChecked : UInt32 × UInt32 → List UInt8 → Option (UInt32 × UInt32)
  | s, [] => some s
  | s, b :: block => do
    let sum1 ← addChecked s.1 b.toUInt32
    let sum2 ← addChecked s.2 sum1
    fletcherBlockChecked (sum1, sum2) block

def fletcherLoopChecked : Nat → UInt32 × UInt32 → List UInt8 → Option (UInt32 × UInt32)
  | 0, s, _ => some s
  | fuel + 1, s, data =>
    if data = [] then some s
    else do
      let t ← fletcherBlockChecked s (data.take 21)
      let folded ← foldsChecked t
      fletcherLoopChecked fuel folded (data.drop 21)

/-- `fletcher16` with every addition to an accumulator checked. -/
def fletcher16Checked (data : List UInt8) : Option UInt16 := do
  let s ← fletcherLoopChecked data.length (0xff, 0xff) data
  let t ← foldsChecked s
  return (t.2 <<< 8 ||| t.1).toUInt16

theorem fold8Checked_eq (x : UInt32) : fold8Checked x = some (fold8 x) := by
  have hx := x.toNat_lt
  have hlow := toNat_low8 x
  have hhigh := toNat_high24 x
  exact if_pos (by omega)

theorem foldsChecked_eq (s : UInt32 × UInt32) :
    foldsChecked s = some (fold8 s.1, fold8 s.2) := by
  rw [foldsChecked, fold8Checked_eq, fold8Checked_eq]
  rfl

theorem fletcherBlockChecked_eq (block : List UInt8) (s : UInt32 × UInt32)
    (h : Room block.length s) : fletcherBlockChecked s block = some (fletcherBlock s block) := by
  induction block generalizing s with
  | nil => rfl
  | cons b block ih =>
    have hfirst : addChecked s.1 b.toUInt32 = some (s.1 + b.toUInt32) :=
      if_pos (by rw [UInt8.toNat_toUInt32]; exact h.lt_first b)
    have hsecond : addChecked s.2 (s.1 + b.toUInt32) = some (s.2 + (s.1 + b.toUInt32)) :=
      if_pos (by rw [h.toNat_first b]; exact h.lt_second b)
    simp only [fletcherBlockChecked, hfirst, hsecond, Option.bind_eq_bind, Option.bind_some]
    exact ih _ (h.next b)

/-- The bounds between two blocks, carried through any number of them. -/
theorem fletcherLoopChecked_eq (fuel : Nat) (s : UInt32 × UInt32) (data : List UInt8)
    (hs : Folded s) : fletcherLoopChecked fuel s data = some (fletcherLoop fuel s data) := by
  induction fuel generalizing s data with
  | zero => rfl
  | succ fuel ih =>
    rw [fletcherLoopChecked, fletcherLoop]
    by_cases hdata : data = []
    · rw [if_pos hdata, if_pos hdata]
    · have hlen : (data.take 21).length ≤ 21 := List.length_take_le 21 data
      rw [if_neg hdata, if_neg hdata]
      simp only [fletcherBlockChecked_eq _ _ (hs.room hlen), foldsChecked_eq,
        Option.bind_eq_bind, Option.bind_some]
      exact ih _ _ (folded_block hs _ hlen).1

/-- No addition of the run leaves 32 bits. -/
theorem fletcher16Checked_eq (data : List UInt8) :
    fletcher16Checked data = some (fletcher16 data) := by
  rw [fletcher16Checked, fletcherLoopChecked_eq _ _ _ (by constructor <;> decide),
    Option.bind_eq_bind, Option.bind_some, foldsChecked_eq]
  rfl

/-! ## The plain sums -/

/-- The number from 1 to 255 that is `n` modulo 255: residue 0 is 255. -/
def residue255 (n : Nat) : Nat := if n % 255 = 0 then 255 else n % 255

theorem eq_residue255 {x n : Nat} (hx : 0 < x ∧ x ≤ 255) (h : x ≡ n [MOD 255]) :
    x = residue255 n := by
  have hmod : x % 255 = n % 255 := h
  rw [residue255]
  split <;> omega

theorem sum_byteResidue (d : List UInt8) :
    (d.map byteResidue).sum = ((∑ i : Fin d.length, d[i].toNat : ℕ) : ZMod 255) := by
  have h : (d.map UInt8.toNat).sum = ∑ i : Fin d.length, d[i].toNat := by
    rw [← Fin.sum_univ_fun_getElem]
    rfl
  rw [← h, Nat.cast_list_sum, List.map_map]
  rfl

theorem runningSum_byteResidue (d : List UInt8) :
    runningSum (d.map byteResidue) =
      ((∑ i : Fin d.length, (d.length - i) * d[i].toNat : ℕ) : ZMod 255) := by
  have hterm : ∀ i : Fin d.length, ((d.length : ZMod 255) - (i : ℕ)) * byteResidue d[i] =
      (((d.length - i) * d[i].toNat : ℕ) : ZMod 255) := by
    intro i
    rw [Nat.cast_mul, Nat.cast_sub i.isLt.le]
    rfl
  have hlen : (d.map byteResidue).length = d.length := List.length_map _
  rw [runningSum_eq_sum, Nat.cast_sum, ← Fin.sum_congr' _ hlen.symm]
  refine Finset.sum_congr rfl fun i _ => ?_
  rw [← hterm i]
  simp

/-- The residues of the final sums are those of the plain ones. -/
theorem finalSums_modEq (d : List UInt8) :
    (finalSums d).1.toNat ≡ ∑ i : Fin d.length, d[i].toNat [MOD 255] ∧
      (finalSums d).2.toNat ≡ ∑ i : Fin d.length, (d.length - i) * d[i].toNat [MOD 255] := by
  have h := residues_finalSums d
  rw [foldl_addEntry, sum_byteResidue, runningSum_byteResidue] at h
  simp only [residues, zero_add, mul_zero, Prod.mk.injEq] at h
  exact ⟨(ZMod.natCast_eq_natCast_iff _ _ _).mp h.1, (ZMod.natCast_eq_natCast_iff _ _ _).mp h.2⟩

/-- **The checksum is its plain definition.** No addition overflows, both sums end
in 1 to 255, and the two bytes stand for the sum of the bytes and for the sum of each
byte times its distance to the end. -/
theorem fletcher16_plain (d : List UInt8) :
    fletcher16Checked d = some (fletcher16 d) ∧
    ((1 ≤ (finalSums d).1.toNat ∧ (finalSums d).1.toNat ≤ 255) ∧
      (1 ≤ (finalSums d).2.toNat ∧ (finalSums d).2.toNat ≤ 255)) ∧
    (fletcher16 d).toNat % 256 = residue255 (∑ i : Fin d.length, d[i].toNat) ∧
    (fletcher16 d).toNat / 256 = residue255 (∑ i : Fin d.length, (d.length - i) * d[i].toNat) := by
  obtain ⟨h1, h2⟩ := finalSums_range d
  obtain ⟨hmod1, hmod2⟩ := finalSums_modEq d
  have hlow : (fletcher16 d).toNat % 256 = (finalSums d).1.toNat := by
    rw [toNat_fletcher16]
    omega
  have hhigh : (fletcher16 d).toNat / 256 = (finalSums d).2.toNat := by
    rw [toNat_fletcher16]
    omega
  refine ⟨fletcher16Checked_eq d, ⟨h1, h2⟩, ?_, ?_⟩
  · rw [hlow]
    exact eq_residue255 h1 hmod1
  · rw [hhigh]
    exact eq_residue255 h2 hmod2

end Lloms.Wire
