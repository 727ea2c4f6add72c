import Mathlib.Data.ZMod.Basic
import Mathlib.Tactic.Linarith
import Lloms.Lib.RunningSums
import Lloms.Wire.Message

/-! What the checksum means, and which damage to a body it detects.

The loop never reduces modulo 255: it folds the high bits onto the low ones after
every block and once more at the end. The residues modulo 255 are those of the sum
and of the running sums, no addition leaves 32 bits, and both final values lie
between 1 and 255, so that they are as good as their residues. -/
namespace Lloms.Wire

open Lloms.Lib

def residue (x : UInt32) : ZMod 255 := (x.toNat : ZMod 255)

def byteResidue (b : UInt8) : ZMod 255 := (b.toNat : ZMod 255)

def residues (s : UInt32 × UInt32) : ZMod 255 × ZMod 255 := (residue s.1, residue s.2)

/-! ## One fold -/

theorem toNat_low8 (x : UInt32) : (x &&& (0xff : UInt32)).toNat = x.toNat % 256 := by
  rw [UInt32.toNat_and]
  exact Nat.and_two_pow_sub_one_eq_mod x.toNat 8

theorem toNat_high24 (x : UInt32) : (x >>> 8).toNat = x.toNat / 256 := by
  rw [UInt32.toNat_shiftRight]
  exact Nat.shiftRight_eq_div_pow x.toNat 8

theorem toNat_fold8 (x : UInt32) : (fold8 x).toNat = x.toNat % 256 + x.toNat / 256 := by
  have hx := x.toNat_lt
  rw [fold8, UInt32.toNat_add, toNat_low8, toNat_high24]
  omega

/-- `256` is `1` modulo `255`, so the high bits may be added to the low ones. -/
theorem residue_fold8 (x : UInt32) : residue (fold8 x) = residue x := by
  have h256 : (256 : ZMod 255) = 1 := by decide
  calc residue (fold8 x) = ((x.toNat % 256 + x.toNat / 256 : ℕ) : ZMod 255) := by
        rw [residue, toNat_fold8]
    _ = ((x.toNat % 256 + 256 * (x.toNat / 256) : ℕ) : ZMod 255) := by
        push_cast
        rw [h256, one_mul]
    _ = residue x := by rw [Nat.mod_add_div, residue]

theorem fold8_pos {x : UInt32} (h : 0 < x.toNat) : 0 < (fold8 x).toNat := by
  rw [toNat_fold8]
  omega

/-! ## One block -/

/-- What holds of both sums between two blocks. -/
structure Folded (s : UInt32 × UInt32) : Prop where
  pos1 : 0 < s.1.toNat
  pos2 : 0 < s.2.toNat
  le1 : s.1.toNat ≤ 276
  le2 : s.2.toNat ≤ 509

/-- What one block does to sums it does not overflow. The bound of `sum2` is
doubled to keep the triangular number an integer. -/
structure Summed (block : List UInt8) (s t : UInt32 × UInt32) : Prop where
  le1 : t.1.toNat ≤ s.1.toNat + 255 * block.length
  le2 : 2 * t.2.toNat ≤
    2 * s.2.toNat + block.length * (2 * s.1.toNat + 255 * (block.length + 1))
  ge1 : s.1.toNat ≤ t.1.toNat
  ge2 : s.2.toNat ≤ t.2.toNat
  residues_eq : residues t = (block.map byteResidue).foldl addEntry (residues s)

/-- `k` more bytes leave both sums inside 32 bits. -/
structure Room (k : Nat) (s : UInt32 × UInt32) : Prop where
  lt1 : s.1.toNat + 255 * k < 2 ^ 32
  lt2 : 2 * s.2.toNat + k * (2 * s.1.toNat + 255 * (k + 1)) < 2 ^ 33

/-- One byte moves the bound of the whole block by no more than it allows. -/
theorem blockBound_step (k s1 s2 : Nat) {b : Nat} (hb : b ≤ 255) :
    2 * (s2 + (s1 + b)) + k * (2 * (s1 + b) + 255 * (k + 1)) ≤
      2 * s2 + (k + 1) * (2 * s1 + 255 * (k + 1 + 1)) := by
  have hkb : k * b ≤ k * 255 := Nat.mul_le_mul_left _ hb
  nlinarith

section Room

variable {k : Nat} {s : UInt32 × UInt32} (h : Room (k + 1) s) (b : UInt8)
include h

theorem Room.lt_first : s.1.toNat + b.toNat < 2 ^ 32 := by
  have hb := b.toNat_lt
  have hlt := h.lt1
  omega

theorem Room.lt_second : s.2.toNat + (s.1.toNat + b.toNat) < 2 ^ 32 := by
  have hstep := blockBound_step k s.1.toNat s.2.toNat (Nat.le_of_lt_succ b.toNat_lt)
  have hlt := h.lt2
  omega

theorem Room.toNat_first : (s.1 + b.toUInt32).toNat = s.1.toNat + b.toNat := by
  rw [UInt32.toNat_add, UInt8.toNat_toUInt32]
  exact Nat.mod_eq_of_lt (h.lt_first b)

theorem Room.toNat_second :
    (s.2 + (s.1 + b.toUInt32)).toNat = s.2.toNat + (s.1.toNat + b.toNat) := by
  rw [UInt32.toNat_add, h.toNat_first b]
  exact Nat.mod_eq_of_lt (h.lt_second b)

theorem Room.next : Room k (s.1 + b.toUInt32, s.2 + (s.1 + b.toUInt32)) := by
  have hb := b.toNat_lt
  refine ⟨?_, ?_⟩
  · rw [h.toNat_first b]
    have hlt := h.lt1
    omega
  · rw [h.toNat_first b, h.toNat_second b]
    exact (blockBound_step k _ _ (Nat.le_of_lt_succ hb)).trans_lt h.lt2

end Room

theorem fletcherBlock_spec (block : List UInt8) (s : UInt32 × UInt32)
    (h : Room block.length s) : Summed block s (fletcherBlock s block) := by
  induction block generalizing s with
  | nil => exact ⟨by simp [fletcherBlock], by simp [fletcherBlock], le_rfl, le_rfl, rfl⟩
  | cons b block ih =>
    have hb : b.toNat ≤ 255 := Nat.le_of_lt_succ b.toNat_lt
    have e1 := h.toNat_first b
    have e2 := h.toNat_second b
    have hrest := ih (s.1 + b.toUInt32, s.2 + (s.1 + b.toUInt32)) (h.next b)
    refine ⟨?_, ?_, ?_, ?_, ?_⟩
    · have := hrest.le1
      rw [e1] at this
      rw [List.length_cons]
      exact this.trans (by omega)
    · have := hrest.le2
      rw [e1, e2] at this
      exact this.trans (blockBound_step _ _ _ hb)
    · exact le_trans (by rw [e1]; omega) hrest.ge1
    · exact le_trans (by rw [e2]; omega) hrest.ge2
    · refine hrest.residues_eq.trans ?_
      rw [List.map_cons, List.foldl_cons]
      congr 1
      simp only [residues, residue, addEntry, byteResidue, e1, e2]
      push_cast
      rfl

/-- What a block of at most 21 bytes adds to twice the second sum, at most. -/
theorem Folded.growth_le {s : UInt32 × UInt32} (hs : Folded s) {k : Nat} (hk : k ≤ 21) :
    k * (2 * s.1.toNat + 255 * (k + 1)) ≤ 21 * (2 * 276 + 255 * 22) := by
  have hle1 := hs.le1
  exact Nat.mul_le_mul hk (by omega)

theorem Folded.room {s : UInt32 × UInt32} (hs : Folded s) {k : Nat} (hk : k ≤ 21) :
    Room k s := by
  have hle1 := hs.le1
  have hle2 := hs.le2
  have hgrow := hs.growth_le hk
  exact ⟨by omega, by omega⟩

/-- A block of at most 21 bytes and the folds after it. -/
theorem folded_block {s : UInt32 × UInt32} (hs : Folded s) (block : List UInt8)
    (hlen : block.length ≤ 21) :
    Folded (fold8 (fletcherBlock s block).1, fold8 (fletcherBlock s block).2) ∧
    residues (fold8 (fletcherBlock s block).1, fold8 (fletcherBlock s block).2) =
      (block.map byteResidue).foldl addEntry (residues s) := by
  have hle1 := hs.le1
  have hle2 := hs.le2
  have hgrow := hs.growth_le hlen
  have h := fletcherBlock_spec block s (hs.room hlen)
  have ht1 := h.le1
  have ht2 := h.le2
  refine ⟨⟨fold8_pos (hs.pos1.trans_le h.ge1), fold8_pos (hs.pos2.trans_le h.ge2), ?_, ?_⟩, ?_⟩
  · rw [toNat_fold8]
    omega
  · rw [toNat_fold8]
    omega
  · rw [← h.residues_eq, residues, residues, residue_fold8, residue_fold8]

/-! ## The whole body -/

theorem folded_loop (fuel : Nat) (s : UInt32 × UInt32) (data : List UInt8) (hs : Folded s)
    (hfuel : data.length ≤ fuel) :
    Folded (fletcherLoop fuel s data) ∧
    residues (fletcherLoop fuel s data) = (data.map byteResidue).foldl addEntry (residues s) := by
  induction fuel generalizing s data with
  | zero =>
    obtain rfl : data = [] := List.length_eq_zero_iff.mp (Nat.le_zero.mp hfuel)
    exact ⟨hs, rfl⟩
  | succ fuel ih =>
    rw [fletcherLoop]
    by_cases hdata : data = []
    · rw [if_pos hdata, hdata]
      exact ⟨hs, rfl⟩
    · rw [if_neg hdata]
      have hpos : 0 < data.length := List.length_pos_iff.mpr hdata
      obtain ⟨hfold, hres⟩ := folded_block hs (data.take 21) (by simp)
      obtain ⟨hall, hresall⟩ := ih _ (data.drop 21) hfold (by simp; omega)
      refine ⟨hall, hresall.trans ?_⟩
      rw [hres, ← List.foldl_append, ← List.map_append, List.take_append_drop]

/-- The value `sum1` and `sum2` have on return. -/
def finalSums (data : List UInt8) : UInt32 × UInt32 :=
  let s := fletcherLoop data.length (0xff, 0xff) data
  (fold8 s.1, fold8 s.2)

theorem residues_finalSums (data : List UInt8) :
    residues (finalSums data) = (data.map byteResidue).foldl addEntry (0, 0) := by
  have h := (folded_loop data.length (0xff, 0xff) data (by constructor <;> decide) le_rfl).2
  rw [finalSums, residues, residue_fold8, residue_fold8]
  exact h

/-- The last fold brings both sums into the range of one byte, and never to zero. -/
theorem finalSums_range (data : List UInt8) :
    (0 < (finalSums data).1.toNat ∧ (finalSums data).1.toNat ≤ 255) ∧
      0 < (finalSums data).2.toNat ∧ (finalSums data).2.toNat ≤ 255 := by
  have h := (folded_loop data.length (0xff, 0xff) data (by constructor <;> decide) le_rfl).1
  have hle1 := h.le1
  have hle2 := h.le2
  refine ⟨⟨fold8_pos h.pos1, ?_⟩, fold8_pos h.pos2, ?_⟩
  · rw [finalSums, toNat_fold8]
    omega
  · rw [finalSums, toNat_fold8]
    omega

theorem toNat_fletcher16 (data : List UInt8) :
    (fletcher16 data).toNat = 256 * (finalSums data).2.toNat + (finalSums data).1.toNat := by
  obtain ⟨⟨-, h1⟩, -, h2⟩ := finalSums_range data
  have hshift : ((finalSums data).2 <<< 8).toNat = (finalSums data).2.toNat <<< 8 := by
    rw [UInt32.toNat_shiftLeft]
    refine Nat.mod_eq_of_lt ?_
    rw [show (8 : UInt32).toNat % 32 = 8 by decide, Nat.shiftLeft_eq]
    omega
  change ((finalSums data).2 <<< 8 ||| (finalSums data).1).toUInt16.toNat = _
  rw [UInt32.toNat_toUInt16, UInt32.toNat_or, hshift,
    ← Nat.shiftLeft_add_eq_or_of_lt (by omega), Nat.shiftLeft_eq]
  omega

/-- A residue modulo 255 has one value from 1 to 255. -/
theorem residue_inj {x y : UInt32} (hx : 0 < x.toNat ∧ x.toNat ≤ 255)
    (hy : 0 < y.toNat ∧ y.toNat ≤ 255) (h : residue x = residue y) : x.toNat = y.toNat := by
  have hmod : x.toNat % 255 = y.toNat % 255 := (ZMod.natCast_eq_natCast_iff' _ _ _).mp h
  omega

/-- **The meaning of the checksum**: two bodies have the same one exactly when the sum
and the running sums of their bytes agree modulo 255. -/
theorem fletcher16_eq_iff (a b : List UInt8) :
    fletcher16 a = fletcher16 b ↔
      (a.map byteResidue).foldl addEntry (0, 0) = (b.map byteResidue).foldl addEntry (0, 0) := by
  obtain ⟨ha1, ha2⟩ := finalSums_range a
  obtain ⟨hb1, hb2⟩ := finalSums_range b
  rw [← residues_finalSums, ← residues_finalSums, ← UInt16.toNat_inj, toNat_fletcher16,
    toNat_fletcher16]
  constructor
  · intro h
    have h1 : (finalSums a).1.toNat = (finalSums b).1.toNat := by omega
    have h2 : (finalSums a).2.toNat = (finalSums b).2.toNat := by omega
    rw [residues, residues, residue, residue, residue, residue, h1, h2]
  · intro h
    rw [residues, residues, Prod.mk.injEq] at h
    rw [residue_inj ha1 hb1 h.1, residue_inj ha2 hb2 h.2]

/-! ## Damage -/

theorem byteResidue_eq_iff (x y : UInt8) :
    byteResidue x = byteResidue y ↔ x.toNat % 255 = y.toNat % 255 :=
  ZMod.natCast_eq_natCast_iff' _ _ _

theorem fletcher16_set_eq_iff (b : List UInt8) {i : Nat} (hi : i < b.length) (v : UInt8) :
    fletcher16 (b.set i v) = fletcher16 b ↔ v.toNat % 255 = b[i].toNat % 255 := by
  rw [fletcher16_eq_iff, List.map_set, foldl_set_eq_iff _ _ _ (by simpa using hi),
    List.getElem_map, byteResidue_eq_iff]

/-- Two different bytes are one modulo 255 only as the smallest and the largest. -/
theorem eq_ends_of_mod_eq {x y : UInt8} (hne : x ≠ y) (h : x.toNat % 255 = y.toNat % 255) :
    (y = 0 ∧ x = 0xff) ∨ (y = 0xff ∧ x = 0) := by
  have hx := x.toNat_lt
  have hy := y.toNat_lt
  have hne' : x.toNat ≠ y.toNat := fun e => hne (UInt8.toNat_inj.mp e)
  rw [← UInt8.toNat_inj, ← UInt8.toNat_inj, ← UInt8.toNat_inj, ← UInt8.toNat_inj]
  change (y.toNat = 0 ∧ x.toNat = 255) ∨ (y.toNat = 255 ∧ x.toNat = 0)
  omega

theorem fletcher16_exchange_eq_iff (b : List UInt8) {i j : Nat} (hij : i < j)
    (hj : j < b.length) :
    fletcher16 (exchange b i j (hij.trans hj) hj) = fletcher16 b ↔
      (255 : ℤ) ∣ ((b[i].toNat : ℤ) - b[j].toNat) * (j - i) := by
  have hcast : (((((b[i].toNat : ℤ) - b[j].toNat) * (j - i) : ℤ)) : ZMod 255) =
      (byteResidue b[i] - byteResidue b[j]) * (j - i) := by
    push_cast
    rfl
  rw [fletcher16_eq_iff, map_exchange, foldl_exchange_eq_iff _ _ hij (by simpa using hj),
    List.getElem_map, List.getElem_map, ← hcast]
  exact ZMod.intCast_zmod_eq_zero_iff_dvd _ 255

/-- A single flipped bit never takes a byte to another one that is equal modulo 255. -/
theorem flip_mod_ne (x : UInt8) {k : Nat} (hk : k < 8) :
    (x ^^^ (1 <<< UInt8.ofNat k)).toNat % 255 ≠ x.toNat % 255 := by
  have hall : ∀ k : Fin 8, (1 : UInt8) <<< UInt8.ofNat k ≠ 0 ∧
      (1 : UInt8) <<< UInt8.ofNat k ≠ 0xff := by decide
  obtain ⟨hzero, hfull⟩ := hall ⟨k, hk⟩
  intro h
  by_cases hne : x ^^^ (1 <<< UInt8.ofNat k) = x
  · exact hzero ((UInt8.xor_right_inj x).mp (hne.trans UInt8.xor_zero.symm))
  · rcases eq_ends_of_mod_eq hne h with ⟨rfl, hx⟩ | ⟨rfl, hx⟩
    · rw [UInt8.zero_xor] at hx
      exact hfull hx
    · exact hfull (UInt8.xor_eq_zero_iff.mp hx).symm

/-- **Which damage to a body the checksum detects.** One byte replaced: every change
but the one between `0x00` and `0xff`, so every flipped bit. Two bytes exchanged:
every exchange whose difference times distance is no multiple of 255, so every exchange
of neighbours that differ modulo 255. -/
theorem fletcher16_detects (b : List UInt8) :
    (∀ (i : Nat) (hi : i < b.length) (v : UInt8),
      fletcher16 (b.set i v) ≠ fletcher16 b ↔ v.toNat % 255 ≠ b[i].toNat % 255) ∧
    (∀ (i : Nat) (hi : i < b.length) (k : Nat), k < 8 →
      fletcher16 (b.set i (b[i] ^^^ (1 <<< UInt8.ofNat k))) ≠ fletcher16 b) ∧
    (∀ (i : Nat) (hi : i < b.length) (v : UInt8), v ≠ b[i] →
      (fletcher16 (b.set i v) = fletcher16 b ↔
        (b[i] = 0 ∧ v = 0xff) ∨ (b[i] = 0xff ∧ v = 0))) ∧
    (∀ (i j : Nat) (hij : i < j) (hj : j < b.length),
      fletcher16 (exchange b i j (hij.trans hj) hj) ≠ fletcher16 b ↔
        ¬ (255 : ℤ) ∣ ((b[i].toNat : ℤ) - b[j].toNat) * (j - i)) ∧
    (∀ (i : Nat) (hi : i + 1 < b.length), b[i].toNat % 255 ≠ b[i + 1].toNat % 255 →
      fletcher16 (exchange b i (i + 1) (Nat.lt_of_succ_lt hi) hi) ≠ fletcher16 b) := by
  refine ⟨?replaced, ?flipped, ?ends, ?exchanged, ?neighbours⟩
  case replaced =>
    intro i hi v
    rw [ne_eq, fletcher16_set_eq_iff b hi v]
  case flipped =>
    intro i hi k hk
    rw [ne_eq, fletcher16_set_eq_iff b hi]
    exact flip_mod_ne b[i] hk
  case ends =>
    intro i hi v hne
    rw [fletcher16_set_eq_iff b hi v]
    constructor
    · exact eq_ends_of_mod_eq hne
    · rintro (⟨hb, rfl⟩ | ⟨hb, rfl⟩)
      · rw [hb]
        rfl
      · rw [hb]
        rfl
  case exchanged =>
    intro i j hij hj
    rw [ne_eq, fletcher16_exchange_eq_iff b hij hj]
  case neighbours =>
    intro i hi hne
    rw [ne_eq, fletcher16_exchange_eq_iff b (Nat.lt_add_one i) hi]
    intro hdvd
    have hone : (((i + 1 : ℕ) : ℤ) - i) = 1 := by
      push_cast
      ring
    rw [hone, mul_one] at hdvd
    exact hne (by omega)

example : fletcher16 [7, 0x00, 9] = fletcher16 [7, 0xff, 9] := by decide

end Lloms.Wire
