import Mathlib.Algebra.BigOperators.Fin
import Mathlib.Tactic.Ring

/-! A sum of a list and the sum of its running sums, the pair a position dependent
checksum keeps. In the second sum an entry counts once for every entry from itself
to the end, so a change of one entry shows in the first sum and an exchange of two
shows in the second. -/
namespace Lloms.Lib

variable {R : Type} [CommRing R]

/-- The sum of the running sums. -/
def runningSum : List R → R
  | [] => 0
  | x :: xs => (xs.length + 1) * x + runningSum xs

/-- Both sums, one entry further. -/
def addEntry (s : R × R) (x : R) : R × R := (s.1 + x, s.2 + (s.1 + x))

theorem foldl_addEntry (xs : List R) (s : R × R) :
    xs.foldl addEntry s = (s.1 + xs.sum, s.2 + xs.length * s.1 + runningSum xs) := by
  induction xs generalizing s with
  | nil => simp [runningSum]
  | cons x xs ih =>
    rw [List.foldl_cons, ih]
    refine Prod.ext ?_ ?_
    · simp only [addEntry, List.sum_cons]
      ring
    · simp only [addEntry, List.length_cons, runningSum]
      push_cast
      ring

/-- By position: an entry counts once for each place from its own to the end. -/
theorem runningSum_eq_sum (xs : List R) :
    runningSum xs = ∑ i : Fin xs.length, ((xs.length : R) - i) * xs[i] := by
  induction xs with
  | nil => rfl
  | cons x xs ih =>
    have hrest : ∀ i : Fin xs.length, ((xs.length + 1 : ℕ) - (i.succ : ℕ) : R) * xs[i] =
        (xs.length - i) * xs[i] := by
      intro i
      rw [Fin.val_succ]
      push_cast
      ring
    rw [runningSum, ih]
    change _ = ∑ i : Fin (xs.length + 1), ((xs.length + 1 : ℕ) - (i : ℕ) : R) * (x :: xs)[i]
    rw [Fin.sum_univ_succ]
    simp only [Fin.getElem_fin, Fin.val_succ, List.getElem_cons_succ] at hrest ⊢
    rw [Finset.sum_congr rfl fun i _ => hrest i]
    simp

/-- Equal length leaves only the sums themselves to compare. -/
theorem foldl_addEntry_inj {xs ys : List R} (s : R × R) (h : xs.length = ys.length) :
    xs.foldl addEntry s = ys.foldl addEntry s ↔
      xs.sum = ys.sum ∧ runningSum xs = runningSum ys := by
  rw [foldl_addEntry, foldl_addEntry, Prod.mk.injEq, h, add_right_inj, add_right_inj]

/-! ## One entry replaced -/

theorem sum_set_entry (xs : List R) {i : Nat} (v : R) (h : i < xs.length) :
    (xs.set i v).sum = xs.sum + (v - xs[i]) := by
  rw [List.sum_set', dif_pos h, neg_add_eq_sub]

/-- The weight of an entry is its distance to the end. -/
theorem runningSum_set (xs : List R) {i : Nat} (v : R) (h : i < xs.length) :
    runningSum (xs.set i v) = runningSum xs + (xs.length - i) * (v - xs[i]) := by
  induction xs generalizing i with
  | nil => simp at h
  | cons x xs ih =>
    cases i with
    | zero =>
      simp only [List.set_cons_zero, runningSum, List.getElem_cons_zero, List.length_cons]
      push_cast
      ring
    | succ i =>
      simp only [List.set_cons_succ, runningSum, List.getElem_cons_succ, List.length_cons,
        List.length_set]
      rw [ih (by simpa using h)]
      push_cast
      ring

/-- A replaced entry is noticed in the sum or not at all. -/
theorem foldl_set_eq_iff (xs : List R) (s : R × R) {i : Nat} (v : R) (h : i < xs.length) :
    (xs.set i v).foldl addEntry s = xs.foldl addEntry s ↔ v = xs[i] := by
  rw [foldl_addEntry_inj s List.length_set, sum_set_entry xs v h, runningSum_set xs v h]
  constructor
  · rintro ⟨hsum, -⟩
    exact sub_eq_zero.mp (add_eq_left.mp hsum)
  · rintro rfl
    simp

/-! ## Two entries exchanged -/

section Exchange

variable {α : Type}

/-- The entries at `i` and `j` change places. -/
def exchange (xs : List α) (i j : Nat) (hi : i < xs.length) (hj : j < xs.length) : List α :=
  (xs.set i xs[j]).set j xs[i]

theorem map_exchange {β : Type} (f : α → β) (xs : List α) {i j : Nat} (hi : i < xs.length)
    (hj : j < xs.length) :
    (exchange xs i j hi hj).map f =
      exchange (xs.map f) i j (by simpa using hi) (by simpa using hj) := by
  simp [exchange]

end Exchange

/-- An exchange keeps the sum; the running sums notice it by the distance. -/
theorem foldl_exchange_eq_iff (xs : List R) (s : R × R) {i j : Nat} (hij : i < j)
    (hj : j < xs.length) :
    (exchange xs i j (hij.trans hj) hj).foldl addEntry s = xs.foldl addEntry s ↔
      (xs[i] - xs[j]) * (j - i) = 0 := by
  have hj' : j < (xs.set i xs[j]).length := by simpa using hj
  have hread : (xs.set i xs[j])[j] = xs[j] := List.getElem_set_ne (Nat.ne_of_lt hij) hj'
  have hsum : (exchange xs i j (hij.trans hj) hj).sum = xs.sum := by
    rw [exchange, sum_set_entry _ _ hj', sum_set_entry _ _ (hij.trans hj), hread]
    ring
  have hrun : runningSum (exchange xs i j (hij.trans hj) hj) =
      runningSum xs - (xs[i] - xs[j]) * (j - i) := by
    rw [exchange, runningSum_set _ _ hj', runningSum_set _ _ (hij.trans hj), hread,
      List.length_set]
    ring
  rw [foldl_addEntry_inj s (by simp [exchange]), hsum, hrun]
  constructor
  · rintro ⟨-, h⟩
    exact sub_eq_self.mp h
  · intro h
    exact ⟨rfl, sub_eq_self.mpr h⟩

end Lloms.Lib
