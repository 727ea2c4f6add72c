import Mathlib.Algebra.GroupWithZero.Nat
import Mathlib.Data.List.Sort
import Mathlib.Order.Monotone.Basic

/-! Order statistics read off counts. A monotone map sorts a sample into buckets; the
first bucket up to which at least `k` entries are counted is the bucket of the `k`-th
smallest entry. -/
namespace Lloms.Lib

universe u

variable {α : Type u}

/-- The `k`-th smallest entry, from `k = 1` on. -/
def orderStat [LinearOrder α] (xs : List α) (k : Nat) : Option α :=
  (xs.insertionSort (· ≤ ·))[k - 1]?

section Sorted

variable [LinearOrder α]

/-- What holds of an entry holds of all smaller ones: in a sorted list the entries
with a property come first, as many as are counted. -/
theorem lt_countP_iff {p : α → Bool} (hp : ∀ a b, a ≤ b → p b = true → p a = true) {xs : List α}
    (hs : xs.Pairwise (· ≤ ·)) (k : Nat) : k < xs.countP p ↔ ∃ a ∈ xs[k]?, p a = true := by
  induction xs generalizing k with
  | nil => simp
  | cons x xs ih =>
    obtain ⟨hx, hxs⟩ := List.pairwise_cons.mp hs
    by_cases h : p x = true
    · rw [List.countP_cons_of_pos h]
      cases k with
      | zero => simp [h]
      | succ k => rw [Nat.add_lt_add_iff_right, ih hxs, List.getElem?_cons_succ]
    · have hnone : ∀ a ∈ x :: xs, ¬ p a = true := by
        intro a ha hpa
        rcases List.mem_cons.mp ha with rfl | ha
        · exact h hpa
        · exact h (hp x a (hx a ha) hpa)
      rw [List.countP_eq_zero.mpr hnone]
      refine iff_of_false (Nat.not_lt_zero k) ?_
      rintro ⟨a, ha, hpa⟩
      exact hnone a (List.mem_of_getElem? ha) hpa

theorem orderStat_isSome {xs : List α} {k : Nat} (h1 : 1 ≤ k) (hk : k ≤ xs.length) :
    ∃ s, orderStat xs k = some s := by
  have hlt : k - 1 < (xs.insertionSort (· ≤ ·)).length := by
    rw [List.length_insertionSort]
    omega
  exact ⟨_, List.getElem?_eq_getElem hlt⟩

/-- At least `k` entries have the property exactly when the `k`-th smallest has it. -/
theorem le_countP_iff {p : α → Bool} (hp : ∀ a b, a ≤ b → p b = true → p a = true) {xs : List α}
    {k : Nat} (h1 : 1 ≤ k) {s : α} (h : orderStat xs k = some s) :
    k ≤ xs.countP p ↔ p s = true := by
  have hlt := lt_countP_iff hp (List.pairwise_insertionSort (· ≤ ·) xs) (k - 1)
  rw [(List.perm_insertionSort (· ≤ ·) xs).countP_eq] at hlt
  rw [orderStat] at h
  rw [h] at hlt
  simp only [Option.mem_def, Option.some_inj, exists_eq_left'] at hlt
  rw [← hlt]
  omega

/-- Later order statistics are no smaller. -/
theorem orderStat_mono {xs : List α} {j k : Nat} (h1 : 1 ≤ j) (hjk : j ≤ k) {s t : α}
    (hs : orderStat xs j = some s) (ht : orderStat xs k = some t) : s ≤ t := by
  have hp : ∀ a b, a ≤ b → decide (b ≤ t) = true → decide (a ≤ t) = true :=
    fun a b hab hb => decide_eq_true (hab.trans (of_decide_eq_true hb))
  have hcount := (le_countP_iff hp (h1.trans hjk) ht).mpr (decide_eq_true le_rfl)
  exact of_decide_eq_true ((le_countP_iff hp h1 hs).mp (hjk.trans hcount))

end Sorted

/-- One more bucket counts its own entries. -/
theorem countP_lt_succ (f : α → Nat) (xs : List α) (n : Nat) :
    (xs.countP fun a => f a < n + 1) =
      (xs.countP fun a => f a < n) + xs.countP fun a => f a = n := by
  induction xs with
  | nil => rfl
  | cons a xs ih =>
    simp only [List.countP_cons, decide_eq_true_eq]
    rw [ih]
    split_ifs <;> omega

/-- The counts of the buckets below `n` add up to the entries below. -/
theorem sum_countP_eq (f : α → Nat) (xs : List α) (n : Nat) :
    ((List.range n).map fun j => xs.countP fun a => f a = j).sum = xs.countP fun a => f a < n := by
  induction n with
  | zero => simp
  | succ n ih =>
    rw [List.range_succ, List.map_append, List.sum_append, ih, List.map_singleton,
      List.sum_singleton, countP_lt_succ]

/-- **The bucket of an order statistic.** At least `k` entries lie up to bucket `i`
exactly when the `k`-th smallest does. -/
theorem le_countP_lt_iff [LinearOrder α] {f : α → Nat} (hf : Monotone f) {xs : List α} {k : Nat}
    (h1 : 1 ≤ k) {s : α} (h : orderStat xs k = some s) (i : Nat) :
    (k ≤ xs.countP fun a => f a < i) ↔ f s < i := by
  have hp : ∀ a b, a ≤ b → decide (f b < i) = true → decide (f a < i) = true :=
    fun a b hab hb => decide_eq_true ((hf hab).trans_lt (of_decide_eq_true hb))
  rw [le_countP_iff hp h1 h, decide_eq_true_eq]

/-! ## Retractions -/

/-- A representative of each bucket, chosen from it, grows with the bucket. -/
theorem lt_of_retraction {β : Type u} [LinearOrder α] [LinearOrder β] {f : α → β} {g : β → α}
    (hf : Monotone f) (hg : ∀ a, f (g (f a)) = f a) {a b : α} (h : f a < f b) :
    g (f a) < g (f b) := by
  by_contra hle
  have hback := hf (not_lt.mp hle)
  rw [hg, hg] at hback
  exact absurd h hback.not_gt

end Lloms.Lib
