import Mathlib.Order.Interval.Finset.Nat
import Mathlib.Data.List.Induction

/-! Numbers that arrive one after another. A number that lies above all earlier
ones advances, and the numbers between are found missing at that moment, once and
for all. The counts below run over a list with the numbers that came before it. -/
namespace Lloms.Lib

/-- The largest of some numbers. -/
def highest (ns : List Nat) : Nat := ns.foldr max 0

@[simp] theorem highest_nil : highest [] = 0 := rfl

@[simp] theorem highest_append (ns ms : List Nat) :
    highest (ns ++ ms) = max (highest ns) (highest ms) := by
  induction ns with
  | nil => exact (Nat.zero_max _).symm
  | cons n ns ih =>
    change max n (highest (ns ++ ms)) = max (max n (highest ns)) (highest ms)
    rw [ih, max_assoc]

@[simp] theorem highest_singleton (n : Nat) : highest [n] = n := Nat.max_zero n

theorem highest_lt {ns : List Nat} {b : Nat} (hb : 0 < b) (hns : ∀ n ∈ ns, n < b) :
    highest ns < b := by
  induction ns with
  | nil => exact hb
  | cons n ns ih =>
    rw [List.forall_mem_cons] at hns
    exact max_lt hns.1 (ih hns.2)

/-! ## One number after others -/

/-- Not the first number, and above all before it. -/
def Advancing (earlier : List Nat) (n : Nat) : Prop := earlier ≠ [] ∧ highest earlier < n

/-- It advances and leaves numbers out. -/
def Skipping (earlier : List Nat) (n : Nat) : Prop := Advancing earlier n ∧ highest earlier + 1 < n

/-- Not the first number, and not above all before it. -/
def Behind (earlier : List Nat) (n : Nat) : Prop := earlier ≠ [] ∧ ¬ highest earlier < n

instance (earlier : List Nat) (n : Nat) : Decidable (Advancing earlier n) :=
  inferInstanceAs (Decidable (_ ∧ _))

instance (earlier : List Nat) (n : Nat) : Decidable (Skipping earlier n) :=
  inferInstanceAs (Decidable (_ ∧ _))

instance (earlier : List Nat) (n : Nat) : Decidable (Behind earlier n) :=
  inferInstanceAs (Decidable (_ ∧ _))

/-- The numbers left out below `n`. The first number leaves out none. -/
def skipped (earlier : List Nat) (n : Nat) : Finset Nat :=
  if earlier = [] then ∅ else Finset.Ioo (highest earlier) n

theorem card_skipped {earlier : List Nat} (hne : earlier ≠ []) (n : Nat) :
    (skipped earlier n).card = n - highest earlier - 1 := by
  rw [skipped, if_neg hne, Nat.card_Ioo]

/-! ## A list of numbers after others -/

/-- The numbers that are first found missing as `ns` arrive after `earlier`. -/
def foundMissing (earlier : List Nat) : List Nat → Finset Nat
  | [] => ∅
  | n :: ns => skipped earlier n ∪ foundMissing (earlier ++ [n]) ns

/-- How many of `ns`, arriving after `earlier`, are as `p` says. -/
def countAfter (p : List Nat → Nat → Prop) [∀ ns n, Decidable (p ns n)] (earlier : List Nat) :
    List Nat → Nat
  | [] => 0
  | n :: ns => (if p earlier n then 1 else 0) + countAfter p (earlier ++ [n]) ns

theorem countAfter_concat (p : List Nat → Nat → Prop) [∀ ns n, Decidable (p ns n)]
    (earlier ns : List Nat) (n : Nat) :
    countAfter p earlier (ns ++ [n]) =
      countAfter p earlier ns + if p (earlier ++ ns) n then 1 else 0 := by
  induction ns generalizing earlier with
  | nil => simp [countAfter]
  | cons m ns ih =>
    rw [List.cons_append, countAfter, countAfter, ih, List.append_assoc, List.singleton_append]
    omega

theorem foundMissing_concat (earlier ns : List Nat) (n : Nat) :
    foundMissing earlier (ns ++ [n]) = foundMissing earlier ns ∪ skipped (earlier ++ ns) n := by
  induction ns generalizing earlier with
  | nil => simp [foundMissing]
  | cons m ns ih =>
    rw [List.cons_append, foundMissing, foundMissing, ih, List.append_assoc, List.singleton_append,
      Finset.union_assoc]

/-- What is missing lies below the largest number. -/
theorem lt_highest_of_foundMissing {earlier ns : List Nat} {k : Nat}
    (hk : k ∈ foundMissing earlier ns) : k < highest (earlier ++ ns) := by
  induction ns using List.reverseRecOn with
  | nil => simp [foundMissing] at hk
  | append_singleton ns n ih =>
    rw [← List.append_assoc, highest_append, highest_singleton]
    rw [foundMissing_concat] at hk
    rcases Finset.mem_union.mp hk with hk | hk
    · have := ih hk
      omega
    · unfold skipped at hk
      split_ifs at hk with hnil
      · simp at hk
      · have := (Finset.mem_Ioo.mp hk).2
        omega

/-- A number is found missing only once. -/
theorem card_foundMissing_concat (earlier ns : List Nat) (n : Nat) :
    (foundMissing earlier (ns ++ [n])).card =
      (foundMissing earlier ns).card + (skipped (earlier ++ ns) n).card := by
  rw [foundMissing_concat]
  apply Finset.card_union_of_disjoint
  rw [Finset.disjoint_left]
  intro k hfound hskip
  have hlow := lt_highest_of_foundMissing hfound
  unfold skipped at hskip
  split_ifs at hskip with hnil
  · simp at hskip
  · have := (Finset.mem_Ioo.mp hskip).1
    omega

/-- From the first number to the largest, every number is either reached by an
advance or found missing. -/
theorem highest_eq_reached_add_missing (ns : List Nat) (hne : ns ≠ []) :
    highest ns = ns.headD 0 + countAfter Advancing [] ns + (foundMissing [] ns).card := by
  induction ns using List.reverseRecOn with
  | nil => exact absurd rfl hne
  | append_singleton ns n ih =>
    rw [countAfter_concat, card_foundMissing_concat, List.nil_append, highest_append,
      highest_singleton]
    cases ns with
    | nil => simp [countAfter, foundMissing, skipped, Advancing]
    | cons m ns =>
      have hprev := ih (by simp)
      have hhead : (m :: ns ++ [n]).headD 0 = (m :: ns).headD 0 := rfl
      rw [hhead, card_skipped (by simp)]
      by_cases hlt : highest (m :: ns) < n
      · rw [if_pos (show Advancing (m :: ns) n from ⟨by simp, hlt⟩)]
        omega
      · rw [if_neg (show ¬ Advancing (m :: ns) n from fun ha => hlt ha.2)]
        omega

/-- Each number that skips leaves out at least one. -/
theorem countAfter_skipping_le (earlier ns : List Nat) :
    countAfter Skipping earlier ns ≤ (foundMissing earlier ns).card := by
  induction ns using List.reverseRecOn with
  | nil => simp [countAfter]
  | append_singleton ns n ih =>
    rw [countAfter_concat, card_foundMissing_concat]
    by_cases hs : Skipping (earlier ++ ns) n
    · rw [if_pos hs, card_skipped hs.1.1]
      have := hs.2
      omega
    · rw [if_neg hs]
      omega

end Lloms.Lib
