import Mathlib.Logic.Equiv.Basic

/-! Who has what. Resources are taken from a pool and given back to it, and a holder
has at most one of a kind. The rules say how the books stay right when a resource is
taken, given back, handed on or left behind. -/
namespace Lloms.Lib

universe u v

/-- `taken` is the pool's view, `has` that of the holders: what a holder has is taken,
no two have the same, and what nobody has is in `rest`. -/
structure Accounted {H : Type u} {R : Type v} (taken : R → Prop) (has : H → Option R)
    (rest : R → Prop) : Prop where
  taken_of_has : ∀ {h r}, has h = some r → taken r
  once : ∀ {h i r}, has h = some r → has i = some r → h = i
  held : ∀ {r}, taken r → (∃ h, has h = some r) ∨ rest r

namespace Accounted

variable {H : Type u} {R : Type v} {taken taken' rest rest' : R → Prop} {has has' : H → Option R}
  {h : H} {r : R}

theorem congr (hok : Accounted taken has rest) (htaken : ∀ r, taken' r ↔ taken r)
    (hhas : ∀ h, has' h = has h) : Accounted taken' has' rest where
  taken_of_has hr := (htaken _).mpr (hok.taken_of_has ((hhas _).symm.trans hr))
  once hr hr' := hok.once ((hhas _).symm.trans hr) ((hhas _).symm.trans hr')
  held hr := (hok.held ((htaken _).mp hr)).imp_left fun ⟨h, hh⟩ => ⟨h, (hhas h).trans hh⟩

theorem mono_rest (hok : Accounted taken has rest) (hrest : ∀ r, rest r → rest' r) :
    Accounted taken has rest' :=
  ⟨hok.taken_of_has, hok.once, fun hr => (hok.held hr).imp_right (hrest _)⟩

/-- A holder of nothing takes what nobody has. -/
theorem claim (hok : Accounted taken has rest) (hnobody : ∀ i, has i ≠ some r)
    (htaken : ∀ r', taken' r' ↔ taken r' ∨ r' = r) (hrest : ∀ r', rest r' → r' = r ∨ rest' r')
    (hnone : has h = none) (hhas : has' h = some r) (hother : ∀ i, i ≠ h → has' i = has i) :
    Accounted taken' has' rest' := by
  have hback : ∀ {i r'}, has' i = some r' → (i = h ∧ r' = r) ∨ (i ≠ h ∧ has i = some r') := by
    intro i r' hr'
    by_cases heq : i = h
    · subst heq
      exact .inl ⟨rfl, Option.some.inj (hr'.symm.trans hhas)⟩
    · exact .inr ⟨heq, (hother i heq).symm.trans hr'⟩
  refine ⟨fun hr => ?_, fun {i j r'} hr hr' => ?_, fun {r'} hr => ?_⟩
  · rcases hback hr with ⟨-, rfl⟩ | ⟨-, hold⟩
    · exact (htaken _).mpr (.inr rfl)
    · exact (htaken _).mpr (.inl (hok.taken_of_has hold))
  · rcases hback hr with ⟨rfl, rfl⟩ | ⟨-, hold⟩ <;> rcases hback hr' with ⟨rfl, heq⟩ | ⟨-, hold'⟩
    · rfl
    · exact absurd hold' (hnobody j)
    · exact absurd (heq ▸ hold) (hnobody i)
    · exact hok.once hold hold'
  · rcases (htaken r').mp hr with hold | rfl
    · rcases hok.held hold with ⟨i, hi⟩ | hr
      · have hne : i ≠ h := by
          rintro rfl
          rw [hnone] at hi
          cases hi
        exact .inl ⟨i, (hother i hne).trans hi⟩
      · rcases hrest r' hr with rfl | hr
        · exact .inl ⟨h, hhas⟩
        · exact .inr hr
    · exact .inl ⟨h, hhas⟩

/-- A holder of nothing takes what was free. -/
theorem acquire (hok : Accounted taken has rest) (hfree : ¬ taken r) (hnone : has h = none)
    (htaken : ∀ r', taken' r' ↔ taken r' ∨ r' = r) (hhas : has' h = some r)
    (hother : ∀ i, i ≠ h → has' i = has i) : Accounted taken' has' rest :=
  hok.claim (fun _ hi => hfree (hok.taken_of_has hi)) htaken (fun _ => .inr) hnone hhas hother

/-- Something comes that nobody has yet. -/
theorem add (hok : Accounted taken has rest) (htaken : ∀ r', taken' r' ↔ taken r' ∨ r' = r)
    (hrest : ∀ r', rest r' ∨ r' = r → rest' r') : Accounted taken' has rest' where
  taken_of_has hr := (htaken _).mpr (.inl (hok.taken_of_has hr))
  once := hok.once
  held {r'} hr := by
    rcases (htaken r').mp hr with hold | hnew
    · exact (hok.held hold).imp_right fun hr => hrest r' (.inl hr)
    · exact .inr (hrest r' (.inr hnew))

/-- A holder gives back what it has. -/
theorem release (hok : Accounted taken has rest) (hold : has h = some r)
    (htaken : ∀ r', taken' r' ↔ taken r' ∧ r' ≠ r) (hhas : has' h = none)
    (hother : ∀ h', h' ≠ h → has' h' = has h') : Accounted taken' has' rest := by
  have hback : ∀ {h' r'}, has' h' = some r' → h' ≠ h ∧ has h' = some r' := by
    intro h' r' hr'
    have hne : h' ≠ h := by
      rintro rfl
      rw [hhas] at hr'
      cases hr'
    exact ⟨hne, (hother h' hne).symm.trans hr'⟩
  refine ⟨fun hr => ?_, fun hr hr' => hok.once (hback hr).2 (hback hr').2, fun {r'} hr => ?_⟩
  · obtain ⟨hne, hr⟩ := hback hr
    refine (htaken _).mpr ⟨hok.taken_of_has hr, ?_⟩
    rintro rfl
    exact hne (hok.once hr hold)
  · obtain ⟨htr, hne⟩ := (htaken r').mp hr
    refine (hok.held htr).imp_left fun ⟨h', hh'⟩ => ⟨h', ?_⟩
    have hne' : h' ≠ h := by
      rintro rfl
      exact hne (Option.some.inj (hh'.symm.trans hold))
    rw [hother h' hne', hh']

/-- Holders change their names. -/
theorem relabel (hok : Accounted taken has rest) (e : Equiv.Perm H)
    (hhas : ∀ h, has' h = has (e h)) : Accounted taken has' rest where
  taken_of_has hr := hok.taken_of_has ((hhas _).symm.trans hr)
  once hr hr' := e.injective (hok.once ((hhas _).symm.trans hr) ((hhas _).symm.trans hr'))
  held hr := (hok.held hr).imp_left fun ⟨h, hh⟩ => ⟨e.symm h, by rw [hhas, e.apply_symm_apply, hh]⟩

/-- A holder hands on what it has to one that has nothing. -/
theorem transfer [DecidableEq H] (hok : Accounted taken has rest) {i : H} (hnone : has i = none)
    (hi : has' i = has h) (hh : has' h = none) (hother : ∀ j, j ≠ h → j ≠ i → has' j = has j) :
    Accounted taken has' rest := by
  refine hok.relabel (Equiv.swap h i) fun j => ?_
  by_cases hj : j = h
  · rw [hj, Equiv.swap_apply_left, hnone, hh]
  · by_cases hj' : j = i
    · rw [hj', Equiv.swap_apply_right, hi]
    · rw [Equiv.swap_apply_of_ne_of_ne hj hj', hother j hj hj']

/-- Some holders are gone, and what they had stays taken. -/
theorem abandon (hok : Accounted taken has rest) (gone : H → Prop)
    (hgone : ∀ h, gone h → has' h = none) (hother : ∀ h, ¬ gone h → has' h = has h)
    (hrest : ∀ r, rest r ∨ (∃ h, gone h ∧ has h = some r) → rest' r) :
    Accounted taken has' rest' := by
  have hback : ∀ {h r}, has' h = some r → has h = some r := by
    intro h r hr
    have hstays : ¬ gone h := by
      intro hg
      rw [hgone h hg] at hr
      cases hr
    exact (hother h hstays).symm.trans hr
  refine ⟨fun hr => hok.taken_of_has (hback hr), fun hr hr' => hok.once (hback hr) (hback hr'),
    fun {r} hr => ?_⟩
  rcases hok.held hr with ⟨h, hh⟩ | hr
  · by_cases hg : gone h
    · exact .inr (hrest r (.inr ⟨h, hg, hh⟩))
    · exact .inl ⟨h, (hother h hg).trans hh⟩
  · exact .inr (hrest r (.inl hr))

/-- What nobody has is given back. -/
theorem clear (hok : Accounted taken has rest) (hnobody : ∀ h, has h ≠ some r)
    (htaken : ∀ r', taken' r' ↔ taken r' ∧ r' ≠ r) (hrest : ∀ r', rest r' → r' = r ∨ rest' r') :
    Accounted taken' has rest' := by
  refine ⟨fun {h r'} hr => (htaken r').mpr ⟨hok.taken_of_has hr, ?_⟩, hok.once, fun {r'} hr => ?_⟩
  swap
  · obtain ⟨hold, hne⟩ := (htaken r').mp hr
    exact (hok.held hold).imp_right fun hr => (hrest r' hr).resolve_left hne
  rintro rfl
  exact hnobody h hr

/-- When there are no leftovers, what is taken is what is had. -/
theorem taken_iff (hok : Accounted taken has fun _ => False) : taken r ↔ ∃ h, has h = some r :=
  ⟨fun hr => (hok.held hr).resolve_right id, fun ⟨_, hr⟩ => hok.taken_of_has hr⟩

end Accounted

end Lloms.Lib
