import Mathlib.Order.Lattice
import Mathlib.Data.List.Basic
import Mathlib.Tactic.Common

/-! Ordered maps as strictly sorted association lists: what `std::map` offers
when it is read from either end. The sortedness is a field, so every map that
can be built has it. -/
namespace Lloms.Lib

universe u v w

structure OrdMap (κ : Type u) (β : Type v) [LinearOrder κ] where
  entries : List (κ × β)
  sorted : entries.Pairwise fun a b => a.1 < b.1

namespace OrdMap

variable {κ : Type u} {β : Type v} [LinearOrder κ]

/-! ## Operations -/

def empty : OrdMap κ β := ⟨[], .nil⟩

def find? (m : OrdMap κ β) (k : κ) : Option β :=
  (m.entries.find? fun e => e.1 = k).map Prod.snd

/-- Put `v` at `k` in a sorted list, replacing what is there. -/
def setEntries (k : κ) (v : β) : List (κ × β) → List (κ × β)
  | [] => [(k, v)]
  | e :: es =>
    if k < e.1 then (k, v) :: e :: es
    else if k = e.1 then (k, v) :: es
    else e :: setEntries k v es

theorem mem_setEntries {k : κ} {v : β} {e : κ × β} {l : List (κ × β)}
    (h : e ∈ setEntries k v l) : e = (k, v) ∨ e ∈ l := by
  induction l with
  | nil => exact .inl (List.mem_singleton.mp h)
  | cons a l ih =>
    rw [setEntries] at h
    split_ifs at h
    · exact List.mem_cons.mp h
    · rcases List.mem_cons.mp h with h | h
      · exact .inl h
      · exact .inr (List.mem_cons_of_mem _ h)
    · rcases List.mem_cons.mp h with h | h
      · exact .inr (h ▸ List.mem_cons_self)
      · exact (ih h).imp id (List.mem_cons_of_mem _)

theorem setEntries_sorted (k : κ) (v : β) {l : List (κ × β)}
    (h : l.Pairwise fun a b => a.1 < b.1) :
    (setEntries k v l).Pairwise fun a b => a.1 < b.1 := by
  induction l with
  | nil => exact List.pairwise_singleton _ _
  | cons a l ih =>
    obtain ⟨ha, hl⟩ := List.pairwise_cons.mp h
    rw [setEntries]
    split_ifs with hlt heq
    · refine List.pairwise_cons.mpr ⟨fun b hb => ?_, h⟩
      rcases List.mem_cons.mp hb with rfl | hb
      · exact hlt
      · exact hlt.trans (ha b hb)
    · exact List.pairwise_cons.mpr ⟨fun b hb => heq ▸ ha b hb, hl⟩
    · refine List.pairwise_cons.mpr ⟨fun b hb => ?_, ih hl⟩
      rcases mem_setEntries hb with rfl | hb
      · exact lt_of_le_of_ne (not_lt.mp hlt) (Ne.symm heq)
      · exact ha b hb

def set (m : OrdMap κ β) (k : κ) (v : β) : OrdMap κ β :=
  ⟨setEntries k v m.entries, setEntries_sorted k v m.sorted⟩

def erase (m : OrdMap κ β) (k : κ) : OrdMap κ β :=
  ⟨m.entries.filter fun e => e.1 ≠ k, m.sorted.filter _⟩

/-! ## Around one key -/

theorem mem_set {m : OrdMap κ β} {k : κ} {v : β} {e : κ × β} (h : e ∈ (m.set k v).entries) :
    e = (k, v) ∨ e ∈ m.entries := mem_setEntries h

theorem mem_erase {m : OrdMap κ β} {k : κ} {e : κ × β} (h : e ∈ (m.erase k).entries) :
    e ∈ m.entries := (List.mem_filter.mp h).1

/-- In a sorted list everything before a key is below it and everything after
it is above. -/
theorem split_bounds {m : OrdMap κ β} {pre post : List (κ × β)} {k : κ} {v : β}
    (h : m.entries = pre ++ (k, v) :: post) :
    (∀ e ∈ pre, e.1 < k) ∧ ∀ e ∈ post, k < e.1 := by
  have hs := m.sorted
  rw [h, List.pairwise_append, List.pairwise_cons] at hs
  exact ⟨fun e he => hs.2.2 e he (k, v) List.mem_cons_self, hs.2.1.1⟩

theorem find?_of_split {m : OrdMap κ β} {pre post : List (κ × β)} {k : κ} {v : β}
    (h : m.entries = pre ++ (k, v) :: post) : m.find? k = some v := by
  obtain ⟨hpre, -⟩ := split_bounds h
  have hnone : pre.find? (fun e => decide (e.1 = k)) = none :=
    List.find?_eq_none.mpr fun e he => by simpa using (hpre e he).ne
  rw [find?, h, List.find?_append, hnone, Option.none_or, List.find?_cons_of_pos (by simp)]
  rfl

theorem find?_eq_some {m : OrdMap κ β} {k : κ} {v : β} (h : m.find? k = some v) :
    ∃ pre post, m.entries = pre ++ (k, v) :: post := by
  obtain ⟨⟨k', v'⟩, hf, rfl⟩ := Option.map_eq_some_iff.mp h
  obtain ⟨hk, pre, post, he, -⟩ := List.find?_eq_some_iff_append.mp hf
  obtain rfl : k' = k := by simpa using hk
  exact ⟨pre, post, he⟩

theorem erase_of_split {m : OrdMap κ β} {pre post : List (κ × β)} {k : κ} {v : β}
    (h : m.entries = pre ++ (k, v) :: post) : (m.erase k).entries = pre ++ post := by
  obtain ⟨hpre, hpost⟩ := split_bounds h
  change m.entries.filter _ = _
  rw [h, List.filter_append, List.filter_cons_of_neg (by simp),
    List.filter_eq_self.mpr fun e he => by simpa using (hpre e he).ne,
    List.filter_eq_self.mpr fun e he => by simpa using (hpost e he).ne']

theorem setEntries_split (k : κ) (v : β) {l : List (κ × β)}
    (h : l.Pairwise fun a b => a.1 < b.1) :
    ∃ pre post, setEntries k v l = pre ++ (k, v) :: post ∧
      (l = pre ++ post ∧ (∀ e ∈ l, e.1 ≠ k) ∨ ∃ w, l = pre ++ (k, w) :: post) := by
  induction l with
  | nil => exact ⟨[], [], rfl, .inl ⟨rfl, by simp⟩⟩
  | cons a l ih =>
    obtain ⟨ha, hl⟩ := List.pairwise_cons.mp h
    rw [setEntries]
    split_ifs with hlt heq
    · refine ⟨[], a :: l, rfl, .inl ⟨rfl, fun e he => ?_⟩⟩
      rcases List.mem_cons.mp he with rfl | he
      · exact hlt.ne'
      · exact (hlt.trans (ha e he)).ne'
    · exact ⟨[], l, rfl, .inr ⟨a.2, by rw [heq]; rfl⟩⟩
    · obtain ⟨pre, post, hset, hold⟩ := ih hl
      refine ⟨a :: pre, post, by rw [hset]; rfl, ?_⟩
      rcases hold with ⟨rfl, hne⟩ | ⟨w, rfl⟩
      · refine .inl ⟨rfl, fun e he => ?_⟩
        rcases List.mem_cons.mp he with rfl | he
        · exact Ne.symm heq
        · exact hne e he
      · exact .inr ⟨w, rfl⟩

/-- `set` changes one place: what stood at the key, if anything, is replaced. -/
theorem set_split (m : OrdMap κ β) (k : κ) (v : β) :
    ∃ pre post, (m.set k v).entries = pre ++ (k, v) :: post ∧
      m.entries = pre ++ ((m.find? k).map (k, ·)).toList ++ post := by
  obtain ⟨pre, post, hset, hold⟩ := setEntries_split k v m.sorted
  refine ⟨pre, post, hset, ?_⟩
  rcases hold with ⟨he, hne⟩ | ⟨w, he⟩
  · have hnone : m.find? k = none := by
      rw [find?, List.find?_eq_none.mpr fun e hmem => by simpa using hne e hmem]
      rfl
    rw [hnone, he]
    simp
  · rw [find?_of_split he, he]
    simp

theorem setEntries_append {pre : List (κ × β)} {k : κ} (h : ∀ e ∈ pre, e.1 < k) (v w : β)
    (post : List (κ × β)) :
    setEntries k w (pre ++ (k, v) :: post) = pre ++ (k, w) :: post := by
  induction pre with
  | nil => simp [setEntries]
  | cons a pre ih =>
    obtain ⟨ha, hpre⟩ := List.forall_mem_cons.mp h
    rw [List.cons_append, setEntries, if_neg ha.not_gt, if_neg ha.ne', ih hpre]
    rfl

theorem set_of_split {m : OrdMap κ β} {pre post : List (κ × β)} {k : κ} {v : β}
    (h : m.entries = pre ++ (k, v) :: post) (w : β) :
    (m.set k w).entries = pre ++ (k, w) :: post := by
  change setEntries k w m.entries = _
  rw [h, setEntries_append (split_bounds h).1]

/-! ## Looking up -/

theorem find?_set (m : OrdMap κ β) (k k' : κ) (v : β) :
    (m.set k v).find? k' = if k' = k then some v else m.find? k' := by
  obtain ⟨pre, post, hset, hold⟩ := m.set_split k v
  split_ifs with hk
  · rw [hk]
    exact find?_of_split hset
  · have hne : ¬ (k = k') := Ne.symm hk
    rw [find?, find?, hset, hold]
    cases m.find? k <;> simp [List.find?_append, hne]

/-- Of several settings of one key the last one counts. -/
theorem find?_foldl_set {α : Type*} [DecidableEq κ] (key : α → κ) (val : α → β) (xs : List α)
    (m : OrdMap κ β) (k : κ) :
    (xs.foldl (fun m x => m.set (key x) (val x)) m).find? k =
      ((xs.filter fun x => key x = k).getLast?.map val).or (m.find? k) := by
  induction xs generalizing m with
  | nil => rfl
  | cons x xs ih =>
    rw [List.foldl_cons, ih, find?_set]
    by_cases hx : key x = k
    · rw [if_pos hx.symm, List.filter_cons_of_pos (by simpa using hx), List.getLast?_cons]
      cases (xs.filter fun x => key x = k).getLast? <;> rfl
    · rw [if_neg (Ne.symm hx), List.filter_cons_of_neg (by simpa using hx)]

theorem find?_erase (m : OrdMap κ β) (k k' : κ) :
    (m.erase k).find? k' = if k' = k then none else m.find? k' := by
  rw [find?, find?, erase, List.find?_filter]
  split_ifs with hk
  · rw [hk, List.find?_eq_none.mpr (by simp), Option.map_none]
  · congr 2
    funext e
    by_cases he : e.1 = k' <;> simp [he, hk]

theorem mem_entries_iff {m : OrdMap κ β} {k : κ} {v : β} :
    (k, v) ∈ m.entries ↔ m.find? k = some v := by
  constructor
  · intro h
    obtain ⟨pre, post, he⟩ := List.append_of_mem h
    exact find?_of_split he
  · intro h
    obtain ⟨pre, post, he⟩ := find?_eq_some h
    rw [he]
    exact List.mem_append_right _ List.mem_cons_self

/-- There is one way to sort. -/
theorem eq_of_sorted {l l' : List (κ × β)} (h : l.Pairwise fun a b => a.1 < b.1)
    (h' : l'.Pairwise fun a b => a.1 < b.1) (hmem : ∀ e, e ∈ l ↔ e ∈ l') : l = l' := by
  have hnodup : ∀ {l : List (κ × β)}, (l.Pairwise fun a b => a.1 < b.1) → l.Nodup := fun h =>
    h.imp fun hlt heq => absurd (congrArg Prod.fst heq) hlt.ne
  exact List.Perm.eq_of_pairwise (fun a b _ _ hab hba => absurd hab hba.not_gt) h h'
    ((List.perm_ext_iff_of_nodup (hnodup h) (hnodup h')).mpr hmem)

/-- A map is what it answers. -/
theorem ext_find? {m m' : OrdMap κ β} (h : ∀ k, m.find? k = m'.find? k) : m = m' := by
  have hmem : ∀ e, e ∈ m.entries ↔ e ∈ m'.entries := by
    rintro ⟨k, v⟩
    rw [mem_entries_iff, mem_entries_iff, h]
  have heq : m.entries = m'.entries := eq_of_sorted m.sorted m'.sorted hmem
  cases m
  cases m'
  congr

/-! ## Mapping the values -/

def mapVal {γ : Type w} (f : β → γ) (m : OrdMap κ β) : OrdMap κ γ :=
  ⟨m.entries.map fun e => (e.1, f e.2), List.pairwise_map.mpr m.sorted⟩

theorem find?_mapVal {γ : Type w} (f : β → γ) (m : OrdMap κ β) (k : κ) :
    (m.mapVal f).find? k = (m.find? k).map f := by
  rw [find?, find?, mapVal, List.find?_map, Option.map_map, Option.map_map]
  rfl

/-! ## Changing keys and values -/

/-- `m'` has what is in `m`, at keys changed by `f` and with values changed by `g`. The
keys of `m` are in `P`, which is where `f` is known. -/
structure Image {κ' : Type u} {γ : Type w} [LinearOrder κ'] (P : Set κ) (f : κ → κ') (g : β → γ)
    (m : OrdMap κ β) (m' : OrdMap κ' γ) : Prop where
  keys : ∀ {k v}, m.find? k = some v → k ∈ P
  find?_iff : ∀ {k' v'}, m'.find? k' = some v' ↔ ∃ k v, m.find? k = some v ∧ f k = k' ∧ g v = v'

namespace Image

variable {κ' : Type u} {γ : Type w} [LinearOrder κ'] {P : Set κ} {f : κ → κ'} {g : β → γ}
  {m : OrdMap κ β} {m' : OrdMap κ' γ} {k : κ}

theorem empty : Image P f g (OrdMap.empty : OrdMap κ β) (OrdMap.empty : OrdMap κ' γ) where
  keys h := by cases h
  find?_iff {k' v'} := by
    constructor
    · intro h
      cases h
    · rintro ⟨k, v, h, -⟩
      cases h

theorem find? (h : Image P f g m m') (hf : P.InjOn f) (hk : k ∈ P) :
    m'.find? (f k) = (m.find? k).map g := by
  apply Option.ext
  intro v'
  rw [h.find?_iff, Option.map_eq_some_iff]
  constructor
  · rintro ⟨k₁, v, hfind, heq, rfl⟩
    rw [hf (h.keys hfind) hk heq] at hfind
    exact ⟨v, hfind, rfl⟩
  · rintro ⟨v, hfind, rfl⟩
    exact ⟨k, v, hfind, rfl, rfl⟩

theorem set (h : Image P f g m m') (hf : P.InjOn f) (hk : k ∈ P) (v : β) :
    Image P f g (m.set k v) (m'.set (f k) (g v)) where
  keys {k₁ v₁} hfind := by
    rw [find?_set] at hfind
    split_ifs at hfind with heq
    · exact heq ▸ hk
    · exact h.keys hfind
  find?_iff {k' v'} := by
    simp only [find?_set]
    split_ifs with hk'
    · constructor
      · intro hv
        exact ⟨k, v, if_pos rfl, hk'.symm, Option.some.inj hv⟩
      · rintro ⟨k₁, v₁, hfind, hfk, rfl⟩
        split_ifs at hfind with heq
        · rw [Option.some.inj hfind]
        · exact absurd (hf (h.keys hfind) hk (hfk.trans hk')) heq
    · rw [h.find?_iff]
      refine exists_congr fun k₁ => exists_congr fun v₁ => and_congr_left fun hfk => ?_
      have hne : k₁ ≠ k := by
        rintro rfl
        exact hk' hfk.1.symm
      rw [if_neg hne]

theorem erase (h : Image P f g m m') (hf : P.InjOn f) (hk : k ∈ P) :
    Image P f g (m.erase k) (m'.erase (f k)) where
  keys {k₁ v₁} hfind := by
    rw [find?_erase] at hfind
    split_ifs at hfind
    exact h.keys hfind
  find?_iff {k' v'} := by
    simp only [find?_erase]
    split_ifs with hk'
    · constructor
      · intro hv
        cases hv
      · rintro ⟨k₁, v₁, hfind, hfk, rfl⟩
        split_ifs at hfind with heq
        exact absurd (hf (h.keys hfind) hk (hfk.trans hk')) heq
    · rw [h.find?_iff]
      refine exists_congr fun k₁ => exists_congr fun v₁ => and_congr_left fun hfk => ?_
      have hne : k₁ ≠ k := by
        rintro rfl
        exact hk' hfk.1.symm
      rw [if_neg hne]

theorem mem_entries (h : Image P f g m m') {e' : κ' × γ} :
    e' ∈ m'.entries ↔ ∃ e ∈ m.entries, (f e.1, g e.2) = e' := by
  obtain ⟨k', v'⟩ := e'
  simp only [mem_entries_iff, h.find?_iff, Prod.exists, Prod.mk.injEq]

theorem key_mem (h : Image P f g m m') {e : κ × β} (he : e ∈ m.entries) : e.1 ∈ P :=
  h.keys (mem_entries_iff.mp he)

/-- When `f` keeps the order, the entries stand in the same order. -/
theorem entries_of_strictMonoOn (h : Image P f g m m') (hf : StrictMonoOn f P) :
    m'.entries = m.entries.map fun e => (f e.1, g e.2) := by
  have hsorted : (m.entries.map fun e => (f e.1, g e.2)).Pairwise fun a b => a.1 < b.1 :=
    List.pairwise_map.mpr (m.sorted.imp_of_mem fun ha hb hlt =>
      hf (h.key_mem ha) (h.key_mem hb) hlt)
  exact eq_of_sorted m'.sorted hsorted fun e' => h.mem_entries.trans List.mem_map.symm

/-- When `f` turns the order round, they stand in the opposite one. -/
theorem entries_of_strictAntiOn (h : Image P f g m m') (hf : StrictAntiOn f P) :
    m'.entries = (m.entries.map fun e => (f e.1, g e.2)).reverse := by
  have hsorted : (m.entries.map fun e => (f e.1, g e.2)).reverse.Pairwise fun a b => a.1 < b.1 :=
    List.pairwise_reverse.mpr (List.pairwise_map.mpr (m.sorted.imp_of_mem fun ha hb hlt =>
      hf (h.key_mem ha) (h.key_mem hb) hlt))
  refine eq_of_sorted m'.sorted hsorted fun e' => h.mem_entries.trans ?_
  rw [List.mem_reverse, List.mem_map]

end Image

end OrdMap

end Lloms.Lib
