import Mathlib.Logic.Function.Basic
import Mathlib.Order.Lattice
import Mathlib.Order.MinMax
import Mathlib.Tactic.Common

/-! Memory under release and acquire, one access at a time. A location keeps every
message that was stored to it. A load gets the last one or an older one, but none that is
older than what its thread knows of. A release store sends along what its thread knows,
and an acquire load of the message takes that over. Each location has one thread that
stores to it, so its messages come in the order of that thread. Cells are plain memory:
two accesses to a cell race unless the second thread knows of the first access. -/
namespace Lloms.Lib

universe u v w x y

/-- What is known: of each location so many messages, of each thread so many accesses to
the cells. -/
abbrev View (T : Type u) (L : Type v) := (L → Nat) × (T → Nat)

structure Memory (T : Type u) (L : Type v) (X : Type w) (V : L → Type x) (D : Type y) where
  message : (l : L) → Nat → V l × View T L
  stores : L → Nat
  cell : X → D
  accessed : X → T → Nat
  view : T → View T L

inductive LoadOrder where
  | relaxed
  | acquire
  deriving DecidableEq, Repr

namespace Memory

variable {T : Type u} {L : Type v} {X : Type w} {V : L → Type x} {D : Type y}

/-- Before the threads start. Message `0` of a location is its initial value. -/
def start (values : (l : L) → V l) (cells : X → D) : Memory T L X V D where
  message l _ := (values l, fun _ => 0, fun _ => 0)
  stores _ := 0
  cell := cells
  accessed _ _ := 0
  view _ := (fun _ => 0, fun _ => 0)

section States

variable (m : Memory T L X V D)

/-- Which message is loaded by thread `t`, that is `lag` messages behind if it can be. -/
def index (t : T) (l : L) (lag : Nat) : Nat := max (m.stores l - lag) ((m.view t).1 l)

/-- An access to the cell by thread `t` now is behind all there have been. -/
def RaceFree (t : T) (c : X) : Prop := ∀ t', m.accessed c t' ≤ (m.view t).2 t'

/-- What there is to know. -/
def now : View T L := (m.stores, fun t => (m.view t).2 t)

/-- Nobody knows more than there is to know, and a message knows of itself. -/
structure Ok (m : Memory T L X V D) : Prop where
  view_le : ∀ t, m.view t ≤ m.now
  message_le : ∀ l, ∀ i ≤ m.stores l, (m.message l i).2 ≤ m.now
  own : ∀ l, ∀ i ≤ m.stores l, (m.message l i).2.1 l = i
  accessed_le : ∀ c t, m.accessed c t ≤ m.now.2 t

/-- The message `i` of `l` is only stored after `f i` accesses of thread `t`: whoever
knows of the message knows of the accesses. -/
structure Publishes (m : Memory T L X V D) (l : L) (t : T) (f : Nat → Nat) : Prop where
  view : ∀ t', f ((m.view t').1 l) ≤ (m.view t').2 t
  message : ∀ l', ∀ i ≤ m.stores l', f ((m.message l' i).2.1 l) ≤ (m.message l' i).2.2 t

end States

theorem ok_start (values : (l : L) → V l) (cells : X → D) :
    (start values cells : Memory T L X V D).Ok where
  view_le _ := le_rfl
  message_le _ _ _ := le_rfl
  own _ _ hi := (Nat.le_zero.mp hi).symm
  accessed_le _ _ := le_rfl

theorem publishes_start (values : (l : L) → V l) (cells : X → D) (l : L) (t : T) {f : Nat → Nat}
    (hf : f 0 = 0) : (start values cells : Memory T L X V D).Publishes l t f where
  view _ := le_of_eq hf
  message _ _ _ := le_of_eq hf

section Atomic

variable {m : Memory T L X V D} {t t' : T} {l l' : L} {order : LoadOrder} {lag : Nat} {value : V l}
  {f : Nat → Nat}

theorem Ok.seen_le (h : m.Ok) (t : T) (l : L) : (m.view t).1 l ≤ m.stores l := (h.view_le t).1 l

theorem Ok.index_le (h : m.Ok) (t : T) (l : L) (lag : Nat) : m.index t l lag ≤ m.stores l :=
  max_le (Nat.sub_le _ _) (h.seen_le t l)

theorem seen_le_index (m : Memory T L X V D) (t : T) (l : L) (lag : Nat) :
    (m.view t).1 l ≤ m.index t l lag := le_max_right _ _

/-! ## Loads -/

variable [DecidableEq T] [DecidableEq L]

def load (m : Memory T L X V D) (t : T) (l : L) (order : LoadOrder) (lag : Nat) :
    Memory T L X V D × V l :=
  let i := m.index t l lag
  let got := m.message l i
  let known : View T L := (Function.update (m.view t).1 l i, (m.view t).2)
  let known := match order with
    | .relaxed => known
    | .acquire => known ⊔ got.2
  ({ m with view := Function.update m.view t known }, got.1)

theorem load_view_of_ne (h : t' ≠ t) : (m.load t l order lag).1.view t' = m.view t' :=
  Function.update_of_ne h _ _

/-- An acquire load takes over what the message knows. -/
theorem Ok.load_view (h : m.Ok) (t : T) (l : L) (lag : Nat) :
    (m.load t l .acquire lag).1.view t = m.view t ⊔ (m.message l (m.index t l lag)).2 := by
  have hown := h.own l _ (h.index_le t l lag)
  have hle := m.seen_le_index t l lag
  refine (Function.update_self ..).trans (Prod.ext (funext fun l' => ?_) rfl)
  change max (Function.update (m.view t).1 l (m.index t l lag) l') _ = max ((m.view t).1 l') _
  by_cases hl : l' = l
  · subst hl
    rw [Function.update_self, hown, max_self, max_eq_right hle]
  · rw [Function.update_of_ne hl]

theorem load_relaxed_view (m : Memory T L X V D) (t : T) (l : L) (lag : Nat) :
    (m.load t l .relaxed lag).1.view t =
      (Function.update (m.view t).1 l (m.index t l lag), (m.view t).2) := Function.update_self ..

/-- The thread that stores to a location loads the last message. -/
theorem load_own (h : (m.view t).1 l = m.stores l) (lag : Nat) :
    m.load t l .relaxed lag = (m, (m.message l (m.stores l)).1) := by
  have hi : m.index t l lag = m.stores l := by
    rw [index, h, max_eq_right (Nat.sub_le _ _)]
  have hview : (m.load t l .relaxed lag).1.view = m.view := by
    refine (congrArg (Function.update m.view t) ?_).trans (Function.update_eq_self t m.view)
    rw [hi, ← h, Function.update_eq_self]
  refine Prod.ext ?_ (congrArg (fun i => (m.message l i).1) hi)
  exact congrArg (fun view => { m with view }) hview

theorem Ok.load_now (h : m.Ok) : (m.load t l order lag).1.now = m.now := by
  refine Prod.ext rfl (funext fun t' => ?_)
  change ((m.load t l order lag).1.view t').2 t' = (m.view t').2 t'
  by_cases ht : t' = t
  · subst ht
    cases order with
    | relaxed => rw [load_relaxed_view]
    | acquire =>
      rw [h.load_view]
      exact max_eq_left ((h.message_le l _ (h.index_le t' l lag)).2 t')
  · rw [load_view_of_ne ht]

theorem Ok.load (h : m.Ok) : (m.load t l order lag).1.Ok where
  view_le t' := by
    rw [h.load_now]
    by_cases ht : t' = t
    · subst ht
      cases order with
      | relaxed =>
        rw [load_relaxed_view]
        refine ⟨fun l' => ?_, (h.view_le t').2⟩
        by_cases hl : l' = l
        · subst hl
          change Function.update (m.view t').1 l' (m.index t' l' lag) l' ≤ m.stores l'
          rw [Function.update_self]
          exact h.index_le t' l' lag
        · change Function.update (m.view t').1 l (m.index t' l lag) l' ≤ m.stores l'
          rw [Function.update_of_ne hl]
          exact h.seen_le t' l'
      | acquire =>
        rw [h.load_view]
        exact sup_le (h.view_le t') (h.message_le l _ (h.index_le t' l lag))
    · rw [load_view_of_ne ht]
      exact h.view_le t'
  message_le := by rw [h.load_now]; exact h.message_le
  own := h.own
  accessed_le := by rw [h.load_now]; exact h.accessed_le

/-- No load makes a thread forget. -/
theorem Ok.view_le_load (h : m.Ok) (t' : T) : m.view t' ≤ (m.load t l order lag).1.view t' := by
  by_cases ht : t' = t
  · subst ht
    cases order with
    | relaxed =>
      rw [load_relaxed_view]
      refine ⟨fun l' => ?_, le_rfl⟩
      by_cases hl : l' = l
      · subst hl
        have hself : Function.update (m.view t').1 l' (m.index t' l' lag) l' =
          m.index t' l' lag := Function.update_self ..
        exact (m.seen_le_index t' l' lag).trans (le_of_eq hself.symm)
      · have hother : Function.update (m.view t').1 l (m.index t' l lag) l' = (m.view t').1 l' :=
          Function.update_of_ne hl _ _
        exact le_of_eq hother.symm
    | acquire =>
      rw [h.load_view]
      exact le_sup_left
  · rw [load_view_of_ne ht]

theorem Publishes.load_acquire (h : m.Publishes l' t' f) (hok : m.Ok) (hf : Monotone f) :
    (m.load t l .acquire lag).1.Publishes l' t' f where
  view t₁ := by
    by_cases ht : t₁ = t
    · subst ht
      rw [hok.load_view]
      change f (max _ _) ≤ max _ _
      rw [hf.map_max]
      exact max_le_max (h.view t₁) (h.message l _ (hok.index_le t₁ l lag))
    · rw [load_view_of_ne ht]
      exact h.view t₁
  message := h.message

/-- What is loaded without acquiring tells nothing. -/
theorem Publishes.load_relaxed (h : m.Publishes l' t' f) (hne : l' ≠ l) :
    (m.load t l .relaxed lag).1.Publishes l' t' f where
  view t₁ := by
    by_cases ht : t₁ = t
    · subst ht
      simpa only [load_relaxed_view, Function.update_of_ne hne] using h.view t₁
    · rw [load_view_of_ne ht]
      exact h.view t₁
  message := h.message

/-! ## Stores -/

/-- A release store. -/
def store (m : Memory T L X V D) (t : T) (l : L) (value : V l) : Memory T L X V D :=
  let i := m.stores l + 1
  let known : View T L := (Function.update (m.view t).1 l i, (m.view t).2)
  { m with
    message := Function.update m.message l (Function.update (m.message l) i (value, known))
    stores := Function.update m.stores l i
    view := Function.update m.view t known }

@[simp] theorem store_stores_self : (m.store t l value).stores l = m.stores l + 1 :=
  Function.update_self ..

theorem store_stores_of_ne (h : l' ≠ l) : (m.store t l value).stores l' = m.stores l' :=
  Function.update_of_ne h _ _

theorem stores_le_store (m : Memory T L X V D) (t : T) (value : V l) (l' : L) :
    m.stores l' ≤ (m.store t l value).stores l' := by
  by_cases hl : l' = l
  · subst hl
    rw [store_stores_self]
    exact Nat.le_succ _
  · rw [store_stores_of_ne hl]

theorem store_view_of_ne (h : t' ≠ t) : (m.store t l value).view t' = m.view t' :=
  Function.update_of_ne h _ _

theorem store_view_self : (m.store t l value).view t =
    (Function.update (m.view t).1 l (m.stores l + 1), (m.view t).2) := Function.update_self ..

theorem store_seen_of_ne (h : l' ≠ l) (t' : T) :
    ((m.store t l value).view t').1 l' = (m.view t').1 l' := by
  by_cases ht : t' = t
  · subst ht
    rw [store_view_self]
    exact Function.update_of_ne h _ _
  · rw [store_view_of_ne ht]

theorem store_message_of_ne (h : l' ≠ l) : (m.store t l value).message l' = m.message l' :=
  Function.update_of_ne h _ _

theorem store_message_old {i : Nat} (h : i ≤ m.stores l) :
    (m.store t l value).message l i = m.message l i := by
  rw [store]
  dsimp only
  rw [Function.update_self, Function.update_of_ne (Nat.ne_of_lt (Nat.lt_succ_of_le h))]

theorem store_message_new : (m.store t l value).message l (m.stores l + 1) =
    (value, (m.store t l value).view t) := by
  rw [store_view_self, store]
  dsimp only
  rw [Function.update_self, Function.update_self]

/-- A message of the memory after the store is the new one or an old one. -/
theorem store_message_cases {i : Nat} (hi : i ≤ (m.store t l value).stores l') :
    (i ≤ m.stores l' ∧ (m.store t l value).message l' i = m.message l' i) ∨
      l' = l ∧ i = m.stores l + 1 ∧
        ((m.store t l value).message l' i).2 = (m.store t l value).view t := by
  by_cases hl : l' = l
  · subst hl
    rw [store_stores_self] at hi
    rcases Nat.lt_or_ge (m.stores l') i with hlt | hle
    · obtain rfl : i = m.stores l' + 1 := Nat.le_antisymm hi hlt
      exact .inr ⟨rfl, rfl, congrArg Prod.snd store_message_new⟩
    · exact .inl ⟨hle, store_message_old hle⟩
  · rw [store_stores_of_ne hl] at hi
    exact .inl ⟨hi, congrFun (store_message_of_ne hl) i⟩

theorem store_clock (t' t₁ : T) : ((m.store t l value).view t').2 t₁ = (m.view t').2 t₁ := by
  by_cases ht : t' = t
  · subst ht
    rw [store_view_self]
  · rw [store_view_of_ne ht]

theorem now_le_store : m.now ≤ (m.store t l value).now :=
  ⟨m.stores_le_store t value, fun t' => le_of_eq (store_clock t' t').symm⟩

theorem Ok.store (h : m.Ok) : (m.store t l value).Ok := by
  have hview : ∀ t', (m.store t l value).view t' ≤ (m.store t l value).now := by
    intro t'
    by_cases ht : t' = t
    · subst ht
      rw [store_view_self]
      refine ⟨fun l' => ?_, ((h.view_le t').trans now_le_store).2⟩
      by_cases hl : l' = l
      · subst hl
        simp only [Function.update_self, now, store_stores_self, le_refl]
      · simp only [Function.update_of_ne hl, now, store_stores_of_ne hl]
        exact h.seen_le t' l'
    · rw [store_view_of_ne ht]
      exact (h.view_le t').trans now_le_store
  refine ⟨hview, fun l' i hi => ?_, fun l' i hi => ?_, fun c t' => ?_⟩
  · rcases store_message_cases hi with ⟨hold, heq⟩ | ⟨-, -, heq⟩
    · rw [heq]
      exact (h.message_le l' i hold).trans now_le_store
    · rw [heq]
      exact hview t
  · rcases store_message_cases hi with ⟨hold, heq⟩ | ⟨rfl, rfl, heq⟩
    · rw [heq]
      exact h.own l' i hold
    · rw [heq, store_view_self]
      exact Function.update_self ..
  · exact (h.accessed_le c t').trans (le_of_eq (store_clock t' t').symm)

/-- A store keeps what is told if the thread that stores knows it afterwards. -/
theorem Publishes.store_of_view (h : m.Publishes l' t' f)
    (hself : f (((m.store t l value).view t).1 l') ≤ ((m.store t l value).view t).2 t') :
    (m.store t l value).Publishes l' t' f where
  view t₁ := by
    by_cases ht : t₁ = t
    · subst ht
      exact hself
    · rw [store_view_of_ne ht]
      exact h.view t₁
  message l₁ i hi := by
    rcases store_message_cases hi with ⟨hold, heq⟩ | ⟨-, -, heq⟩
    · rw [heq]
      exact h.message l₁ i hold
    · rw [heq]
      exact hself

theorem Publishes.store_of_ne (h : m.Publishes l' t' f) (hne : l' ≠ l) :
    (m.store t l value).Publishes l' t' f :=
  h.store_of_view (by simpa only [store_view_self, Function.update_of_ne hne] using h.view t)

/-- The message is stored when the accesses it tells of have been made. -/
theorem Publishes.store (h : m.Publishes l t' f) (hmade : f (m.stores l + 1) ≤ (m.view t).2 t') :
    (m.store t l value).Publishes l t' f :=
  h.store_of_view (by simpa only [store_view_self, Function.update_self] using hmade)

end Atomic

/-! ## Accesses -/

section Cells

variable {m : Memory T L X V D} {t t' : T} {l : L} {c c' : X} {d : D} {f : Nat → Nat}
  [DecidableEq T] [DecidableEq X]

/-- An access to a cell that leaves `d` in it. -/
def access (m : Memory T L X V D) (t : T) (c : X) (d : D) : Memory T L X V D :=
  let n := (m.view t).2 t + 1
  { m with
    cell := Function.update m.cell c d
    accessed := Function.update m.accessed c (Function.update (m.accessed c) t n)
    view := Function.update m.view t ((m.view t).1, Function.update (m.view t).2 t n) }

theorem access_view_of_ne (h : t' ≠ t) : (m.access t c d).view t' = m.view t' :=
  Function.update_of_ne h _ _

theorem access_view_self : (m.access t c d).view t =
    ((m.view t).1, Function.update (m.view t).2 t ((m.view t).2 t + 1)) := Function.update_self ..

@[simp] theorem access_seen (t' : T) : ((m.access t c d).view t').1 = (m.view t').1 := by
  by_cases ht : t' = t
  · subst ht
    rw [access_view_self]
  · rw [access_view_of_ne ht]

@[simp] theorem access_clock_self : ((m.access t c d).view t).2 t = (m.view t).2 t + 1 := by
  rw [access_view_self]
  exact Function.update_self ..

theorem access_clock_of_ne {t₁ : T} (h : t₁ ≠ t) :
    ((m.access t c d).view t').2 t₁ = (m.view t').2 t₁ := by
  by_cases ht : t' = t
  · subst ht
    rw [access_view_self]
    exact Function.update_of_ne h _ _
  · rw [access_view_of_ne ht]

theorem clock_le_access (t' t₁ : T) : (m.view t').2 t₁ ≤ ((m.access t c d).view t').2 t₁ := by
  by_cases ht : t₁ = t
  · subst ht
    by_cases ht' : t' = t₁
    · subst ht'
      rw [access_clock_self]
      exact Nat.le_succ _
    · rw [access_view_of_ne ht']
  · rw [access_clock_of_ne ht]

theorem accessed_of_ne_cell (h : c' ≠ c) : (m.access t c d).accessed c' = m.accessed c' :=
  Function.update_of_ne h _ _

theorem accessed_of_ne (h : t' ≠ t) : (m.access t c d).accessed c' t' = m.accessed c' t' := by
  by_cases hc : c' = c
  · subst hc
    exact (congrFun (Function.update_self ..) t').trans (Function.update_of_ne h _ _)
  · rw [accessed_of_ne_cell hc]

theorem accessed_self : (m.access t c d).accessed c t = (m.view t).2 t + 1 :=
  (congrFun (Function.update_self ..) t).trans (Function.update_self ..)

theorem now_le_access : m.now ≤ (m.access t c d).now :=
  ⟨le_rfl, fun t' => clock_le_access t' t'⟩

theorem Ok.access (h : m.Ok) : (m.access t c d).Ok where
  view_le t' := by
    refine ⟨fun l => ?_, fun t₁ => ?_⟩
    · rw [access_seen]
      exact h.seen_le t' l
    · by_cases ht : t₁ = t
      · subst ht
        by_cases ht' : t' = t₁
        · subst ht'
          exact le_rfl
        · rw [access_view_of_ne ht']
          exact ((h.view_le t').2 t₁).trans (now_le_access.2 t₁)
      · rw [access_clock_of_ne ht]
        exact ((h.view_le t').2 t₁).trans (now_le_access.2 t₁)
  message_le l i hi := (h.message_le l i hi).trans now_le_access
  own := h.own
  accessed_le c' t' := by
    by_cases ht : t' = t
    · subst ht
      by_cases hc : c' = c
      · subst hc
        rw [accessed_self]
        exact le_of_eq access_clock_self.symm
      · rw [accessed_of_ne_cell hc]
        exact (h.accessed_le c' t').trans (now_le_access.2 t')
    · rw [accessed_of_ne ht]
      exact (h.accessed_le c' t').trans (now_le_access.2 t')

theorem Publishes.access (h : m.Publishes l t' f) : (m.access t c d).Publishes l t' f where
  view t₁ := by
    rw [access_seen]
    exact (h.view t₁).trans (clock_le_access t₁ t')
  message := h.message

end Cells

end Memory

end Lloms.Lib
