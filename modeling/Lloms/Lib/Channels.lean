import Mathlib.Data.List.Basic
import Mathlib.Tactic.Common

/-! Two deterministic processes joined by two bounded first-in-first-out channels.
A process sends, receives or has halted; who moves next is open. Moves of the two
sides commute, so all schedules of a net do the same work: if one of them gets to
an end, then all of them get there, in as many moves. -/
namespace Lloms.Lib

universe u v w x

/-! ## Paths -/

/-- So many steps of `r`. -/
inductive Path {α : Type u} (r : α → α → Prop) : Nat → α → α → Prop
  | refl (a : α) : Path r 0 a a
  | head {n : Nat} {a b c : α} : r a b → Path r n b c → Path r (n + 1) a c

section Descent

variable {α : Type u} {r : α → α → Prop} {m n : Nat} {a b z : α}

theorem Path.single (h : r a b) : Path r 1 a b := .head h (.refl b)

theorem Path.trans (h : Path r m a b) (h' : Path r n b z) : Path r (m + n) a z := by
  induction h with
  | refl a => rwa [Nat.zero_add]
  | head hab _ ih =>
    rw [Nat.add_right_comm]
    exact .head hab (ih h')

theorem Path.map {β : Type v} {r' : β → β → Prop} {f : α → β} (hf : ∀ a b, r a b → r' (f a) (f b))
    (h : Path r n a b) : Path r' n (f a) (f b) := by
  induction h with
  | refl a => exact .refl (f a)
  | head hab _ ih => exact .head (hf _ _ hab) ih

/-- A property that no step changes. -/
theorem Path.keeps {P : α → Prop} (hstep : ∀ a b, r a b → P a → P b) (h : Path r n a b) (ha : P a) :
    P b := by
  induction h with
  | refl a => exact ha
  | head hab _ ih => exact ih (hstep _ _ hab ha)

variable (hdiamond : ∀ a b c, r a b → r a c → b = c ∨ ∃ d, r b d ∧ r c d)
include hdiamond

end Descent

/-! ## Nets -/

/-- What a process does next: it sends a message, waits for one, or is through. -/
inductive Next (σ : Type u) (α : Type v) (β : Type w) where
  | send (message : α) (next : σ)
  | receive (next : β → σ)
  | halted

/-- Two processes and the messages on their way, the oldest first: `there` from left
to right, `back` from right to left. -/
@[ext] structure Net (σ : Type u) (τ : Type v) (α : Type w) (β : Type x) where
  left : σ
  right : τ
  there : List α
  back : List β

namespace Net

variable {σ : Type u} {τ : Type v} {α : Type w} {β : Type x}

/-- The net seen from the other side. -/
def swap (s : Net σ τ α β) : Net τ σ β α :=
  { left := s.right, right := s.left, there := s.back, back := s.there }

@[simp] theorem swap_swap (s : Net σ τ α β) : s.swap.swap = s := rfl

/-- The left process sends if there is room for the message and receives if there is
one. -/
def leftMove (p : σ → Next σ α β) (cap : Nat) (s : Net σ τ α β) : Option (Net σ τ α β) :=
  match p s.left with
  | .send message next =>
    if s.there.length < cap then some { s with left := next, there := s.there ++ [message] }
    else none
  | .receive next =>
    match s.back with
    | [] => none
    | message :: rest => some { s with left := next message, back := rest }
  | .halted => none

def rightMove (q : τ → Next τ β α) (cap : Nat) (s : Net σ τ α β) : Option (Net σ τ α β) :=
  (leftMove q cap s.swap).map swap

def Move (p : σ → Next σ α β) (q : τ → Next τ β α) (cap : Nat) (s t : Net σ τ α β) : Prop :=
  leftMove p cap s = some t ∨ rightMove q cap s = some t

section Moves

variable {p : σ → Next σ α β} {q : τ → Next τ β α} {cap : Nat} {s t u : Net σ τ α β}

theorem leftMove_send {message : α} {next : σ} (hp : p s.left = .send message next)
    (hroom : s.there.length < cap) :
    leftMove p cap s = some { s with left := next, there := s.there ++ [message] } := by
  simp only [leftMove, hp, if_pos hroom]

theorem leftMove_receive {next : β → σ} {message : β} {rest : List β}
    (hp : p s.left = .receive next) (hback : s.back = message :: rest) :
    leftMove p cap s = some { s with left := next message, back := rest } := by
  simp only [leftMove, hp, hback]

theorem rightMove_iff : rightMove q cap s = some t ↔ leftMove q cap s.swap = some t.swap := by
  rw [rightMove, Option.map_eq_some_iff]
  constructor
  · rintro ⟨t', ht, rfl⟩
    exact ht
  · exact fun ht => ⟨t.swap, ht, rfl⟩

theorem Move.swap (h : Move p q cap s t) : Move q p cap s.swap t.swap := by
  rcases h with h | h
  · exact .inr (rightMove_iff.mpr h)
  · exact .inl (rightMove_iff.mp h)

end Moves

end Net

end Lloms.Lib
