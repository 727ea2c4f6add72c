import Mathlib.Logic.Function.Basic
import Lloms.Lib.Machine
import Lloms.Lib.MachineInt

/-! The single-producer single-consumer ring (`spsc_ring_buffer.hpp`), one atomic
access at a time. `push` and `pop` each take four steps: load the own index,
load the other side's index and test, copy the slot, store the own index. A
schedule says whose turn it is, so a run of `step` is one sequentially
consistent interleaving. -/
namespace Lloms.SpscRing
open Lib

universe u

/-- The two static assertions on `Capacity`. -/
structure Capacity where
  size : UInt64
  two_le : 2 ≤ size
  power_of_two : size &&& (size - 1) = 0

namespace Capacity

variable (cap : Capacity)

def kMask : UInt64 := cap.size - 1

theorem pos : 0 < cap.size.toNat := by
  have h := UInt64.le_iff_toNat_le.mp cap.two_le
  change 2 ≤ _ at h
  omega

theorem lt_word : cap.size.toNat + 1 < 2 ^ 64 := by
  obtain ⟨k, hk⟩ := isPowerOfTwo_of_mask cap.pos cap.power_of_two
  have hlt := cap.size.toNat_lt
  rw [hk] at hlt ⊢
  have hk' : k ≤ 63 := by
    have := (Nat.pow_lt_pow_iff_right (a := 2) (by decide)).mp hlt
    omega
  have := Nat.pow_le_pow_right (n := 2) (by decide) hk'
  omega

theorem and_kMask_lt (i : UInt64) : (i &&& cap.kMask).toNat < cap.size.toNat := by
  rw [kMask, toNat_and_mask cap.pos cap.power_of_two]
  exact Nat.mod_lt _ cap.pos

/-- The slot an index stands for, `i & kMask`. -/
def slot (i : UInt64) : Fin cap.size.toNat := ⟨(i &&& cap.kMask).toNat, cap.and_kMask_lt i⟩

/-- Two counts less than a lap apart have different slots. -/
theorem slot_ne {start : UInt64} {j k : Nat} (hjk : j < k) (hlap : k < j + cap.size.toNat) :
    cap.slot (start + UInt64.ofNat j) ≠ cap.slot (start + UInt64.ofNat k) := by
  intro h
  have h' := congrArg Fin.val h
  have hd := dvd_two_pow_of_mask cap.pos cap.power_of_two
  simp only [slot, kMask, toNat_and_mask cap.pos cap.power_of_two, toNat_add_ofNat_mod hd] at h'
  -- both counts have the same remainder, so they are a whole number of laps apart
  have hdvd := Nat.dvd_of_mod_eq_zero (Nat.sub_mod_eq_zero_of_mod_eq h'.symm)
  have := Nat.le_of_dvd (by omega) hdvd
  omega

end Capacity

/-- Where the producer stands in `push`: `loadedHead` after the load of its own
index, `checked` after the test against `tail`, `copied` after the slot. -/
inductive Producer (α : Type u) where
  | idle
  | loadedHead (value : α) (head : UInt64)
  | checked (value : α) (head : UInt64)
  | copied (value : α) (head : UInt64)
  deriving DecidableEq, Repr

/-- Where the consumer stands in `pop`. -/
inductive Consumer (α : Type u) where
  | idle
  | loadedTail (tail : UInt64)
  | checked (tail : UInt64)
  | copied (tail : UInt64) (out : α)
  deriving DecidableEq, Repr

structure Ring (cap : Capacity) (α : Type u) where
  head : UInt64
  tail : UInt64
  slots : Fin cap.size.toNat → α
  producer : Producer α := .idle
  consumer : Consumer α := .idle

/-- A turn of the schedule. The value is what the producer pushes next, if it
is between two calls. -/
inductive Turn (α : Type u) where
  | producer (value : α)
  | consumer
  deriving DecidableEq, Repr

/-- What an atomic step did that others can tell: a copy into or out of a slot,
or the return of a call. -/
inductive Action (cap : Capacity) (α : Type u) where
  | silent
  | wrote (slot : Fin cap.size.toNat)
  | pushed (value : α)
  | pushFailed
  | read (slot : Fin cap.size.toNat)
  | popped (slot : Fin cap.size.toNat) (out : α)
  | popFailed
  deriving DecidableEq, Repr

section Steps

variable {α : Type u} {cap : Capacity}

/-- An empty ring whose two indices start at `index`, over any slot contents. -/
def start (cap : Capacity) (index : UInt64) (slots : Fin cap.size.toNat → α) : Ring cap α :=
  { head := index, tail := index, slots }

def size (s : Ring cap α) : UInt64 := s.head - s.tail

def empty (s : Ring cap α) : Bool := s.head == s.tail

def push (s : Ring cap α) (value : α) : Ring cap α × Action cap α :=
  match s.producer with
  | .idle => ({ s with producer := .loadedHead value s.head }, .silent)
  | .loadedHead value head =>
    if head + 1 - s.tail > cap.size then ({ s with producer := .idle }, .pushFailed)
    else ({ s with producer := .checked value head }, .silent)
  | .checked value head =>
    ({ s with
        slots := Function.update s.slots (cap.slot head) value
        producer := .copied value head }, .wrote (cap.slot head))
  | .copied value head => ({ s with head := head + 1, producer := .idle }, .pushed value)

/-- `moved` is what a move assignment leaves behind in the slot. -/
def pop (moved : α → α) (s : Ring cap α) : Ring cap α × Action cap α :=
  match s.consumer with
  | .idle => ({ s with consumer := .loadedTail s.tail }, .silent)
  | .loadedTail tail =>
    if tail = s.head then ({ s with consumer := .idle }, .popFailed)
    else ({ s with consumer := .checked tail }, .silent)
  | .checked tail =>
    ({ s with
        slots := Function.update s.slots (cap.slot tail) (moved (s.slots (cap.slot tail)))
        consumer := .copied tail (s.slots (cap.slot tail)) }, .read (cap.slot tail))
  | .copied tail out =>
    ({ s with tail := tail + 1, consumer := .idle }, .popped (cap.slot tail) out)

section Tests

variable {s : Ring cap α} {v value : α} {head tail : UInt64} {moved : α → α}

theorem push_of_full (hp : s.producer = .loadedHead v head) (hfull : head + 1 - s.tail > cap.size) :
    push s value = ({ s with producer := .idle }, .pushFailed) := by
  simp only [push, hp, if_pos hfull]

theorem push_of_room (hp : s.producer = .loadedHead v head) (hroom : ¬ head + 1 - s.tail > cap.size) :
    push s value = ({ s with producer := .checked v head }, .silent) := by
  simp only [push, hp, if_neg hroom]

theorem pop_of_empty (hc : s.consumer = .loadedTail tail) (hempty : tail = s.head) :
    pop moved s = ({ s with consumer := .idle }, .popFailed) := by
  simp only [pop, hc, if_pos hempty]

theorem pop_of_filled (hc : s.consumer = .loadedTail tail) (hfilled : tail ≠ s.head) :
    pop moved s = ({ s with consumer := .checked tail }, .silent) := by
  simp only [pop, hc, if_neg hfilled]

end Tests

def step (moved : α → α) (s : Ring cap α) : Turn α → Ring cap α × Action cap α
  | .producer value => push s value
  | .consumer => pop moved s

abbrev Event (cap : Capacity) (α : Type u) := Lib.Event (Ring cap α) (Turn α) (Action cap α)

/-! ## Whole calls -/

/-- A `push` during which the consumer takes no step. -/
def pushWhole (s : Ring cap α) (value : α) : Ring cap α × Bool :=
  if s.head + 1 - s.tail > cap.size then (s, false)
  else
    ({ s with
        slots := Function.update s.slots (cap.slot s.head) value
        head := s.head + 1 }, true)

/-- A `pop` during which the producer takes no step. -/
def popWhole (moved : α → α) (s : Ring cap α) : Ring cap α × Option α :=
  if s.tail = s.head then (s, none)
  else
    ({ s with
        slots := Function.update s.slots (cap.slot s.tail) (moved (s.slots (cap.slot s.tail)))
        tail := s.tail + 1 }, some (s.slots (cap.slot s.tail)))

/-- The steps of a `push` that is left alone. -/
theorem push_alone (moved : α → α) {s : Ring cap α} (hidle : s.producer = .idle) (value : α) :
    ∃ n, exec (step moved) s (List.replicate n (.producer value)) = (pushWhole s value).1 ∧
      ((trace (step moved) s (List.replicate n (.producer value))).map Lib.Event.output).getLast? =
        some (if (pushWhole s value).2 then .pushed value else .pushFailed) := by
  obtain ⟨head, tail, slots, producer, consumer⟩ := s
  obtain rfl : producer = .idle := hidle
  by_cases hfull : head + 1 - tail > cap.size
  · refine ⟨2, ?_, ?_⟩ <;> simp [exec, trace, step, push, pushWhole, hfull]
  · refine ⟨4, ?_, ?_⟩ <;> simp [exec, trace, step, push, pushWhole, hfull]

/-- The steps of a `pop` that is left alone. -/
theorem pop_alone (moved : α → α) {s : Ring cap α} (hidle : s.consumer = .idle) :
    ∃ n, exec (step moved) s (List.replicate n .consumer) = (popWhole moved s).1 ∧
      ((trace (step moved) s (List.replicate n .consumer)).map Lib.Event.output).getLast? =
        some (match (popWhole moved s).2 with
          | some out => .popped (cap.slot s.tail) out
          | none => .popFailed) := by
  obtain ⟨head, tail, slots, producer, consumer⟩ := s
  obtain rfl : consumer = .idle := hidle
  by_cases hempty : tail = head
  · refine ⟨2, ?_, ?_⟩ <;> simp [exec, trace, step, pop, popWhole, hempty]
  · refine ⟨4, ?_, ?_⟩ <;> simp [exec, trace, step, pop, popWhole, hempty]

end Steps

end Lloms.SpscRing
