import Lloms.Ring.Shm

/-! What a process can rely on when the other side of the segment may be any
build in any state. As long as the capacity field stays what `attach` or `create`
left there, the other side may put anything into the indices and the slots at any
time: no access leaves the segment, and each call answers for the two indices it
loaded. -/
namespace Lloms.ShmRing
open Lib

universe u

/-! ## The geometry that was checked -/

section Geometry

variable {α : Type u} {sizeofT cap : UInt32} {m : Mapping} {s : Segment α} {r : ShmSpscRing}

/-- The handle comes from an `attach` to the segment or from the `create` that
made it. -/
def Opened (sizeofT : UInt32) (m : Mapping) (s : Segment α) (r : ShmSpscRing) : Prop :=
  (∃ out, attach sizeofT m s out = (.ok, r)) ∨
    ∃ capacity s₀ out, create sizeofT m capacity s₀ out = (.ok, s, r)

/-- What the checks on a capacity establish. -/
structure GoodCapacity (sizeofT : UInt32) (m : Mapping) (cap : UInt32) : Prop where
  two_le : 2 ≤ cap
  power_of_two : cap &&& (cap - 1) = 0
  fits : bytesNeeded sizeofT cap ≤ m.bytes

theorem toNat_bytesNeeded (sizeofT cap : UInt32) :
    (bytesNeeded sizeofT cap).toNat = 192 + cap.toNat * sizeofT.toNat := by
  have hc := cap.toNat_lt
  have ht := sizeofT.toNat_lt
  have hmul : cap.toNat * sizeofT.toNat ≤ (2 ^ 32 - 1) * (2 ^ 32 - 1) :=
    Nat.mul_le_mul (by omega) (by omega)
  rw [bytesNeeded, UInt64.toNat_add, UInt64.toNat_mul, UInt32.toNat_toUInt64,
    UInt32.toNat_toUInt64, Nat.mod_eq_of_lt (by omega : cap.toNat * sizeofT.toNat < 2 ^ 64)]
  exact Nat.mod_eq_of_lt (by change 192 + _ < _; omega)

/-- The message in `slot` ends before the first `bytesNeeded` bytes do. -/
def Within (sizeofT cap : UInt32) (slot : UInt64) : Prop :=
  kHeaderSize.toNat + (slot.toNat + 1) * sizeofT.toNat ≤ (bytesNeeded sizeofT cap).toNat

theorem toUInt64_sub_one {cap : UInt32} (h : 2 ≤ cap) :
    (cap - 1).toUInt64 = cap.toUInt64 - 1 := by
  have h' := UInt32.le_iff_toNat_le.mp h
  have hlt := cap.toNat_lt
  change 2 ≤ _ at h'
  apply UInt64.toNat_inj.mp
  rw [UInt32.toNat_toUInt64, toNat_sub_one_of_pos (by rw [UInt32.toNat_toUInt64]; omega),
    UInt32.toNat_toUInt64, UInt32.toNat_sub_of_le _ _ (UInt32.le_iff_toNat_le.mpr ?_)]
  · rfl
  · change 1 ≤ _
    omega

theorem GoodCapacity.mask_word (h : GoodCapacity sizeofT m cap) :
    cap.toUInt64 &&& (cap.toUInt64 - 1) = 0 := by
  rw [← toUInt64_sub_one h.two_le]
  have := congrArg UInt32.toUInt64 h.power_of_two
  simpa using this

theorem GoodCapacity.pos (h : GoodCapacity sizeofT m cap) : 0 < cap.toUInt64.toNat := by
  have h' := UInt32.le_iff_toNat_le.mp h.two_le
  change 2 ≤ _ at h'
  rw [UInt32.toNat_toUInt64]
  omega

/-- Whatever the index, the masked slot is one of the ring's own. -/
theorem GoodCapacity.slot_within (h : GoodCapacity sizeofT m cap)
    (hmask : r.mask = (cap - 1).toUInt64) (index : UInt64) :
    Within sizeofT cap (r.slot index) := by
  have hslot : (r.slot index).toNat < cap.toNat := by
    rw [ShmSpscRing.slot, hmask, toUInt64_sub_one h.two_le, toNat_and_mask h.pos h.mask_word,
      UInt32.toNat_toUInt64]
    exact Nat.mod_lt _ (UInt32.toNat_toUInt64 cap ▸ h.pos)
  rw [Within, toNat_bytesNeeded]
  exact Nat.add_le_add_left (Nat.mul_le_mul_right _ hslot) 192

theorem goodCapacity_of_not (hcap : ¬ (cap < 2 ∨ cap &&& (cap - 1) ≠ 0))
    (hbytes : ¬ m.bytes < bytesNeeded sizeofT cap) : GoodCapacity sizeofT m cap := by
  simp only [not_or, not_not, UInt32.not_lt] at hcap
  exact ⟨hcap.1, hcap.2, UInt64.not_lt.mp hbytes⟩

theorem precheck_ok (h : precheck sizeofT m cap = .ok) : GoodCapacity sizeofT m cap := by
  unfold precheck at h
  split at h
  · cases h
  · split at h
    · cases h
    · split at h
      · cases h
      · split at h
        · cases h
        · exact goodCapacity_of_not ‹_› ‹_›

/-- Both ways to open a ring check its geometry and cache it. -/
theorem opened_geometry (h : Opened sizeofT m s r) :
    GoodCapacity sizeofT m s.capacity ∧ r.mask = (s.capacity - 1).toUInt64 := by
  rcases h with ⟨out, h⟩ | ⟨capacity, s₀, out, h⟩
  · unfold attach at h
    iterate 6
      split at h
      · cases h
    simp only at h
    split at h
    · cases h
    · split at h
      · cases h
      · obtain ⟨-, rfl⟩ := Prod.mk.inj h
        exact ⟨goodCapacity_of_not ‹_› ‹_›, rfl⟩
  · unfold create at h
    simp only at h
    split at h
    · rename_i hpre
      exact absurd (Prod.mk.inj h).1 hpre
    · rename_i hpre
      obtain ⟨-, h⟩ := Prod.mk.inj h
      obtain ⟨rfl, rfl⟩ := Prod.mk.inj h
      exact ⟨precheck_ok (not_not.mp hpre), rfl⟩

/-- Up to `n` accesses of an `attach`, with nobody in between. -/
def Attach.run (sizeofT : UInt32) (m : Mapping) (s : Segment α) (out : ShmSpscRing) :
    Nat → Attach → Attach
  | n + 1, .next stage => Attach.run sizeofT m s out n (attachStep sizeofT m s out stage)
  | _, a => a

/-- A staged `attach` that nobody disturbs ends as the whole one does. -/
theorem attach_run (m : Mapping) (s : Segment α) (out : ShmSpscRing) :
    Attach.run sizeofT m s out 6 (.next .enter) =
      if (attach sizeofT m s out).1 = .ok then .bound s.capacity (attach sizeofT m s out).2
      else .refused (attach sizeofT m s out).1 := by
  simp only [Attach.run, attachStep, attach]
  by_cases h₁ : m.mem = 0
  · simp [h₁, Attach.run]
  by_cases h₂ : m.mem % kHeaderAlign = 0
  swap
  · simp [h₁, h₂, Attach.run]
  by_cases h₃ : m.bytes < kHeaderSize
  · simp [h₁, h₂, h₃, Attach.run]
  by_cases h₄ : s.magic = kMagic
  swap
  · simp [h₁, h₂, h₃, h₄, Attach.run, attachStep]
  by_cases h₅ : s.version = kVersion
  swap
  · simp [h₁, h₂, h₃, h₄, h₅, Attach.run, attachStep]
  by_cases h₆ : s.elemSize = sizeofT
  swap
  · simp [h₁, h₂, h₃, h₄, h₅, h₆, Attach.run, attachStep]
  by_cases h₇ : s.capacity < 2 ∨ s.capacity &&& (s.capacity - 1) ≠ 0
  · simp [h₁, h₂, h₃, h₄, h₅, h₆, h₇, Attach.run, attachStep]
  by_cases h₈ : m.bytes < bytesNeeded sizeofT s.capacity
  · simp [h₁, h₂, h₃, h₄, h₅, h₆, h₇, h₈, Attach.run, attachStep]
  simp [h₁, h₂, h₃, h₄, h₅, h₆, h₇, h₈, Attach.run, attachStep]

end Geometry

/-! ## A process and whoever shares the segment -/

/-- A turn of the process, with what it calls if it is between two calls, or the
whole segment as the other side leaves it. -/
inductive Turn (α : Type u) where
  | own (op : Op α)
  | peer (segment : Segment α)

structure Shared (α : Type u) where
  process : Process α
  segment : Segment α

section Runs

variable {α : Type u}

def Shared.step (s : Shared α) : Turn α → Shared α × Action α
  | .own op =>
    let r := s.process.step s.segment op
    ({ process := r.1.1, segment := r.1.2 }, r.2)
  | .peer segment => ({ s with segment }, .silent)

/-- The steps of a `push` that is left alone. -/
theorem push_alone (r : ShmSpscRing) (s : Segment α) (value : α) :
    ∃ n, exec Shared.step { process := { ring := r }, segment := s }
        (List.replicate n (.own (.push value))) =
          { process := { ring := r }, segment := (push r s value).1 } ∧
      ((trace Shared.step { process := { ring := r }, segment := s }
        (List.replicate n (.own (.push value)))).map Lib.Event.output).getLast? =
          some (if (push r s value).2 then .pushed s.head s.tail value
            else .pushFull s.head s.tail) := by
  by_cases hfull : s.head - s.tail ≥ s.capacity.toUInt64
  · refine ⟨3, ?_, ?_⟩ <;> simp [exec, trace, Shared.step, Process.step, push, hfull]
  · refine ⟨5, ?_, ?_⟩ <;> simp [exec, trace, Shared.step, Process.step, push, hfull]

/-- The steps of a `pop` that is left alone. -/
theorem pop_alone (r : ShmSpscRing) (s : Segment α) :
    ∃ n, exec Shared.step { process := { ring := r }, segment := s }
        (List.replicate n (.own .pop)) =
          { process := { ring := (pop r s).1.1 }, segment := (pop r s).1.2 } ∧
      ((trace Shared.step { process := { ring := r }, segment := s }
        (List.replicate n (.own .pop))).map Lib.Event.output).getLast? =
          some (match (pop r s).2 with
            | some out => .popped s.head s.tail out
            | none =>
              if s.head = s.tail then .popEmpty s.head s.tail else .popCorrupt s.head s.tail) := by
  by_cases hempty : s.head = s.tail
  · refine ⟨2, ?_, ?_⟩ <;> simp [exec, trace, Shared.step, Process.step, pop, hempty]
  by_cases hbad : s.head - s.tail > s.capacity.toUInt64
  · refine ⟨3, ?_, ?_⟩ <;> simp [exec, trace, Shared.step, Process.step, pop, hempty, hbad]
  · refine ⟨5, ?_, ?_⟩ <;> simp [exec, trace, Shared.step, Process.step, pop, hempty, hbad]

abbrev Event (α : Type u) := Lib.Event (Shared α) (Turn α) (Action α)

/-- The other side leaves the capacity field alone. -/
def KeepsCapacity (cap : UInt32) : Turn α → Prop
  | .own _ => True
  | .peer segment => segment.capacity = cap

/-- The indices a `push` had loaded and what it returned. -/
def Action.pushResult : Action α → Option (UInt64 × UInt64 × Bool)
  | .pushed head tail _ => some (head, tail, true)
  | .pushFull head tail => some (head, tail, false)
  | _ => none

/-- The indices a `pop` had loaded and what it returned. -/
def Action.popResult : Action α → Option (UInt64 × UInt64 × Bool)
  | .popped head tail _ => some (head, tail, true)
  | .popEmpty head tail | .popCorrupt head tail => some (head, tail, false)
  | _ => none

def Action.Returns (a : Action α) : Prop := a.pushResult ≠ none ∨ a.popResult ≠ none

def Action.Refuses : Action α → Prop
  | .pushFull _ _ | .popEmpty _ _ | .popCorrupt _ _ => True
  | _ => False

/-- No step of the call the process is in has written to the segment: of the
steps it has taken since a call last returned, none has. -/
def Unwritten (h : List (Event α)) : Prop :=
  ∀ before call, h = before ++ call → (∀ e ∈ call, ¬ e.output.Returns) →
    ∀ e ∈ call, ∀ op, e.input = .own op → e.post.segment = e.pre.segment

/-- What a step after the history `h` may do, and for what reasons its call
returns. -/
structure Safe (sizeofT cap : UInt32) (h : List (Event α)) (e : Event α) : Prop where
  inside : ∀ slot, e.output = .wrote slot ∨ e.output = .read slot → Within sizeofT cap slot
  push : ∀ head tail ok, e.output.pushResult = some (head, tail, ok) →
    (ok = true ↔ head - tail < cap.toUInt64)
  pop : ∀ head tail ok, e.output.popResult = some (head, tail, ok) →
    (ok = true ↔ 1 ≤ head - tail ∧ head - tail ≤ cap.toUInt64)
  corrupt : ∀ head tail ok, e.output.popResult = some (head, tail, ok) →
    e.post.process.ring.corruption =
      e.pre.process.ring.corruption + if head - tail > cap.toUInt64 then 1 else 0
  counts : e.output.popResult = none →
    e.post.process.ring.corruption = e.pre.process.ring.corruption
  refuses : e.output.Refuses → Unwritten h ∧ e.post.segment = e.pre.segment

/-- What a process knows of the indices it has loaded. -/
def CallOk (cap : UInt32) : Call α → Prop
  | .pushChecked _ head tail | .pushCopied _ head tail => head - tail < cap.toUInt64
  | .popLoaded head tail => head ≠ tail
  | .popChecked head tail | .popCopied head tail _ =>
    head ≠ tail ∧ head - tail ≤ cap.toUInt64
  | .idle | .pushHead _ _ | .pushLoaded _ _ _ | .popTail _ => True

def Call.isCopied : Call α → Bool
  | .pushCopied _ _ _ => true
  | _ => false

structure BoundsInv (cap : UInt32) (h : List (Event α)) (s : Shared α) : Prop where
  capacity : s.segment.capacity = cap
  mask : s.process.ring.mask = (cap - 1).toUInt64
  call : CallOk cap s.process.call
  unwritten : s.process.call.isCopied = false → Unwritten h

theorem unwritten_nil : Unwritten ([] : List (Event α)) := by
  intro before call h _ e he
  obtain ⟨-, rfl⟩ := List.append_eq_nil_iff.mp h.symm
  simp at he

/-- After a return nothing of the next call has happened yet. -/
theorem unwritten_of_returns (h : List (Event α)) {e : Event α} (he : e.output.Returns) :
    Unwritten (h ++ [e]) := by
  intro before call heq hcall x hx
  rcases List.eq_nil_or_concat call with rfl | ⟨call, y, rfl⟩
  · simp at hx
  · rw [List.concat_eq_append] at heq hcall
    rw [← List.append_assoc] at heq
    obtain ⟨-, hy⟩ := List.append_inj' heq rfl
    obtain rfl : e = y := by simpa using hy
    exact absurd he (hcall e (by simp))

theorem Unwritten.concat {h : List (Event α)} (hu : Unwritten h) {e : Event α}
    (he : ∀ op, e.input = .own op → e.post.segment = e.pre.segment) : Unwritten (h ++ [e]) := by
  intro before call heq hcall x hx
  rcases List.eq_nil_or_concat call with rfl | ⟨call, y, rfl⟩
  · simp at hx
  · rw [List.concat_eq_append] at heq hcall hx
    rw [← List.append_assoc] at heq
    obtain ⟨rfl, hy⟩ := List.append_inj' heq rfl
    obtain rfl : e = y := by simpa using hy
    rcases List.mem_append.mp hx with hx | hx
    · exact hu before call rfl (fun z hz => hcall z (by simp [hz])) x hx
    · obtain rfl := List.mem_singleton.mp hx
      exact he

section Step

variable {sizeofT cap : UInt32} {m : Mapping} {h : List (Event α)} {s : Shared α}

theorem one_le_sub_iff (head tail : UInt64) : 1 ≤ head - tail ↔ head ≠ tail := by
  have hh := head.toNat_lt
  have ht := tail.toNat_lt
  rw [UInt64.le_iff_toNat_le, UInt64.toNat_one, UInt64.toNat_sub, ne_eq, ← UInt64.toNat_inj]
  omega

/-- What every step has to establish. -/
def Keeps (sizeofT cap : UInt32) (h : List (Event α)) (s : Shared α) (t : Turn α) : Prop :=
  BoundsInv cap (h ++ [event Shared.step s t]) (s.step t).1 ∧
    Safe sizeofT cap h (event Shared.step s t)

/-- The process moves on to `call` without writing. -/
theorem keeps_silent (hI : BoundsInv cap h s) {op : Op α} (call : Call α)
    (hs : s.step (.own op) = ({ s with process := { s.process with call } }, .silent))
    (hcopied : s.process.call.isCopied = false) (hok : CallOk cap call) :
    Keeps sizeofT cap h s (.own op) := by
  have hpost : ∀ op', (event Shared.step s (.own op)).input = .own op' →
      (event Shared.step s (.own op)).post.segment =
        (event Shared.step s (.own op)).pre.segment := by
    intro op' _
    rw [event_post, hs]
    rfl
  constructor
  · rw [hs]
    exact { hI with call := hok, unwritten := fun _ => (hI.unwritten hcopied).concat hpost }
  · constructor <;> simp [hs, Action.pushResult, Action.popResult, Action.Refuses]

/-- A `push` returns. -/
theorem keeps_push (hI : BoundsInv cap h s) {op : Op α} {segment : Segment α} {a : Action α}
    (hs : s.step (.own op) = ({ process := { ring := s.process.ring }, segment }, a))
    (hcap : segment.capacity = s.segment.capacity) {head tail : UInt64} {ok : Bool}
    (ha : a.pushResult = some (head, tail, ok)) (hok : ok = true ↔ head - tail < cap.toUInt64)
    (hrefuses : a.Refuses → Unwritten h ∧ segment = s.segment) :
    Keeps sizeofT cap h s (.own op) := by
  have hpop : a.popResult = none := by
    cases a <;> simp_all [Action.pushResult, Action.popResult]
  constructor
  · rw [hs]
    refine ⟨hcap.trans hI.capacity, hI.mask, trivial, fun _ => unwritten_of_returns h ?_⟩
    rw [event_output, hs]
    exact .inl (by simp [ha])
  · constructor
    · intro slot hslot
      rw [event_output, hs] at hslot
      rcases hslot with rfl | rfl <;> simp [Action.pushResult] at ha
    · intro head' tail' ok' h'
      rw [event_output, hs] at h'
      obtain ⟨rfl, rfl, rfl⟩ : head = head' ∧ tail = tail' ∧ ok = ok' := by simpa [ha] using h'
      exact hok
    · simp [hs, hpop]
    · simp [hs, hpop]
    · simp [hs]
    · simpa [hs] using hrefuses

/-- A `pop` returns. -/
theorem keeps_pop (hI : BoundsInv cap h s) {op : Op α} {segment : Segment α} {a : Action α}
    {corruption : UInt64}
    (hs : s.step (.own op) =
      ({ process := { ring := { s.process.ring with corruption } }, segment }, a))
    (hcap : segment.capacity = s.segment.capacity) {head tail : UInt64} {ok : Bool}
    (ha : a.popResult = some (head, tail, ok))
    (hok : ok = true ↔ head ≠ tail ∧ head - tail ≤ cap.toUInt64)
    (hcorrupt : corruption =
      s.process.ring.corruption + if head - tail > cap.toUInt64 then 1 else 0)
    (hrefuses : a.Refuses → Unwritten h ∧ segment = s.segment) :
    Keeps sizeofT cap h s (.own op) := by
  have hpush : a.pushResult = none := by
    cases a <;> simp_all [Action.pushResult, Action.popResult]
  constructor
  · rw [hs]
    refine ⟨hcap.trans hI.capacity, hI.mask, trivial, fun _ => unwritten_of_returns h ?_⟩
    rw [event_output, hs]
    exact .inr (by simp [ha])
  · constructor
    · intro slot hslot
      rw [event_output, hs] at hslot
      rcases hslot with rfl | rfl <;> simp [Action.popResult] at ha
    · simp [hs, hpush]
    · intro head' tail' ok' h'
      rw [event_output, hs] at h'
      obtain ⟨rfl, rfl, rfl⟩ : head = head' ∧ tail = tail' ∧ ok = ok' := by simpa [ha] using h'
      rw [one_le_sub_iff]
      exact hok
    · intro head' tail' ok' h'
      rw [event_output, hs] at h'
      obtain ⟨rfl, rfl, rfl⟩ : head = head' ∧ tail = tail' ∧ ok = ok' := by simpa [ha] using h'
      rw [event_post, hs]
      exact hcorrupt
    · simp [hs, ha]
    · simpa [hs] using hrefuses

theorem keeps_own (hgood : GoodCapacity sizeofT m cap) (hI : BoundsInv cap h s) (op : Op α) :
    Keeps sizeofT cap h s (.own op) := by
  have hcap := hI.capacity
  have hok := hI.call
  have hun := hI.unwritten
  cases hc : s.process.call with
  | idle =>
    rw [hc] at hun
    cases op with
    | push value =>
      exact keeps_silent hI (.pushHead value s.segment.head)
        (by simp only [Shared.step, Process.step, hc]) (by rw [hc]; rfl) trivial
    | pop =>
      exact keeps_silent hI (.popTail s.segment.tail)
        (by simp only [Shared.step, Process.step, hc]) (by rw [hc]; rfl) trivial
  | pushHead value head =>
    exact keeps_silent hI (.pushLoaded value head s.segment.tail)
      (by simp only [Shared.step, Process.step, hc]) (by rw [hc]; rfl) trivial
  | pushLoaded value head tail =>
    rw [hc] at hun
    by_cases hfull : head - tail ≥ s.segment.capacity.toUInt64
    · have hs : s.step (.own op) =
          ({ process := { ring := s.process.ring }, segment := s.segment }, .pushFull head tail) := by
        simp only [Shared.step, Process.step, hc, if_pos hfull]
      rw [hcap] at hfull
      exact keeps_push hI hs rfl rfl (by simpa using UInt64.not_lt.mpr hfull) fun _ => ⟨hun rfl, rfl⟩
    · refine keeps_silent hI (.pushChecked value head tail)
        (by simp only [Shared.step, Process.step, hc, if_neg hfull]) (by rw [hc]; rfl) ?_
      rw [hcap] at hfull
      exact UInt64.not_le.mp hfull
  | pushChecked value head tail =>
    rw [hc] at hok
    have hin := hgood.slot_within hI.mask head
    constructor
    · simp only [Shared.step, Process.step, hc]
      exact { hI with call := hok, unwritten := fun hcopied => by cases hcopied }
    · constructor <;>
        simp [Shared.step, Process.step, hc, Action.pushResult, Action.popResult, Action.Refuses, hin]
  | pushCopied value head tail =>
    rw [hc] at hok
    have hs : s.step (.own op) =
        ({ process := { ring := s.process.ring }, segment := { s.segment with head := head + 1 } },
          .pushed head tail value) := by
      simp only [Shared.step, Process.step, hc]
    exact keeps_push hI hs rfl rfl (iff_of_true rfl hok) fun hrefuses => hrefuses.elim
  | popTail tail =>
    rw [hc] at hun
    by_cases hempty : s.segment.head = tail
    · have hs : s.step (.own op) =
          ({ process := { ring := s.process.ring }, segment := s.segment },
            .popEmpty s.segment.head tail) := by
        simp only [Shared.step, Process.step, hc, if_pos hempty]
      refine keeps_pop hI hs rfl rfl (by simp [hempty]) ?_ fun _ => ⟨hun rfl, rfl⟩
      simp [hempty]
    · exact keeps_silent hI (.popLoaded s.segment.head tail)
        (by simp only [Shared.step, Process.step, hc, if_neg hempty]) (by rw [hc]; rfl) hempty
  | popLoaded head tail =>
    rw [hc] at hok hun
    by_cases hbad : head - tail > s.segment.capacity.toUInt64
    · have hs : s.step (.own op) =
          ({ process := { ring := { s.process.ring with
              corruption := s.process.ring.corruption + 1 } }, segment := s.segment },
            .popCorrupt head tail) := by
        simp only [Shared.step, Process.step, hc, if_pos hbad]
      rw [hcap] at hbad
      refine keeps_pop hI hs rfl rfl ?_ (by rw [if_pos hbad]) fun _ => ⟨hun rfl, rfl⟩
      simp only [Bool.false_eq_true, false_iff, not_and]
      exact fun _ => UInt64.not_le.mpr hbad
    · refine keeps_silent hI (.popChecked head tail)
        (by simp only [Shared.step, Process.step, hc, if_neg hbad]) (by rw [hc]; rfl) ⟨hok, ?_⟩
      rw [hcap] at hbad
      exact UInt64.not_lt.mp hbad
  | popChecked head tail =>
    rw [hc] at hok hun
    have hin := hgood.slot_within hI.mask tail
    constructor
    · have hpost : (event Shared.step s (.own op)).post.segment = s.segment := by
        simp only [event_post, Shared.step, Process.step, hc]
      have hun' : Unwritten (h ++ [event Shared.step s (.own op)]) :=
        (hun rfl).concat fun _ _ => hpost
      simp only [Shared.step, Process.step, hc] at hun' ⊢
      exact { hI with call := hok, unwritten := fun _ => hun' }
    · constructor <;>
        simp [Shared.step, Process.step, hc, Action.pushResult, Action.popResult, Action.Refuses, hin]
  | popCopied head tail out =>
    rw [hc] at hok
    have hs : s.step (.own op) =
        ({ process := { ring := s.process.ring }, segment := { s.segment with tail := tail + 1 } },
          .popped head tail out) := by
      simp only [Shared.step, Process.step, hc]
    refine keeps_pop hI hs rfl rfl (iff_of_true rfl hok) ?_ fun hrefuses => hrefuses.elim
    rw [if_neg (UInt64.not_lt.mpr hok.2), UInt64.add_zero]

theorem keeps_peer (hI : BoundsInv cap h s) {segment : Segment α} (ht : segment.capacity = cap) :
    Keeps sizeofT cap h s (.peer segment) := by
  constructor
  · refine ⟨ht, hI.mask, hI.call, fun hcopied => (hI.unwritten hcopied).concat ?_⟩
    intro op hop
    cases hop
  · constructor <;> simp [Shared.step, Action.pushResult, Action.popResult, Action.Refuses]

theorem keeps_step (hgood : GoodCapacity sizeofT m cap) (hI : BoundsInv cap h s) (t : Turn α)
    (ht : KeepsCapacity cap t) : Keeps sizeofT cap h s t := by
  cases t with
  | own op => exact keeps_own hgood hI op
  | peer segment => exact keeps_peer hI ht

end Step

/-- **Untrusted indices cannot take an access out of the segment.** Whatever the
memory was when the ring was opened, and whatever the other side puts into the
indices and slots between any two steps: every slot touched lies in the first
`bytesNeeded` bytes of the mapping, each call returns what the two indices it
loaded say, and a call that refuses has written nothing. -/
theorem untrusted_indices_stay_inside {sizeofT : UInt32} {m : Mapping} {s : Segment α}
    {r : ShmSpscRing} (hopen : Opened sizeofT m s r) (turns : List (Turn α))
    (hturns : ∀ t ∈ turns, KeepsCapacity s.capacity t) :
    bytesNeeded sizeofT s.capacity ≤ m.bytes ∧
    ∀ before e after,
      trace Shared.step { process := { ring := r }, segment := s } turns = before ++ e :: after →
      Safe sizeofT s.capacity before e := by
  obtain ⟨hgood, hmask⟩ := opened_geometry hopen
  refine ⟨hgood.fits, fun before e after hrun => ?_⟩
  refine event_of_history Shared.step (P := fun _ t => KeepsCapacity s.capacity t)
    (I := BoundsInv s.capacity)
    (fun h s' t ht hI => (keeps_step hgood hI t ht).1)
    (fun h s' t ht hI => (keeps_step hgood hI t ht).2) _ ?_ turns ?_ before after e hrun
  · exact ⟨rfl, hmask, trivial, fun _ => unwritten_nil⟩
  · exact fun e he => hturns _ (input_mem_of_mem_trace Shared.step _ turns e he)

/-- A head from nowhere, written between the two loads of a `pop`. -/
theorem untrusted_indices_stay_inside_wildHead :
    let s : Segment UInt64 :=
      { magic := kMagic, version := kVersion, capacity := 2, elemSize := 8, head := 1, tail := 0,
        slots := fun _ => 5 }
    let turns : List (Turn UInt64) :=
      [.own .pop, .peer { s with head := 99 }, .own .pop, .own .pop]
    let h := trace Shared.step { process := { ring := (attach 8 ⟨64, 208⟩ s {}).2 }, segment := s } turns
    h.map Lib.Event.output = [.silent, .silent, .silent, .popCorrupt 99 0] ∧
    ∀ before e after, h = before ++ e :: after → Safe 8 2 before e := by
  intro s turns h
  have hopen : Opened 8 ⟨64, 208⟩ s (attach 8 ⟨64, 208⟩ s {}).2 := .inl ⟨{}, by decide⟩
  refine ⟨by decide, (untrusted_indices_stay_inside hopen turns ?_).2⟩
  simp [turns, s, KeepsCapacity]

end Runs

end Lloms.ShmRing
