import Lloms.Ring.ShmBounds

/-! The capacity that `attach` checked is a local variable. `bind` reads the field
again for the mask, and every `push` and `pop` reads it again for its test, so the
geometry in use is the checked one only while the other side leaves the field
alone at those reads. Here the other side may rewrite the whole header. -/
namespace Lloms.ShmRing
open Lib

universe u

/-- A process from the start of its `attach` on. `cap` in `attached` is the value
the checks of that `attach` were made on. -/
inductive Phase (α : Type u) where
  | attaching (stage : Stage) (out : ShmSpscRing)
  | refused (status : ShmAttachStatus)
  | attached (cap : UInt32) (process : Process α)

structure Client (α : Type u) where
  phase : Phase α
  segment : Segment α

section Client

variable {α : Type u}

/-- One access of the process, or the segment as the other side leaves it. -/
def Client.step (sizeofT : UInt32) (m : Mapping) (s : Client α) : Turn α → Client α × Action α
  | .peer segment => ({ s with segment }, .silent)
  | .own op =>
    match s.phase with
    | .attaching stage out =>
      match attachStep sizeofT m s.segment out stage with
      | .next stage' => ({ s with phase := .attaching stage' out }, .silent)
      | .refused status => ({ s with phase := .refused status }, .silent)
      | .bound cap ring => ({ s with phase := .attached cap { ring } }, .silent)
    | .refused _ => (s, .silent)
    | .attached cap process =>
      let r := process.step s.segment op
      ({ phase := .attached cap r.1.1, segment := r.1.2 }, r.2)

abbrev ClientEvent (α : Type u) := Lib.Event (Client α) (Turn α) (Action α)

/-- The handle once there is one, and the capacity that was checked for it. -/
def Phase.handle? : Phase α → Option (UInt32 × ShmSpscRing)
  | .attached cap process => some (cap, process.ring)
  | _ => none

/-- The mask is that of the checked capacity. -/
def MaskChecked (s : Client α) : Prop :=
  ∀ cap ring, s.phase.handle? = some (cap, ring) → ring.mask = (cap - 1).toUInt64

/-- What a call accepts is within the checked capacity. -/
def DepthChecked (e : ClientEvent α) : Prop :=
  ∀ cap ring, e.pre.phase.handle? = some (cap, ring) →
    (∀ head tail value, e.output = .pushed head tail value → head - tail < cap.toUInt64) ∧
    (∀ head tail out, e.output = .popped head tail out → head - tail ≤ cap.toUInt64)

/-- The process tests its depth at its next step. -/
def Call.IsTest : Call α → Prop
  | .pushLoaded _ _ _ | .popLoaded _ _ => True
  | _ => False

/-- The field as the process is about to read it: `bind` finds the checked value,
and a test of the depth finds no larger one. -/
def Phase.Trusts (segment : Segment α) : Phase α → Prop
  | .attaching (.bind cap) _ => segment.capacity = cap
  | .attached cap process => process.call.IsTest → segment.capacity ≤ cap
  | _ => True

def Turn.isOwn : Turn α → Bool
  | .own _ => true
  | .peer _ => false

instance (call : Call α) : Decidable call.IsTest :=
  match call with
  | .pushLoaded _ _ _ | .popLoaded _ _ => isTrue trivial
  | .idle | .pushHead _ _ | .pushChecked _ _ _ | .pushCopied _ _ _ | .popTail _ | .popChecked _ _
  | .popCopied _ _ _ => isFalse id

instance (segment : Segment α) (phase : Phase α) : Decidable (phase.Trusts segment) :=
  match phase with
  | .attaching (.bind cap) _ => inferInstanceAs (Decidable (segment.capacity = cap))
  | .attached cap process =>
    inferInstanceAs (Decidable (process.call.IsTest → segment.capacity ≤ cap))
  | .attaching .enter _ | .attaching .readMagic _ | .attaching .readVersion _
  | .attaching .readElemSize _ | .attaching .readCapacity _ | .refused _ => isTrue trivial

/-- What a client knows once it is attached. -/
def ClientOk (s : Client α) : Prop :=
  ∀ cap process, s.phase = .attached cap process →
    process.ring.mask = (cap - 1).toUInt64 ∧ CallOk cap process.call

section Step

variable {sizeofT : UInt32} {m : Mapping} {s : Client α}

theorem toUInt64_le_toUInt64 {a b : UInt32} (h : a ≤ b) : a.toUInt64 ≤ b.toUInt64 := by
  rw [UInt64.le_iff_toNat_le, UInt32.toNat_toUInt64, UInt32.toNat_toUInt64]
  exact UInt32.le_iff_toNat_le.mp h

/-- A call keeps to the checked capacity if its test read no larger one. -/
theorem process_step_ok {cap : UInt32} {p : Process α} (segment : Segment α) (op : Op α)
    (hok : CallOk cap p.call) (hfield : p.call.IsTest → segment.capacity ≤ cap) :
    (p.step segment op).1.1.ring.mask = p.ring.mask ∧ CallOk cap (p.step segment op).1.1.call := by
  cases hc : p.call with
  | idle => cases op <;> simp [Process.step, hc, CallOk]
  | pushHead value head => simp [Process.step, hc, CallOk]
  | pushLoaded value head tail =>
    rw [hc] at hfield
    have hle := toUInt64_le_toUInt64 (hfield trivial)
    by_cases hfull : head - tail ≥ segment.capacity.toUInt64
    · simp [Process.step, hc, hfull, CallOk]
    · simp only [Process.step, hc, if_neg hfull, CallOk, true_and]
      exact (UInt64.not_le.mp hfull).trans_le hle
  | pushChecked value head tail =>
    rw [hc] at hok
    simp only [Process.step, hc, true_and]
    exact hok
  | pushCopied value head tail => simp [Process.step, hc, CallOk]
  | popTail tail =>
    by_cases hempty : segment.head = tail
    · simp [Process.step, hc, hempty, CallOk]
    · simp [Process.step, hc, hempty, CallOk]
  | popLoaded head tail =>
    rw [hc] at hok hfield
    have hle := toUInt64_le_toUInt64 (hfield trivial)
    by_cases hbad : head - tail > segment.capacity.toUInt64
    · simp [Process.step, hc, hbad, CallOk]
    · simp only [Process.step, hc, if_neg hbad, CallOk, true_and]
      exact ⟨hok, (UInt64.not_lt.mp hbad).trans hle⟩
  | popChecked head tail =>
    rw [hc] at hok
    simp only [Process.step, hc, true_and]
    exact hok
  | popCopied head tail out => simp [Process.step, hc, CallOk]

/-- What a call accepts was within the capacity when it was tested. -/
theorem process_accepts {cap : UInt32} {p : Process α} (segment : Segment α) (op : Op α)
    (hok : CallOk cap p.call) :
    (∀ head tail value, (p.step segment op).2 = .pushed head tail value →
      head - tail < cap.toUInt64) ∧
    (∀ head tail out, (p.step segment op).2 = .popped head tail out →
      head - tail ≤ cap.toUInt64) := by
  cases hc : p.call with
  | idle => cases op <;> simp [Process.step, hc]
  | pushCopied value head tail =>
    rw [hc] at hok
    simp only [Process.step, hc, Action.pushed.injEq, reduceCtorEq, false_implies, implies_true,
      and_true]
    rintro _ _ _ ⟨rfl, rfl, -⟩
    exact hok
  | popCopied head tail out =>
    rw [hc] at hok
    simp only [Process.step, hc, Action.popped.injEq, reduceCtorEq, false_implies, implies_true,
      true_and]
    rintro _ _ _ ⟨rfl, rfl, -⟩
    exact hok.2
  | pushHead value head => simp [Process.step, hc]
  | pushLoaded value head tail =>
    by_cases hfull : head - tail ≥ segment.capacity.toUInt64 <;> simp [Process.step, hc, hfull]
  | pushChecked value head tail => simp [Process.step, hc]
  | popTail tail => by_cases hempty : segment.head = tail <;> simp [Process.step, hc, hempty]
  | popLoaded head tail =>
    by_cases hbad : head - tail > segment.capacity.toUInt64 <;> simp [Process.step, hc, hbad]
  | popChecked head tail => simp [Process.step, hc]

theorem attachStep_bound {stage : Stage} {out ring : ShmSpscRing} {cap : UInt32}
    {segment : Segment α} (h : attachStep sizeofT m segment out stage = .bound cap ring) :
    stage = .bind cap ∧ ring = out.bind segment := by
  cases stage with
  | bind cap' =>
    simp only [attachStep, Attach.bound.injEq] at h
    exact ⟨by rw [h.1], h.2.symm⟩
  | enter | readMagic | readVersion | readElemSize | readCapacity =>
    simp only [attachStep] at h
    split_ifs at h

theorem client_step (hok : ClientOk s) (t : Turn α)
    (ht : t.isOwn = true → s.phase.Trusts s.segment) :
    ClientOk (s.step sizeofT m t).1 := by
  cases t with
  | peer segment => exact hok
  | own op =>
    have htrust := ht rfl
    cases hphase : s.phase with
    | attaching stage out =>
      rw [hphase] at htrust
      cases hstep : attachStep sizeofT m s.segment out stage with
      | next stage' => simp [ClientOk, Client.step, hphase, hstep]
      | refused status => simp [ClientOk, Client.step, hphase, hstep]
      | bound cap ring =>
        obtain ⟨rfl, rfl⟩ := attachStep_bound hstep
        simp only [ClientOk, Client.step, hphase, hstep, Phase.attached.injEq]
        rintro _ _ ⟨rfl, rfl⟩
        have hcap : s.segment.capacity = cap := htrust
        exact ⟨by rw [ShmSpscRing.bind, hcap], trivial⟩
    | refused status => simp [ClientOk, Client.step, hphase]
    | attached cap process =>
      rw [hphase] at htrust
      obtain ⟨hmask, hcall⟩ := hok cap process hphase
      have hstep := process_step_ok s.segment op hcall htrust
      simp only [ClientOk, Client.step, hphase, Phase.attached.injEq]
      rintro _ _ ⟨rfl, rfl⟩
      exact ⟨hstep.1.trans hmask, hstep.2⟩

theorem attached_of_handle {phase : Phase α} {cap : UInt32} {ring : ShmSpscRing}
    (h : phase.handle? = some (cap, ring)) :
    ∃ process, phase = .attached cap process ∧ process.ring = ring := by
  cases phase with
  | attached cap' process =>
    simp only [Phase.handle?, Option.some.injEq, Prod.mk.injEq] at h
    exact ⟨process, by rw [h.1], h.2⟩
  | attaching stage out => cases h
  | refused status => cases h

theorem client_accepts (hok : ClientOk s) (t : Turn α) :
    DepthChecked (event (Client.step sizeofT m) s t) := by
  intro cap ring hhandle
  obtain ⟨process, hphase, -⟩ := attached_of_handle hhandle
  rw [event_pre] at hphase
  cases t with
  | peer segment => simp [Client.step]
  | own op =>
    have haccepts := process_accepts s.segment op (hok cap process hphase).2
    simp only [event_output, Client.step, hphase]
    exact haccepts

end Step

/-- **The geometry in use is the checked one** as long as the capacity field, at
the moments the process reads it again, has not been changed before `bind` and has
not grown after it. -/
theorem geometry_stays_checked (sizeofT : UInt32) (m : Mapping) (out : ShmSpscRing)
    (segment : Segment α) (turns : List (Turn α))
    (htrust : ∀ e ∈ trace (Client.step sizeofT m) { phase := .attaching .enter out, segment } turns,
      e.input.isOwn = true → e.pre.phase.Trusts e.pre.segment) :
    (∀ s ∈ states (Client.step sizeofT m) { phase := .attaching .enter out, segment } turns,
      MaskChecked s) ∧
    ∀ e ∈ trace (Client.step sizeofT m) { phase := .attaching .enter out, segment } turns,
      DepthChecked e := by
  have hstart : ClientOk ({ phase := .attaching .enter out, segment } : Client α) := by
    intro cap process h
    cases h
  have hstates := states_induction (Client.step sizeofT m)
    (P := fun s t => t.isOwn = true → s.phase.Trusts s.segment) (I := ClientOk)
    (fun s t ht hok => client_step hok t ht) _ hstart turns htrust
  constructor
  · intro s hs cap ring hhandle
    obtain ⟨process, hphase, rfl⟩ := attached_of_handle hhandle
    exact (hstates s hs cap process hphase).1
  · intro e he
    obtain ⟨before, after, hrun⟩ := List.append_of_mem he
    exact event_of_history (Client.step sizeofT m)
      (P := fun s t => t.isOwn = true → s.phase.Trusts s.segment) (I := fun _ s => ClientOk s)
      (Q := fun _ e => DepthChecked e) (fun _ s t ht hok => client_step hok t ht)
      (fun _ s t _ hok => client_accepts hok t) _ hstart turns htrust before after e hrun

/-- A push after an `attach`, with the field raised and put back in between. -/
theorem geometry_stays_checked_restored :
    let segment : Segment UInt64 :=
      { magic := kMagic, version := kVersion, capacity := 2, elemSize := 8, head := 1, tail := 0,
        slots := fun _ => 5 }
    let turns : List (Turn UInt64) :=
      List.replicate 7 (.own (.push 7)) ++ [.peer { segment with capacity := 4 }, .peer segment] ++
        List.replicate 4 (.own (.push 7))
    let h := trace (Client.step 8 ⟨64, 208⟩) { phase := .attaching .enter {}, segment } turns
    (h.map Lib.Event.output).getLast? = some (.pushed 1 0 7) ∧ ∀ e ∈ h, DepthChecked e := by
  intro segment turns h
  exact ⟨by decide, (geometry_stays_checked 8 ⟨64, 208⟩ {} segment turns (by decide)).2⟩

/-- The field raised under a live handle: between the check and `bind` it makes the
mask of another ring, and later a full ring takes one message more. -/
theorem raised_capacity_believed :
    let segment : Segment UInt64 :=
      { magic := kMagic, version := kVersion, capacity := 2, elemSize := 8, head := 2, tail := 0,
        slots := fun _ => 5 }
    let raise : Turn UInt64 := .peer { segment with capacity := 4 }
    let start : Client UInt64 := { phase := .attaching .enter {}, segment }
    let early : List (Turn UInt64) := List.replicate 5 (.own .pop) ++ [raise] ++ [.own .pop]
    let late : List (Turn UInt64) :=
      List.replicate 6 (.own .pop) ++ [raise] ++ List.replicate 5 (.own (.push 7))
    (∃ s ∈ states (Client.step 8 ⟨64, 208⟩) start early, ¬ MaskChecked s) ∧
    ∃ e ∈ trace (Client.step 8 ⟨64, 208⟩) start late, ¬ DepthChecked e := by
  intro segment raise start early late
  constructor
  · refine ⟨_, exec_mem_states _ start early, fun h => ?_⟩
    have hmask := h 2 { valid := true, mask := 3 } (by decide)
    exact absurd hmask (by decide)
  · have hlate : late = late.dropLast ++ [.own (.push 7)] := rfl
    rw [hlate, trace_concat]
    refine ⟨_, List.mem_append_right _ (List.mem_singleton_self _), fun h => ?_⟩
    have hdepth := (h 2 { valid := true, mask := 1 } (by decide)).1 2 0 7 (by decide)
    exact absurd hdepth (by decide)

end Client

end Lloms.ShmRing
