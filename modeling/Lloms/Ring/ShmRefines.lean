import Lloms.Ring.Fifo
import Lloms.Ring.ShmBounds

/-! When both sides of the segment are this code, the shared-memory ring is the
in-process ring. Call by call the two answer alike, although one tests
`head - tail >= capacity` and the other `head + 1 - tail > Capacity`. Access by
access a step of the shared-memory ring is a step of the in-process one or, where
it only reads the capacity field, none: so what `SpscRing` carries is carried, and
the range check of `pop` never fires. -/
namespace Lloms.ShmRing
open Lib

universe u

variable {α : Type u}

/-! ## Call by call -/

/-- What a call answers. -/
inductive Reply (α : Type u) where
  | pushed (ok : Bool)
  | popped (out : Option α)
  deriving DecidableEq, Repr

/-- The writer's handle, the reader's and the segment between them. -/
structure Handles (α : Type u) where
  writer : ShmSpscRing
  reader : ShmSpscRing
  segment : Segment α

def Handles.call (s : Handles α) : Op α → Handles α × Reply α
  | .push value =>
    let r := push s.writer s.segment value
    ({ s with segment := r.1 }, .pushed r.2)
  | .pop =>
    let r := pop s.reader s.segment
    ({ s with reader := r.1.1, segment := r.1.2 }, .popped r.2)

/-- The same calls on the in-process ring. The message type is trivially copyable,
so a move leaves the slot as it was. -/
def spscCall {cap : SpscRing.Capacity} (s : SpscRing.Ring cap α) :
    Op α → SpscRing.Ring cap α × Reply α
  | .push value =>
    let r := SpscRing.pushWhole s value
    (r.1, .pushed r.2)
  | .pop =>
    let r := SpscRing.popWhole id s
    (r.1, .popped r.2)

/-- The capacity of a segment as the template argument of the in-process ring. -/
def capacityOf {sizeofT capacity : UInt32} {m : Mapping} (h : GoodCapacity sizeofT m capacity) :
    SpscRing.Capacity where
  size := capacity.toUInt64
  two_le := by
    have h' := UInt32.le_iff_toNat_le.mp h.two_le
    rw [UInt64.le_iff_toNat_le, UInt32.toNat_toUInt64]
    exact h'
  power_of_two := h.mask_word

/-- The two tests for a full ring agree as long as the depth is a possible one. -/
theorem full_tests_agree {cap : SpscRing.Capacity} {head tail : UInt64}
    (h : head - tail ≤ cap.size) : head + 1 - tail > cap.size ↔ head - tail ≥ cap.size := by
  have hword := cap.lt_word
  have hnext : head + 1 - tail = head - tail + 1 := by
    apply UInt64.toNat_inj.mp
    simp only [UInt64.toNat_sub, UInt64.toNat_add, UInt64.toNat_one]
    omega
  rw [UInt64.le_iff_toNat_le] at h
  rw [gt_iff_lt, ge_iff_le, UInt64.lt_iff_toNat_lt, UInt64.le_iff_toNat_le, hnext, UInt64.toNat_add,
    UInt64.toNat_one]
  omega

section Calls

variable {cap : SpscRing.Capacity} {s : Handles α} {t : SpscRing.Ring cap α}

/-- The slot of an index in both rings. -/
theorem slot_eq_iff (i j : UInt64) : cap.slot i = cap.slot j ↔ i &&& cap.kMask = j &&& cap.kMask := by
  rw [Fin.ext_iff]
  exact UInt64.toNat_inj

/-- The two rings between calls. Slots that hold no message may differ. -/
structure Alike (s : Handles α) (t : SpscRing.Ring cap α) : Prop where
  capacity : s.segment.capacity.toUInt64 = cap.size
  writer : s.writer.mask = cap.kMask
  reader : s.reader.mask = cap.kMask
  head : s.segment.head = t.head
  tail : s.segment.tail = t.tail
  depth : t.head - t.tail ≤ cap.size
  live : ∀ k, k < t.head - t.tail →
    t.slots (cap.slot (t.tail + k)) = s.segment.slots ((t.tail + k) &&& cap.kMask)

theorem Alike.push (h : Alike s t) (value : α) :
    Alike (s.call (.push value)).1 (spscCall t (.push value)).1 ∧
      (s.call (.push value)).2 = (spscCall t (.push value)).2 := by
  have htests := full_tests_agree h.depth
  by_cases hfull : t.head - t.tail ≥ cap.size
  · have hs : ShmRing.push s.writer s.segment value = (s.segment, false) := by
      rw [ShmRing.push, h.head, h.tail, h.capacity, if_pos hfull]
    have ht : SpscRing.pushWhole t value = (t, false) := by
      rw [SpscRing.pushWhole, if_pos (htests.mpr hfull)]
    simp only [Handles.call, spscCall, hs, ht, and_true]
    exact h
  · have hs : ShmRing.push s.writer s.segment value =
        ({ s.segment with
          slots := Function.update s.segment.slots (t.head &&& cap.kMask) value
          head := t.head + 1 }, true) := by
      have hroom : ¬ s.segment.head - s.segment.tail ≥ s.segment.capacity.toUInt64 := by
        rwa [h.head, h.tail, h.capacity]
      rw [ShmRing.push, if_neg hroom, ShmSpscRing.slot, h.head, h.writer]
    have ht : SpscRing.pushWhole t value =
        ({ t with
          slots := Function.update t.slots (cap.slot t.head) value
          head := t.head + 1 }, true) := by
      rw [SpscRing.pushWhole, if_neg fun hgt => hfull (htests.mp hgt)]
    simp only [Handles.call, spscCall, hs, ht, and_true]
    have hnext : (t.head + 1 - t.tail).toNat = (t.head - t.tail).toNat + 1 := by
      have hword := cap.lt_word
      rw [ge_iff_le, UInt64.not_le, UInt64.lt_iff_toNat_lt] at hfull
      simp only [UInt64.toNat_sub, UInt64.toNat_add, UInt64.toNat_one] at hfull ⊢
      omega
    refine { h with head := rfl, depth := ?_, live := fun k hk => ?_ }
    · rw [ge_iff_le, UInt64.not_le, UInt64.lt_iff_toNat_lt] at hfull
      rw [UInt64.le_iff_toNat_le, hnext]
      exact hfull
    · change k < t.head + 1 - t.tail at hk
      change Function.update t.slots (cap.slot t.head) value (cap.slot (t.tail + k)) =
        Function.update s.segment.slots (t.head &&& cap.kMask) value ((t.tail + k) &&& cap.kMask)
      by_cases hslot : (t.tail + k) &&& cap.kMask = t.head &&& cap.kMask
      · rw [(slot_eq_iff _ _).mpr hslot, hslot, Function.update_self, Function.update_self]
      · rw [Function.update_of_ne (fun he => hslot ((slot_eq_iff _ _).mp he)),
          Function.update_of_ne hslot]
        -- the new message is the one at the old head, and this is not its slot
        have hne : k ≠ t.head - t.tail := by
          rintro rfl
          exact hslot (by rw [UInt64.add_comm, UInt64.sub_add_cancel])
        apply h.live
        rw [UInt64.lt_iff_toNat_lt, hnext] at hk
        rw [ne_eq, ← UInt64.toNat_inj] at hne
        rw [UInt64.lt_iff_toNat_lt]
        omega

theorem Alike.pop (h : Alike s t) :
    Alike (s.call .pop).1 (spscCall t .pop).1 ∧ (s.call .pop).2 = (spscCall t .pop).2 := by
  by_cases hempty : t.head = t.tail
  · have hs : ShmRing.pop s.reader s.segment = ((s.reader, s.segment), none) := by
      rw [ShmRing.pop, h.head, h.tail, if_pos hempty]
    have ht : SpscRing.popWhole id t = (t, none) := by
      rw [SpscRing.popWhole, if_pos hempty.symm]
    simp only [Handles.call, spscCall, hs, ht, and_true]
    exact h
  · have hbad : ¬ s.segment.head - s.segment.tail > s.segment.capacity.toUInt64 := by
      rw [h.head, h.tail, h.capacity]
      exact UInt64.not_lt.mpr h.depth
    have hs : ShmRing.pop s.reader s.segment =
        ((s.reader, { s.segment with tail := t.tail + 1 }),
          some (s.segment.slots (t.tail &&& cap.kMask))) := by
      rw [ShmRing.pop, if_neg (by rwa [h.head, h.tail]), if_neg hbad, ShmSpscRing.slot, h.tail,
        h.reader]
    have ht : SpscRing.popWhole id t =
        ({ t with tail := t.tail + 1 }, some (t.slots (cap.slot t.tail))) := by
      rw [SpscRing.popWhole, if_neg (Ne.symm hempty), id_eq, Function.update_eq_self]
    have hpos : 0 < (t.head - t.tail).toNat := by
      have := (one_le_sub_iff t.head t.tail).mpr hempty
      rw [UInt64.le_iff_toNat_le, UInt64.toNat_one] at this
      exact this
    have hnext : (t.head - (t.tail + 1)).toNat = (t.head - t.tail).toNat - 1 := by
      have hhead := t.head.toNat_lt
      have htail := t.tail.toNat_lt
      simp only [UInt64.toNat_sub, UInt64.toNat_add, UInt64.toNat_one] at hpos ⊢
      omega
    have hdepth := UInt64.le_iff_toNat_le.mp h.depth
    simp only [Handles.call, spscCall, hs, ht, Reply.popped.injEq, Option.some.injEq]
    constructor
    · refine { h with tail := rfl, depth := ?_, live := fun k hk => ?_ }
      · rw [UInt64.le_iff_toNat_le, hnext]
        omega
      · have hlive := h.live (1 + k) ?_
        · rw [← UInt64.add_assoc] at hlive
          exact hlive
        · rw [UInt64.lt_iff_toNat_lt, hnext] at hk
          rw [UInt64.lt_iff_toNat_lt, UInt64.toNat_add, UInt64.toNat_one]
          have hlt := (t.head - t.tail).toNat_lt
          omega
    · have hlive := h.live 0 (UInt64.lt_iff_toNat_lt.mpr hpos)
      rw [UInt64.add_zero] at hlive
      exact hlive.symm

theorem Alike.call (h : Alike s t) (op : Op α) :
    Alike (s.call op).1 (spscCall t op).1 ∧ (s.call op).2 = (spscCall t op).2 := by
  cases op with
  | push value => exact h.push value
  | pop => exact h.pop

end Calls

/-! ## Access by access -/

/-- A writer process, a reader process and the segment between them. -/
structure Pair (α : Type u) where
  writer : Process α
  reader : Process α
  segment : Segment α

def Pair.step (s : Pair α) : SpscRing.Turn α → Pair α × Action α
  | .producer value =>
    let r := s.writer.step s.segment (.push value)
    ({ s with writer := r.1.1, segment := r.1.2 }, r.2)
  | .consumer =>
    let r := s.reader.step s.segment .pop
    ({ s with reader := r.1.1, segment := r.1.2 }, r.2)

abbrev PairEvent (α : Type u) := Lib.Event (Pair α) (SpscRing.Turn α) (Action α)

def Action.pushed? : Action α → Option α
  | .pushed _ _ value => some value
  | _ => none

def Action.popped? : Action α → Option α
  | .popped _ _ out => some out
  | _ => none

/-- The messages whose `push` has returned true. -/
def pushedMessages (h : List (PairEvent α)) : List α := h.filterMap fun e => e.output.pushed?

/-- The messages whose `pop` has returned true. -/
def poppedMessages (h : List (PairEvent α)) : List α := h.filterMap fun e => e.output.popped?

/-- Where the writer stands, as the in-process ring has it: there the test is made
together with the load of `tail`. -/
def writerView (cap : SpscRing.Capacity) : Call α → SpscRing.Producer α
  | .pushHead value head => .loadedHead value head
  | .pushLoaded value head tail => if head - tail ≥ cap.size then .idle else .checked value head
  | .pushChecked value head _ => .checked value head
  | .pushCopied value head _ => .copied value head
  | _ => .idle

def readerView : Call α → SpscRing.Consumer α
  | .popTail tail => .loadedTail tail
  | .popLoaded _ tail => .checked tail
  | .popChecked _ tail => .checked tail
  | .popCopied _ tail out => .copied tail out
  | _ => .idle

/-- The in-process ring that a pair is. -/
def Pair.view (cap : SpscRing.Capacity) (s : Pair α) : SpscRing.Ring cap α where
  head := s.segment.head
  tail := s.segment.tail
  slots := fun i => s.segment.slots (UInt64.ofNat i)
  producer := writerView cap s.writer.call
  consumer := readerView s.reader.call

/-- A call of the writer. -/
def Call.IsPush : Call α → Prop
  | .idle | .pushHead _ _ | .pushLoaded _ _ _ | .pushChecked _ _ _ | .pushCopied _ _ _ => True
  | _ => False

/-- A call of the reader, which has loaded no impossible depth. -/
def Call.IsPop (cap : SpscRing.Capacity) : Call α → Prop
  | .popLoaded head tail => head - tail ≤ cap.size
  | .idle | .popTail _ | .popChecked _ _ | .popCopied _ _ _ => True
  | _ => False

/-- What the steps of a pair keep besides the ring they carry. -/
structure PairOk (cap : SpscRing.Capacity) (s : Pair α) : Prop where
  capacity : s.segment.capacity.toUInt64 = cap.size
  writerMask : s.writer.ring.mask = cap.kMask
  readerMask : s.reader.ring.mask = cap.kMask
  writer : s.writer.call.IsPush
  reader : s.reader.call.IsPop cap
  corruption : s.reader.ring.corruption = 0 ∧ s.writer.ring.corruption = 0

/-- A step is the same step of the in-process ring, or none of its steps. -/
def Simulates (cap : SpscRing.Capacity) (s : Pair α) (t : SpscRing.Turn α) : Prop :=
  ((s.step t).1.view cap = s.view cap ∧ (s.step t).2.pushed? = none ∧ (s.step t).2.popped? = none) ∨
  ((s.step t).1.view cap = (SpscRing.step id (s.view cap) t).1 ∧
    (s.step t).2.pushed? = (SpscRing.step id (s.view cap) t).2.pushed? ∧
    (s.step t).2.popped? = (SpscRing.step id (s.view cap) t).2.popped?)

section Steps

variable {cap : SpscRing.Capacity} {s : Pair α} {index : UInt64} {values outs : List α}

/-- The slots of the view after a copy into the segment. -/
theorem view_update (slots : UInt64 → α) (i : UInt64) (value : α) :
    (fun k : Fin cap.size.toNat => Function.update slots (i &&& cap.kMask) value (UInt64.ofNat k)) =
      Function.update (fun k : Fin cap.size.toNat => slots (UInt64.ofNat k)) (cap.slot i) value := by
  funext k
  have hk : UInt64.ofNat k = i &&& cap.kMask ↔ k = cap.slot i := by
    have hlt := Nat.lt_trans k.isLt cap.size.toNat_lt
    rw [← UInt64.toNat_inj, UInt64.toNat_ofNat_of_lt' hlt, Fin.ext_iff]
    exact Iff.rfl
  by_cases h : k = cap.slot i
  · rw [Function.update_apply, Function.update_apply, if_pos h, if_pos (hk.mpr h)]
  · rw [Function.update_apply, Function.update_apply, if_neg h, if_neg fun he => h (hk.mp he)]

theorem writer_step (hok : PairOk cap s) (hcarries : SpscRing.Carries index values outs (s.view cap))
    (value : α) : PairOk cap (s.step (.producer value)).1 ∧ Simulates cap s (.producer value) := by
  have hcall := hok.writer
  have hview : (s.view cap).producer = writerView cap s.writer.call := rfl
  unfold Simulates
  cases hc : s.writer.call with
  | idle =>
    simp only [hc, writerView] at hview
    simp only [Pair.step, Process.step, hc, SpscRing.step, SpscRing.push, hview]
    exact ⟨{ hok with writer := trivial }, .inr ⟨rfl, rfl, rfl⟩⟩
  | pushHead v head =>
    rw [hc, writerView] at hview
    have hdepth : (s.view cap).head - (s.view cap).tail ≤ cap.size := hcarries.depth_le
    have htests := full_tests_agree hdepth
    rw [← hcarries.loadedHead hview] at htests
    simp only [Pair.step, Process.step, hc, SpscRing.step]
    refine ⟨{ hok with writer := trivial }, .inr ?_⟩
    by_cases hfull : head - (s.view cap).tail ≥ cap.size
    · have hcall' : writerView cap (.pushLoaded v head s.segment.tail) = .idle := if_pos hfull
      rw [SpscRing.push_of_full hview (htests.mpr hfull)]
      refine ⟨?_, rfl, rfl⟩
      simp only [Pair.view, hcall']
    · have hcall' : writerView cap (.pushLoaded v head s.segment.tail) = .checked v head :=
        if_neg hfull
      rw [SpscRing.push_of_room hview (mt htests.mp hfull)]
      refine ⟨?_, rfl, rfl⟩
      simp only [Pair.view, hcall']
  | pushLoaded v head tail =>
    by_cases hfull : head - tail ≥ cap.size
    · have hfull' : head - tail ≥ s.segment.capacity.toUInt64 := hok.capacity ▸ hfull
      simp only [Pair.step, Process.step, hc, if_pos hfull']
      refine ⟨{ hok with writer := trivial }, .inl ⟨?_, rfl, rfl⟩⟩
      simp only [Pair.view, hc, writerView, if_pos hfull]
    · have hfull' : ¬ head - tail ≥ s.segment.capacity.toUInt64 := hok.capacity ▸ hfull
      simp only [Pair.step, Process.step, hc, if_neg hfull']
      refine ⟨{ hok with writer := trivial }, .inl ⟨?_, rfl, rfl⟩⟩
      simp only [Pair.view, hc, writerView, if_neg hfull]
  | pushChecked v head tail =>
    rw [hc, writerView] at hview
    simp only [Pair.step, Process.step, hc, SpscRing.step, SpscRing.push, hview]
    refine ⟨{ hok with writer := trivial }, .inr ⟨?_, rfl, rfl⟩⟩
    simp only [Pair.view, writerView, ShmSpscRing.slot, hok.writerMask, view_update]
  | pushCopied v head tail =>
    rw [hc, writerView] at hview
    simp only [Pair.step, Process.step, hc, SpscRing.step, SpscRing.push, hview]
    exact ⟨{ hok with writer := trivial }, .inr ⟨rfl, rfl, rfl⟩⟩
  | popTail _ | popLoaded _ _ | popChecked _ _ | popCopied _ _ _ =>
    rw [hc] at hcall
    exact hcall.elim

theorem reader_step (hok : PairOk cap s) (hcarries : SpscRing.Carries index values outs (s.view cap)) :
    PairOk cap (s.step .consumer).1 ∧ Simulates cap s .consumer := by
  have hcall := hok.reader
  have hview : (s.view cap).consumer = readerView s.reader.call := rfl
  unfold Simulates
  cases hc : s.reader.call with
  | idle =>
    simp only [hc, readerView] at hview
    simp only [Pair.step, Process.step, hc, SpscRing.step, SpscRing.pop, hview]
    exact ⟨{ hok with reader := trivial }, .inr ⟨rfl, rfl, rfl⟩⟩
  | popTail tail =>
    rw [hc, readerView] at hview
    have hdepth : s.segment.head - s.segment.tail ≤ cap.size := hcarries.depth_le
    have htail : tail = s.segment.tail := hcarries.loadedTail hview
    rw [← htail] at hdepth
    by_cases hempty : s.segment.head = tail
    · rw [SpscRing.step, SpscRing.pop_of_empty hview hempty.symm]
      simp only [Pair.step, Process.step, hc, if_pos hempty]
      exact ⟨{ hok with reader := trivial }, .inr ⟨rfl, rfl, rfl⟩⟩
    · rw [SpscRing.step, SpscRing.pop_of_filled hview (Ne.symm hempty)]
      simp only [Pair.step, Process.step, hc, if_neg hempty]
      exact ⟨{ hok with reader := hdepth }, .inr ⟨rfl, rfl, rfl⟩⟩
  | popLoaded head tail =>
    -- the depth was possible when both indices were loaded, so the check passes
    rw [hc] at hcall
    have hbad : ¬ head - tail > s.segment.capacity.toUInt64 :=
      hok.capacity ▸ UInt64.not_lt.mpr hcall
    simp only [Pair.step, Process.step, hc, if_neg hbad]
    refine ⟨{ hok with reader := trivial }, .inl ⟨?_, rfl, rfl⟩⟩
    simp only [Pair.view, hc, readerView]
  | popChecked head tail =>
    rw [hc, readerView] at hview
    have hslot : (s.view cap).slots (cap.slot tail) = s.segment.slots (tail &&& cap.kMask) :=
      congrArg s.segment.slots UInt64.ofNat_toNat
    simp only [Pair.step, Process.step, hc, SpscRing.step, SpscRing.pop, hview, id_eq,
      Function.update_eq_self]
    refine ⟨{ hok with reader := trivial }, .inr ⟨?_, rfl, rfl⟩⟩
    simp only [Pair.view, readerView, ShmSpscRing.slot, hok.readerMask, ← hslot]
  | popCopied head tail out =>
    rw [hc, readerView] at hview
    simp only [Pair.step, Process.step, hc, SpscRing.step, SpscRing.pop, hview]
    exact ⟨{ hok with reader := trivial }, .inr ⟨rfl, rfl, rfl⟩⟩
  | pushHead _ _ | pushLoaded _ _ _ | pushChecked _ _ _ | pushCopied _ _ _ =>
    rw [hc] at hcall
    exact hcall.elim

theorem pair_step (hok : PairOk cap s) (hcarries : SpscRing.Carries index values outs (s.view cap))
    (t : SpscRing.Turn α) :
    PairOk cap (s.step t).1 ∧
      SpscRing.Carries index (values ++ (s.step t).2.pushed?.toList)
        (outs ++ (s.step t).2.popped?.toList) ((s.step t).1.view cap) := by
  have hstep : PairOk cap (s.step t).1 ∧ Simulates cap s t := by
    cases t with
    | producer value => exact writer_step hok hcarries value
    | consumer => exact reader_step hok hcarries
  refine ⟨hstep.1, ?_⟩
  rcases hstep.2 with ⟨hview, hpush, hpop⟩ | ⟨hview, hpush, hpop⟩
  · rw [hview, hpush, hpop]
    simpa only [Option.toList, List.append_nil] using hcarries
  · rw [hview, hpush, hpop]
    exact hcarries.step id t

end Steps

theorem pushedMessages_concat (h : List (PairEvent α)) (e : PairEvent α) :
    pushedMessages (h ++ [e]) = pushedMessages h ++ e.output.pushed?.toList := by
  rw [pushedMessages, List.filterMap_append]
  cases he : e.output.pushed? <;> simp [pushedMessages, he]

theorem poppedMessages_concat (h : List (PairEvent α)) (e : PairEvent α) :
    poppedMessages (h ++ [e]) = poppedMessages h ++ e.output.popped?.toList := by
  rw [poppedMessages, List.filterMap_append]
  cases he : e.output.popped? <;> simp [poppedMessages, he]

/-- A whole run of a pair. -/
theorem pair_run {cap : SpscRing.Capacity} {s : Pair α} {index : UInt64} (hok : PairOk cap s)
    (hcarries : SpscRing.Carries index [] [] (s.view cap)) (turns : List (SpscRing.Turn α)) :
    PairOk cap (exec Pair.step s turns) ∧
      SpscRing.Carries index (pushedMessages (trace Pair.step s turns))
        (poppedMessages (trace Pair.step s turns)) ((exec Pair.step s turns).view cap) := by
  refine history_induction Pair.step (P := fun _ _ => True)
    (I := fun h s => PairOk cap s ∧
      SpscRing.Carries index (pushedMessages h) (poppedMessages h) (s.view cap))
    (fun h s t _ hI => ?_) s ⟨hok, hcarries⟩ turns (fun _ _ => trivial)
  rw [pushedMessages_concat, poppedMessages_concat]
  exact pair_step hI.1 hI.2 t

/-! ## Both -/

section Opening

variable {sizeofT capacity : UInt32} {m : Mapping}

theorem precheck_of_good (hgood : GoodCapacity sizeofT m capacity) (hmem : m.mem ≠ 0)
    (halign : m.mem % kHeaderAlign = 0) : precheck sizeofT m capacity = .ok := by
  have hcap : ¬ (capacity < 2 ∨ capacity &&& (capacity - 1) ≠ 0) := by
    simpa [UInt32.not_lt] using And.intro hgood.two_le hgood.power_of_two
  rw [precheck, if_neg hmem, if_neg (not_not.mpr halign), if_neg hcap,
    if_neg (UInt64.not_lt.mpr hgood.fits)]

/-- `attach` accepts what `create` wrote, wherever the indices stand. -/
theorem attach_of_good (hgood : GoodCapacity sizeofT m capacity) (hmem : m.mem ≠ 0)
    (halign : m.mem % kHeaderAlign = 0) {s : Segment α} (hmagic : s.magic = kMagic)
    (hversion : s.version = kVersion) (helem : s.elemSize = sizeofT) (hcapacity : s.capacity = capacity)
    (out : ShmSpscRing) : attach sizeofT m s out = (.ok, out.bind s) := by
  have hcap : ¬ (s.capacity < 2 ∨ s.capacity &&& (s.capacity - 1) ≠ 0) := by
    rw [hcapacity]
    simpa [UInt32.not_lt] using And.intro hgood.two_le hgood.power_of_two
  have hheader : ¬ m.bytes < kHeaderSize := by
    have hfits := UInt64.le_iff_toNat_le.mp hgood.fits
    rw [toNat_bytesNeeded] at hfits
    rw [UInt64.not_lt, UInt64.le_iff_toNat_le]
    exact le_trans (Nat.le_add_right 192 _) hfits
  have hbytes : ¬ m.bytes < bytesNeeded sizeofT s.capacity := by
    rw [hcapacity]
    exact UInt64.not_lt.mpr hgood.fits
  simp only [attach, if_neg hmem, if_neg (not_not.mpr halign), if_neg hheader,
    if_neg (not_not.mpr hmagic), if_neg (not_not.mpr hversion), if_neg (not_not.mpr helem), if_neg hcap,
    if_neg hbytes]

end Opening

/-- **The shared-memory ring is the in-process ring.** For every capacity that can
be created on the mapping, with the writer's handle from `create`, the reader's
from `attach` and the indices at any common start: any sequence of calls is
answered as `SpscRingBuffer` of that capacity answers it, and under any
interleaving of the single accesses the reader pops a prefix of what was pushed
and no corruption is counted. -/
theorem shm_ring_is_spsc_ring {sizeofT capacity : UInt32} {m : Mapping}
    (hgood : GoodCapacity sizeofT m capacity) (hmem : m.mem ≠ 0)
    (halign : m.mem % kHeaderAlign = 0) (memory : Segment α) (index : UInt64) :
    let created := create sizeofT m capacity memory {}
    let segment := { created.2.1 with head := index, tail := index }
    let attached := attach sizeofT m segment {}
    created.1 = .ok ∧ attached.1 = .ok ∧
    (∀ slots ops,
      (trace Handles.call { writer := created.2.2, reader := attached.2, segment } ops).map
          Lib.Event.output =
        (trace spscCall (SpscRing.start (capacityOf hgood) index slots) ops).map
          Lib.Event.output) ∧
    ∀ turns,
      let s : Pair α :=
        { writer := { ring := created.2.2 }, reader := { ring := attached.2 }, segment }
      poppedMessages (trace Pair.step s turns) <+: pushedMessages (trace Pair.step s turns) ∧
      (exec Pair.step s turns).reader.ring.corruption = 0 ∧
      (exec Pair.step s turns).writer.ring.corruption = 0 := by
  intro created segment attached
  have hcreated : created = (.ok, { memory with
      capacity, elemSize := sizeofT, version := kVersion, head := 0, tail := 0, magic := kMagic },
      { valid := true, mask := (capacity - 1).toUInt64 }) := by
    simp only [created, create, precheck_of_good hgood hmem halign]
    rfl
  have hsegment : segment = { memory with
      capacity, elemSize := sizeofT, version := kVersion, head := index, tail := index,
      magic := kMagic } := by
    simp only [segment, hcreated]
  have hattached : attached = (.ok, { valid := true, mask := (capacity - 1).toUInt64 }) := by
    have h := attach_of_good hgood hmem halign (s := segment) (by rw [hsegment]) (by rw [hsegment])
      (by rw [hsegment]) (by rw [hsegment]) {}
    exact h.trans (by rw [ShmSpscRing.bind, hsegment])
  have hmask : (capacity - 1).toUInt64 = (capacityOf hgood).kMask := toUInt64_sub_one hgood.two_le
  rw [hcreated, hattached, hsegment]
  refine ⟨rfl, rfl, fun slots ops => ?_, fun turns => ?_⟩
  · refine (lockstep Handles.call spscCall (P := fun _ _ => True) (R := Alike)
      (fun s t op _ h => h.call op) _ _ ?_ ops fun _ _ => trivial).2
    have hdepth : index - index = 0 := UInt64.sub_self index
    exact
      { capacity := rfl, writer := hmask, reader := hmask, head := rfl, tail := rfl
        depth := by
          change index - index ≤ _
          rw [hdepth]
          exact UInt64.zero_le
        live := fun k hk => by
          change k < index - index at hk
          rw [hdepth] at hk
          exact absurd hk UInt64.not_lt_zero }
  · intro s
    have hok : PairOk (capacityOf hgood) s := ⟨rfl, hmask, hmask, trivial, trivial, rfl, rfl⟩
    have hcarries : SpscRing.Carries index [] [] (s.view (capacityOf hgood)) :=
      SpscRing.start_carries index _
    obtain ⟨hok', hcarries'⟩ := pair_run hok hcarries turns
    exact ⟨hcarries'.fifo, hok'.corruption⟩

/-- Two slots, indices two short of the wrap, and the reader at work while the
writer fills the ring. -/
theorem shm_ring_is_spsc_ring_wrap :
    let created := create 8 ⟨64, 208⟩ 2
      ({ magic := 0, version := 0, capacity := 0, elemSize := 0, head := 0, tail := 0,
         slots := fun _ => 0 } : Segment UInt64) {}
    let segment := { created.2.1 with head := 0xFFFFFFFFFFFFFFFE, tail := 0xFFFFFFFFFFFFFFFE }
    let attached := attach 8 ⟨64, 208⟩ segment {}
    let s : Pair UInt64 :=
      { writer := { ring := created.2.2 }, reader := { ring := attached.2 }, segment }
    let turns : List (SpscRing.Turn UInt64) :=
      List.replicate 5 (.producer 1) ++ List.replicate 5 (.producer 2) ++
        [.producer 3, .consumer, .consumer, .producer 3, .consumer, .consumer, .consumer]
    created.1 = .ok ∧ attached.1 = .ok ∧
    pushedMessages (trace Pair.step s turns) = [1, 2] ∧
    poppedMessages (trace Pair.step s turns) = [1] ∧
    (exec Pair.step s turns).reader.ring.corruption = 0 := by
  have hgood : GoodCapacity 8 ⟨64, 208⟩ 2 := ⟨by decide, by decide, by decide⟩
  intro created segment attached s turns
  have hring := shm_ring_is_spsc_ring hgood (by decide) (by decide)
    { magic := 0, version := 0, capacity := 0, elemSize := 0, head := 0, tail := 0,
      slots := fun _ => (0 : UInt64) } 0xFFFFFFFFFFFFFFFE
  obtain ⟨hcreated, hattached, -, hruns⟩ := hring
  obtain ⟨-, hcorruption, -⟩ := hruns turns
  refine ⟨hcreated, hattached, by decide +kernel, by decide +kernel, ?_⟩
  rw [hcorruption]

end Lloms.ShmRing
