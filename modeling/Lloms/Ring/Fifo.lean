import Lloms.Ring.Spsc

/-! Every interleaving of the ring is a FIFO. The invariant counts completed
pushes and pops in the history; both indices are those counts from the common
start, so the modular tests compare true counts whatever the wrap. -/
namespace Lloms.SpscRing
open Lib

universe u

variable {α : Type u} {cap : Capacity}

/-! ## What a history says -/

/-- The values whose push has returned true. -/
def pushedValues (h : List (Event cap α)) : List α :=
  h.filterMap fun e => match e.output with
    | .pushed value => some value
    | _ => none

/-- The values whose pop has returned true. -/
def poppedValues (h : List (Event cap α)) : List α :=
  h.filterMap fun e => match e.output with
    | .popped _ out => some out
    | _ => none

/-- The slot has been written, and the pop that takes the value out has not
returned since. -/
def Unread (h : List (Event cap α)) (i : Fin cap.size.toNat) : Prop :=
  Since (fun e => e.output = .wrote i) (fun e => ∃ out, e.output = .popped i out) h

/-- What must hold whenever a step is taken after the history `h`. -/
structure Sound (h : List (Event cap α)) (e : Event cap α) : Prop where
  keeps_unread : ∀ i, e.output = .wrote i → ¬ Unread h i
  reads_written : ∀ i, e.output = .read i → Unread h i
  full : e.output = .pushFailed →
    (pushedValues h).length = (poppedValues h).length + cap.size.toNat
  empty : e.output = .popFailed → (pushedValues h).length = (poppedValues h).length

/-! ## The invariant -/

/-- The slot of the `k`-th value, counted from the start of the run. -/
def slotOf (cap : Capacity) (index : UInt64) (k : Nat) : Fin cap.size.toNat :=
  cap.slot (index + UInt64.ofNat k)

/-- How many values have been copied in, given how many pushes returned. -/
def Producer.written (n : Nat) : Producer α → Nat
  | .copied _ _ => n + 1
  | _ => n

/-- How many values have been copied out, given how many pops returned. -/
def Consumer.read (n : Nat) : Consumer α → Nat
  | .copied _ _ => n + 1
  | _ => n

/-- The producer's local copy is its own index, and once it has passed its test
there is room. -/
def ProducerOk (s : Ring cap α) (pushes pops : Nat) : Prop :=
  match s.producer with
  | .idle => True
  | .loadedHead _ head => head = s.head
  | .checked _ head => head = s.head ∧ pushes < pops + cap.size.toNat
  | .copied value head =>
    head = s.head ∧ pushes < pops + cap.size.toNat ∧ s.slots (cap.slot head) = value

/-- The consumer's local copy is its own index, and once it has passed its test
there is a value. -/
def ConsumerOk (s : Ring cap α) (values : List α) (pops : Nat) : Prop :=
  match s.consumer with
  | .idle => True
  | .loadedTail tail => tail = s.tail
  | .checked tail => tail = s.tail ∧ pops < values.length
  | .copied tail out => tail = s.tail ∧ values[pops]? = some out

/-- The consumer's steps leave what the producer knows true: pops only make
room. -/
theorem ProducerOk.mono {s t : Ring cap α} {n m m' : Nat} (h : ProducerOk s n m)
    (hp : t.producer = s.producer) (hh : t.head = s.head) (hm : m ≤ m')
    (hs : ∀ value head, s.producer = .copied value head →
      t.slots (cap.slot head) = s.slots (cap.slot head)) : ProducerOk t n m' := by
  unfold ProducerOk at h ⊢
  rw [hp, hh]
  cases hc : s.producer with
  | idle => trivial
  | loadedHead value head =>
    rw [hc] at h
    exact h
  | checked value head =>
    rw [hc] at h
    exact ⟨h.1, by omega⟩
  | copied value head =>
    rw [hc] at h
    exact ⟨h.1, by omega, (hs value head hc).trans h.2.2⟩

/-- The producer's steps leave what the consumer knows true: pushes only add
values. -/
theorem ConsumerOk.mono {s t : Ring cap α} {values values' : List α} {m : Nat}
    (h : ConsumerOk s values m) (hc : t.consumer = s.consumer) (ht : t.tail = s.tail)
    (hv : values <+: values') : ConsumerOk t values' m := by
  have hle := hv.length_le
  unfold ConsumerOk at h ⊢
  rw [hc, ht]
  cases hs : s.consumer with
  | idle => trivial
  | loadedTail tail =>
    rw [hs] at h
    exact h
  | checked tail =>
    rw [hs] at h
    exact ⟨h.1, by omega⟩
  | copied tail out =>
    rw [hs] at h
    obtain ⟨rest, rfl⟩ := hv
    rw [List.getElem?_append_left (List.getElem?_eq_some_iff.mp h.2).1]
    exact h

/-- The ring after pushes of `values` and pops of `outs` have returned, with the
slots in `unread` still to be taken out. -/
structure Inv (index : UInt64) (values outs : List α) (unread : Fin cap.size.toNat → Prop)
    (s : Ring cap α) : Prop where
  head : s.head = index + UInt64.ofNat values.length
  tail : s.tail = index + UInt64.ofNat outs.length
  fifo : outs <+: values
  room : values.length ≤ outs.length + cap.size.toNat
  producer : ProducerOk s values.length outs.length
  consumer : ConsumerOk s values outs.length
  contents : ∀ k v, s.consumer.read outs.length ≤ k → values[k]? = some v →
    s.slots (slotOf cap index k) = v
  unread : ∀ i, unread i ↔ ∃ k, outs.length ≤ k ∧ k < s.producer.written values.length ∧
    slotOf cap index k = i

section Steps

variable {index : UInt64} {values outs : List α} {unread : Fin cap.size.toNat → Prop}
  {s : Ring cap α}

/-- The producer moves on without touching the memory. -/
theorem Inv.setProducer (h : Inv index values outs unread s) (p : Producer α)
    (hw : p.written values.length = s.producer.written values.length)
    (hok : ProducerOk { s with producer := p } values.length outs.length) :
    Inv index values outs unread { s with producer := p } :=
  { h with producer := hok, unread := fun i => by rw [h.unread i, hw] }

theorem Inv.congr (h : Inv index values outs unread s) {unread' : Fin cap.size.toNat → Prop}
    (hu : ∀ i, unread' i ↔ unread i) : Inv index values outs unread' s :=
  { h with unread := fun i => (hu i).trans (h.unread i) }

theorem Inv.setConsumer (h : Inv index values outs unread s) (c : Consumer α)
    (hr : c.read outs.length = s.consumer.read outs.length)
    (hok : ConsumerOk { s with consumer := c } values outs.length) :
    Inv index values outs unread { s with consumer := c } :=
  { h with consumer := hok, contents := fun k v hk => h.contents k v (hr ▸ hk) }

/-- The producer's test compares the true counts. -/
theorem Inv.full_iff (h : Inv index values outs unread s) :
    s.head + 1 - s.tail > cap.size ↔ values.length = outs.length + cap.size.toNat := by
  have hle := h.fifo.length_le
  have hroom := h.room
  have hword := cap.lt_word
  have hnext : s.head + 1 = index + UInt64.ofNat (values.length + 1) := by
    rw [h.head, UInt64.ofNat_add, UInt64.add_assoc]
    rfl
  rw [gt_iff_lt, UInt64.lt_iff_toNat_lt, hnext, h.tail,
    toNat_add_ofNat_sub (by omega) (by omega)]
  omega

theorem Inv.empty_iff (h : Inv index values outs unread s) :
    s.tail = s.head ↔ values.length = outs.length := by
  have hle := h.fifo.length_le
  have hroom := h.room
  have hword := cap.lt_word
  rw [h.head, h.tail]
  constructor
  · intro he
    exact (add_ofNat_inj hle (by omega) he).symm
  · intro he
    rw [he]

/-- The slot the producer is about to write holds nothing unread. -/
theorem Inv.write_free (h : Inv index values outs unread s) {value : α} {head : UInt64}
    (hp : s.producer = .checked value head) : ¬ unread (cap.slot head) := by
  have hok := h.producer
  simp only [ProducerOk, hp] at hok
  obtain ⟨hhead, hroom⟩ := hok
  rw [h.unread]
  rintro ⟨k, hk, hlt, he⟩
  simp only [hp, Producer.written] at hlt
  rw [hhead, h.head] at he
  exact cap.slot_ne hlt (by omega) he

/-- The slot the consumer is about to read has been written. -/
theorem Inv.read_written (h : Inv index values outs unread s) {tail : UInt64}
    (hc : s.consumer = .checked tail) : unread (cap.slot tail) := by
  have hok := h.consumer
  simp only [ConsumerOk, hc] at hok
  obtain ⟨htail, hlt⟩ := hok
  rw [h.unread]
  refine ⟨outs.length, le_rfl, ?_, by rw [slotOf, htail, h.tail]⟩
  unfold Producer.written
  split <;> omega

/-- The copy into the slot. -/
theorem Inv.write (h : Inv index values outs unread s) {value : α} {head : UInt64}
    (hp : s.producer = .checked value head) :
    Inv index values outs (fun i => cap.slot head = i ∨ unread i)
      { s with
        slots := Function.update s.slots (cap.slot head) value
        producer := .copied value head } := by
  have hok := h.producer
  simp only [ProducerOk, hp] at hok
  obtain ⟨hhead, hroom⟩ := hok
  have hslot : cap.slot head = slotOf cap index values.length := by rw [slotOf, hhead, h.head]
  have hread : outs.length ≤ s.consumer.read outs.length := by
    unfold Consumer.read
    split <;> omega
  refine { h with producer := ⟨hhead, hroom, by simp⟩, contents := ?_, unread := ?_ }
  · intro k v hk hv
    obtain ⟨hlt, -⟩ := List.getElem?_eq_some_iff.mp hv
    have hk' := hread.trans hk
    have hne : slotOf cap index k ≠ cap.slot head := hslot ▸ cap.slot_ne hlt (by omega)
    simpa only [Function.update_of_ne hne] using h.contents k v hk hv
  · intro i
    rw [h.unread i]
    simp only [hp, Producer.written]
    constructor
    · rintro (he | ⟨k, hk, hlt, he⟩)
      · exact ⟨values.length, h.fifo.length_le, by omega, hslot ▸ he⟩
      · exact ⟨k, hk, by omega, he⟩
    · rintro ⟨k, hk, hlt, he⟩
      by_cases hkn : k = values.length
      · exact .inl (by rw [hslot, ← hkn, he])
      · exact .inr ⟨k, hk, by omega, he⟩

/-- The store of `head`: the push returns. -/
theorem Inv.publish (h : Inv index values outs unread s) {value : α} {head : UInt64}
    (hp : s.producer = .copied value head) :
    Inv index (values ++ [value]) outs unread { s with head := head + 1, producer := .idle } := by
  have hok := h.producer
  simp only [ProducerOk, hp] at hok
  obtain ⟨hhead, hroom, hval⟩ := hok
  have hlen : (values ++ [value]).length = values.length + 1 := by simp
  refine ⟨?_, h.tail, h.fifo.trans (List.prefix_append _ _), by omega, trivial, ?_, ?_, ?_⟩
  · rw [hhead, h.head, hlen, UInt64.ofNat_add, UInt64.add_assoc]
    rfl
  · exact h.consumer.mono rfl rfl (List.prefix_append _ _)
  · intro k v hk hv
    by_cases hlt : k < values.length
    · rw [List.getElem?_append_left hlt] at hv
      exact h.contents k v hk hv
    · obtain ⟨hlt', -⟩ := List.getElem?_eq_some_iff.mp hv
      obtain rfl : k = values.length := by omega
      obtain rfl : value = v := by simpa using hv
      rw [slotOf, ← h.head, ← hhead]
      exact hval
  · intro i
    rw [h.unread i, hlen]
    simp only [hp, Producer.written]

/-- The copy out of the slot. -/
theorem Inv.read (h : Inv index values outs unread s) (moved : α → α) {tail : UInt64}
    (hc : s.consumer = .checked tail) :
    Inv index values outs unread
      { s with
        slots := Function.update s.slots (cap.slot tail) (moved (s.slots (cap.slot tail)))
        consumer := .copied tail (s.slots (cap.slot tail)) } := by
  have hok := h.consumer
  simp only [ConsumerOk, hc] at hok
  obtain ⟨htail, hlt⟩ := hok
  have hslot : cap.slot tail = slotOf cap index outs.length := by rw [slotOf, htail, h.tail]
  have hroom := h.room
  refine { h with producer := ?_, consumer := ⟨htail, ?_⟩, contents := ?_ }
  · refine h.producer.mono rfl rfl le_rfl fun value head hp => ?_
    have hpok := h.producer
    simp only [ProducerOk, hp] at hpok
    obtain ⟨hhead, hfree, -⟩ := hpok
    have hne : cap.slot head ≠ cap.slot tail := by
      rw [hhead, h.head, htail, h.tail]
      exact (cap.slot_ne hlt hfree).symm
    exact Function.update_of_ne hne _ _
  · rw [List.getElem?_eq_getElem hlt, hslot]
    refine congrArg some (h.contents _ _ ?_ (List.getElem?_eq_getElem hlt)).symm
    simp only [hc, Consumer.read, le_refl]
  · intro k v hk hv
    obtain ⟨hkn, -⟩ := List.getElem?_eq_some_iff.mp hv
    simp only [Consumer.read] at hk
    have hne : slotOf cap index k ≠ cap.slot tail :=
      hslot ▸ (cap.slot_ne (by omega) (by omega)).symm
    simp only [Function.update_of_ne hne]
    refine h.contents k v ?_ hv
    simp only [hc, Consumer.read]
    omega

/-- The store of `tail`: the pop returns. -/
theorem Inv.free (h : Inv index values outs unread s) {tail : UInt64} {out : α}
    (hc : s.consumer = .copied tail out) :
    Inv index values (outs ++ [out]) (fun i => unread i ∧ cap.slot tail ≠ i)
      { s with tail := tail + 1, consumer := .idle } := by
  have hok := h.consumer
  simp only [ConsumerOk, hc] at hok
  obtain ⟨htail, hout⟩ := hok
  obtain ⟨hlt, hget⟩ := List.getElem?_eq_some_iff.mp hout
  have hslot : cap.slot tail = slotOf cap index outs.length := by rw [slotOf, htail, h.tail]
  have hlen : (outs ++ [out]).length = outs.length + 1 := by simp
  have hroom := h.room
  have hwritten : s.producer.written values.length ≤ outs.length + cap.size.toNat := by
    have hp := h.producer
    unfold ProducerOk at hp
    unfold Producer.written
    split
    · rename_i he
      simp only [he] at hp
      omega
    · exact hroom
  refine ⟨h.head, ?_, ?_, by omega, ?_, trivial, ?_, ?_⟩
  · rw [htail, h.tail, hlen, UInt64.ofNat_add, UInt64.add_assoc]
    rfl
  · obtain ⟨rest, rfl⟩ := h.fifo
    cases rest with
    | nil => simp at hlt
    | cons b rest =>
      obtain rfl : b = out := by simpa using hget
      exact ⟨rest, by simp⟩
  · exact h.producer.mono rfl rfl (by omega) fun _ _ _ => rfl
  · intro k v hk hv
    refine h.contents k v ?_ hv
    simpa only [hc, Consumer.read, hlen] using hk
  · intro i
    rw [h.unread i, hslot, hlen]
    constructor
    · rintro ⟨⟨k, hk, hkw, rfl⟩, hne⟩
      have : k ≠ outs.length := fun he => hne (by rw [he])
      exact ⟨k, by omega, hkw, rfl⟩
    · rintro ⟨k, hk, hkw, rfl⟩
      have hkw' := Nat.lt_of_lt_of_le hkw hwritten
      exact ⟨⟨k, by omega, hkw, rfl⟩, cap.slot_ne (by omega) hkw'⟩

end Steps

/-! ## Runs -/

/-- The invariant at the end of a history. -/
abbrev HistoryInv (index : UInt64) (h : List (Event cap α)) (s : Ring cap α) : Prop :=
  Inv index (pushedValues h) (poppedValues h) (Unread h) s

/-- Actions that no account is kept of. -/
def Action.Quiet : Action cap α → Prop
  | .silent | .pushFailed | .read _ | .popFailed => True
  | .wrote _ | .pushed _ | .popped _ _ => False

theorem pushedValues_concat (h : List (Event cap α)) (e : Event cap α) :
    pushedValues (h ++ [e]) = pushedValues h ++ pushedValues [e] := List.filterMap_append

theorem poppedValues_concat (h : List (Event cap α)) (e : Event cap α) :
    poppedValues (h ++ [e]) = poppedValues h ++ poppedValues [e] := List.filterMap_append

theorem unread_concat (h : List (Event cap α)) (e : Event cap α) (i : Fin cap.size.toNat) :
    Unread (h ++ [e]) i ↔
      e.output = .wrote i ∨ (Unread h i ∧ ¬ ∃ out, e.output = .popped i out) :=
  since_concat h e

theorem historyInv_quiet {index : UInt64} {h : List (Event cap α)} {s : Ring cap α}
    (hI : HistoryInv index h s) (e : Event cap α) (he : e.output.Quiet) :
    HistoryInv index (h ++ [e]) s := by
  have hvals : pushedValues (h ++ [e]) = pushedValues h := by
    rw [pushedValues_concat]
    cases ho : e.output <;> simp_all [pushedValues, Action.Quiet]
  have houts : poppedValues (h ++ [e]) = poppedValues h := by
    rw [poppedValues_concat]
    cases ho : e.output <;> simp_all [poppedValues, Action.Quiet]
  unfold HistoryInv
  rw [hvals, houts]
  refine hI.congr fun i => ?_
  rw [unread_concat]
  cases ho : e.output <;> simp_all [Action.Quiet]

section Run

variable {index : UInt64} {h : List (Event cap α)} {s : Ring cap α} (moved : α → α)

theorem push_inv (hI : HistoryInv index h s) (value : α) :
    HistoryInv index (h ++ [event (step moved) s (.producer value)]) (push s value).1 := by
  have hout : (event (step moved) s (.producer value)).output = (push s value).2 := rfl
  have hpok := hI.producer
  cases hp : s.producer with
  | idle =>
    have hs : push s value = ({ s with producer := .loadedHead value s.head }, .silent) := by
      simp only [push, hp]
    rw [hs] at hout ⊢
    exact historyInv_quiet (hI.setProducer (.loadedHead value s.head) (by rw [hp]; rfl) rfl) _
      (hout ▸ trivial)
  | loadedHead value' head =>
    simp only [ProducerOk, hp] at hpok
    by_cases hfull : head + 1 - s.tail > cap.size
    · rw [push_of_full hp hfull] at hout ⊢
      exact historyInv_quiet (hI.setProducer .idle (by rw [hp]; rfl) trivial) _ (hout ▸ trivial)
    · rw [push_of_room hp hfull] at hout ⊢
      have hroom := hI.room
      rw [hpok, hI.full_iff] at hfull
      refine historyInv_quiet (hI.setProducer (.checked value' head) (by rw [hp]; rfl) ?_) _
        (hout ▸ trivial)
      exact ⟨hpok, by omega⟩
  | checked value' head =>
    have hs : (push s value).2 = .wrote (cap.slot head) := by simp only [push, hp]
    rw [hs] at hout
    unfold HistoryInv
    rw [pushedValues_concat, poppedValues_concat]
    simp only [pushedValues, poppedValues, List.filterMap_cons, hout, List.filterMap_nil,
      List.append_nil, push, hp]
    refine (hI.write hp).congr fun i => ?_
    rw [unread_concat, hout]
    simp
  | copied value' head =>
    have hs : (push s value).2 = .pushed value' := by simp only [push, hp]
    rw [hs] at hout
    unfold HistoryInv
    rw [pushedValues_concat, poppedValues_concat]
    simp only [pushedValues, poppedValues, List.filterMap_cons, hout, List.filterMap_nil,
      List.append_nil, push, hp]
    refine (hI.publish hp).congr fun i => ?_
    rw [unread_concat, hout]
    simp

theorem pop_inv (hI : HistoryInv index h s) :
    HistoryInv index (h ++ [event (step moved) s .consumer]) (pop moved s).1 := by
  have hout : (event (step moved) s .consumer).output = (pop moved s).2 := rfl
  have hcok := hI.consumer
  cases hc : s.consumer with
  | idle =>
    have hs : pop moved s = ({ s with consumer := .loadedTail s.tail }, .silent) := by
      simp only [pop, hc]
    rw [hs] at hout ⊢
    exact historyInv_quiet (hI.setConsumer (.loadedTail s.tail) (by rw [hc]; rfl) rfl) _
      (hout ▸ trivial)
  | loadedTail tail =>
    simp only [ConsumerOk, hc] at hcok
    by_cases hempty : tail = s.head
    · rw [pop_of_empty hc hempty] at hout ⊢
      exact historyInv_quiet (hI.setConsumer .idle (by rw [hc]; rfl) trivial) _ (hout ▸ trivial)
    · rw [pop_of_filled hc hempty] at hout ⊢
      have hle := hI.fifo.length_le
      rw [hcok, hI.empty_iff] at hempty
      refine historyInv_quiet (hI.setConsumer (.checked tail) (by rw [hc]; rfl) ?_) _
        (hout ▸ trivial)
      exact ⟨hcok, by omega⟩
  | checked tail =>
    have hs : (pop moved s).2 = .read (cap.slot tail) := by simp only [pop, hc]
    rw [hs] at hout
    have hread := hI.read moved hc
    have hst : (pop moved s).1 = { s with
        slots := Function.update s.slots (cap.slot tail) (moved (s.slots (cap.slot tail)))
        consumer := .copied tail (s.slots (cap.slot tail)) } := by simp only [pop, hc]
    rw [hst]
    exact historyInv_quiet hread _ (hout ▸ trivial)
  | copied tail out =>
    have hs : (pop moved s).2 = .popped (cap.slot tail) out := by simp only [pop, hc]
    rw [hs] at hout
    unfold HistoryInv
    rw [pushedValues_concat, poppedValues_concat]
    simp only [pushedValues, poppedValues, List.filterMap_cons, hout, List.filterMap_nil,
      List.append_nil, pop, hc]
    refine (hI.free hc).congr fun i => ?_
    rw [unread_concat, hout]
    simp

theorem step_inv (hI : HistoryInv index h s) (t : Turn α) :
    HistoryInv index (h ++ [event (step moved) s t]) (step moved s t).1 := by
  cases t with
  | producer value => exact push_inv moved hI value
  | consumer => exact pop_inv moved hI

theorem step_sound (hI : HistoryInv index h s) (t : Turn α) :
    Sound h (event (step moved) s t) := by
  have hpok := hI.producer
  have hcok := hI.consumer
  cases t with
  | producer value =>
    cases hp : s.producer with
    | idle => constructor <;> simp [step, push, hp]
    | loadedHead value' head =>
      simp only [ProducerOk, hp] at hpok
      by_cases hfull : head + 1 - s.tail > cap.size
      · have hfull' := hI.full_iff.mp (hpok ▸ hfull)
        constructor <;> simp [step, push, hp, hfull, hfull']
      · constructor <;> simp [step, push, hp, hfull]
    | checked value' head =>
      have hfree := hI.write_free hp
      constructor <;> simp [step, push, hp, hfree]
    | copied value' head => constructor <;> simp [step, push, hp]
  | consumer =>
    cases hc : s.consumer with
    | idle => constructor <;> simp [step, pop, hc]
    | loadedTail tail =>
      simp only [ConsumerOk, hc] at hcok
      by_cases hempty : tail = s.head
      · have hempty' := hI.empty_iff.mp (hcok ▸ hempty)
        constructor <;> simp [step, pop, hc, hempty, hempty']
      · constructor <;> simp [step, pop, hc, hempty]
    | checked tail =>
      have hwritten := hI.read_written hc
      constructor <;> simp [step, pop, hc, hwritten]
    | copied tail out => constructor <;> simp [step, pop, hc]

end Run

theorem start_inv (index : UInt64) (slots : Fin cap.size.toNat → α) :
    HistoryInv index [] (start cap index slots) where
  head := by simp [start, pushedValues]
  tail := by simp [start, poppedValues]
  fifo := List.prefix_refl _
  room := by simp [pushedValues]
  producer := trivial
  consumer := trivial
  contents := by simp [pushedValues]
  unread := fun i => by simp [Unread, not_since_nil, start, Producer.written, pushedValues]

theorem run_inv (moved : α → α) (index : UInt64) (slots : Fin cap.size.toNat → α)
    (turns : List (Turn α)) :
    HistoryInv index (trace (step moved) (start cap index slots) turns)
      (exec (step moved) (start cap index slots) turns) :=
  history_induction (step moved) (P := fun _ _ => True) (I := HistoryInv index)
    (fun _ _ t _ hI => step_inv moved hI t) _ (start_inv index slots) turns (fun _ _ => trivial)

/-- `size` and `empty` report the true counts between any two steps. -/
theorem size_counts (moved : α → α) (index : UInt64) (slots : Fin cap.size.toNat → α)
    (turns : List (Turn α)) :
    let h := trace (step moved) (start cap index slots) turns
    let s := exec (step moved) (start cap index slots) turns
    (size s).toNat + (poppedValues h).length = (pushedValues h).length ∧
    (empty s = true ↔ (pushedValues h).length = (poppedValues h).length) := by
  intro h s
  have hinv : HistoryInv index h s := run_inv moved index slots turns
  have hle := hinv.fifo.length_le
  have hroom := hinv.room
  have hword := cap.lt_word
  constructor
  · rw [size, hinv.head, hinv.tail, toNat_add_ofNat_sub hle (by omega)]
    omega
  · rw [empty, beq_iff_eq, eq_comm]
    exact hinv.empty_iff

/-- **The ring is a lossless FIFO under every interleaving.** Whatever the
capacity, the common start of the indices and the schedule: what has been popped
is a prefix of what has been pushed, the difference never exceeds the capacity,
and every step is `Sound` for the history before it. -/
theorem lossless_fifo (moved : α → α) (index : UInt64) (slots : Fin cap.size.toNat → α)
    (turns : List (Turn α)) :
    let h := trace (step moved) (start cap index slots) turns
    poppedValues h <+: pushedValues h ∧
    (poppedValues h).length ≤ (pushedValues h).length ∧
    (pushedValues h).length ≤ (poppedValues h).length + cap.size.toNat ∧
    ∀ before e after, h = before ++ e :: after → Sound before e := by
  intro h
  have hinv := run_inv moved index slots turns
  refine ⟨hinv.fifo, hinv.fifo.length_le, hinv.room, fun before e after hrun => ?_⟩
  exact event_of_history (step moved) (P := fun _ _ => True) (I := HistoryInv index)
    (fun h s t _ hI => step_inv moved hI t) (fun h s t _ hI => step_sound moved hI t)
    _ (start_inv index slots) turns (fun _ _ => trivial) before after e hrun

/-! ## The ring inside a larger system -/

def Action.pushed? : Action cap α → Option α
  | .pushed value => some value
  | _ => none

def Action.popped? : Action cap α → Option α
  | .popped _ out => some out
  | _ => none

/-- The ring after some run whose pushes and pops returned `values` and `outs`. -/
def Carries (index : UInt64) (values outs : List α) (s : Ring cap α) : Prop :=
  ∃ h, pushedValues h = values ∧ poppedValues h = outs ∧ HistoryInv index h s

section Carries

variable {index : UInt64} {values outs : List α} {s : Ring cap α}

theorem start_carries (index : UInt64) (slots : Fin cap.size.toNat → α) :
    Carries index [] [] (start cap index slots) :=
  ⟨[], rfl, rfl, start_inv index slots⟩

theorem Carries.step (h : Carries index values outs s) (moved : α → α) (t : Turn α) :
    Carries index (values ++ (step moved s t).2.pushed?.toList)
      (outs ++ (step moved s t).2.popped?.toList) (step moved s t).1 := by
  obtain ⟨hist, rfl, rfl, hinv⟩ := h
  refine ⟨_, ?_, ?_, step_inv moved hinv t⟩
  · rw [pushedValues_concat]
    cases ha : (SpscRing.step moved s t).2 <;> simp [pushedValues, ha, Action.pushed?]
  · rw [poppedValues_concat]
    cases ha : (SpscRing.step moved s t).2 <;> simp [poppedValues, ha, Action.popped?]

theorem Carries.fifo (h : Carries index values outs s) : outs <+: values := by
  obtain ⟨hist, rfl, rfl, hinv⟩ := h
  exact hinv.fifo

theorem Carries.empty_iff (h : Carries index values outs s) :
    s.tail = s.head ↔ values.length = outs.length := by
  obtain ⟨hist, rfl, rfl, hinv⟩ := h
  exact hinv.empty_iff

/-- The depth by the indices never passes the capacity, wrap or not. -/
theorem Carries.depth_le (h : Carries index values outs s) : s.head - s.tail ≤ cap.size := by
  obtain ⟨hist, rfl, rfl, hinv⟩ := h
  have hle := hinv.fifo.length_le
  have hroom := hinv.room
  have hword := cap.lt_word
  rw [UInt64.le_iff_toNat_le, hinv.head, hinv.tail, toNat_add_ofNat_sub hle (by omega)]
  omega

/-- The producer's loaded index is the index. -/
theorem Carries.loadedHead (h : Carries index values outs s) {value : α} {head : UInt64}
    (hp : s.producer = .loadedHead value head) : head = s.head := by
  obtain ⟨hist, rfl, rfl, hinv⟩ := h
  have hok := hinv.producer
  simpa only [ProducerOk, hp] using hok

/-- The consumer's loaded index is the index. -/
theorem Carries.loadedTail (h : Carries index values outs s) {tail : UInt64}
    (hc : s.consumer = .loadedTail tail) : tail = s.tail := by
  obtain ⟨hist, rfl, rfl, hinv⟩ := h
  have hok := hinv.consumer
  simpa only [ConsumerOk, hc] using hok

end Carries

end Lloms.SpscRing
