import Lloms.Lib.ReleaseAcquire
import Lloms.Ring.Fifo

/-! The ring under the memory orders it is written with: each side loads its own index
relaxed and the other's with acquire, and stores its own with release. A load of the other
side's index may get an old value. Such a ring does what the sequentially consistent one
does, but that it may take itself for full or empty when it no longer is. -/
namespace Lloms.SpscRing
open Lib

universe u

inductive Role where
  | producer
  | consumer
  deriving DecidableEq, Repr

def Role.other : Role → Role
  | .producer => .consumer
  | .consumer => .producer

theorem Role.other_ne (t : Role) : t.other ≠ t := by cases t <;> exact Role.noConfusion

theorem Role.eq_other_of_ne {t t' : Role} (h : t' ≠ t) : t' = t.other := by
  cases t <;> cases t' <;> first | rfl | exact absurd rfl h

/-- The index each side stores to, and whatever other atomics the two threads share. -/
inductive Loc (E : Type) where
  | index (owner : Role)
  | other (e : E)
  deriving DecidableEq, Repr

abbrev Loc.head {E : Type} : Loc E := .index .producer

abbrev Loc.tail {E : Type} : Loc E := .index .consumer

abbrev Loc.Val {E : Type} (W : E → Type) : Loc E → Type
  | .index _ => UInt64
  | .other e => W e

abbrev RingMemory (cap : Capacity) (α : Type u) {E : Type} (W : E → Type) :=
  Memory Role (Loc E) (Fin cap.size.toNat) (Loc.Val W) α

def indexAt {cap : Capacity} {α : Type u} {E : Type} {W : E → Type} (m : RingMemory cap α W)
    (t : Role) (i : Nat) : UInt64 := (m.message (.index t) i).1

structure Weak (cap : Capacity) (α : Type u) {E : Type} (W : E → Type) where
  memory : RingMemory cap α W
  producer : Producer α := .idle
  consumer : Consumer α := .idle

namespace Weak

variable {α : Type u} {cap : Capacity} {E : Type} {W : E → Type}

def start (cap : Capacity) (index : UInt64) (slots : Fin cap.size.toNat → α)
    (others : (e : E) → W e) : Weak cap α W where
  memory := Memory.start (fun
    | .index _ => index
    | .other e => others e) slots

/-- The ring as it is when every load gets the last message. -/
def latest (s : Weak cap α W) : Ring cap α where
  head := indexAt s.memory .producer (s.memory.stores .head)
  tail := indexAt s.memory .consumer (s.memory.stores .tail)
  slots := s.memory.cell
  producer := s.producer
  consumer := s.consumer

variable [DecidableEq E]

/-- A step of `push`. What it loads is `lag` messages behind if it can be. -/
def push (s : Weak cap α W) (value : α) (lag : Nat) : Weak cap α W × Action cap α :=
  match s.producer with
  | .idle =>
    let r := s.memory.load .producer .head .relaxed lag
    ({ s with memory := r.1, producer := .loadedHead value r.2 }, .silent)
  | .loadedHead value head =>
    let r := s.memory.load .producer .tail .acquire lag
    let tail : UInt64 := r.2
    if head + 1 - tail > cap.size then ({ s with memory := r.1, producer := .idle }, .pushFailed)
    else ({ s with memory := r.1, producer := .checked value head }, .silent)
  | .checked value head =>
    ({ s with
        memory := s.memory.access .producer (cap.slot head) value
        producer := .copied value head }, .wrote (cap.slot head))
  | .copied value head =>
    ({ s with memory := s.memory.store .producer .head (head + 1), producer := .idle },
      .pushed value)

def pop (moved : α → α) (s : Weak cap α W) (lag : Nat) : Weak cap α W × Action cap α :=
  match s.consumer with
  | .idle =>
    let r := s.memory.load .consumer .tail .relaxed lag
    ({ s with memory := r.1, consumer := .loadedTail r.2 }, .silent)
  | .loadedTail tail =>
    let r := s.memory.load .consumer .head .acquire lag
    let head : UInt64 := r.2
    if tail = head then ({ s with memory := r.1, consumer := .idle }, .popFailed)
    else ({ s with memory := r.1, consumer := .checked tail }, .silent)
  | .checked tail =>
    let out := s.memory.cell (cap.slot tail)
    ({ s with
        memory := s.memory.access .consumer (cap.slot tail) (moved out)
        consumer := .copied tail out }, .read (cap.slot tail))
  | .copied tail out =>
    ({ s with memory := s.memory.store .consumer .tail (tail + 1), consumer := .idle },
      .popped (cap.slot tail) out)

def step (moved : α → α) (s : Weak cap α W) : Turn α × Nat → Weak cap α W × Action cap α
  | (.producer value, lag) => s.push value lag
  | (.consumer, lag) => s.pop moved lag

end Weak

/-! ## What the two sides know -/

/-- A number for each side. -/
def sides (n m : Nat) : Role → Nat
  | .producer => n
  | .consumer => m

/-- How many messages of the other side are not enough for a claim. -/
def slack (cap : Capacity) : Role → Nat := sides cap.size.toNat 0

/-- Each side has stored its index `count` times and made `made` accesses. The `k`-th
access of a side is to the slot of the `k`-th value, and the index stored next tells of it.
The `claimed` accesses are those that the side has seen the way clear for. -/
structure Views {cap : Capacity} {α : Type u} {E : Type} {W : E → Type} (index : UInt64)
    (count made claimed : Role → Nat) (m : RingMemory cap α W) : Prop where
  ok : m.Ok
  numbered : ∀ t, ∀ i ≤ count t, indexAt m t i = index + UInt64.ofNat i
  stores : ∀ t, m.stores (.index t) = count t
  own : ∀ t, (m.view t).1 (.index t) = count t
  tells : ∀ t, m.Publishes (.index t) t id
  made : ∀ t, (m.view t).2 t = made t
  stamps : ∀ c t, m.accessed c t = 0 ∨ ∃ k, m.accessed c t = k + 1 ∧ slotOf cap index k = c
  clear : ∀ t, claimed t ≤ (m.view t).1 (.index t.other) + slack cap t

section Views

variable {α : Type u} {cap : Capacity} {E : Type} {W : E → Type} {index : UInt64}
  {count made claimed count' made' claimed' : Role → Nat} {m : RingMemory cap α W} {t : Role}
  {lag : Nat}

theorem views_start (index : UInt64) (slots : Fin cap.size.toNat → α) (others : (e : E) → W e) :
    Views index (sides 0 0) (sides 0 0) (sides 0 0) (Weak.start cap index slots others).memory where
  ok := Memory.ok_start _ _
  numbered t i hi := by
    obtain rfl : i = 0 := by cases t <;> exact Nat.le_zero.mp hi
    exact (UInt64.add_zero index).symm
  stores t := by cases t <;> rfl
  own t := by cases t <;> rfl
  tells t := Memory.publishes_start _ _ _ _ rfl
  made t := by cases t <;> rfl
  stamps c t := .inl rfl
  clear t := by cases t <;> exact Nat.zero_le _

theorem Views.seen_le (h : Views index count made claimed m) (t t' : Role) :
    (m.view t).1 (.index t') ≤ count t' := h.stores t' ▸ h.ok.seen_le t _

theorem Views.index_le (h : Views index count made claimed m) (t t' : Role) (lag : Nat) :
    m.index t (.index t') lag ≤ count t' := h.stores t' ▸ h.ok.index_le t _ lag

theorem Views.congr (h : Views index count made claimed m) (hmade : ∀ t, made' t = made t)
    (hclaimed : ∀ t, claimed' t ≤ claimed t) : Views index count made' claimed' m :=
  { h with
    made := fun t => (h.made t).trans (hmade t).symm
    clear := fun t => (hclaimed t).trans (h.clear t) }

/-- A side accesses the slot its index stands for. -/
theorem Views.access (h : Views index count made claimed m) (hcount : made t = count t)
    (hmade : made' t = made t + 1) (hother : made' t.other = made t.other) (d : α) :
    Views index count made' claimed (m.access t (slotOf cap index (count t)) d) where
  ok := h.ok.access
  numbered := h.numbered
  stores := h.stores
  own t' := by
    rw [Memory.access_seen]
    exact h.own t'
  tells t' := (h.tells t').access
  made t' := by
    by_cases ht : t' = t
    · subst ht
      rw [Memory.access_clock_self, h.made, hmade]
    · obtain rfl := Role.eq_other_of_ne ht
      rw [Memory.access_clock_of_ne ht, h.made, hother]
  stamps c t' := by
    by_cases ht : t' = t
    · subst ht
      by_cases hc : c = slotOf cap index (count t')
      · subst hc
        exact .inr ⟨count t', by rw [Memory.accessed_self, h.made, hcount], rfl⟩
      · rw [Memory.accessed_of_ne_cell hc]
        exact h.stamps c t'
    · rw [Memory.accessed_of_ne ht]
      exact h.stamps c t'
  clear t' := by
    rw [Memory.access_seen]
    exact h.clear t'

variable [DecidableEq E]

/-- A load changes nothing but what its side knows, and that only grows. -/
theorem Views.loaded (h : Views index count made claimed m) {t : Role} {l : Loc E}
    {order : LoadOrder} {lag : Nat}
    (htells : ∀ t', (m.load t l order lag).1.Publishes (.index t') t' id) :
    Views index count made claimed (m.load t l order lag).1 where
  ok := h.ok.load
  numbered := h.numbered
  stores := h.stores
  own t' := by
    have hle : ((m.load t l order lag).1.view t').1 (.index t') ≤ m.stores (.index t') :=
      (h.ok.load (l := l)).seen_le t' (.index t')
    refine le_antisymm (hle.trans (le_of_eq (h.stores t'))) ?_
    exact (le_of_eq (h.own t').symm).trans ((h.ok.view_le_load t').1 (.index t'))
  tells := htells
  made t' := by
    rw [← h.made t']
    have hnow : (m.load t l order lag).1.now = m.now := h.ok.load_now
    exact congrFun (congrArg Prod.snd hnow) t'
  stamps := h.stamps
  clear t' := (h.clear t').trans (Nat.add_le_add_right ((h.ok.view_le_load t').1 _) _)

theorem Views.acquire (h : Views index count made claimed m) (t : Role) (l : Loc E) (lag : Nat) :
    Views index count made claimed (m.load t l .acquire lag).1 :=
  h.loaded fun t' => (h.tells t').load_acquire h.ok monotone_id

/-- A side loads something that is not an index, and comes to know nothing by that. -/
theorem Views.relaxed (h : Views index count made claimed m) (t : Role) (e : E) (lag : Nat) :
    Views index count made claimed (m.load t (.other e) .relaxed lag).1 :=
  h.loaded fun t' => (h.tells t').load_relaxed (by simp)

theorem Views.index_le_seen (h : Views index count made claimed m) (t t' : Role) (lag : Nat) :
    m.index t (.index t') lag ≤ ((m.load t (.index t') .acquire lag).1.view t).1 (.index t') := by
  rw [h.ok.load_view]
  have hown := h.ok.own _ _ (h.ok.index_le t (.index t') lag)
  exact (le_of_eq hown.symm).trans (le_max_right _ _)

/-- A side loads the other's index, and may claim what that leaves clear. -/
theorem Views.load (h : Views index count made claimed m)
    (hclaimed : claimed' t ≤ m.index t (.index t.other) lag + slack cap t)
    (hother : claimed' t.other = claimed t.other) :
    Views index count made claimed' (m.load t (.index t.other) .acquire lag).1 :=
  { h.acquire t (.index t.other) lag with
    clear := fun t' => by
      by_cases ht : t' = t
      · subst ht
        exact hclaimed.trans (Nat.add_le_add_right (h.index_le_seen t' t'.other lag) _)
      · obtain rfl := Role.eq_other_of_ne ht
        rw [hother]
        exact (h.acquire t (.index t.other) lag).clear t.other }

/-- A side stores something that is not an index. -/
theorem Views.store_other (h : Views index count made claimed m) (t : Role) (e : E) (value : W e) :
    Views index count made claimed (m.store t (.other e) value) where
  ok := h.ok.store
  numbered t' i hi := by
    rw [indexAt, Memory.store_message_of_ne (by simp)]
    exact h.numbered t' i hi
  stores t' := by
    rw [Memory.store_stores_of_ne (by simp)]
    exact h.stores t'
  own t' := by
    rw [Memory.store_seen_of_ne (by simp)]
    exact h.own t'
  tells t' := (h.tells t').store_of_ne (by simp)
  made t' := by
    rw [Memory.store_clock]
    exact h.made t'
  stamps := h.stamps
  clear t' := by
    rw [Memory.store_seen_of_ne (by simp)]
    exact h.clear t'

/-- A side stores its next index, after the access that it tells of. -/
theorem Views.store (h : Views index count made claimed m) (hmade : made t = count t + 1)
    (hcount : count' t = count t + 1) (hother : count' t.other = count t.other)
    (hclaimed : ∀ t', claimed' t' ≤ claimed t') :
    Views index count' made claimed'
      (m.store t (.index t) (index + UInt64.ofNat (count t + 1) : UInt64)) := by
  have hne : ∀ {t'}, t' ≠ t → (.index t' : Loc E) ≠ .index t := fun ht heq => ht (Loc.index.inj heq)
  have hrest : ∀ {t'}, t' ≠ t → count' t' = count t' := fun ht => Role.eq_other_of_ne ht ▸ hother
  constructor
  · exact h.ok.store
  · intro t' i hi
    by_cases ht : t' = t
    · subst ht
      rcases Nat.lt_or_ge (count t') i with hlt | hle
      · obtain rfl : i = count t' + 1 := by omega
        rw [← h.stores t']
        exact congrArg Prod.fst Memory.store_message_new
      · rw [indexAt, Memory.store_message_old ((h.stores t').symm ▸ hle)]
        exact h.numbered t' i hle
    · rw [indexAt, Memory.store_message_of_ne (hne ht)]
      exact h.numbered t' i (hrest ht ▸ hi)
  · intro t'
    by_cases ht : t' = t
    · subst ht
      rw [Memory.store_stores_self, h.stores, hcount]
    · rw [Memory.store_stores_of_ne (hne ht), h.stores, hrest ht]
  · intro t'
    by_cases ht : t' = t
    · subst ht
      rw [Memory.store_view_self, hcount, ← h.stores t']
      exact Function.update_self ..
    · rw [Memory.store_view_of_ne ht, hrest ht]
      exact h.own t'
  · intro t'
    by_cases ht : t' = t
    · subst ht
      refine (h.tells t').store ?_
      rw [h.stores, h.made, hmade]
      exact le_rfl
    · exact (h.tells t').store_of_ne (hne ht)
  · intro t'
    rw [Memory.store_clock]
    exact h.made t'
  · exact h.stamps
  · intro t'
    refine (hclaimed t').trans ((h.clear t').trans (Nat.add_le_add_right ?_ _))
    by_cases ht : t' = t
    · subst ht
      rw [Memory.store_view_self]
      exact le_of_eq (Function.update_of_ne (hne t'.other_ne) _ _).symm
    · rw [Memory.store_view_of_ne ht]

end Views

/-! ## The invariant -/

/-- The accesses a push may make: one more once it has passed its test. -/
def Producer.claimed {α : Type u} (n : Nat) : Producer α → Nat
  | .checked _ _ | .copied _ _ => n + 1
  | _ => n

def Consumer.claimed {α : Type u} (n : Nat) : Consumer α → Nat
  | .checked _ | .copied _ _ => n + 1
  | _ => n

section Counts

variable {α : Type u} {cap : Capacity} {index : UInt64} {values outs : List α}
  {unread : Fin cap.size.toNat → Prop} {s : Ring cap α}

theorem Inv.written_le (h : Inv index values outs unread s) :
    s.producer.written values.length ≤ outs.length + cap.size.toNat := by
  have hok := h.producer
  have hroom := h.room
  unfold ProducerOk at hok
  cases hp : s.producer with
  | copied value head =>
    simp only [hp] at hok
    exact hok.2.1
  | idle | loadedHead value head | checked value head => exact hroom

theorem Inv.read_le (h : Inv index values outs unread s) :
    s.consumer.read outs.length ≤ values.length := by
  have hok := h.consumer
  have hle := h.fifo.length_le
  unfold ConsumerOk at hok
  cases hc : s.consumer with
  | copied tail out =>
    simp only [hc] at hok
    exact (List.getElem?_eq_some_iff.mp hok.2).1
  | idle | loadedTail tail | checked tail => exact hle

/-- Two values in one slot are at least a lap apart. -/
theorem lap_of_slotOf_eq {j k : Nat} (heq : slotOf cap index j = slotOf cap index k) (hjk : j < k) :
    j + cap.size.toNat ≤ k :=
  Nat.not_lt.mp fun hlt => cap.slot_ne hjk hlt heq

end Counts

namespace Weak

variable {α : Type u} {cap : Capacity} {E : Type} {W : E → Type} {index : UInt64}
  {values outs : List α} {s : Weak cap α W}

/-- The ring after pushes of `values` and pops of `outs` have returned. -/
structure Inv (index : UInt64) (values outs : List α) (s : Weak cap α W) : Prop where
  carries : Carries index values outs s.latest
  views : Views index (sides values.length outs.length)
    (sides (s.producer.written values.length) (s.consumer.read outs.length))
    (sides (s.producer.claimed values.length) (s.consumer.claimed outs.length)) s.memory

theorem start_inv (index : UInt64) (slots : Fin cap.size.toNat → α) (others : (e : E) → W e) :
    Inv index [] [] (start cap index slots others) :=
  ⟨start_carries index slots, views_start index slots others⟩

section Known

variable (h : Inv index values outs s)
include h

theorem Inv.strong : ∃ unread, SpscRing.Inv index values outs unread s.latest := by
  obtain ⟨hist, rfl, rfl, hinv⟩ := h.carries
  exact ⟨_, hinv⟩

/-- The slot that is written was last read by a pop that the producer knows of. -/
theorem Inv.write_ordered {value : α} {head : UInt64} (hp : s.producer = .checked value head) :
    s.memory.RaceFree .producer (slotOf cap index values.length) := by
  obtain ⟨unread, hinv⟩ := h.strong
  have hclear : s.producer.claimed values.length ≤
      (s.memory.view .producer).1 .tail + cap.size.toNat := h.views.clear .producer
  simp only [hp, Producer.claimed] at hclear
  rintro (_ | _)
  · exact h.views.ok.accessed_le _ _
  · rcases h.views.stamps (slotOf cap index values.length) .consumer with hzero | ⟨k, hk, hsame⟩
    · exact hzero ▸ Nat.zero_le _
    · have hread : k + 1 ≤ values.length := by
        rw [← hk]
        exact ((h.views.ok.accessed_le _ _).trans (le_of_eq (h.views.made .consumer))).trans
          hinv.read_le
      have hlap := lap_of_slotOf_eq hsame hread
      have htells : (s.memory.view .producer).1 .tail ≤ (s.memory.view .producer).2 .consumer :=
        (h.views.tells .consumer).view .producer
      omega

/-- The slot that is read was last written by a push that the consumer knows of. -/
theorem Inv.read_ordered {tail : UInt64} (hc : s.consumer = .checked tail) :
    s.memory.RaceFree .consumer (slotOf cap index outs.length) := by
  obtain ⟨unread, hinv⟩ := h.strong
  have hclear : s.consumer.claimed outs.length ≤ (s.memory.view .consumer).1 .head :=
    h.views.clear .consumer
  simp only [hc, Consumer.claimed] at hclear
  rintro (_ | _)
  · rcases h.views.stamps (slotOf cap index outs.length) .producer with hzero | ⟨k, hk, hsame⟩
    · exact hzero ▸ Nat.zero_le _
    · have hwritten : k + 1 ≤ outs.length + cap.size.toNat := by
        rw [← hk]
        exact ((h.views.ok.accessed_le _ _).trans (le_of_eq (h.views.made .producer))).trans
          hinv.written_le
      have hle : k ≤ outs.length := Nat.not_lt.mp fun hlt => by
        have hlap := lap_of_slotOf_eq hsame.symm hlt
        omega
      have htells : (s.memory.view .consumer).1 .head ≤ (s.memory.view .consumer).2 .producer :=
        (h.views.tells .producer).view .consumer
      omega
  · exact h.views.ok.accessed_le _ _

theorem Inv.latest_head : s.latest.head = index + UInt64.ofNat values.length := by
  obtain ⟨unread, hinv⟩ := h.strong
  exact hinv.head

theorem Inv.latest_tail : s.latest.tail = index + UInt64.ofNat outs.length := by
  obtain ⟨unread, hinv⟩ := h.strong
  exact hinv.tail

/-- Each side always loads its own index as it is. -/
theorem Inv.own_index (t : Role) (lag : Nat) :
    s.memory.index t (.index t) lag = s.memory.stores (.index t) := by
  have hown : (s.memory.view t).1 (.index t) = s.memory.stores (.index t) :=
    (h.views.own t).trans (h.views.stores t).symm
  rw [Memory.index, hown]
  exact max_eq_right (Nat.sub_le _ _)

theorem Inv.room_index (lag : Nat) :
    values.length ≤ s.memory.index .producer .tail lag + cap.size.toNat := by
  have hseen : (s.memory.view .producer).1 .tail ≤ s.memory.index .producer .tail lag :=
    s.memory.seen_le_index .producer .tail lag
  have hclear : s.producer.claimed values.length ≤
      (s.memory.view .producer).1 .tail + cap.size.toNat := h.views.clear .producer
  have hclaimed : values.length ≤ s.producer.claimed values.length := by
    unfold Producer.claimed
    split <;> omega
  omega

theorem Inv.filled_index (lag : Nat) : outs.length ≤ s.memory.index .consumer .head lag := by
  have hseen : (s.memory.view .consumer).1 .head ≤ s.memory.index .consumer .head lag :=
    s.memory.seen_le_index .consumer .head lag
  have hclear : s.consumer.claimed outs.length ≤ (s.memory.view .consumer).1 .head :=
    h.views.clear .consumer
  have hclaimed : outs.length ≤ s.consumer.claimed outs.length := by
    unfold Consumer.claimed
    split <;> omega
  omega

/-- The test of a push compares true counts, of the pops as far as it has seen them. -/
theorem Inv.full_iff (lag : Nat) :
    s.latest.head + 1 - indexAt s.memory .consumer (s.memory.index .producer .tail lag) > cap.size ↔
      values.length = s.memory.index .producer .tail lag + cap.size.toNat := by
  have hle : s.memory.index .producer .tail lag ≤ outs.length :=
    h.views.index_le .producer .consumer lag
  have hroom := h.room_index lag
  have hword := cap.lt_word
  obtain ⟨unread, hinv⟩ := h.strong
  have hfifo := hinv.fifo.length_le
  have hnext : s.latest.head + 1 = index + UInt64.ofNat (values.length + 1) := by
    rw [h.latest_head, UInt64.ofNat_add, UInt64.add_assoc]
    rfl
  rw [gt_iff_lt, UInt64.lt_iff_toNat_lt, hnext, h.views.numbered .consumer _ hle,
    toNat_add_ofNat_sub (by omega) (by omega)]
  omega

theorem Inv.empty_iff (lag : Nat) :
    s.latest.tail = indexAt s.memory .producer (s.memory.index .consumer .head lag) ↔
      s.memory.index .consumer .head lag = outs.length := by
  have hle : s.memory.index .consumer .head lag ≤ values.length :=
    h.views.index_le .consumer .producer lag
  have hfilled := h.filled_index lag
  have hword := cap.lt_word
  obtain ⟨unread, hinv⟩ := h.strong
  have hroom := hinv.room
  rw [h.latest_tail, h.views.numbered .producer _ hle]
  constructor
  · intro he
    exact (add_ofNat_inj (by omega) (by omega) he).symm
  · intro he
    rw [he]

end Known

/-! ## What a history says -/

abbrev WeakEvent (cap : Capacity) (α : Type u) (W : E → Type) :=
  Lib.Event (Weak cap α W) (Turn α × Nat) (Action cap α)

/-- The values whose push has returned true. -/
def pushed (h : List (WeakEvent cap α W)) : List α := h.filterMap fun e => e.output.pushed?

/-- The values whose pop has returned true. -/
def popped (h : List (WeakEvent cap α W)) : List α := h.filterMap fun e => e.output.popped?

/-- What must hold whenever a step is taken after the history `h`. A call fails only when
the calls of the other side that its own side knows of leave it nothing to do. -/
structure Sound (h : List (WeakEvent cap α W)) (e : WeakEvent cap α W) : Prop where
  write_ordered : ∀ i, e.output = .wrote i → e.pre.memory.RaceFree .producer i
  read_ordered : ∀ i, e.output = .read i → e.pre.memory.RaceFree .consumer i
  full : e.output = .pushFailed →
    (pushed h).length = (e.pre.memory.view .producer).1 .tail + cap.size.toNat
  empty : e.output = .popFailed → (popped h).length = (e.pre.memory.view .consumer).1 .head

theorem pushed_concat (h : List (WeakEvent cap α W)) (e : WeakEvent cap α W) :
    pushed (h ++ [e]) = pushed h ++ e.output.pushed?.toList :=
  filterMap_output_concat Action.pushed? h e

theorem popped_concat (h : List (WeakEvent cap α W)) (e : WeakEvent cap α W) :
    popped (h ++ [e]) = popped h ++ e.output.popped?.toList :=
  filterMap_output_concat Action.popped? h e

abbrev HistoryInv (index : UInt64) (h : List (WeakEvent cap α W)) (s : Weak cap α W) : Prop :=
  Inv index (pushed h) (popped h) s

/-! ## Steps -/

variable [DecidableEq E]

/-- The store of an index, seen from the ring without delays. -/
theorem latest_store_head (s : Weak cap α W) (head : UInt64) (p : Producer α) :
    latest { s with memory := s.memory.store .producer .head head, producer := p } =
      { s.latest with head, producer := p } := by
  have hhead : indexAt (s.memory.store .producer .head head) .producer
      ((s.memory.store .producer .head head).stores .head) = head := by
    rw [indexAt, Memory.store_stores_self, Memory.store_message_new]
  have htail : indexAt (s.memory.store .producer .head head) .consumer
      ((s.memory.store .producer .head head).stores .tail) = s.latest.tail := by
    rw [indexAt, Memory.store_stores_of_ne (by simp), Memory.store_message_of_ne (by simp)]
    rfl
  simp only [latest, hhead]
  exact congrArg (fun tail => Ring.mk head tail s.memory.cell p s.consumer) htail

theorem latest_store_tail (s : Weak cap α W) (tail : UInt64) (c : Consumer α) :
    latest { s with memory := s.memory.store .consumer .tail tail, consumer := c } =
      { s.latest with tail, consumer := c } := by
  have htail : indexAt (s.memory.store .consumer .tail tail) .consumer
      ((s.memory.store .consumer .tail tail).stores .tail) = tail := by
    rw [indexAt, Memory.store_stores_self, Memory.store_message_new]
  have hhead : indexAt (s.memory.store .consumer .tail tail) .producer
      ((s.memory.store .consumer .tail tail).stores .head) = s.latest.head := by
    rw [indexAt, Memory.store_stores_of_ne (by simp), Memory.store_message_of_ne (by simp)]
    rfl
  simp only [latest, htail]
  exact congrArg (fun head => Ring.mk head tail s.memory.cell s.producer c) hhead

/-- What a step of `push` does after `n` pushes. Its test passes or fails by the pops that
the producer gets to see. -/
inductive PushStep (index : UInt64) (n : Nat) (s : Weak cap α W) (value : α) (lag : Nat) :
    Weak cap α W × Action cap α → Prop
  | load : s.producer = .idle →
      PushStep index n s value lag ({ s with producer := .loadedHead value s.latest.head }, .silent)
  | full {v : α} : s.producer = .loadedHead v s.latest.head →
      n = s.memory.index .producer .tail lag + cap.size.toNat →
      PushStep index n s value lag ({ s with
        memory := (s.memory.load .producer .tail .acquire lag).1
        producer := .idle }, .pushFailed)
  | room {v : α} : s.producer = .loadedHead v s.latest.head →
      n < s.memory.index .producer .tail lag + cap.size.toNat →
      PushStep index n s value lag ({ s with
        memory := (s.memory.load .producer .tail .acquire lag).1
        producer := .checked v s.latest.head }, .silent)
  | write {v : α} : s.producer = .checked v s.latest.head →
      PushStep index n s value lag ({ s with
        memory := s.memory.access .producer (slotOf cap index n) v
        producer := .copied v s.latest.head }, .wrote (slotOf cap index n))
  | publish {v : α} : s.producer = .copied v s.latest.head →
      PushStep index n s value lag ({ s with
        memory := s.memory.store .producer .head (index + UInt64.ofNat (n + 1))
        producer := .idle }, .pushed v)

theorem Inv.pushStep (h : Inv index values outs s) (value : α) (lag : Nat) :
    PushStep index values.length s value lag (s.push value lag) := by
  obtain ⟨unread, hinv⟩ := h.strong
  have hok := hinv.producer
  have hbound := h.room_index lag
  cases hp : s.producer with
  | idle =>
    have hown : (s.memory.view .producer).1 .head = s.memory.stores .head :=
      (h.views.own .producer).trans (h.views.stores .producer).symm
    simp only [push, hp]
    rw [Memory.load_own hown]
    exact .load hp
  | loadedHead v head =>
    simp only [ProducerOk, show s.latest.producer = .loadedHead v head from hp] at hok
    subst hok
    by_cases hfull : s.latest.head + 1 -
        indexAt s.memory .consumer (s.memory.index .producer .tail lag) > cap.size
    · have hs : s.push value lag = ({ s with
          memory := (s.memory.load .producer .tail .acquire lag).1
          producer := .idle }, .pushFailed) := by
        simp only [push, hp]
        exact if_pos hfull
      rw [hs]
      exact .full hp ((h.full_iff lag).mp hfull)
    · have hs : s.push value lag = ({ s with
          memory := (s.memory.load .producer .tail .acquire lag).1
          producer := .checked v s.latest.head }, .silent) := by
        simp only [push, hp]
        exact if_neg hfull
      rw [hs]
      exact .room hp (lt_of_le_of_ne hbound (mt (h.full_iff lag).mpr hfull))
  | checked v head =>
    simp only [ProducerOk, show s.latest.producer = .checked v head from hp] at hok
    obtain ⟨rfl, -⟩ := hok
    have hslot : cap.slot s.latest.head = slotOf cap index values.length := by
      rw [slotOf, h.latest_head]
    simp only [push, hp]
    rw [hslot]
    exact .write hp
  | copied v head =>
    simp only [ProducerOk, show s.latest.producer = .copied v head from hp] at hok
    obtain ⟨rfl, -⟩ := hok
    have hnext : s.latest.head + 1 = index + UInt64.ofNat (values.length + 1) := by
      rw [h.latest_head, UInt64.ofNat_add, UInt64.add_assoc]
      rfl
    simp only [push, hp]
    rw [hnext]
    exact .publish hp

theorem Inv.push (h : Inv index values outs s) (value : α) (lag : Nat) :
    Inv index (values ++ (s.push value lag).2.pushed?.toList)
      (outs ++ (s.push value lag).2.popped?.toList) (s.push value lag).1 := by
  have hviews := h.views
  have hbound := h.room_index lag
  have hcarries := h.carries.step id (.producer value)
  change Carries index (values ++ (SpscRing.push s.latest value).2.pushed?.toList)
    (outs ++ (SpscRing.push s.latest value).2.popped?.toList) (SpscRing.push s.latest value).1
    at hcarries
  have hstep := h.pushStep value lag
  generalize s.push value lag = r at hstep ⊢
  cases hstep with
  | load hp =>
    rw [hp] at hviews
    rw [SpscRing.push, show s.latest.producer = _ from hp] at hcarries
    exact ⟨hcarries, (List.append_nil values).symm ▸ (List.append_nil outs).symm ▸ hviews⟩
  | full hp hfull =>
    rw [hp] at hviews
    obtain ⟨hist, hvalues, houts, hinv⟩ := h.carries
    have hidle := hinv.setProducer .idle (by rw [show s.latest.producer = _ from hp]; rfl) trivial
    constructor
    · exact ⟨hist, hvalues.trans (List.append_nil _).symm, houts.trans (List.append_nil _).symm,
        hidle⟩
    · simp only [Action.pushed?, Action.popped?, Option.toList, List.append_nil]
      exact hviews.load hbound rfl
  | room hp hroom =>
    rw [hp] at hviews
    rw [push_of_room (show s.latest.producer = _ from hp) ?_] at hcarries
    · refine ⟨hcarries, ?_⟩
      simp only [Action.pushed?, Action.popped?, Option.toList, List.append_nil]
      exact hviews.load hroom rfl
    · obtain ⟨unread, hinv⟩ := h.strong
      rw [hinv.full_iff]
      have hle : s.memory.index .producer .tail lag ≤ outs.length :=
        h.views.index_le .producer .consumer lag
      omega
  | @write v hp =>
    have hslot : cap.slot s.latest.head = slotOf cap index values.length := by
      rw [slotOf, h.latest_head]
    rw [hp] at hviews
    rw [SpscRing.push, show s.latest.producer = _ from hp] at hcarries
    dsimp only at hcarries
    rw [hslot] at hcarries
    refine ⟨hcarries, ?_⟩
    simp only [Action.pushed?, Action.popped?, Option.toList, List.append_nil]
    refine hviews.access (t := .producer) rfl ?_ ?_ v <;> rfl
  | @publish v hp =>
    have hnext : s.latest.head + 1 = index + UInt64.ofNat (values.length + 1) := by
      rw [h.latest_head, UInt64.ofNat_add, UInt64.add_assoc]
      rfl
    rw [hp] at hviews
    rw [SpscRing.push, show s.latest.producer = _ from hp] at hcarries
    dsimp only at hcarries
    rw [hnext] at hcarries
    refine ⟨?_, ?_⟩
    · rw [latest_store_head]
      exact hcarries
    · simp only [Action.pushed?, Action.popped?, Option.toList, List.append_nil, List.length_append,
        List.length_singleton]
      exact hviews.store (t := .producer) rfl rfl rfl fun t => by cases t <;> exact le_rfl

/-- What a step of `pop` does after `n` pops. -/
inductive PopStep (index : UInt64) (n : Nat) (moved : α → α) (s : Weak cap α W) (lag : Nat) :
    Weak cap α W × Action cap α → Prop
  | load : s.consumer = .idle →
      PopStep index n moved s lag ({ s with consumer := .loadedTail s.latest.tail }, .silent)
  | empty : s.consumer = .loadedTail s.latest.tail → s.memory.index .consumer .head lag = n →
      PopStep index n moved s lag ({ s with
        memory := (s.memory.load .consumer .head .acquire lag).1
        consumer := .idle }, .popFailed)
  | filled : s.consumer = .loadedTail s.latest.tail → n < s.memory.index .consumer .head lag →
      PopStep index n moved s lag ({ s with
        memory := (s.memory.load .consumer .head .acquire lag).1
        consumer := .checked s.latest.tail }, .silent)
  | read : s.consumer = .checked s.latest.tail →
      PopStep index n moved s lag ({ s with
        memory := s.memory.access .consumer (slotOf cap index n)
          (moved (s.memory.cell (slotOf cap index n)))
        consumer := .copied s.latest.tail (s.memory.cell (slotOf cap index n)) },
        .read (slotOf cap index n))
  | free {out : α} : s.consumer = .copied s.latest.tail out →
      PopStep index n moved s lag ({ s with
        memory := s.memory.store .consumer .tail (index + UInt64.ofNat (n + 1))
        consumer := .idle }, .popped (slotOf cap index n) out)

theorem Inv.popStep (h : Inv index values outs s) (moved : α → α) (lag : Nat) :
    PopStep index outs.length moved s lag (s.pop moved lag) := by
  obtain ⟨unread, hinv⟩ := h.strong
  have hok := hinv.consumer
  have hbound := h.filled_index lag
  have hslot : cap.slot s.latest.tail = slotOf cap index outs.length := by
    rw [slotOf, h.latest_tail]
  cases hc : s.consumer with
  | idle =>
    have hown : (s.memory.view .consumer).1 .tail = s.memory.stores .tail :=
      (h.views.own .consumer).trans (h.views.stores .consumer).symm
    simp only [pop, hc]
    rw [Memory.load_own hown]
    exact .load hc
  | loadedTail tail =>
    simp only [ConsumerOk, show s.latest.consumer = .loadedTail tail from hc] at hok
    subst hok
    by_cases hempty : s.latest.tail =
        indexAt s.memory .producer (s.memory.index .consumer .head lag)
    · have hs : s.pop moved lag = ({ s with
          memory := (s.memory.load .consumer .head .acquire lag).1
          consumer := .idle }, .popFailed) := by
        simp only [pop, hc]
        exact if_pos hempty
      rw [hs]
      exact .empty hc ((h.empty_iff lag).mp hempty)
    · have hs : s.pop moved lag = ({ s with
          memory := (s.memory.load .consumer .head .acquire lag).1
          consumer := .checked s.latest.tail }, .silent) := by
        simp only [pop, hc]
        exact if_neg hempty
      rw [hs]
      exact .filled hc (lt_of_le_of_ne hbound (mt (fun he => (h.empty_iff lag).mpr he.symm) hempty))
  | checked tail =>
    simp only [ConsumerOk, show s.latest.consumer = .checked tail from hc] at hok
    obtain ⟨rfl, -⟩ := hok
    simp only [pop, hc]
    rw [hslot]
    exact .read hc
  | copied tail out =>
    simp only [ConsumerOk, show s.latest.consumer = .copied tail out from hc] at hok
    obtain ⟨rfl, -⟩ := hok
    have hnext : s.latest.tail + 1 = index + UInt64.ofNat (outs.length + 1) := by
      rw [h.latest_tail, UInt64.ofNat_add, UInt64.add_assoc]
      rfl
    simp only [pop, hc]
    rw [hslot, hnext]
    exact .free hc

theorem Inv.pop (h : Inv index values outs s) (moved : α → α) (lag : Nat) :
    Inv index (values ++ (s.pop moved lag).2.pushed?.toList)
      (outs ++ (s.pop moved lag).2.popped?.toList) (s.pop moved lag).1 := by
  have hviews := h.views
  have hbound := h.filled_index lag
  have hcarries := h.carries.step moved .consumer
  change Carries index (values ++ (SpscRing.pop moved s.latest).2.pushed?.toList)
    (outs ++ (SpscRing.pop moved s.latest).2.popped?.toList) (SpscRing.pop moved s.latest).1
    at hcarries
  have hslot : cap.slot s.latest.tail = slotOf cap index outs.length := by
    rw [slotOf, h.latest_tail]
  have hstep := h.popStep moved lag
  generalize s.pop moved lag = r at hstep ⊢
  cases hstep with
  | load hc =>
    rw [hc] at hviews
    rw [SpscRing.pop, show s.latest.consumer = _ from hc] at hcarries
    exact ⟨hcarries, (List.append_nil values).symm ▸ (List.append_nil outs).symm ▸ hviews⟩
  | empty hc hempty =>
    rw [hc] at hviews
    obtain ⟨hist, hvalues, houts, hinv⟩ := h.carries
    have hidle := hinv.setConsumer .idle (by rw [show s.latest.consumer = _ from hc]; rfl) trivial
    constructor
    · exact ⟨hist, hvalues.trans (List.append_nil _).symm, houts.trans (List.append_nil _).symm,
        hidle⟩
    · simp only [Action.pushed?, Action.popped?, Option.toList, List.append_nil]
      exact hviews.load (t := .consumer) hbound rfl
  | filled hc hfilled =>
    rw [hc] at hviews
    rw [pop_of_filled (show s.latest.consumer = _ from hc) ?_] at hcarries
    · refine ⟨hcarries, ?_⟩
      simp only [Action.pushed?, Action.popped?, Option.toList, List.append_nil]
      exact hviews.load (t := .consumer) hfilled rfl
    · rw [Ne, h.carries.empty_iff]
      have hle : s.memory.index .consumer .head lag ≤ values.length :=
        h.views.index_le .consumer .producer lag
      omega
  | read hc =>
    rw [hc] at hviews
    rw [SpscRing.pop, show s.latest.consumer = _ from hc] at hcarries
    dsimp only at hcarries
    rw [hslot] at hcarries
    refine ⟨hcarries, ?_⟩
    simp only [Action.pushed?, Action.popped?, Option.toList, List.append_nil]
    refine hviews.access (t := .consumer) rfl ?_ ?_ _ <;> rfl
  | @free out hc =>
    have hnext : s.latest.tail + 1 = index + UInt64.ofNat (outs.length + 1) := by
      rw [h.latest_tail, UInt64.ofNat_add, UInt64.add_assoc]
      rfl
    rw [hc] at hviews
    rw [SpscRing.pop, show s.latest.consumer = _ from hc] at hcarries
    dsimp only at hcarries
    rw [hslot, hnext] at hcarries
    refine ⟨?_, ?_⟩
    · rw [latest_store_tail]
      exact hcarries
    · simp only [Action.pushed?, Action.popped?, Option.toList, List.append_nil, List.length_append,
        List.length_singleton]
      exact hviews.store (t := .consumer) rfl rfl rfl fun t => by cases t <;> exact le_rfl

/-! ## Runs -/

theorem step_inv {h : List (WeakEvent cap α W)} (hI : HistoryInv index h s) (moved : α → α)
    (t : Turn α × Nat) :
    HistoryInv index (h ++ [event (step moved) s t]) (step moved s t).1 := by
  unfold HistoryInv
  rw [pushed_concat, popped_concat]
  obtain ⟨value | -, lag⟩ := t
  · exact hI.push value lag
  · exact hI.pop moved lag

theorem step_sound {h : List (WeakEvent cap α W)} (hI : HistoryInv index h s) (moved : α → α)
    (t : Turn α × Nat) : Sound h (event (step moved) s t) := by
  obtain ⟨value | -, lag⟩ := t
  · have hout : (event (step moved) s (.producer value, lag)).output = (s.push value lag).2 := rfl
    have hpre : (event (step moved) s (.producer value, lag)).pre = s := rfl
    have hstep := hI.pushStep value lag
    have hclear : s.producer.claimed (pushed h).length ≤
        (s.memory.view .producer).1 .tail + cap.size.toNat := hI.views.clear .producer
    generalize event (step moved) s (.producer value, lag) = e at hout hpre ⊢
    generalize s.push value lag = r at hstep hout
    subst hpre
    cases hstep with
    | load hp => constructor <;> simp [hout]
    | room hp hroom => constructor <;> simp [hout]
    | publish hp => constructor <;> simp [hout]
    | full hp hfull =>
      have hseen := e.pre.memory.seen_le_index .producer .tail lag
      rw [hp] at hclear
      simp only [Producer.claimed] at hclear
      constructor <;> simp [hout]
      omega
    | write hp =>
      have hfree := hI.write_ordered hp
      constructor <;> simp [hout]
      exact hfree
  · have hout : (event (step moved) s (.consumer, lag)).output = (s.pop moved lag).2 := rfl
    have hpre : (event (step moved) s (.consumer, lag)).pre = s := rfl
    have hstep := hI.popStep moved lag
    have hclear : s.consumer.claimed (popped h).length ≤ (s.memory.view .consumer).1 .head :=
      hI.views.clear .consumer
    generalize event (step moved) s (.consumer, lag) = e at hout hpre ⊢
    generalize s.pop moved lag = r at hstep hout
    subst hpre
    cases hstep with
    | load hc => constructor <;> simp [hout]
    | filled hc hfilled => constructor <;> simp [hout]
    | free hc => constructor <;> simp [hout]
    | empty hc hempty =>
      have hseen := e.pre.memory.seen_le_index .consumer .head lag
      rw [hc] at hclear
      simp only [Consumer.claimed] at hclear
      constructor <;> simp [hout]
      omega
    | read hc =>
      have hfree := hI.read_ordered hc
      constructor <;> simp [hout]
      exact hfree

/-- **The ring is a lossless FIFO under release and acquire.** Whatever messages the loads
get: what has been popped is a prefix of what has been pushed, no more than the capacity
behind it, and every access to a slot comes after all earlier ones to it that the other
thread has made. -/
theorem lossless_fifo_weak (moved : α → α) (index : UInt64) (slots : Fin cap.size.toNat → α)
    (others : (e : E) → W e) (turns : List (Turn α × Nat)) :
    let h := trace (step moved) (start cap index slots others) turns
    popped h <+: pushed h ∧ (pushed h).length ≤ (popped h).length + cap.size.toNat ∧
      ∀ before e after, h = before ++ e :: after → Sound before e := by
  intro h
  have hinv := history_induction (step moved) (P := fun _ _ => True) (I := HistoryInv index)
    (fun _ _ t _ hI => step_inv hI moved t) _ (start_inv index slots others) turns
    (fun _ _ => trivial)
  obtain ⟨unread, hstrong⟩ := hinv.strong
  refine ⟨hstrong.fifo, hstrong.room, fun before e after hrun => ?_⟩
  exact event_of_history (step moved) (P := fun _ _ => True) (I := HistoryInv index)
    (fun h s t _ hI => step_inv hI moved t) (fun h s t _ hI => step_sound hI moved t)
    _ (start_inv index slots others) turns (fun _ _ => trivial) before after e hrun

/-! ## The ring inside a larger system -/

theorem Inv.acquire (h : Inv index values outs s) (t : Role) (l : Loc E) (lag : Nat) :
    Inv index values outs { s with memory := (s.memory.load t l .acquire lag).1 } :=
  ⟨h.carries, h.views.acquire t l lag⟩

theorem Inv.load_other (h : Inv index values outs s) (t : Role) (e : E) (order : LoadOrder)
    (lag : Nat) :
    Inv index values outs { s with memory := (s.memory.load t (.other e) order lag).1 } := by
  cases order with
  | relaxed => exact ⟨h.carries, h.views.relaxed t e lag⟩
  | acquire => exact h.acquire t (.other e) lag

theorem Inv.store_other (h : Inv index values outs s) (t : Role) (e : E) (value : W e) :
    Inv index values outs { s with memory := s.memory.store t (.other e) value } := by
  refine ⟨?_, h.views.store_other t e value⟩
  have hlatest : latest { s with memory := s.memory.store t (.other e) value } = s.latest := by
    simp only [latest, indexAt]
    rw [Memory.store_stores_of_ne (by simp), Memory.store_stores_of_ne (by simp),
      Memory.store_message_of_ne (by simp), Memory.store_message_of_ne (by simp)]
    rfl
  rw [hlatest]
  exact h.carries

/-- The calls of the ring leave the other atomics alone. -/
theorem push_other (s : Weak cap α W) (value : α) (lag : Nat) (e : E) :
    (s.push value lag).1.memory.stores (.other e) = s.memory.stores (.other e) ∧
      (s.push value lag).1.memory.message (.other e) = s.memory.message (.other e) := by
  unfold push
  cases s.producer with
  | idle | checked v head => exact ⟨rfl, rfl⟩
  | loadedHead v head =>
    dsimp only
    split_ifs <;> exact ⟨rfl, rfl⟩
  | copied v head =>
    exact ⟨Memory.store_stores_of_ne (by simp), Memory.store_message_of_ne (by simp)⟩

theorem pop_other (moved : α → α) (s : Weak cap α W) (lag : Nat) (e : E) :
    (s.pop moved lag).1.memory.stores (.other e) = s.memory.stores (.other e) ∧
      (s.pop moved lag).1.memory.message (.other e) = s.memory.message (.other e) := by
  unfold pop
  cases s.consumer with
  | idle | checked tail => exact ⟨rfl, rfl⟩
  | loadedTail tail =>
    dsimp only
    split_ifs <;> exact ⟨rfl, rfl⟩
  | copied tail out =>
    exact ⟨Memory.store_stores_of_ne (by simp), Memory.store_message_of_ne (by simp)⟩

/-- What a step of `push` leaves alone on the side of the consumer. -/
theorem push_consumer (s : Weak cap α W) (value : α) (lag : Nat) :
    (s.push value lag).1.consumer = s.consumer ∧
      (s.push value lag).1.memory.view .consumer = s.memory.view .consumer ∧
      (s.push value lag).2.popped? = none := by
  have hne : Role.consumer ≠ .producer := Role.noConfusion
  unfold push
  have hload : ∀ (l : Loc E) order, (s.memory.load .producer l order lag).1.view .consumer =
      s.memory.view .consumer := fun _ _ => Memory.load_view_of_ne hne
  cases s.producer with
  | idle => exact ⟨rfl, hload .head .relaxed, rfl⟩
  | loadedHead v head =>
    dsimp only
    split_ifs <;> exact ⟨rfl, hload .tail .acquire, rfl⟩
  | checked v head => exact ⟨rfl, Memory.access_view_of_ne hne, rfl⟩
  | copied v head => exact ⟨rfl, Memory.store_view_of_ne hne, rfl⟩

theorem pop_producer (moved : α → α) (s : Weak cap α W) (lag : Nat) :
    (s.pop moved lag).1.producer = s.producer ∧ (s.pop moved lag).2.pushed? = none := by
  unfold pop
  cases s.consumer with
  | idle | checked tail | copied tail out => exact ⟨rfl, rfl⟩
  | loadedTail tail =>
    dsimp only
    split_ifs <;> exact ⟨rfl, rfl⟩

end Weak

end Lloms.SpscRing
