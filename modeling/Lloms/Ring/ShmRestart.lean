import Lloms.Ring.Link

/-! Either process of a shared-memory ring may die between any two accesses, and a
new one attaches in its place. The indices are stored last, so what a dead process
had not stored never happened: a copy into a slot that was not published is written
over, a message that was copied out and not consumed is still there. Whatever the
order of deaths, the messages popped are a prefix of those pushed. -/
namespace Lloms.SpscRing
open Lib

universe u

variable {α : Type u} {cap : Capacity} {index : UInt64} {values outs : List α} {s : Ring cap α}

/-! ## The ring without its history -/

/-- An event of which only the action matters. -/
def did (s : Ring cap α) (a : Action cap α) : Event cap α := ⟨s, .consumer, a, s⟩

/-- A history that tells what `Inv` asks for: the pushes, the pops and a write to
each slot that is unread now. -/
def account (s : Ring cap α) (values outs : List α) (slots : List (Fin cap.size.toNat)) :
    List (Event cap α) :=
  (values.map fun v => did s (.pushed v)) ++ (outs.map fun v => did s (.popped (cap.slot 0) v)) ++
    slots.map fun i => did s (.wrote i)

section Account

variable (s : Ring cap α) (values outs : List α) (slots : List (Fin cap.size.toNat))

theorem pushedValues_account : pushedValues (account s values outs slots) = values := by
  simp [pushedValues, account, did, List.filterMap_map]

theorem poppedValues_account : poppedValues (account s values outs slots) = outs := by
  simp [poppedValues, account, did, List.filterMap_map]

theorem unread_account (i : Fin cap.size.toNat) :
    Unread (account s values outs slots) i ↔ i ∈ slots := by
  constructor
  · rintro ⟨before, e, after, heq, he, -⟩
    have hmem : e ∈ account s values outs slots := heq ▸ by simp
    simp only [account, List.mem_append, List.mem_map] at hmem
    rcases hmem with (⟨v, -, rfl⟩ | ⟨v, -, rfl⟩) | ⟨j, hj, rfl⟩
    · simp [did] at he
    · simp [did] at he
    · obtain rfl : j = i := by simpa [did] using he
      exact hj
  · intro hi
    obtain ⟨front, back, rfl⟩ := List.append_of_mem hi
    refine ⟨account s values outs front, did s (.wrote i), back.map fun i => did s (.wrote i), ?_,
      rfl, ?_⟩
    · simp [account]
    · intro e he
      obtain ⟨j, -, rfl⟩ := List.mem_map.mp he
      simp [did]

end Account

/-- The invariant says all there is to say: some history leads to it. -/
theorem Inv.carries {unread : Fin cap.size.toNat → Prop} (h : Inv index values outs unread s) :
    Carries index values outs s := by
  let slots := (List.range' outs.length (s.producer.written values.length - outs.length)).map
    (slotOf cap index)
  refine ⟨account s values outs slots, pushedValues_account .., poppedValues_account .., ?_⟩
  rw [HistoryInv, pushedValues_account, poppedValues_account]
  refine h.congr fun i => ?_
  rw [unread_account, h.unread]
  simp only [slots, List.mem_map, List.mem_range'_1]
  constructor
  · rintro ⟨k, ⟨hk, hlt⟩, rfl⟩
    exact ⟨k, hk, by omega, rfl⟩
  · rintro ⟨k, hk, hlt, rfl⟩
    exact ⟨k, ⟨hk, by omega⟩, rfl⟩

theorem Carries.depth (h : Carries index values outs s) :
    (s.head - s.tail).toNat + outs.length = values.length := by
  obtain ⟨hist, rfl, rfl, hinv⟩ := h
  have hle := hinv.fifo.length_le
  have hroom := hinv.room
  have hword := cap.lt_word
  rw [hinv.head, hinv.tail, toNat_add_ofNat_sub hle (by omega)]
  omega

/-! ## A side that is lost -/

/-- A new producer starts between two calls. A slot that was written and not
published goes back to the free ones. -/
theorem Carries.newProducer (h : Carries index values outs s) :
    Carries index values outs { s with producer := .idle } := by
  obtain ⟨hist, rfl, rfl, hinv⟩ := h
  have hinv' : Inv index (pushedValues hist) (poppedValues hist)
      (fun i => ∃ k, (poppedValues hist).length ≤ k ∧ k < (pushedValues hist).length ∧
        slotOf cap index k = i) { s with producer := .idle } :=
    { hinv with producer := trivial, unread := fun _ => Iff.rfl }
  exact hinv'.carries

/-- What the consumer has copied out and not consumed is still in its slot. -/
def Intact (s : Ring cap α) : Prop :=
  match s.consumer with
  | .copied tail out => s.slots (cap.slot tail) = out
  | _ => True

/-- A new consumer starts at the first message that was not consumed. -/
theorem Carries.newConsumer (h : Carries index values outs s) (hintact : Intact s) :
    Carries index values outs { s with consumer := .idle } := by
  obtain ⟨hist, rfl, rfl, hinv⟩ := h
  have hinv' : Inv index (pushedValues hist) (poppedValues hist) (Unread hist)
      { s with consumer := .idle } := by
    refine { hinv with consumer := trivial, contents := fun k v hk hv => ?_ }
    change (poppedValues hist).length ≤ k at hk
    have hok := hinv.consumer
    cases hc : s.consumer with
    | idle | loadedTail tail | checked tail =>
      exact hinv.contents k v (by rwa [hc]) hv
    | copied tail out =>
      by_cases hfirst : k = (poppedValues hist).length
      · simp only [ConsumerOk, hc] at hok
        simp only [Intact, hc] at hintact
        subst hfirst
        obtain rfl : v = out := Option.some.inj (hv.symm.trans hok.2)
        rw [slotOf, ← hinv.tail, ← hok.1]
        exact hintact
      · refine hinv.contents k v ?_ hv
        simp only [hc, Consumer.read]
        omega
  exact hinv'.carries

/-- The producer writes elsewhere, and a copy out of trivially copyable memory leaves
the slot as it was. -/
theorem intact_step (h : Carries index values outs s) (hintact : Intact s) (t : Turn α) :
    Intact (step id s t).1 := by
  obtain ⟨hist, rfl, rfl, hinv⟩ := h
  cases t with
  | producer value =>
    cases hp : s.producer with
    | idle => simpa [step, push, hp, Intact] using hintact
    | loadedHead v head =>
      by_cases hfull : head + 1 - s.tail > cap.size
      · simpa [step, push_of_full hp hfull, Intact] using hintact
      · simpa [step, push_of_room hp hfull, Intact] using hintact
    | copied v head => simpa [step, push, hp, Intact] using hintact
    | checked v head =>
      simp only [step, push, hp, Intact] at hintact ⊢
      cases hc : s.consumer with
      | idle | loadedTail tail | checked tail => trivial
      | copied tail out =>
        have hpok := hinv.producer
        have hcok := hinv.consumer
        simp only [ProducerOk, hp] at hpok
        simp only [ConsumerOk, hc] at hcok
        simp only [hc] at hintact
        have hlt := (List.getElem?_eq_some_iff.mp hcok.2).1
        have hne : cap.slot tail ≠ cap.slot head := by
          rw [hpok.1, hinv.head, hcok.1, hinv.tail]
          exact cap.slot_ne hlt hpok.2
        rw [← hintact]
        exact Function.update_of_ne hne _ _
  | consumer =>
    cases hc : s.consumer with
    | idle => simp [step, pop, hc, Intact]
    | loadedTail tail =>
      by_cases hempty : tail = s.head
      · simp [step, pop_of_empty hc hempty, Intact]
      · simp [step, pop_of_filled hc hempty, Intact]
    | checked tail => simp [step, pop, hc, Intact]
    | copied tail out => simp [step, pop, hc, Intact]

end Lloms.SpscRing

namespace Lloms.ShmRing
open Lib

universe u

variable {α : Type u}

/-! ## Lives of a pair -/

/-- A turn of a process, or the start of a new one in its place, which has the segment
mapped at `m`. -/
inductive Life (α : Type u) where
  | turn (t : SpscRing.Turn α)
  | newWriter (m : Mapping)
  | newReader (m : Mapping)
  deriving DecidableEq, Repr

inductive LifeAction (α : Type u) where
  | did (a : Action α)
  | attached (status : ShmAttachStatus)
  deriving DecidableEq

def Pair.live (sizeofT : UInt32) (s : Pair α) : Life α → Pair α × LifeAction α
  | .turn t =>
    let r := s.step t
    (r.1, .did r.2)
  | .newWriter m =>
    let r := attach sizeofT m s.segment {}
    ({ s with writer := { ring := r.2 } }, .attached r.1)
  | .newReader m =>
    let r := attach sizeofT m s.segment {}
    ({ s with reader := { ring := r.2 } }, .attached r.1)

abbrev LifeEvent (α : Type u) := Lib.Event (Pair α) (Life α) (LifeAction α)

def LifeAction.pushed? : LifeAction α → Option α
  | .did a => a.pushed?
  | .attached _ => none

def LifeAction.popped? : LifeAction α → Option α
  | .did a => a.popped?
  | .attached _ => none

/-- The messages whose `push` has returned true, in whatever life of the writer. -/
def pushedInLives (h : List (LifeEvent α)) : List α := h.filterMap fun e => e.output.pushed?

/-- The messages whose `pop` has returned true, in whatever life of the reader. -/
def poppedInLives (h : List (LifeEvent α)) : List α := h.filterMap fun e => e.output.popped?

theorem pushedInLives_concat (h : List (LifeEvent α)) (e : LifeEvent α) :
    pushedInLives (h ++ [e]) = pushedInLives h ++ e.output.pushed?.toList := by
  rw [pushedInLives, List.filterMap_append]
  cases he : e.output.pushed? <;> simp [pushedInLives, he]

theorem poppedInLives_concat (h : List (LifeEvent α)) (e : LifeEvent α) :
    poppedInLives (h ++ [e]) = poppedInLives h ++ e.output.popped?.toList := by
  rw [poppedInLives, List.filterMap_append]
  cases he : e.output.popped? <;> simp [poppedInLives, he]

/-- Every new process has mapped enough of the segment. -/
def Life.Suits (sizeofT capacity : UInt32) : Life α → Prop
  | .turn _ => True
  | .newWriter m | .newReader m => ShmRing.Suits sizeofT capacity m

section Lives

variable {sizeofT capacity : UInt32} {cap : SpscRing.Capacity} {index : UInt64}
  {values outs : List α} {s : Pair α}

/-- No access of a call is a store to the header but those of the two indices. -/
theorem Header.step (h : Header sizeofT capacity s.segment) (t : SpscRing.Turn α) :
    Header sizeofT capacity (s.step t).1.segment := by
  obtain ⟨hmagic, hversion, helem, hcapacity⟩ := h
  cases t with
  | producer value =>
    simp only [Pair.step, Process.step]
    repeat' split
    all_goals exact ⟨hmagic, hversion, helem, hcapacity⟩
  | consumer =>
    simp only [Pair.step, Process.step]
    repeat' split
    all_goals exact ⟨hmagic, hversion, helem, hcapacity⟩

/-- What every step of every life keeps. -/
structure LifeOk (sizeofT capacity : UInt32) (cap : SpscRing.Capacity) (index : UInt64)
    (values outs : List α) (s : Pair α) : Prop where
  pair : PairOk cap s
  carries : SpscRing.Carries index values outs (s.view cap)
  intact : SpscRing.Intact (s.view cap)
  header : Header sizeofT capacity s.segment

theorem LifeOk.step (h : LifeOk sizeofT capacity cap index values outs s) (t : SpscRing.Turn α) :
    LifeOk sizeofT capacity cap index (values ++ (s.step t).2.pushed?.toList)
      (outs ++ (s.step t).2.popped?.toList) (s.step t).1 := by
  obtain ⟨hpair, hcarries⟩ := pair_step h.pair h.carries t
  refine ⟨hpair, hcarries, ?_, h.header.step t⟩
  have hsimulates : Simulates cap s t := by
    cases t with
    | producer value => exact (writer_step h.pair h.carries value).2
    | consumer => exact (reader_step h.pair h.carries).2
  rcases hsimulates with ⟨hview, -⟩ | ⟨hview, -⟩
  · rw [hview]
    exact h.intact
  · rw [hview]
    exact SpscRing.intact_step h.carries h.intact t

/-- A new process of either side finds what the dead one had stored. -/
theorem LifeOk.live (hmask : (capacity - 1).toUInt64 = cap.kMask)
    (h : LifeOk sizeofT capacity cap index values outs s) {l : Life α}
    (hl : l.Suits sizeofT capacity) :
    LifeOk sizeofT capacity cap index (values ++ (s.live sizeofT l).2.pushed?.toList)
      (outs ++ (s.live sizeofT l).2.popped?.toList) (s.live sizeofT l).1 ∧
    ∀ status, (s.live sizeofT l).2 = .attached status → status = .ok := by
  cases l with
  | turn t => exact ⟨h.step t, fun status hstatus => by cases hstatus⟩
  | newWriter m =>
    have hattach : ShmRing.attach sizeofT m s.segment {} = _ := Suits.attach hl h.header
    simp only [Pair.live, hattach, LifeAction.pushed?, LifeAction.popped?, Option.toList,
      List.append_nil]
    refine ⟨⟨{ h.pair with writerMask := hmask, writer := trivial, corruption := ?_ },
      h.carries.newProducer, h.intact, h.header⟩, fun status hstatus => ?_⟩
    · exact ⟨h.pair.corruption.1, rfl⟩
    · exact (LifeAction.attached.inj hstatus).symm
  | newReader m =>
    have hattach : ShmRing.attach sizeofT m s.segment {} = _ := Suits.attach hl h.header
    simp only [Pair.live, hattach, LifeAction.pushed?, LifeAction.popped?, Option.toList,
      List.append_nil]
    refine ⟨⟨{ h.pair with readerMask := hmask, reader := trivial, corruption := ?_ },
      h.carries.newConsumer h.intact, trivial, h.header⟩, fun status hstatus => ?_⟩
    · exact ⟨rfl, h.pair.corruption.2⟩
    · exact (LifeAction.attached.inj hstatus).symm

end Lives

/-- **Deaths and restarts lose nothing.** A ring is created and attached to; then, at
any access, either process may die and a new one take its place by `attach`. Every
`attach` succeeds, the messages popped over all lives are a prefix of those pushed over
all lives, the indices hold exactly the difference, and no corruption is counted. -/
theorem restarts_lose_nothing {sizeofT capacity : UInt32} {m m' : Mapping}
    (hm : Suits sizeofT capacity m) (hm' : Suits sizeofT capacity m') (memory : Segment α)
    (lives : List (Life α)) (hlives : ∀ l ∈ lives, l.Suits sizeofT capacity) :
    let created := create sizeofT m capacity memory {}
    let attached := attach sizeofT m' created.2.1 {}
    let s : Pair α :=
      { writer := { ring := created.2.2 }, reader := { ring := attached.2 }
        segment := created.2.1 }
    let h := trace (Pair.live sizeofT) s lives
    let t := exec (Pair.live sizeofT) s lives
    (created.1 = .ok ∧ attached.1 = .ok ∧
      ∀ e ∈ h, ∀ status, e.output = .attached status → status = .ok) ∧
    poppedInLives h <+: pushedInLives h ∧
    (t.segment.head - t.segment.tail).toNat + (poppedInLives h).length =
      (pushedInLives h).length ∧
    t.writer.ring.corruption = 0 ∧ t.reader.ring.corruption = 0 := by
  obtain ⟨segment, ring, hcreate, hattach, hpair, hcarries, hheader⟩ := pair_opened hm hm' memory
  simp only [hcreate, hattach, true_and]
  have hmask : (capacity - 1).toUInt64 = (capacityOf hm.good).kMask := toUInt64_sub_one hm.good.two_le
  let s : Pair α := { writer := { ring }, reader := { ring }, segment }
  have hstart : LifeOk sizeofT capacity (capacityOf hm.good) 0 [] [] s :=
    ⟨hpair, hcarries, trivial, hheader⟩
  have hrun := history_induction (Pair.live sizeofT) (P := fun _ l => l.Suits sizeofT capacity)
    (I := fun h t => LifeOk sizeofT capacity (capacityOf hm.good) 0 (pushedInLives h)
      (poppedInLives h) t ∧ ∀ e ∈ h, ∀ status, e.output = .attached status → status = .ok)
    (fun h t l hl hI => ?_) s ⟨hstart, by simp⟩ lives
    (fun e he => hlives _ (input_mem_of_mem_trace _ _ _ e he))
  · obtain ⟨hok, hstatus⟩ := hrun
    refine ⟨hstatus, hok.carries.fifo, ?_, hok.pair.corruption.2, hok.pair.corruption.1⟩
    exact hok.carries.depth
  · obtain ⟨hnext, hone⟩ := hI.1.live hmask hl
    rw [pushedInLives_concat, poppedInLives_concat]
    refine ⟨hnext, fun e he => ?_⟩
    rcases List.mem_append.mp he with he | he
    · exact hI.2 e he
    · obtain rfl := List.mem_singleton.mp he
      exact hone

/-- Memory for a ring of two four-byte messages, as a new segment is. -/
def freshSegment : Segment Nat :=
  { magic := 0, version := 0, capacity := 0, elemSize := 0, head := 0, tail := 0, slots := fun _ => 0 }

/-- The writer dies over its second message when it has copied it in, the reader over
the first when it has copied it out. -/
def restarting : List (Life Nat) :=
  List.replicate 5 (.turn (.producer 7)) ++ List.replicate 4 (.turn (.producer 8)) ++
    [.newWriter ⟨8192, 200⟩] ++ List.replicate 4 (.turn .consumer) ++ [.newReader ⟨4096, 200⟩] ++
    List.replicate 5 (.turn (.producer 9)) ++ List.replicate 10 (.turn .consumer)

theorem restarts_lose_nothing_restarting :
    let created := create 4 ⟨4096, 200⟩ 2 freshSegment {}
    let attached := attach 4 ⟨8192, 200⟩ created.2.1 {}
    let s : Pair Nat :=
      { writer := { ring := created.2.2 }, reader := { ring := attached.2 }
        segment := created.2.1 }
    let h := trace (Pair.live 4) s restarting
    poppedInLives h <+: pushedInLives h ∧ poppedInLives h = [7, 9] := by
  have hfits : bytesNeeded 4 2 ≤ 200 := by decide
  have hsuits : ∀ mem : UInt64, mem ≠ 0 → mem % kHeaderAlign = 0 → Suits 4 2 ⟨mem, 200⟩ :=
    fun mem hnonnull haligned => ⟨⟨by decide, by decide, hfits⟩, hnonnull, haligned⟩
  have hwriter := hsuits 4096 (by decide) (by decide)
  have hreader := hsuits 8192 (by decide) (by decide)
  have hlives : ∀ l ∈ restarting, l.Suits 4 2 := by
    intro l hl
    simp only [restarting, List.mem_append, List.mem_replicate, List.mem_singleton] at hl
    rcases hl with (((((⟨-, rfl⟩ | ⟨-, rfl⟩) | rfl) | ⟨-, rfl⟩) | rfl) | ⟨-, rfl⟩) | ⟨-, rfl⟩
    · trivial
    · trivial
    · exact hreader
    · trivial
    · exact hwriter
    · trivial
    · trivial
  obtain ⟨-, hfifo, -⟩ := restarts_lose_nothing hwriter hreader freshSegment restarting hlives
  exact ⟨hfifo, by decide⟩

end Lloms.ShmRing
