import Lloms.Session.Delivery

/-! A block of consecutive messages that arrives in some order. `Pending` is what
the session looks like on the way: the messages held and those still to arrive
make up what is left of the block, from the expected number on. A message that
finds itself next takes the held ones behind it along. -/
namespace Lloms.Session
open Lib

/-! ## Blocks -/

/-- `ms` carries the numbers from `a` up to `b`, and they are numbers: the counter
does not wrap before the last of them. -/
structure Block (a : UInt64) (ms : List Inbound) (b : UInt64) : Prop where
  run : Consecutive a ms b
  room : a.toNat + ms.length ≤ 2 ^ 64

theorem consecutive_cons {a b : UInt64} {m : Inbound} {ms : List Inbound} :
    Consecutive a (m :: ms) b ↔ m.seq = a ∧ Consecutive (a + 1) ms b := by
  constructor
  · intro h
    cases h with
    | cons _ hrest => exact ⟨rfl, hrest⟩
  · rintro ⟨rfl, hrest⟩
    exact .cons m hrest

theorem Block.tail {a b : UInt64} {m : Inbound} {ms : List Inbound} (h : Block a (m :: ms) b) :
    m.seq = a ∧ Block (a + 1) ms b := by
  obtain ⟨hseq, hrest⟩ := consecutive_cons.mp h.run
  refine ⟨hseq, hrest, ?_⟩
  have hroom := h.room
  rw [List.length_cons] at hroom
  rw [UInt64.toNat_add, UInt64.toNat_one]
  omega

/-- With another message behind the first, the counter does not wrap. -/
theorem Block.lt_succ {a b : UInt64} {m q : Inbound} {ms : List Inbound} (h : Block a (m :: ms) b)
    (hq : q ∈ ms) : a < a + 1 := by
  have hroom := h.room
  have hpos : 0 < ms.length := List.length_pos_of_mem hq
  rw [List.length_cons] at hroom
  rw [UInt64.lt_iff_toNat_lt, UInt64.toNat_add, UInt64.toNat_one]
  omega

/-- The numbers of a block are not below its first. -/
theorem Block.le_of_mem {a b : UInt64} {ms : List Inbound} (h : Block a ms b) {q : Inbound}
    (hq : q ∈ ms) : a ≤ q.seq := by
  induction ms generalizing a with
  | nil => cases hq
  | cons m ms ih =>
    obtain ⟨hseq, htail⟩ := h.tail
    rcases List.mem_cons.mp hq with rfl | hmem
    · exact le_of_eq hseq.symm
    · exact (h.lt_succ hmem).le.trans (ih htail hmem)

theorem Block.lt_of_mem_tail {a b : UInt64} {m q : Inbound} {ms : List Inbound}
    (h : Block a (m :: ms) b) (hq : q ∈ ms) : m.seq < q.seq := by
  obtain ⟨hseq, htail⟩ := h.tail
  rw [hseq]
  exact (h.lt_succ hq).trans_le (htail.le_of_mem hq)

theorem Consecutive.end_eq {a b : UInt64} {ms : List Inbound} (h : Consecutive a ms b) :
    b = a + UInt64.ofNat ms.length := by
  induction h with
  | nil a => simp
  | cons m _ ih => rw [ih, List.length_cons, Nat.add_comm, UInt64.ofNat_add, UInt64.add_assoc]; rfl

/-- Consecutive messages among those of a block, from its first number on, are the
first ones of the block. -/
theorem Block.split {a b c : UInt64} {todo ms others : List Inbound} (h : Block a todo b)
    (hrun : Consecutive a ms c) (hperm : (ms ++ others).Perm todo) :
    ∃ todo', todo = ms ++ todo' ∧ Block c todo' b ∧ others.Perm todo' := by
  induction ms generalizing a todo with
  | nil =>
    cases hrun with
    | nil => exact ⟨todo, rfl, h, hperm⟩
  | cons m ms ih =>
    obtain ⟨hseq, hrest⟩ := consecutive_cons.mp hrun
    have hmem : m ∈ todo := hperm.subset (by simp)
    cases todo with
    | nil => cases hmem
    | cons q todo =>
      obtain ⟨hq, htail⟩ := h.tail
      obtain rfl : m = q := by
        rcases List.mem_cons.mp hmem with heq | hlate
        · exact heq
        · exact absurd (h.lt_of_mem_tail hlate) (by rw [hq, hseq]; exact lt_irrefl _)
      obtain ⟨todo', rfl, hblock, hothers⟩ := ih htail hrest ((List.perm_cons m).mp hperm)
      exact ⟨todo', rfl, hblock, hothers⟩

/-! ## A session in the middle of a block -/

/-- `todo` is what is left of the block, `rest` what has yet to arrive. -/
structure Pending (s : Session) (rest todo : List Inbound) (b : UInt64) : Prop where
  block : Block s.nextIn todo b
  left : (s.queued ++ rest).Perm todo
  ahead : ∀ q ∈ s.queued, q.seq ≠ s.nextIn
  state : s.state = if s.queued = [] then .active else .recovering

theorem Pending.up {s : Session} {rest todo : List Inbound} {b : UInt64}
    (h : Pending s rest todo b) : s.Up := by
  have hstate := h.state
  split_ifs at hstate
  · exact .inl hstate
  · exact .inr hstate

/-- When everything has arrived, nothing is held. -/
theorem Pending.done {s : Session} {todo : List Inbound} {b : UInt64} (h : Pending s [] todo b) :
    todo = [] := by
  cases todo with
  | nil => rfl
  | cons m todo =>
    have hmem : m ∈ s.queued ++ [] := h.left.mem_iff.mpr (by simp)
    exact absurd h.block.tail.1 (h.ahead m (by simpa using hmem))

section Arrivals

variable {s : Session} {m : Inbound} {rest todo : List Inbound} {b : UInt64}
  (h : Pending s (m :: rest) todo b) (now : Int64)
include h

theorem Pending.le : s.nextIn ≤ m.seq := h.block.le_of_mem (h.left.subset (by simp))

/-- What is left begins with the expected number. -/
theorem Pending.cases_todo :
    ∃ q todo', todo = q :: todo' ∧ q.seq = s.nextIn ∧ (m.seq = s.nextIn → m = q) := by
  have hmem : m ∈ todo := h.left.subset (by simp)
  cases todo with
  | nil => cases hmem
  | cons q todo =>
    have hq := h.block.tail.1
    refine ⟨q, todo, rfl, hq, fun hm => ?_⟩
    rcases List.mem_cons.mp hmem with heq | hlate
    · exact heq
    · exact absurd (h.block.lt_of_mem_tail hlate) (by rw [hq, hm]; exact lt_irrefl _)

/-- A message is next exactly when all that arrive after it have higher numbers. -/
theorem Pending.next_iff : m.seq = s.nextIn ↔ ∀ q ∈ rest, m.seq < q.seq := by
  obtain ⟨q, todo', rfl, hq, hsame⟩ := h.cases_todo
  constructor
  · intro hm p hp
    obtain rfl := hsame hm
    have hleft := List.perm_middle.symm.trans h.left
    have hmem : p ∈ todo' := ((List.perm_cons m).mp hleft).subset (by simp [hp])
    exact h.block.lt_of_mem_tail hmem
  · intro hlast
    have hmem : q ∈ s.queued ++ m :: rest := h.left.symm.subset (by simp)
    rcases List.mem_append.mp hmem with hheld | hcome
    · exact absurd hq (h.ahead q hheld)
    · rcases List.mem_cons.mp hcome with heq | hlate
      · rw [← heq, hq]
      · exact absurd (hlast q hlate) (not_lt.mpr (hq ▸ h.le))

theorem Pending.not_refused (hadmin : m.admin ≠ .sequenceReset) : ¬ s.Refuses m := by
  apply not_refuses
  · intro hdown
    exact absurd hdown h.up.ne_disconnected
  · exact h.le
  · intro hreset
    exact absurd hreset hadmin
  · intro _ _
    exact h.up

/-- A message that is not next is held. -/
theorem Pending.hold (hadmin : m.admin ≠ .sequenceReset) (hm : m.seq ≠ s.nextIn) :
    Pending (s.onMessage m now).1 rest todo b ∧
      (s.onMessage m now).1.released = s.released ∧ (s.onMessage m now).2.deliver = false ∧
      (s.onMessage m now).2.sendHeartbeat = false ∧ (s.onMessage m now).2.sendResend = false ∧
      (s.onMessage m now).2.disconnect = false ∧ (s.onMessage m now).2.reject = .none := by
  cases onMessage_effect s m now with
  | refused d r hwhy => exact absurd hwhy (h.not_refused hadmin)
  | held _ _ _ hcore ho =>
    have hstate := congrArg Core.state hcore
    have hnext := congrArg Core.nextIn hcore
    have hqueued := congrArg Core.queued hcore
    simp only [core_state, core_nextIn, core_queued] at hstate hnext hqueued
    refine ⟨⟨hnext ▸ h.block, ?_, ?_, ?_⟩, congrArg Core.released hcore, ?_⟩
    · rw [hqueued, List.append_assoc, List.singleton_append]
      exact h.left
    · intro q hq
      rw [hnext]
      rw [hqueued] at hq
      rcases List.mem_append.mp hq with hq | hq
      · exact h.ahead q hq
      · exact List.mem_singleton.mp hq ▸ hm
    · rw [hstate, hqueued, if_neg (by simp)]
    · rw [ho]
      split_ifs <;> exact ⟨rfl, rfl, rfl, rfl, rfl⟩
  | skipped _ hreset => exact absurd hreset hadmin
  | relogon _ hseq | loggedOn _ hseq | loggedOut _ hseq => exact absurd hseq hm
  | passed _ _ hseq => exact absurd hseq hm

/-- A message that is next is consumed, and the held messages behind it with it. -/
theorem Pending.pass (hadmin : m.admin ≠ .sequenceReset ∧ m.admin ≠ .logon ∧ m.admin ≠ .logout)
    (hm : m.seq = s.nextIn) :
    ∃ ms todo', todo = m :: ms ++ todo' ∧ Pending (s.onMessage m now).1 rest todo' b ∧
      (s.onMessage m now).1.released = s.released ++ ms.filter (fun q => q.admin = .none) ∧
      (s.onMessage m now).2.deliver = decide (m.admin = .none) ∧
      (s.onMessage m now).2.disconnect = false ∧ (s.onMessage m now).2.reject = .none := by
  cases onMessage_effect s m now with
  | refused d r hwhy => exact absurd hwhy (h.not_refused hadmin.1)
  | held _ hlt => exact absurd hm hlt.ne'
  | skipped _ hreset => exact absurd hreset hadmin.1
  | relogon hlogon | loggedOn hlogon => exact absurd hlogon hadmin.2.1
  | loggedOut hlogout => exact absurd hlogout hadmin.2.2
  | passed t _ _ _ _ hcore hs hdeliver hquiet =>
    obtain ⟨ms, hrel, hidle, hpass⟩ := settle_spec t
    rw [← hs] at hrel hidle hpass
    have hstate : t.state = s.state := congrArg Core.state hcore
    have hnext : t.nextIn = s.nextIn + 1 := congrArg Core.nextIn hcore
    have hqueued : t.queued = s.queued := congrArg Core.queued hcore
    have hreleased : t.released = s.released := congrArg Core.released hcore
    obtain ⟨q, todo₁, rfl, -, hsame⟩ := h.cases_todo
    obtain rfl := hsame hm
    have hleft : (s.queued ++ rest).Perm todo₁ :=
      (List.perm_cons m).mp (List.perm_middle.symm.trans h.left)
    have hperm : (ms ++ ((s.onMessage m now).1.queued ++ rest)).Perm todo₁ := by
      rw [← List.append_assoc]
      exact ((hqueued ▸ hrel.perm).symm.append_right rest).trans hleft
    obtain ⟨todo', rfl, hblock, hothers⟩ := h.block.tail.2.split (hnext ▸ hrel.run) hperm
    refine ⟨ms, todo', rfl, ⟨hblock, hothers, ?_, ?_⟩, by rw [hrel.released, hreleased], hdeliver,
      hquiet.2.2.1, hquiet.2.2.2⟩
    -- with nothing held there is no release pass
    · by_cases hnil : s.queued = []
      · have hback : (s.onMessage m now).1.queued = [] := by
          rw [(hidle (by rw [hstate, h.state, if_pos hnil]; simp)).1, hqueued, hnil]
        simp [hback]
      · exact (hpass (by rw [hstate, h.state, if_neg hnil])).1
    · by_cases hnil : s.queued = []
      · have hback := (hidle (by rw [hstate, h.state, if_pos hnil]; simp)).1
        rw [hback, hstate, hqueued, h.state]
      · exact (hpass (by rw [hstate, h.state, if_neg hnil])).2

end Arrivals

/-! ## Any order of arrival -/

/-- A message of the block, or a replay of a number that was consumed before. -/
inductive Arrival where
  | fresh (m : Inbound) (nowMs : Int64)
  | replay (m : Inbound) (nowMs : Int64)
  deriving DecidableEq, Repr

namespace Arrival

def call : Arrival → Call
  | .fresh m now => .onMessage m now
  | .replay m now => .onMessage m now

def fresh? : Arrival → Option Inbound
  | .fresh m _ => some m
  | .replay _ _ => none

end Arrival

/-- Every replay is marked as one, and its number is below the one that the session
expects when it arrives. -/
def ReplaysConsumed (s : Session) : List Arrival → Prop
  | [] => True
  | .fresh m now :: as => ReplaysConsumed (exec step s (withTake (.onMessage m now))) as
  | .replay m now :: as => m.possDup = true ∧ m.seq < s.nextIn ∧
      ReplaysConsumed (exec step s (withTake (.onMessage m now))) as

/-- The outcome of a call, if it has one, neither drops the session nor rejects. -/
def Quiet (e : Event) : Prop :=
  ∀ o, e.output = .outcome o → o.disconnect = false ∧ o.reject = .none

theorem quiet_withTake {s : Session} {m : Inbound} {now : Int64}
    (h : (s.onMessage m now).2.disconnect = false ∧ (s.onMessage m now).2.reject = .none) :
    ∀ e ∈ trace step s (withTake (.onMessage m now)), Quiet e := by
  intro e he o ho
  rw [trace_withTake, List.mem_cons, List.mem_singleton] at he
  rcases he with rfl | rfl
  · cases ho
    exact h
  · cases ho

theorem onMessage_replay {s : Session} {m : Inbound} (now : Int64) (hup : s.Up)
    (hdup : m.possDup = true) (hlow : m.seq < s.nextIn) :
    (s.onMessage m now).1.core = s.core ∧ (s.onMessage m now).2 = { drop := true } := by
  have hopen : ¬ (s.state = .disconnected ∧ m.admin ≠ .logon) := fun h => hup.ne_disconnected h.1
  rw [onMessage, if_neg hopen, if_neg (by simp [hdup]), if_pos hlow]
  simp only [hdup, if_true]
  exact ⟨rfl, trivial⟩

theorem Pending.of_core {s s' : Session} {rest todo : List Inbound} {b : UInt64}
    (h : Pending s rest todo b) (hstate : s'.state = s.state) (hnext : s'.nextIn = s.nextIn)
    (hqueued : s'.queued = s.queued) : Pending s' rest todo b where
  block := hnext ▸ h.block
  left := hqueued ▸ h.left
  ahead := by
    rw [hqueued, hnext]
    exact h.ahead
  state := by rw [hstate, hqueued, h.state]

/-- One driven arrival of a block of application messages and heartbeats: some
more of the block is handed over. -/
theorem Pending.arrive {s : Session} {a : Arrival} {as : List Arrival} {todo : List Inbound}
    {b : UInt64} (h : Pending s ((a :: as).filterMap Arrival.fresh?) todo b)
    (hrel : s.released = []) (hkinds : ∀ m ∈ todo, m.admin = .none ∨ m.admin = .heartbeat)
    (hreplays : ReplaysConsumed s (a :: as)) :
    ∃ ms todo', todo = ms ++ todo' ∧
      Pending (exec step s (withTake a.call)) (as.filterMap Arrival.fresh?) todo' b ∧
      log (trace step s (withTake a.call)) = ms.filter (fun m => m.admin = .none) ∧
      (∀ e ∈ trace step s (withTake a.call), Quiet e) ∧
      ReplaysConsumed (exec step s (withTake a.call)) as := by
  cases a with
  | replay m now =>
    obtain ⟨hdup, hlow, hnext⟩ := hreplays
    obtain ⟨hcore, ho⟩ := onMessage_replay now h.up hdup hlow
    refine ⟨[], todo, rfl, ?_, ?_, quiet_withTake (by rw [ho]; exact ⟨rfl, rfl⟩), hnext⟩
    · exact h.of_core (congrArg Core.state hcore) (congrArg Core.nextIn hcore)
        (congrArg Core.queued hcore)
    · have hkept : (s.onMessage m now).1.released = s.released := congrArg Core.released hcore
      rw [Arrival.call, log_withTake, ho, hkept, hrel]
      rfl
  | fresh m now =>
    have hmem : m ∈ todo := h.left.subset (by simp [Arrival.fresh?])
    have hadmin : m.admin ≠ .sequenceReset ∧ m.admin ≠ .logon ∧ m.admin ≠ .logout := by
      rcases hkinds m hmem with hk | hk <;> simp [hk]
    by_cases hm : m.seq = s.nextIn
    · obtain ⟨ms, todo', rfl, hpend, hreleased, hdeliver, hquiet⟩ := h.pass now hadmin hm
      refine ⟨m :: ms, todo', rfl, hpend.of_core rfl rfl rfl, ?_, quiet_withTake hquiet, hreplays⟩
      rw [Arrival.call, log_withTake, hdeliver, hreleased, hrel]
      by_cases ha : m.admin = .none <;> simp [ha]
    · obtain ⟨hpend, hreleased, hdeliver, -, -, hquiet⟩ := h.hold now hadmin.1 hm
      refine ⟨[], todo, rfl, hpend.of_core rfl rfl rfl, ?_, quiet_withTake hquiet, hreplays⟩
      rw [Arrival.call, log_withTake, hdeliver, hreleased, hrel]
      rfl

theorem Pending.arrivals {s : Session} {as : List Arrival} {todo : List Inbound} {b : UInt64}
    (h : Pending s (as.filterMap Arrival.fresh?) todo b) (hrel : s.released = [])
    (hkinds : ∀ m ∈ todo, m.admin = .none ∨ m.admin = .heartbeat)
    (hreplays : ReplaysConsumed s as) :
    Pending (exec step s (drive (as.map Arrival.call))) [] [] b ∧
      log (trace step s (drive (as.map Arrival.call))) = todo.filter (fun m => m.admin = .none) ∧
      ∀ e ∈ trace step s (drive (as.map Arrival.call)), Quiet e := by
  induction as generalizing s todo with
  | nil =>
    obtain rfl := h.done
    exact ⟨h, rfl, by simp [drive, trace]⟩
  | cons a as ih =>
    obtain ⟨ms, todo', rfl, hpend, hlog, hquiet, hreplays'⟩ := h.arrive hrel hkinds hreplays
    have htaken : (exec step s (withTake a.call)).released = [] := by cases a <;> rfl
    obtain ⟨hend, hlog', hquiet'⟩ := ih hpend htaken (fun m hm => hkinds m (by simp [hm])) hreplays'
    have hdrive : drive ((a :: as).map Arrival.call) =
        withTake a.call ++ drive (as.map Arrival.call) := rfl
    rw [hdrive, exec_append, trace_append, log_append, hlog, hlog', List.filter_append]
    refine ⟨hend, rfl, fun e he => ?_⟩
    rcases List.mem_append.mp he with he | he
    · exact hquiet e he
    · exact hquiet' e he

theorem pending_start {s : Session} (hactive : s.state = .active) (hempty : s.queued = [])
    {block rest : List Inbound} {b : UInt64} (hblock : Block s.nextIn block b)
    (hperm : rest.Perm block) : Pending s rest block b where
  block := hblock
  left := by simpa [hempty] using hperm
  ahead := by simp [hempty]
  state := by rw [hactive, if_pos hempty]

/-- Gap recovery completes, whatever the order of arrival: an active session that
is given a block of application messages and heartbeats in any order, with replays
of consumed numbers in between, has handed over the application messages in
sequence and is where it would be without a gap. -/
theorem recovers_in_any_order {s : Session} (hactive : s.state = .active) (hempty : s.queued = [])
    (block : List Inbound)
    (hrun : Consecutive s.nextIn block (s.nextIn + UInt64.ofNat block.length))
    (hroom : s.nextIn.toNat + block.length < 2 ^ 64)
    (hkinds : ∀ m ∈ block, m.admin = .none ∨ m.admin = .heartbeat) (arrivals : List Arrival)
    (hperm : (arrivals.filterMap Arrival.fresh?).Perm block)
    (hreplays : ReplaysConsumed s.takeReleased.1 arrivals) :
    let calls := drive (arrivals.map Arrival.call)
    let s' := exec step s.takeReleased.1 calls
    s'.nextIn = s.nextIn + UInt64.ofNat block.length ∧ s'.state = .active ∧ s'.queued = [] ∧
      (∀ e ∈ trace step s.takeReleased.1 calls, Quiet e) ∧
      log (trace step s.takeReleased.1 calls) = block.filter fun m => m.admin = .none := by
  have hstart : Pending s.takeReleased.1 (arrivals.filterMap Arrival.fresh?) block _ :=
    (pending_start hactive hempty ⟨hrun, hroom.le⟩ hperm).of_core rfl rfl rfl
  obtain ⟨hend, hlog, hquiet⟩ := hstart.arrivals rfl hkinds hreplays
  have hnil : (exec step s.takeReleased.1 (drive (arrivals.map Arrival.call))).queued = [] := by
    simpa using hend.left.eq_nil
  refine ⟨?_, ?_, hnil, hquiet, hlog⟩
  · simpa using hend.block.run.end_eq.symm
  · rw [hend.state, if_pos hnil]

/-- Two application messages and a heartbeat between them, last one first, with a
replay of the Logon before the hole is closed. -/
def shuffled : List Arrival :=
  [.fresh { seq := 4 } 0, .fresh { seq := 3, admin := .heartbeat } 0,
    .replay { seq := 1, admin := .logon, possDup := true } 0, .fresh { seq := 2 } 0]

/-- A session that has just logged on. -/
def loggedOn : Session :=
  exec step (new {}) [.beginLogon 0, .onMessage { seq := 1, admin := .logon } 0]

theorem recovers_in_any_order_shuffled :
    (exec step loggedOn.takeReleased.1 (drive (shuffled.map Arrival.call))).nextIn = 5 ∧
      log (trace step loggedOn.takeReleased.1 (drive (shuffled.map Arrival.call))) =
        [{ seq := 2 }, { seq := 4 }] := by
  have hrun : Consecutive loggedOn.nextIn
      [{ seq := 2 }, { seq := 3, admin := .heartbeat }, { seq := 4 }] (loggedOn.nextIn + 3) := by
    simp only [consecutive_cons]
    exact ⟨by decide, by decide, by decide, .nil _⟩
  obtain ⟨hnext, -, -, -, hlog⟩ := recovers_in_any_order (by decide) (by decide) _ hrun (by decide)
    (by decide) shuffled (by decide) ⟨rfl, by decide, trivial⟩
  exact ⟨hnext, hlog⟩

end Lloms.Session
