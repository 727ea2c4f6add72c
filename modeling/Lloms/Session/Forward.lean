import Lloms.Session.Effect

/-! The expected inbound number moves forward until the last 64-bit number is used
up, and then starts again at zero. The guard on a SequenceReset is the only one; the
increments, in sequence and in the release loop, wrap. -/
namespace Lloms.Session
open Lib

/-! ## When the last number is used up -/

/-- The message is acted on: in sequence or as a SequenceReset, and not turned away. -/
def ActsOn (s : Session) (m : Inbound) : Prop :=
  ¬ s.Refuses m ∧ (m.seq = s.nextIn ∨ m.admin = .sequenceReset)

/-- A message that is acted on lets go of held ones. -/
def FreesHeld (s : Session) (m : Inbound) : Prop :=
  s.state = .recovering ∧ m.admin ≠ .logon ∧ m.admin ≠ .logout

/-- The number that a message acted on makes the next one. -/
def nextAfter (s : Session) (m : Inbound) : UInt64 :=
  if m.admin = .sequenceReset then m.newSeq else s.nextIn + 1

/-- The message uses up the last number: it carries it itself, or every number from the
next one to the last is held and let go of. -/
def UsesLast (s : Session) (m : Inbound) : Prop :=
  s.ActsOn m ∧ ((m.admin ≠ .sequenceReset ∧ m.seq = maxSeq) ∨
    (s.FreesHeld m ∧ ∀ n, s.nextAfter m ≤ n → ∃ q ∈ s.queued, q.seq = n))

/-! ## The release loop -/

theorem maxSeq_add_one : maxSeq + 1 = 0 := by decide

theorem Consecutive.eq_zero {a b : UInt64} {ms : List Inbound} (h : Consecutive a ms b)
    (hzero : ∀ m ∈ ms, m.seq ≠ 0) (ha : a = 0) : b = 0 := by
  cases h with
  | nil => exact ha
  | cons m _ => exact absurd ha (hzero m (by simp))

/-- No number zero is held, so a run that uses up the last number ends there. -/
theorem Consecutive.eq_zero_of_last {a b : UInt64} {ms : List Inbound} (h : Consecutive a ms b)
    (hzero : ∀ m ∈ ms, m.seq ≠ 0) {m : Inbound} (hm : m ∈ ms) (hlast : m.seq = maxSeq) :
    b = 0 := by
  induction h with
  | nil => simp at hm
  | @cons b ms p hrest ih =>
    obtain ⟨-, hzero'⟩ := List.forall_mem_cons.mp hzero
    rcases List.mem_cons.mp hm with rfl | hm
    · exact hrest.eq_zero hzero' (by rw [hlast, maxSeq_add_one])
    · exact ih hzero' hm

section Settle

variable {t : Session} (hzero : ∀ q ∈ t.queued, q.seq ≠ 0)
include hzero

theorem settle_nextIn_zero (h : t.nextIn = 0) : t.settle.nextIn = 0 := by
  obtain ⟨ms, hr, -⟩ := settle_spec t
  refine hr.run.eq_zero (fun q hq => ?_) h
  exact hzero q (hr.perm.mem_iff.mpr (List.mem_append_left _ hq))

/-- A release pass moves the expected number forward, unless it goes through every number
to the last: then the next one is zero. -/
theorem settle_nextIn (hpos : t.nextIn ≠ 0) :
    (t.state = .recovering ∧ (∀ n, t.nextIn ≤ n → ∃ q ∈ t.queued, q.seq = n) ∧
      t.settle.nextIn = 0) ∨
    (¬ (t.state = .recovering ∧ ∀ n, t.nextIn ≤ n → ∃ q ∈ t.queued, q.seq = n) ∧
      t.nextIn ≤ t.settle.nextIn) := by
  obtain ⟨ms, hr, hidle, hdone⟩ := settle_spec t
  have hmem : ∀ q ∈ ms, q ∈ t.queued := fun q hq =>
    hr.perm.mem_iff.mpr (List.mem_append_left _ hq)
  by_cases hlast : ∃ q ∈ ms, q.seq = maxSeq
  · obtain ⟨q, hq, hqlast⟩ := hlast
    have hend := hr.run.eq_zero_of_last (fun p hp => hzero p (hmem p hp)) hq hqlast
    have hrec : t.state = .recovering := by
      by_contra hne
      rw [(hidle hne).2] at hq
      simp at hq
    refine .inl ⟨hrec, fun n hn => ?_, hend⟩
    have hback : t.settle.nextIn < t.nextIn := by
      rw [hend]
      exact UInt64.pos_iff_ne_zero.mpr hpos
    obtain ⟨p, hp, hpn⟩ := hr.run.exists_of_passed hn (.inr hback)
    exact ⟨p, hmem p hp, hpn⟩
  · have hfree : ∀ q ∈ ms, q.seq ≠ maxSeq := fun q hq hqlast => hlast ⟨q, hq, hqlast⟩
    have hle := hr.run.le hfree
    refine .inr ⟨?_, hle⟩
    -- the number the pass stops at is held no more, and was not let go of
    rintro ⟨hrec, hall⟩
    obtain ⟨q, hq, hqn⟩ := hall t.settle.nextIn hle
    rcases List.mem_append.mp (hr.perm.mem_iff.mp hq) with hq | hq
    · exact absurd hqn (hr.run.mem_range hfree q hq).2.ne
    · exact (hdone hrec).1 q hq hqn

end Settle

/-! ## One message -/

section Message

variable {s : Session} {m : Inbound}

theorem not_actsOn_of_held (hadmin : m.admin ≠ .sequenceReset) (hseq : s.nextIn < m.seq) :
    ¬ s.ActsOn m := by
  rintro ⟨-, hnext | hreset⟩
  · exact absurd hnext hseq.ne'
  · exact hadmin hreset

theorem actsOn_of_next (hseq : m.seq = s.nextIn) (hadmin : m.admin ≠ .sequenceReset)
    (hopen : s.state = .disconnected → m.admin = .logon) (happ : m.admin = .none → s.Up) :
    s.ActsOn m :=
  ⟨not_refuses hopen hseq.ge (fun h => absurd h hadmin) (fun h _ => happ h), .inl hseq⟩

/-- An administrative message in sequence after which nothing is let go of. -/
theorem usesLast_iff_of_next (hact : s.ActsOn m) (hseq : m.seq = s.nextIn)
    (hadmin : m.admin = .logon ∨ m.admin = .logout) : s.UsesLast m ↔ s.nextIn = maxSeq := by
  constructor
  · rintro ⟨-, ⟨-, hlast⟩ | ⟨⟨-, hlogon, hlogout⟩, -⟩⟩
    · exact hseq.symm.trans hlast
    · exact (hadmin.elim hlogon hlogout).elim
  · intro hlast
    refine ⟨hact, .inl ⟨fun h => ?_, hseq.trans hlast⟩⟩
    rcases hadmin with h' | h' <;> simp [h'] at h

/-- What one message does to the expected number. -/
def NextIn (s : Session) (m : Inbound) (s' : Session) : Prop :=
  (s.UsesLast m ∧ s'.nextIn = 0) ∨ (¬ s.UsesLast m ∧ s.nextIn ≤ s'.nextIn)

theorem nextIn_of_next {s' : Session} (hact : s.ActsOn m) (hseq : m.seq = s.nextIn)
    (hadmin : m.admin = .logon ∨ m.admin = .logout) (hn : s'.nextIn = s.nextIn + 1) :
    NextIn s m s' := by
  have hiff := usesLast_iff_of_next hact hseq hadmin
  by_cases hlast : s.nextIn = maxSeq
  · exact .inl ⟨hiff.mpr hlast, by rw [hn, hlast, maxSeq_add_one]⟩
  · refine .inr ⟨fun h => hlast (hiff.mp h), ?_⟩
    rw [hn]
    exact (lt_add_one_of_ne_maxSeq hlast).le

/-- A message acted on, and the release pass after it. -/
theorem nextIn_of_settle {t : Session} (hzero : ∀ q ∈ s.queued, q.seq ≠ 0) (hact : s.ActsOn m)
    (hadmin : m.admin ≠ .logon ∧ m.admin ≠ .logout)
    (hseq : m.admin ≠ .sequenceReset → m.seq ≠ maxSeq) (hpos : t.nextIn ≠ 0)
    (hle : s.nextIn ≤ t.nextIn) (hn : t.nextIn = s.nextAfter m) (hq : t.queued = s.queued)
    (hst : t.state = s.state) : NextIn s m t.settle := by
  have hiff : s.UsesLast m ↔
      t.state = .recovering ∧ ∀ n, t.nextIn ≤ n → ∃ q ∈ t.queued, q.seq = n := by
    rw [hst, hq, hn]
    constructor
    · rintro ⟨-, ⟨hne, hlast⟩ | ⟨⟨hrec, -⟩, hall⟩⟩
      · exact absurd hlast (hseq hne)
      · exact ⟨hrec, hall⟩
    · rintro ⟨hrec, hall⟩
      exact ⟨hact, .inr ⟨⟨hrec, hadmin⟩, hall⟩⟩
  rcases settle_nextIn (hq ▸ hzero) hpos with ⟨hrec, hall, hend⟩ | ⟨hnot, hfwd⟩
  · exact .inl ⟨hiff.mpr ⟨hrec, hall⟩, hend⟩
  · exact .inr ⟨fun h => hnot (hiff.mp h), hle.trans hfwd⟩

theorem onMessage_nextIn (hzero : ∀ q ∈ s.queued, q.seq ≠ 0) (now : Int64) :
    NextIn s m (s.onMessage m now).1 := by
  cases onMessage_effect s m now with
  | refused _ _ hwhy hcore _ _ =>
    have hn : (s.onMessage m now).1.nextIn = s.nextIn := congrArg Core.nextIn hcore
    exact .inr ⟨fun h => h.1.1 hwhy, hn.ge⟩
  | held hadmin hseq _ hcore _ =>
    have hn : (s.onMessage m now).1.nextIn = s.nextIn := congrArg Core.nextIn hcore
    exact .inr ⟨fun h => not_actsOn_of_held hadmin hseq h.1, hn.ge⟩
  | relogon hadmin hseq hup hcore _ =>
    exact nextIn_of_next (actsOn_of_next hseq (by simp [hadmin]) (fun _ => hadmin) fun _ => hup)
      hseq (.inl hadmin) (congrArg Core.nextIn hcore)
  | loggedOn hadmin hseq _ hcore _ =>
    exact nextIn_of_next (actsOn_of_next hseq (by simp [hadmin]) (fun _ => hadmin)
      fun h => by simp [h] at hadmin) hseq (.inl hadmin) (congrArg Core.nextIn hcore)
  | loggedOut hadmin hseq hopen hcore _ =>
    exact nextIn_of_next (actsOn_of_next hseq (by simp [hadmin]) (fun h => absurd h hopen)
      fun h => by simp [h] at hadmin) hseq (.inr hadmin) (congrArg Core.nextIn hcore)
  | skipped t hadmin hopen hseq hnew hcore hs _ =>
    have hn : t.nextIn = m.newSeq := congrArg Core.nextIn hcore
    have hlt : s.nextIn < t.nextIn := hn ▸ hnew
    have hact : s.ActsOn m := ⟨not_refuses (fun h => absurd h hopen) hseq (fun _ => hnew)
      (fun h => by simp [h] at hadmin), .inr hadmin⟩
    rw [hs]
    exact nextIn_of_settle hzero hact (by simp [hadmin]) (fun h => absurd hadmin h)
      (fun h => by simp [h] at hlt) hlt.le (by rw [hn, nextAfter, if_pos hadmin])
      (congrArg Core.queued hcore) (congrArg Core.state hcore)
  | passed t hadmin hseq hopen happ hcore hs _ _ =>
    have hn : t.nextIn = s.nextIn + 1 := congrArg Core.nextIn hcore
    have hq : t.queued = s.queued := congrArg Core.queued hcore
    have hact : s.ActsOn m := actsOn_of_next hseq hadmin.1 (fun h => absurd h hopen) happ
    rw [hs]
    by_cases hlast : s.nextIn = maxSeq
    · have hz : t.nextIn = 0 := by rw [hn, hlast, maxSeq_add_one]
      exact .inl ⟨⟨hact, .inl ⟨hadmin.1, hseq.trans hlast⟩⟩, settle_nextIn_zero (hq ▸ hzero) hz⟩
    · have hlt : s.nextIn < t.nextIn := hn ▸ lt_add_one_of_ne_maxSeq hlast
      exact nextIn_of_settle hzero hact hadmin.2 (fun _ h => hlast (hseq.symm.trans h))
        (fun h => by simp [h] at hlt) hlt.le (by rw [hn, nextAfter, if_neg hadmin.1]) hq
        (congrArg Core.state hcore)

end Message

/-! ## Runs -/

/-- Nothing is held under the number zero: what is held was ahead of some number. -/
def NoZeroHeld (s : Session) : Prop := ∀ q ∈ s.queued, q.seq ≠ 0

theorem noZeroHeld_step (s : Session) (c : Call) (h : s.NoZeroHeld) : (step s c).1.NoZeroHeld := by
  intro q hq
  rcases step_queued s c q hq with hold | ⟨hlt, -⟩
  · exact h q hold
  · intro hzero
    rw [hzero] at hlt
    exact absurd hlt UInt64.not_lt_zero

theorem noZeroHeld_run (cfg : Config) (calls : List Call) :
    (exec step (new cfg) calls).NoZeroHeld :=
  exec_induction step noZeroHeld_step (new cfg) (by simp [NoZeroHeld, new]) calls

/-- The call uses up the last number. -/
def Wraps (s : Session) : Call → Prop
  | .onMessage m _ => s.UsesLast m
  | _ => False

theorem step_nextIn_le (s : Session) (c : Call) (hzero : s.NoZeroHeld) (hok : ¬ s.Wraps c) :
    s.nextIn ≤ (step s c).1.nextIn := by
  cases c with
  | beginLogon now => exact le_rfl
  | claimOutboundSeq => exact le_rfl
  | takeReleased => exact le_rfl
  | onClock now => exact (onClock_keeps s now).1.ge
  | onMessage m now =>
    rcases onMessage_nextIn (m := m) hzero now with ⟨huses, -⟩ | ⟨-, hle⟩
    · exact absurd huses hok
    · exact hle

theorem states_nextIn_le {s : Session} (hzero : s.NoZeroHeld) (more : List Call)
    (hok : ∀ e ∈ trace step s more, ¬ e.pre.Wraps e.input) :
    ∀ t ∈ states step s more, s.nextIn ≤ t.nextIn := by
  intro t ht
  have hkeep : ∀ u c, ¬ u.Wraps c → (u.NoZeroHeld ∧ s.nextIn ≤ u.nextIn) →
      ((step u c).1.NoZeroHeld ∧ s.nextIn ≤ (step u c).1.nextIn) := fun u c hc hu =>
    ⟨noZeroHeld_step u c hu.1, hu.2.trans (step_nextIn_le u c hu.1 hc)⟩
  exact (states_induction step hkeep s ⟨hzero, le_rfl⟩ more hok t ht).2

/-- A number below the expected one is not acceptable. -/
theorem onMessage_below {t : Session} {m : Inbound} (now : Int64) (h : m.seq < t.nextIn) :
    (t.onMessage m now).2.deliver = false ∧ (t.onMessage m now).2.queue = false ∧
      (t.onMessage m now).1.nextIn = t.nextIn := by
  cases onMessage_effect t m now with
  | refused _ _ _ hcore ho _ =>
    rw [ho]
    exact ⟨rfl, rfl, congrArg Core.nextIn hcore⟩
  | held _ hseq => exact absurd h hseq.not_gt
  | skipped _ _ _ hseq => exact absurd h (not_lt.mpr hseq)
  | relogon _ hseq | loggedOn _ hseq | loggedOut _ hseq => exact absurd hseq h.ne
  | passed _ _ hseq => exact absurd hseq h.ne

/-- **The expected number moves forward, up to the last one.** In every reachable state a
message moves it backwards exactly when it uses up the last number, and no other call
moves it. A run in which that does not happen never goes below a number it has reached,
and a number it has passed is not accepted again. -/
theorem expected_moves_forward (cfg : Config) (calls : List Call) :
    let s := exec step (new cfg) calls
    (∀ m now, s.nextIn ≤ (s.onMessage m now).1.nextIn ↔ (¬ s.UsesLast m ∨ s.nextIn = 0)) ∧
    (∀ now, (s.beginLogon now).1.nextIn = s.nextIn ∧ (s.onClock now).1.nextIn = s.nextIn) ∧
    s.takeReleased.1.nextIn = s.nextIn ∧
    ∀ more, (∀ e ∈ trace step s more, ¬ e.pre.Wraps e.input) →
      ∀ t ∈ states step s more, s.nextIn ≤ t.nextIn ∧
        ∀ m now, m.seq < s.nextIn → (t.onMessage m now).2.deliver = false ∧
          (t.onMessage m now).2.queue = false ∧ (t.onMessage m now).1.nextIn = t.nextIn := by
  intro s
  have hzero : s.NoZeroHeld := noZeroHeld_run cfg calls
  refine ⟨fun m now => ?_, fun now => ⟨rfl, (onClock_keeps s now).1⟩, rfl, ?_⟩
  · rcases onMessage_nextIn (m := m) hzero now with ⟨huses, hn⟩ | ⟨huses, hle⟩
    · rw [hn, UInt64.le_zero_iff]
      exact ⟨.inr, fun h => h.resolve_left (not_not.mpr huses)⟩
    · exact ⟨fun _ => .inl huses, fun _ => hle⟩
  · intro more hok t ht
    have hle := states_nextIn_le hzero more hok t ht
    exact ⟨hle, fun m now hlow => onMessage_below now (hlow.trans_le hle)⟩

/-- The peer resets the expected number to the last one. -/
def resetToLast : List Call :=
  [.beginLogon 0, .onMessage { seq := 1, admin := .logon } 0,
    .onMessage { seq := 2, admin := .sequenceReset, newSeq := maxSeq } 0]

/-- The message with the last number is delivered and takes the expected number back to
zero, so that a number consumed before, here 1, is accepted once more. -/
theorem expected_moves_back :
    let s := exec step (new {}) resetToLast
    let s' := (s.onMessage { seq := maxSeq } 0).1
    ¬ s.nextIn ≤ s'.nextIn ∧ (s.onMessage { seq := maxSeq } 0).2.deliver = true ∧
      (s'.onMessage { seq := 1 } 0).2.queue = true := by decide

end Lloms.Session
