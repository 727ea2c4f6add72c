import Mathlib.Data.Multiset.AddSub
import Mathlib.Data.Multiset.Filter
import Lloms.Session.Effect

/-! In-order, at-most-once delivery. A caller that empties the released list
after every message builds a log; the log is strictly increasing, and every
number the session has moved past was consumed once or skipped by a
SequenceReset. -/
namespace Lloms.Session
open Lib

/-! ## What a run hands over, consumes and skips -/

/-- The messages a call hands to the application. -/
def handedOver (e : Event) : List Inbound :=
  match e.input, e.output with
  | .onMessage m _, .outcome o => if o.deliver then [m] else []
  | .takeReleased, .messages ms => ms
  | _, _ => []

def log (h : List Event) : List Inbound := h.flatMap handedOver

/-- The messages a call consumes: the one it was given, if it was next in
sequence and the expected number moved on, and those that left the queue. -/
def consumedBy (e : Event) : List Inbound :=
  match e.input with
  | .onMessage m _ =>
    (if m.seq = e.pre.nextIn ∧ m.admin ≠ .sequenceReset ∧ e.post.nextIn ≠ e.pre.nextIn
      then [m] else []) ++ e.pre.queued.diff e.post.queued
  | _ => []

def consumed (h : List Event) : List Inbound := h.flatMap consumedBy

/-- The call is an accepted SequenceReset that jumps over `n`. -/
def JumpsOver (n : UInt64) (e : Event) : Prop :=
  match e.input with
  | .onMessage m _ => m.admin = .sequenceReset ∧ e.post.nextIn ≠ e.pre.nextIn ∧
      e.pre.nextIn ≤ n ∧ n < m.newSeq
  | _ => False

def Jumped (h : List Event) (n : UInt64) : Prop := ∃ e ∈ h, JumpsOver n e

/-- The driver of the log: `takeReleased` after every `onMessage`. -/
def withTake : Call → List Call
  | .onMessage m now => [.onMessage m now, .takeReleased]
  | c => [c]

def drive (calls : List Call) : List Call := calls.flatMap withTake

/-! ## One driven call -/

/-- Messages that only left the queue are what the queues differ by. -/
theorem diff_perm_of_perm {q ms q' : List Inbound} (h : q.Perm (ms ++ q')) :
    (q.diff q').Perm ms := by
  rw [← Multiset.coe_eq_coe, ← Multiset.coe_sub, Multiset.coe_eq_coe.mpr h,
    ← Multiset.coe_add, Multiset.add_sub_cancel_right]

section Driven

variable (s : Session) (m : Inbound) (now : Int64)

/-- The two events of a driven message. -/
theorem trace_withTake :
    trace step s (withTake (.onMessage m now)) =
      [event step s (.onMessage m now),
       event step (s.onMessage m now).1 .takeReleased] := rfl

theorem log_withTake :
    log (trace step s (withTake (.onMessage m now))) =
      (if (s.onMessage m now).2.deliver then [m] else []) ++ (s.onMessage m now).1.released := by
  simp [trace_withTake, log, handedOver, step, takeReleased]

theorem consumed_withTake :
    consumed (trace step s (withTake (.onMessage m now))) =
      (if m.seq = s.nextIn ∧ m.admin ≠ .sequenceReset ∧ (s.onMessage m now).1.nextIn ≠ s.nextIn
        then [m] else []) ++ s.queued.diff (s.onMessage m now).1.queued :=
  List.append_nil _

theorem jumped_withTake (n : UInt64) :
    Jumped (trace step s (withTake (.onMessage m now))) n ↔
      m.admin = .sequenceReset ∧ (s.onMessage m now).1.nextIn ≠ s.nextIn ∧
        s.nextIn ≤ n ∧ n < m.newSeq := by
  simp [trace_withTake, Jumped, JumpsOver, step]

/-- The account of a message, in terms of the state `s₁` it leaves. -/
structure Accounts (s₁ : Session) (o : Outcome) (a : UInt64) (cs : List Inbound) : Prop where
  jump_le : s.nextIn ≤ a
  run : Consecutive a cs s₁.nextIn
  consumed : ((if m.seq = s.nextIn ∧ m.admin ≠ .sequenceReset ∧ s₁.nextIn ≠ s.nextIn
    then [m] else []) ++ s.queued.diff s₁.queued).Perm cs
  log : (if o.deliver then [m] else []) ++ s₁.released = cs.filter fun m => m.admin = .none
  jumped : ∀ n, (m.admin = .sequenceReset ∧ s₁.nextIn ≠ s.nextIn ∧ s.nextIn ≤ n ∧ n < m.newSeq) ↔
    s.nextIn ≤ n ∧ n < a
  source : ∀ q ∈ cs ++ s₁.queued, q ∈ s.queued ∨ q = m

variable {s m}

/-- A message that moves nothing on: it is turned away or held. -/
theorem accounts_of_stay {s₁ : Session} {o : Outcome} (extra : List Inbound)
    (hrel : s.released = []) (hn : s₁.nextIn = s.nextIn) (hq : s₁.queued = s.queued ++ extra)
    (hextra : ∀ q ∈ extra, q = m) (hre : s₁.released = s.released) (ho : o.deliver = false) :
    Accounts s m s₁ o s.nextIn [] where
  jump_le := le_rfl
  run := by rw [hn]; exact .nil _
  consumed := by
    have hperm : s.queued.Perm ([] ++ s.queued) := List.Perm.refl _
    have hself : s.queued.diff s.queued = [] := (diff_perm_of_perm hperm).eq_nil
    simp [hn, hq, List.diff_append, hself]
  log := by simp [ho, hre, hrel]
  jumped := by
    intro n
    rw [hn]
    exact ⟨fun h => absurd rfl h.2.1, fun h => absurd h.2 (not_lt.mpr h.1)⟩
  source := by
    intro q hmem
    rw [hq, List.nil_append, List.mem_append] at hmem
    exact hmem.imp_right (hextra q)

/-- A message consumed in sequence, followed by the held messages it frees. -/
theorem accounts_of_consume {s₁ : Session} {o : Outcome} {t : Session} {ms : List Inbound}
    (hrel : s.released = []) (hm : m.seq ≠ maxSeq) (hqm : ∀ q ∈ s.queued, q.seq ≠ maxSeq)
    (hseq : m.seq = s.nextIn) (hadmin : m.admin ≠ .sequenceReset)
    (htn : t.nextIn = s.nextIn + 1) (htq : t.queued = s.queued) (htr : t.released = s.released)
    (hr : Releases t s₁ ms) (ho : o.deliver = decide (m.admin = .none)) :
    Accounts s m s₁ o s.nextIn (m :: ms) := by
  have hrun : Consecutive s.nextIn (m :: ms) s₁.nextIn := by
    rw [← hseq]
    apply Consecutive.cons
    rw [hseq, ← htn]
    exact hr.run
  have hperm : s.queued.Perm (ms ++ s₁.queued) := htq ▸ hr.perm
  have hfree : ∀ q ∈ m :: ms, q.seq ≠ maxSeq := by
    intro q hq
    rcases List.mem_cons.mp hq with rfl | hq
    · exact hm
    · exact hqm q (hperm.mem_iff.mpr (List.mem_append_left _ hq))
  have hmove : s₁.nextIn ≠ s.nextIn := by
    rw [← hseq]
    exact (hrun.mem_range hfree m (by simp)).2.ne'
  refine ⟨le_rfl, hrun, ?_, ?_, ?_, ?_⟩
  · rw [if_pos ⟨hseq, hadmin, hmove⟩]
    exact (diff_perm_of_perm hperm).cons m
  · rw [hr.released, htr, hrel, ho]
    by_cases ha : m.admin = .none <;> simp [ha]
  · intro n
    exact ⟨fun h => absurd h.1 hadmin, fun h => absurd h.2 (not_lt.mpr h.1)⟩
  · intro q hq
    rw [List.cons_append, List.mem_cons, ← hperm.mem_iff] at hq
    exact hq.symm

/-- An accepted SequenceReset, followed by the held messages it frees. -/
theorem accounts_of_skip {s₁ : Session} {o : Outcome} {t : Session} {ms : List Inbound}
    (hrel : s.released = []) (hqm : ∀ q ∈ s.queued, q.seq ≠ maxSeq)
    (hadmin : m.admin = .sequenceReset) (hnew : s.nextIn < m.newSeq)
    (htn : t.nextIn = m.newSeq) (htq : t.queued = s.queued) (htr : t.released = s.released)
    (hr : Releases t s₁ ms) (ho : o.deliver = false) :
    Accounts s m s₁ o m.newSeq ms := by
  have hrun : Consecutive m.newSeq ms s₁.nextIn := htn ▸ hr.run
  have hperm : s.queued.Perm (ms ++ s₁.queued) := htq ▸ hr.perm
  have hle := hrun.le fun q hq => hqm q (hperm.mem_iff.mpr (List.mem_append_left _ hq))
  have hmove : s₁.nextIn ≠ s.nextIn := (hnew.trans_le hle).ne'
  refine ⟨hnew.le, hrun, ?_, ?_, ?_, ?_⟩
  · simpa [hadmin] using diff_perm_of_perm hperm
  · simp [hr.released, htr, hrel, ho]
  · intro n
    exact ⟨fun h => h.2.2, fun h => ⟨hadmin, hmove, h⟩⟩
  · intro q hq
    exact .inl (hperm.mem_iff.mpr hq)

/-- Every effect of a message keeps the account. -/
theorem Effect.accounts {s₁ : Session} {o : Outcome} (h : Effect s m s₁ o)
    (hrel : s.released = []) (hm : m.seq ≠ maxSeq) (hqm : ∀ q ∈ s.queued, q.seq ≠ maxSeq) :
    ∃ a cs, Accounts s m s₁ o a cs := by
  cases h with
  | refused d r _ hcore ho _ =>
    exact ⟨_, _, accounts_of_stay [] hrel (congrArg Core.nextIn hcore)
      (by simpa using congrArg Core.queued hcore) (by simp) (congrArg Core.released hcore)
      (by rw [ho])⟩
  | held _ _ _ hcore ho =>
    exact ⟨_, _, accounts_of_stay [m] hrel (congrArg Core.nextIn hcore)
      (congrArg Core.queued hcore) (by simp) (congrArg Core.released hcore)
      (by rw [ho]; split <;> rfl)⟩
  | skipped t hadmin _ _ hnew hcore hs ho =>
    obtain ⟨ms, hr, -⟩ := settle_spec t
    exact ⟨_, _, accounts_of_skip hrel hqm hadmin hnew (congrArg Core.nextIn hcore)
      (congrArg Core.queued hcore) (congrArg Core.released hcore) (hs ▸ hr) (by rw [ho])⟩
  | relogon hadmin hseq _ hcore ho | loggedOn hadmin hseq _ hcore ho
  | loggedOut hadmin hseq _ hcore ho =>
    exact ⟨_, _, accounts_of_consume hrel hm hqm hseq (by simp [hadmin])
      (congrArg Core.nextIn hcore) (congrArg Core.queued hcore) (congrArg Core.released hcore)
      (Releases.refl s₁) (by simp [ho, hadmin])⟩
  | passed t hadmin hseq _ _ hcore hs hdel _ =>
    obtain ⟨ms, hr, -⟩ := settle_spec t
    exact ⟨_, _, accounts_of_consume hrel hm hqm hseq hadmin.1 (congrArg Core.nextIn hcore)
      (congrArg Core.queued hcore) (congrArg Core.released hcore) (hs ▸ hr) hdel⟩

end Driven

/-- What one driven call does to the account: the expected number jumps to `a`,
and from there the messages `cs` are consumed in order, the application
messages among them going to the log. -/
structure Advance (s : Session) (c : Call) (a : UInt64) (cs : List Inbound) : Prop where
  jump_le : s.nextIn ≤ a
  run : Consecutive a cs (exec step s (withTake c)).nextIn
  consumed : (consumed (trace step s (withTake c))).Perm cs
  log : log (trace step s (withTake c)) = cs.filter fun m => m.admin = .none
  jumped : ∀ n, Jumped (trace step s (withTake c)) n ↔ s.nextIn ≤ n ∧ n < a
  released : (exec step s (withTake c)).released = []
  source : ∀ q ∈ cs ++ (exec step s (withTake c)).queued,
    q ∈ s.queued ∨ ∃ now, c = .onMessage q now

theorem advance_of_idle {s : Session} {c : Call} (hlog : handedOver (event step s c) = [])
    (hw : withTake c = [c]) (hcons : consumedBy (event step s c) = [])
    (hjump : ∀ n, ¬ JumpsOver n (event step s c)) (hn : (step s c).1.nextIn = s.nextIn)
    (hq : (step s c).1.queued = s.queued) (hr : (step s c).1.released = []) :
    Advance s c s.nextIn [] where
  jump_le := le_rfl
  run := by rw [hw]; exact hn ▸ .nil _
  consumed := by simp [hw, trace, Session.consumed, hcons]
  log := by simp [hw, trace, Session.log, hlog]
  jumped := by
    intro n
    simp only [hw, trace, Jumped, List.mem_singleton, exists_eq_left, hjump n, false_iff]
    exact fun h => absurd h.2 (not_lt.mpr h.1)
  released := by rw [hw]; exact hr
  source := by
    intro q hmem
    rw [hw] at hmem
    exact .inl (hq ▸ hmem)

theorem withTake_advance (s : Session) (c : Call) (hrel : s.released = [])
    (hc : ∀ m now, c = .onMessage m now → m.seq ≠ maxSeq)
    (hqm : ∀ q ∈ s.queued, q.seq ≠ maxSeq) : ∃ a cs, Advance s c a cs := by
  cases c with
  | beginLogon now => exact ⟨_, _, advance_of_idle rfl rfl rfl (fun _ => id) rfl rfl hrel⟩
  | claimOutboundSeq => exact ⟨_, _, advance_of_idle rfl rfl rfl (fun _ => id) rfl rfl hrel⟩
  | takeReleased => exact ⟨_, _, advance_of_idle hrel rfl rfl (fun _ => id) rfl rfl rfl⟩
  | onClock now =>
    obtain ⟨hn, hq, hr⟩ := onClock_keeps s now
    exact ⟨_, _, advance_of_idle rfl rfl rfl (fun _ => id) hn hq (hr.trans hrel)⟩
  | onMessage m now =>
    obtain ⟨a, cs, h⟩ := (onMessage_effect s m now).accounts hrel (hc m now rfl) hqm
    refine ⟨a, cs, h.jump_le, h.run, ?_, ?_, ?_, rfl, ?_⟩
    · rw [consumed_withTake]
      exact h.consumed
    · rw [log_withTake]
      exact h.log
    · intro n
      rw [jumped_withTake]
      exact h.jumped n
    · intro q hq
      rcases h.source q hq with hq | rfl
      · exact .inl hq
      · exact .inr ⟨now, rfl⟩

/-! ## The account of a run -/

theorem log_append (h h' : List Event) : log (h ++ h') = log h ++ log h' :=
  List.flatMap_append

theorem consumed_append (h h' : List Event) :
    consumed (h ++ h') = consumed h ++ consumed h' := List.flatMap_append

theorem jumped_append (h h' : List Event) (n : UInt64) :
    Jumped (h ++ h') n ↔ Jumped h n ∨ Jumped h' n := by
  simp only [Jumped, List.mem_append, or_and_right, exists_or]

/-- `n` was consumed by exactly one message, logged if it is an application
message, or `n` was jumped over: never both. -/
def AccountedFor (h : List Event) (n : UInt64) : Prop :=
  (∃ m, ((consumed h).filter fun q => q.seq = n) = [m] ∧
    (m ∈ log h ↔ m.admin = .none) ∧ ¬ Jumped h n) ∨
  (((consumed h).filter fun q => q.seq = n) = [] ∧ Jumped h n)

/-- The invariant behind the log: everything logged or consumed lies below the
expected number, and every number from the first one on is accounted for. -/
structure Account (first : UInt64) (h : List Event) (s : Session) : Prop where
  first_le : first ≤ s.nextIn
  released : s.released = []
  queued : ∀ q ∈ s.queued, q.seq ≠ maxSeq
  sorted : (log h).Pairwise fun p q => p.seq < q.seq
  logged : ∀ m ∈ log h, m.admin = .none ∧ m.seq < s.nextIn
  below : ∀ m ∈ consumed h, m.seq < s.nextIn
  jumped_below : ∀ n, Jumped h n → n < s.nextIn
  covered : ∀ n, first ≤ n → n < s.nextIn → AccountedFor h n

theorem filter_seq_eq_nil {l : List Inbound} {n : UInt64} (h : ∀ q ∈ l, q.seq ≠ n) :
    (l.filter fun q => q.seq = n) = [] :=
  List.filter_eq_nil_iff.mpr fun q hq => by simpa using h q hq

theorem seq_of_filter_eq {l : List Inbound} {n : UInt64} {m : Inbound}
    (h : (l.filter fun q => q.seq = n) = [m]) : m.seq = n := by
  have hm : m ∈ l.filter fun q => q.seq = n := by rw [h]; simp
  simpa using (List.mem_filter.mp hm).2

/-- The three ways a number is accounted for after one more driven call: it was
before, it is jumped over now, or it is consumed now. -/
theorem Account.covered_advance {first : UInt64} {h : List Event} {s : Session} {c : Call}
    {a : UInt64} {cs : List Inbound} (hacc : Account first h s) (hadv : Advance s c a cs)
    (hcs : ∀ q ∈ cs, q.seq ≠ maxSeq) (n : UInt64) (hfirst : first ≤ n)
    (hn : n < (exec step s (withTake c)).nextIn) :
    AccountedFor (h ++ trace step s (withTake c)) n := by
  have hrange := hadv.run.mem_range hcs
  have hjle := hadv.jump_le
  have hperm := hadv.consumed.filter fun q => q.seq = n
  have hnew : ∀ {m}, m ∈ log (trace step s (withTake c)) → a ≤ m.seq := by
    intro m hm
    rw [hadv.log] at hm
    exact (hrange m (List.mem_of_mem_filter hm)).1
  unfold AccountedFor
  simp only [consumed_append, List.filter_append, log_append, List.mem_append, jumped_append]
  rcases lt_or_ge n s.nextIn with hlow | hhigh
  · have hbelow : n < a := hlow.trans_le hjle
    have hnil : ((consumed (trace step s (withTake c))).filter fun q => q.seq = n) = [] := by
      refine filter_seq_eq_nil fun q hq => ?_
      exact (hbelow.trans_le (hrange q (hadv.consumed.mem_iff.mp hq)).1).ne'
    have hnj : ¬ Jumped (trace step s (withTake c)) n := by
      rw [hadv.jumped]
      exact fun h => absurd hlow (not_lt.mpr h.1)
    rw [hnil, List.append_nil]
    rcases hacc.covered n hfirst hlow with ⟨m, hf, hlog, hj⟩ | ⟨hf, hj⟩
    · have hm : m.seq = n := seq_of_filter_eq hf
      have hnot : m ∉ log (trace step s (withTake c)) := fun hmem =>
        absurd (hm ▸ hnew hmem) (not_le.mpr hbelow)
      exact .inl ⟨m, hf, by simp [hlog, hnot], by simp [hj, hnj]⟩
    · exact .inr ⟨hf, .inl hj⟩
  · have hold : ((consumed h).filter fun q => q.seq = n) = [] :=
      filter_seq_eq_nil fun q hq => ((hacc.below q hq).trans_le hhigh).ne
    have holdj : ¬ Jumped h n := fun hj => absurd (hacc.jumped_below n hj) (not_lt.mpr hhigh)
    rw [hold, List.nil_append]
    by_cases ha : n < a
    · refine .inr ⟨filter_seq_eq_nil fun q hq => ?_, .inr ((hadv.jumped n).mpr ⟨hhigh, ha⟩)⟩
      exact (ha.trans_le (hrange q (hadv.consumed.mem_iff.mp hq)).1).ne'
    · obtain ⟨m, hmem, hf⟩ := hadv.run.filter_seq hcs (not_lt.mp ha) hn
      have hm : m.seq = n := seq_of_filter_eq hf
      have hnot : m ∉ log h := fun hl =>
        absurd (hm ▸ (hacc.logged m hl).2) (not_lt.mpr hhigh)
      have hnj : ¬ Jumped (trace step s (withTake c)) n := by
        rw [hadv.jumped]
        exact fun h => ha h.2
      refine .inl ⟨m, List.perm_singleton.mp (hf ▸ hperm), ?_, by simp [holdj, hnj]⟩
      simp [hnot, hadv.log, hmem]

theorem Account.advance {first : UInt64} {h : List Event} {s : Session} {c : Call}
    (hacc : Account first h s) (hc : ∀ m now, c = .onMessage m now → m.seq ≠ maxSeq) :
    Account first (h ++ trace step s (withTake c)) (exec step s (withTake c)) := by
  obtain ⟨a, cs, hadv⟩ := withTake_advance s c hacc.released hc hacc.queued
  have hsrc : ∀ q ∈ cs ++ (exec step s (withTake c)).queued, q.seq ≠ maxSeq := by
    intro q hq
    rcases hadv.source q hq with hq | ⟨now, rfl⟩
    · exact hacc.queued q hq
    · exact hc q now rfl
  have hcs : ∀ q ∈ cs, q.seq ≠ maxSeq := fun q hq => hsrc q (List.mem_append_left _ hq)
  have hrange := hadv.run.mem_range hcs
  have hmono : s.nextIn ≤ (exec step s (withTake c)).nextIn := hadv.jump_le.trans (hadv.run.le hcs)
  refine ⟨hacc.first_le.trans hmono, hadv.released,
    fun q hq => hsrc q (List.mem_append_right _ hq), ?_, ?_, ?_, ?_, ?_⟩
  · rw [log_append, hadv.log, List.pairwise_append]
    refine ⟨hacc.sorted, (hadv.run.pairwise hcs).filter _, fun p hp q hq => ?_⟩
    have hq' := (hrange q (List.mem_of_mem_filter hq)).1
    exact (hacc.logged p hp).2.trans_le (hadv.jump_le.trans hq')
  · intro m hm
    rw [log_append, hadv.log, List.mem_append] at hm
    rcases hm with hm | hm
    · exact ⟨(hacc.logged m hm).1, (hacc.logged m hm).2.trans_le hmono⟩
    · exact ⟨by simpa using (List.mem_filter.mp hm).2, (hrange m (List.mem_of_mem_filter hm)).2⟩
  · intro m hm
    rw [consumed_append, List.mem_append, hadv.consumed.mem_iff] at hm
    rcases hm with hm | hm
    · exact (hacc.below m hm).trans_le hmono
    · exact (hrange m hm).2
  · intro n hn
    rcases (jumped_append _ _ n).mp hn with hn | hn
    · exact (hacc.jumped_below n hn).trans_le hmono
    · exact ((hadv.jumped n).mp hn).2.trans_le (hadv.run.le hcs)
  · exact hacc.covered_advance hadv hcs

theorem account_drive (cfg : Config) (calls : List Call)
    (hcalls : ∀ m now, .onMessage m now ∈ calls → m.seq ≠ maxSeq) :
    Account (new cfg).nextIn (trace step (new cfg) (drive calls))
      (exec step (new cfg) (drive calls)) := by
  induction calls using List.reverseRecOn with
  | nil =>
    exact ⟨le_rfl, rfl, by simp [drive, exec, new], .nil, by simp [drive, trace, log],
      by simp [drive, trace, consumed], by simp [drive, trace, Jumped],
      fun n h1 h2 => absurd h2 (not_lt.mpr h1)⟩
  | append_singleton calls c ih =>
    have hlast := ih fun m now h => hcalls m now (by simp [h])
    have hdrive : drive (calls ++ [c]) = drive calls ++ withTake c := by simp [drive]
    rw [hdrive, trace_append, exec_append]
    exact hlast.advance fun m now h => hcalls m now (by simp [h])

/-- **In order, at most once, and nothing unaccounted for.** Whatever the peer
sends, the log is strictly increasing, holds application messages only, and
every number the session moved past is accounted for. -/
theorem delivers_in_order (cfg : Config) (calls : List Call)
    (hcalls : ∀ m now, .onMessage m now ∈ calls → m.seq ≠ maxSeq) :
    (log (trace step (new cfg) (drive calls))).Pairwise (fun p q => p.seq < q.seq) ∧
    (∀ m ∈ log (trace step (new cfg) (drive calls)), m.admin = .none) ∧
    ∀ n, (new cfg).nextIn ≤ n → n < (exec step (new cfg) (drive calls)).nextIn →
      AccountedFor (trace step (new cfg) (drive calls)) n := by
  have h := account_drive cfg calls hcalls
  exact ⟨h.sorted, fun m hm => (h.logged m hm).1, h.covered⟩

/-- A gap closed by a replay: 3 is held until 2 arrives. -/
def replayedGap : List Call :=
  [.beginLogon 0, .onMessage { seq := 1, admin := .logon } 0, .onMessage { seq := 3 } 0,
    .onMessage { seq := 2, possDup := true } 0]

theorem delivers_in_order_replayedGap :
    log (trace step (new {}) (drive replayedGap)) = [{ seq := 2, possDup := true }, { seq := 3 }] ∧
    (exec step (new {}) (drive replayedGap)).nextIn = 4 ∧
    ∀ n, (new {}).nextIn ≤ n → n < (exec step (new {}) (drive replayedGap)).nextIn →
      AccountedFor (trace step (new {}) (drive replayedGap)) n := by
  refine ⟨by decide, by decide, (delivers_in_order {} replayedGap ?_).2.2⟩
  intro m now hm
  simp only [replayedGap, List.mem_cons, Call.onMessage.injEq, List.not_mem_nil, or_false,
    reduceCtorEq, false_or] at hm
  rcases hm with ⟨rfl, -⟩ | ⟨rfl, -⟩ | ⟨rfl, -⟩ <;> decide

end Lloms.Session
