import Lloms.Session.Effect

/-! Resend requests. A session asks for a range only when it enters recovery, so
a hole that opens behind another one is never asked for; a run that opens no
such hole has asked for every number it is missing. -/
namespace Lloms.Session
open Lib

/-- Some earlier outcome asked for `n`. -/
def Requested (h : List Event) (n : UInt64) : Prop :=
  ∃ e ∈ h, ∃ o, e.output = .outcome o ∧ o.sendResendRequest = true ∧
    o.resendFrom ≤ n ∧ n ≤ o.resendTo

/-- `n` is missing: expected, below some held number, and not held itself. -/
def Missing (s : Session) (n : UInt64) : Prop :=
  s.nextIn ≤ n ∧ (∃ q ∈ s.queued, n < q.seq) ∧ ∀ q ∈ s.queued, q.seq ≠ n

def AllRequested (h : List Event) (s : Session) : Prop :=
  s.state = .recovering → ∀ n, Missing s n → Requested h n

/-- A message ahead of sequence that arrives while the session is recovering is
at most one past some held number. -/
def OpensNoHole (s : Session) : Call → Prop
  | .onMessage m _ => s.state = .recovering → s.nextIn < m.seq → m.admin ≠ .sequenceReset →
      ∃ q ∈ s.queued, m.seq.toNat ≤ q.seq.toNat + 1
  | _ => True

/-- The inbound message of a call, if any, is not the last number. -/
def BelowMax : Call → Prop
  | .onMessage m _ => m.seq ≠ maxSeq
  | _ => True

theorem requested_append (h h' : List Event) (n : UInt64) :
    Requested (h ++ h') n ↔ Requested h n ∨ Requested h' n := by
  simp only [Requested, List.mem_append, or_and_right, exists_or]

/-- Only the branch that opens a gap asks, and it asks up to the message it
holds. -/
theorem requested_event (s : Session) (c : Call) (n : UInt64)
    (h : Requested [event step s c] n) :
    ∃ m now, c = .onMessage m now ∧ s.state ≠ .recovering ∧ s.nextIn < m.seq ∧
      m ∈ (step s c).1.queued ∧ s.nextIn ≤ n ∧ n < m.seq := by
  obtain ⟨e, he, o, hout, hask, hfrom, hto⟩ := h
  obtain rfl := List.mem_singleton.mp he
  cases c with
  | beginLogon now => cases hout
  | claimOutboundSeq => cases hout
  | takeReleased => cases hout
  | onClock now =>
    cases hout
    simp [(onClock_effect s now).1] at hask
  | onMessage m now =>
    cases hout
    cases onMessage_effect s m now with
    | refused _ _ _ _ ho => simp [ho] at hask
    | skipped _ _ _ _ _ _ _ ho => simp [ho] at hask
    | relogon _ _ _ _ ho => simp [ho] at hask
    | loggedOn _ _ _ _ ho => simp [ho] at hask
    | loggedOut _ _ _ _ ho => simp [ho] at hask
    | passed _ _ _ _ _ _ _ _ hq => simp [hq.2.1] at hask
    | held _ hseq _ hcore ho =>
      have hq : (s.onMessage m now).1.queued = s.queued ++ [m] := congrArg Core.queued hcore
      by_cases hr : s.state = .recovering
      · simp [ho, hr] at hask
      · rw [if_neg hr] at ho
        simp only [ho] at hfrom hto
        exact ⟨m, now, rfl, hr, hseq, by simp [step, hq], hfrom, (le_sub_one_iff_lt hseq).mp hto⟩

/-- The expected number did not move back, and a held message left only by
being passed. -/
structure Forward (s s' : Session) : Prop where
  next_le : s.nextIn ≤ s'.nextIn
  kept : ∀ q ∈ s.queued, q ∈ s'.queued ∨ q.seq < s'.nextIn

theorem forward_of_append {s s' : Session} (l : List Inbound) (hn : s.nextIn ≤ s'.nextIn)
    (hq : s'.queued = s.queued ++ l) : Forward s s' where
  next_le := hn
  kept := fun _ hmem => .inl (hq ▸ List.mem_append_left _ hmem)

theorem forward_of_settle {s t : Session} (hmax : ∀ q ∈ s.queued, q.seq ≠ maxSeq)
    (hn : s.nextIn ≤ t.nextIn) (hq : t.queued = s.queued) : Forward s t.settle := by
  obtain ⟨ms, hr, -⟩ := settle_spec t
  have hfree : ∀ p ∈ ms, p.seq ≠ maxSeq := fun p hp =>
    hmax p (hq ▸ hr.perm.mem_iff.mpr (List.mem_append_left _ hp))
  have hle := hr.run.le hfree
  refine ⟨hn.trans hle, fun q hmem => ?_⟩
  rcases List.mem_append.mp (hr.perm.mem_iff.mp (hq ▸ hmem)) with hp | hp
  · exact .inr (hr.run.mem_range hfree q hp).2
  · exact .inl hp

theorem step_forward (s : Session) (c : Call) (hc : BelowMax c)
    (hmax : ∀ q ∈ s.queued, q.seq ≠ maxSeq) : Forward s (step s c).1 := by
  have hid : s.queued = s.queued ++ [] := by simp
  cases c with
  | beginLogon now => exact forward_of_append [] le_rfl hid
  | claimOutboundSeq => exact forward_of_append [] le_rfl hid
  | takeReleased => exact forward_of_append [] le_rfl hid
  | onClock now =>
    obtain ⟨hn, hq, -⟩ := onClock_keeps s now
    exact forward_of_append [] hn.ge (hq.trans hid)
  | onMessage m now =>
    have hone : m.seq = s.nextIn → s.nextIn ≤ s.nextIn + 1 := fun h =>
      (lt_add_one_of_ne_maxSeq (h ▸ hc)).le
    simp only [step]
    cases onMessage_effect s m now with
    | refused _ _ _ hcore =>
      have hn : (s.onMessage m now).1.nextIn = s.nextIn := congrArg Core.nextIn hcore
      exact forward_of_append [] hn.ge ((congrArg Core.queued hcore).trans hid)
    | held _ _ _ hcore =>
      have hn : (s.onMessage m now).1.nextIn = s.nextIn := congrArg Core.nextIn hcore
      exact forward_of_append [m] hn.ge (congrArg Core.queued hcore)
    | skipped t _ _ _ hnew hcore hs =>
      have hn : t.nextIn = m.newSeq := congrArg Core.nextIn hcore
      exact hs ▸ forward_of_settle hmax (hn ▸ hnew.le) (congrArg Core.queued hcore)
    | relogon _ hseq _ hcore | loggedOn _ hseq _ hcore | loggedOut _ hseq _ hcore =>
      have hn : (s.onMessage m now).1.nextIn = s.nextIn + 1 := congrArg Core.nextIn hcore
      exact forward_of_append [] (hn ▸ hone hseq) ((congrArg Core.queued hcore).trans hid)
    | passed t _ hseq _ _ hcore hs =>
      have hn : t.nextIn = s.nextIn + 1 := congrArg Core.nextIn hcore
      exact hs ▸ forward_of_settle hmax (hn ▸ hone hseq) (congrArg Core.queued hcore)

/-- The invariant of every run below the last number: what has been asked for is
passed or lies below something held. -/
structure Asked (h : List Event) (s : Session) : Prop where
  below_max : ∀ q ∈ s.queued, q.seq ≠ maxSeq
  pending : ∀ n, Requested h n → n < s.nextIn ∨ ∃ q ∈ s.queued, n < q.seq

theorem Asked.step {h : List Event} {s : Session} {c : Call} (hA : Asked h s)
    (hc : BelowMax c) : Asked (h ++ [event step s c]) (step s c).1 := by
  have hf := step_forward s c hc hA.below_max
  refine ⟨fun q hq => ?_, fun n hn => ?_⟩
  · rcases step_queued s c q hq with hq | ⟨-, now, rfl⟩
    · exact hA.below_max q hq
    · exact hc
  · have hle := hf.next_le
    rcases (requested_append h _ n).mp hn with hn | hn
    · rcases hA.pending n hn with hn | ⟨q, hq, hlt⟩
      · exact .inl (hn.trans_le hle)
      · rcases hf.kept q hq with hq | hq
        · exact .inr ⟨q, hq, hlt⟩
        · exact .inl (hlt.trans hq)
    · obtain ⟨m, now, rfl, -, -, hm, -, hlt⟩ := requested_event s c n hn
      exact .inr ⟨m, hm, hlt⟩

/-- A message newly held is ahead of sequence, and it is asked up to unless the
session was recovering already. -/
theorem newly_held (s : Session) (m : Inbound) (now : Int64)
    (hm : m ∈ (s.onMessage m now).1.queued) (hnew : m ∉ s.queued) :
    s.nextIn < m.seq ∧ m.admin ≠ .sequenceReset ∧
      (s.onMessage m now).1.queued = s.queued ++ [m] ∧
      (s.state ≠ .recovering → ∀ n, s.nextIn ≤ n → n < m.seq →
        Requested [event step s (.onMessage m now)] n) := by
  have hsettle : ∀ {t : Session}, t.queued = s.queued → (s.onMessage m now).1 = t.settle →
      m ∈ s.queued := fun ht hs => ht ▸ mem_queued_of_settle (hs ▸ hm)
  have hsame : (s.onMessage m now).1.queued = s.queued → m ∈ s.queued := fun h => h ▸ hm
  cases onMessage_effect s m now with
  | refused _ _ _ hcore | relogon _ _ _ hcore | loggedOn _ _ _ hcore | loggedOut _ _ _ hcore =>
    exact absurd (hsame (congrArg Core.queued hcore)) hnew
  | skipped t _ _ _ _ hcore hs => exact absurd (hsettle (congrArg Core.queued hcore) hs) hnew
  | passed t _ _ _ _ hcore hs => exact absurd (hsettle (congrArg Core.queued hcore) hs) hnew
  | held hadmin hseq _ hcore ho =>
    refine ⟨hseq, hadmin, congrArg Core.queued hcore, fun hr n hn hlt => ?_⟩
    rw [if_neg hr] at ho
    exact ⟨_, List.mem_singleton_self _, _, rfl, by rw [ho], by rw [ho]; exact hn, by
      rw [ho]; exact (le_sub_one_iff_lt hseq).mpr hlt⟩

/-- One step keeps every missing number asked for, unless it opens a hole. -/
theorem missing_step {h : List Event} {s : Session} {c : Call} (hA : Asked h s)
    (hc : BelowMax c) (hok : OpensNoHole s c) (hI : ∀ n, Missing s n → Requested h n) (n : UInt64)
    (hn : Missing (step s c).1 n) : Requested (h ++ [event step s c]) n := by
  obtain ⟨hnext, ⟨q, hq, hlt⟩, hfree⟩ := hn
  have hf := step_forward s c hc hA.below_max
  have hle := hf.next_le
  have hold : ∀ p ∈ s.queued, p.seq ≠ n := by
    intro p hp
    rcases hf.kept p hp with hp | hp
    · exact hfree p hp
    · exact (hp.trans_le hnext).ne
  have holder : ∀ p ∈ s.queued, n < p.seq → Requested (h ++ [event step s c]) n := fun p hp hlt =>
    (requested_append _ _ _).mpr (.inl (hI n ⟨hle.trans hnext, ⟨p, hp, hlt⟩, hold⟩))
  rcases step_queued s c q hq with hq' | ⟨-, now, rfl⟩
  · exact holder q hq' hlt
  · by_cases hmem : q ∈ s.queued
    · exact holder q hmem hlt
    obtain ⟨hseq, hadmin, hqs, hask⟩ := newly_held s q now hq hmem
    by_cases hr : s.state = .recovering
    · obtain ⟨p, hp, hple⟩ := hok hr hseq hadmin
      apply holder p hp
      have hne := hold p hp
      rw [UInt64.lt_iff_toNat_lt] at hlt ⊢
      rw [← UInt64.toNat_inj.ne] at hne
      omega
    · exact (requested_append _ _ _).mpr (.inr (hask hr n (hle.trans hnext) hlt))

theorem Asked.new (cfg : Config) : Asked [] (new cfg) :=
  ⟨by simp [Session.new], fun n hn => by simp [Requested] at hn⟩

/-- While the session is recovering, a message ahead of sequence is held. -/
theorem held_of_ahead (s : Session) (m : Inbound) (now : Int64) (hr : s.state = .recovering)
    (hseq : s.nextIn < m.seq) (hadmin : m.admin ≠ .sequenceReset) :
    (s.onMessage m now).1.core = { s.core with queued := s.queued ++ [m] } := by
  have hne : m.seq ≠ s.nextIn := hseq.ne'
  have hle : ¬ m.seq < s.nextIn := hseq.not_gt
  cases onMessage_effect s m now with
  | refused _ _ hwhy =>
    rcases hwhy with ⟨h, -⟩ | h | ⟨h, -⟩ | ⟨-, h, -⟩
    · cases hr.symm.trans h
    · exact absurd h hle
    · exact absurd h hadmin
    · exact absurd h hne
  | skipped _ ha => exact absurd ha hadmin
  | relogon _ h | loggedOn _ h | loggedOut _ h => exact absurd h hne
  | passed _ _ h => exact absurd h hne
  | held _ _ _ hcore => rw [hcore, core, hr]

/-- A hole opened behind an earlier one has not been asked for: the number just
below the message that opened it is missing, and nobody asked. -/
theorem opensNoHole_of_allRequested {h : List Event} {s : Session} {c : Call} (hA : Asked h s)
    (hall : AllRequested (h ++ [event step s c]) (step s c).1) : OpensNoHole s c := by
  cases c with
  | beginLogon | claimOutboundSeq | onClock | takeReleased => trivial
  | onMessage m now =>
    intro hr hseq hadmin
    by_contra hfar
    push Not at hfar
    have hcore := held_of_ahead s m now hr hseq hadmin
    have hst : (s.onMessage m now).1.state = .recovering := (congrArg Core.state hcore).trans hr
    have hn : (s.onMessage m now).1.nextIn = s.nextIn := congrArg Core.nextIn hcore
    have hq : (s.onMessage m now).1.queued = s.queued ++ [m] := congrArg Core.queued hcore
    have hpred : (m.seq - 1).toNat = m.seq.toNat - 1 ∧ s.nextIn.toNat < m.seq.toNat := by
      rw [UInt64.lt_iff_toNat_lt] at hseq
      exact ⟨toNat_sub_one_of_pos (by omega), hseq⟩
    have hlow : ∀ q ∈ s.queued, ¬ m.seq - 1 < q.seq ∧ q.seq ≠ m.seq - 1 := by
      intro q hmem
      have := hfar q hmem
      rw [UInt64.lt_iff_toNat_lt, ← UInt64.toNat_inj.ne]
      omega
    have hmiss : Missing (s.onMessage m now).1 (m.seq - 1) := by
      refine ⟨?_, ⟨m, by simp [hq], ?_⟩, ?_⟩
      · rw [hn, UInt64.le_iff_toNat_le]
        omega
      · rw [UInt64.lt_iff_toNat_lt]
        omega
      · intro q hmem
        rcases List.mem_append.mp (hq ▸ hmem) with hmem | hmem
        · exact (hlow q hmem).2
        · obtain rfl := List.mem_singleton.mp hmem
          rw [← UInt64.toNat_inj.ne]
          omega
    rcases (requested_append h _ _).mp (hall hst _ hmiss) with hreq | hreq
    · rcases hA.pending _ hreq with hlt | ⟨q, hmem, hlt⟩
      · rw [UInt64.lt_iff_toNat_lt] at hlt
        omega
      · exact (hlow q hmem).1 hlt
    · obtain ⟨_, _, _, hnr, -⟩ := requested_event s _ _ hreq
      exact hnr hr

/-- **A run that opens no hole behind another one has asked for every number it
is missing**, and below the last number only such runs have. -/
theorem allRequested_iff_opensNoHole (cfg : Config) (calls : List Call) :
    ((∀ e ∈ trace step (new cfg) calls, OpensNoHole e.pre e.input ∧ BelowMax e.input) →
      ∀ pre, pre <+: calls → AllRequested (trace step (new cfg) pre) (exec step (new cfg) pre)) ∧
    ((∀ c ∈ calls, BelowMax c) →
      (∀ pre, pre <+: calls →
        AllRequested (trace step (new cfg) pre) (exec step (new cfg) pre)) →
      ∀ e ∈ trace step (new cfg) calls, OpensNoHole e.pre e.input) := by
  constructor
  · rintro hok pre ⟨rest, rfl⟩ -
    rw [trace_append] at hok
    exact (history_induction step (P := fun s c => OpensNoHole s c ∧ BelowMax c)
      (I := fun h s => Asked h s ∧ ∀ n, Missing s n → Requested h n)
      (fun h s c hc hI => ⟨hI.1.step hc.2, missing_step hI.1 hc.2 hc.1 hI.2⟩)
      (new cfg) ⟨Asked.new cfg, fun n hn => by simp [Missing, Session.new] at hn⟩ pre
      (fun e he => hok e (List.mem_append_left _ he))).2
  · intro hmax hall
    induction calls using List.reverseRecOn with
    | nil => simp [trace]
    | append_singleton calls c ih =>
      have hmax' : ∀ c ∈ calls, BelowMax c := fun c hc => hmax c (List.mem_append_left _ hc)
      have hA : Asked (trace step (new cfg) calls) (exec step (new cfg) calls) :=
        history_induction step (P := fun _ c => BelowMax c) (fun h s c hc hI => hI.step hc)
          (new cfg) (Asked.new cfg) calls
          (fun e he => hmax' _ (input_mem_of_mem_trace step _ _ e he))
      have hlast := hall (calls ++ [c]) (List.prefix_refl _)
      rw [trace_concat, exec_concat] at hlast
      rw [trace_concat]
      intro e he
      rcases List.mem_append.mp he with he | he
      · exact ih hmax' (fun pre hpre => hall pre (hpre.trans (List.prefix_append _ _))) e he
      · obtain rfl := List.mem_singleton.mp he
        exact opensNoHole_of_allRequested hA hlast

/-- Number 6 arrives while 2 is missing and 3 is held: 4 and 5 are missing as
well, and the one request sent was for 2. -/
theorem second_hole_not_requested :
    ¬ AllRequested
      (trace step (new {}) [.beginLogon 0, .onMessage { seq := 1, admin := .logon } 0,
        .onMessage { seq := 3 } 0, .onMessage { seq := 6 } 0])
      (exec step (new {}) [.beginLogon 0, .onMessage { seq := 1, admin := .logon } 0,
        .onMessage { seq := 3 } 0, .onMessage { seq := 6 } 0]) := by
  intro h
  obtain ⟨e, he, o, ho, hask, -, hto⟩ := h (by decide) 4
    ⟨by decide, ⟨{ seq := 6 }, by decide, by decide⟩, by decide⟩
  simp only [trace, List.mem_cons, List.not_mem_nil, or_false] at he
  rcases he with rfl | rfl | rfl | rfl <;> cases ho <;> revert hask hto <;> decide

end Lloms.Session
