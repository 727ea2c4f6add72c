import Lloms.Session.Effect

/-! Gap recovery. Two questions about the held queue: what a SequenceReset skips,
and when held messages stay ahead of the expected number (`HeldAhead`), so that
recovery ends. -/
namespace Lloms.Session
open Lib

/-! ## What a GapFill skips -/

/-- The expected number moved past `n`, possibly by wrapping round. -/
def MovesPast (s s' : Session) (n : UInt64) : Prop :=
  s.nextIn ≤ n ∧ (n < s'.nextIn ∨ s'.nextIn < s.nextIn)

instance (s s' : Session) (n : UInt64) : Decidable (MovesPast s s' n) :=
  inferInstanceAs (Decidable (_ ∧ _))

/-- A run that wraps round goes through every number below its end. -/
theorem Consecutive.exists_of_wrapped {a b : UInt64} {ms : List Inbound} (h : Consecutive a ms b)
    (hwrap : b < a) {n : UInt64} (hn : n < b) : ∃ m ∈ ms, m.seq = n := by
  induction h with
  | nil a => exact absurd hwrap (lt_irrefl a)
  | @cons b ms m hrest ih =>
    by_cases hmax : m.seq = maxSeq
    · have hzero : m.seq + 1 = 0 := by rw [hmax]; rfl
      have hle : m.seq + 1 ≤ n := by
        rw [hzero, UInt64.le_iff_toNat_le]
        exact Nat.zero_le _
      obtain ⟨q, hq, hs⟩ := hrest.exists_of_passed hle (.inl hn)
      exact ⟨q, List.mem_cons_of_mem _ hq, hs⟩
    · obtain ⟨q, hq, hs⟩ := ih (hwrap.trans (lt_add_one_of_ne_maxSeq hmax)) hn
      exact ⟨q, List.mem_cons_of_mem _ hq, hs⟩

/-- A number that the release loop moves past was held. -/
theorem Releases.held_of_passed {t s' : Session} {ms : List Inbound} (h : Releases t s' ms)
    {n : UInt64} (hn : t.nextIn ≤ n) (hpast : n < s'.nextIn ∨ s'.nextIn < t.nextIn) :
    ∃ q ∈ t.queued, q.seq = n := by
  obtain ⟨q, hq, hs⟩ := h.run.exists_of_passed hn hpast
  exact ⟨q, h.perm.mem_iff.mpr (List.mem_append_left _ hq), hs⟩

/-- **What a SequenceReset skips**, GapFill and Reset alike. When it moves past a number
that is not held, that number lies below `newSeq`, and it moves past every number from the
expected one up to `newSeq`: in sequence these begin with its own, ahead of an open hole
with the hole. -/
theorem sequenceReset_skips (s : Session) (m : Inbound) (now : Int64) (n : UInt64)
    (hadmin : m.admin = .sequenceReset)
    (hpast : MovesPast s (s.onMessage m now).1 n) (hfree : ∀ q ∈ s.queued, q.seq ≠ n) :
    n < m.newSeq ∧ s.nextIn ≤ m.seq ∧
      ∀ k, s.nextIn ≤ k → k < m.newSeq → MovesPast s (s.onMessage m now).1 k := by
  have heff := onMessage_effect s m now
  obtain ⟨hn, hpast⟩ := hpast
  generalize (s.onMessage m now).1 = s' at *
  generalize (s.onMessage m now).2 = o at *
  cases heff with
  | refused d r _ hcore _ _ =>
    have hsame : s'.nextIn = s.nextIn := congrArg Core.nextIn hcore
    rw [hsame] at hpast
    rcases hpast with h | h
    · exact absurd h (not_lt.mpr hn)
    · exact absurd h (lt_irrefl _)
  | held ha => exact absurd hadmin ha
  | skipped t _ _ hseq hnew hcore hs _ =>
    subst hs
    have htn : t.nextIn = m.newSeq := congrArg Core.nextIn hcore
    have htq : t.queued = s.queued := congrArg Core.queued hcore
    obtain ⟨ms, hr, -⟩ := settle_spec t
    have hbelow : n < m.newSeq := by
      by_contra hge
      have hge' : t.nextIn ≤ n := htn ▸ not_lt.mp hge
      obtain ⟨q, hq, hs⟩ := hr.held_of_passed hge' (hpast.imp_right fun h => htn ▸ h.trans hnew)
      exact hfree q (htq ▸ hq) hs
    refine ⟨hbelow, hseq, fun k hk hlt => ⟨hk, ?_⟩⟩
    -- the release loop would have to wrap and let go of `n` to stop short of `k`
    by_contra hshort
    obtain ⟨hle, hback⟩ := not_or.mp hshort
    have hend : n < t.settle.nextIn := hpast.resolve_right hback
    have hwrap : t.settle.nextIn < t.nextIn := by
      rw [htn]
      exact (not_lt.mp hle).trans_lt hlt
    obtain ⟨q, hq, hs⟩ := hr.run.exists_of_wrapped hwrap hend
    exact hfree q (htq ▸ hr.perm.mem_iff.mpr (List.mem_append_left _ hq)) hs
  | relogon ha => simp [ha] at hadmin
  | loggedOn ha => simp [ha] at hadmin
  | loggedOut ha => simp [ha] at hadmin
  | passed t ha => exact absurd hadmin ha.1

/-- Number 1, the logon, has been consumed and 2 is expected. -/
def afterLogon : List Call := [.beginLogon 0, .onMessage { seq := 1, admin := .logon } 0]

/-- A GapFill of 5 and 6 that arrives while 2 is expected: 2 to 6 are skipped. -/
theorem sequenceReset_skips_ahead :
    let s := exec step (new {}) afterLogon
    let m : Inbound := { seq := 5, admin := .sequenceReset, gapFill := true, newSeq := 7 }
    s.nextIn = 2 ∧ ∀ k, s.nextIn ≤ k → k < 7 → MovesPast s (s.onMessage m 0).1 k := by
  intro s m
  exact ⟨by decide, (sequenceReset_skips s m 0 2 rfl (by decide) (by decide)).2.2⟩

/-- A GapFill of 5 and 6 that arrives while 2 is expected skips 2 as well,
which was never sent. -/
theorem gapFill_closes_hole :
    ¬ ∀ (cfg : Config) (calls : List Call) (m : Inbound) (now : Int64) (n : UInt64),
      m.admin = .sequenceReset → m.gapFill = true →
      MovesPast (exec step (new cfg) calls) ((exec step (new cfg) calls).onMessage m now).1 n →
      (∀ q t, .onMessage q t ∈ calls → q.seq ≠ n) → m.seq ≤ n ∧ n < m.newSeq := by
  intro hall
  have h := hall {} afterLogon { seq := 5, admin := .sequenceReset, gapFill := true, newSeq := 7 }
    0 2 rfl rfl (by decide) (by
      intro q t hq
      simp only [afterLogon, List.mem_cons, Call.onMessage.injEq, List.not_mem_nil, or_false,
        reduceCtorEq, false_or] at hq
      rw [hq.1]
      decide)
  exact absurd h.1 (by decide)

/-! ## Held messages stay ahead -/

/-- Every held message is ahead of the expected number, no number is held
twice, and an active session holds nothing. -/
structure HeldAhead (s : Session) : Prop where
  ahead : ∀ q ∈ s.queued, s.nextIn < q.seq
  nodup : (s.queued.map (·.seq)).Nodup
  active : s.state = .active → s.queued = []

/-- The step strands no held message. A number that is already held does not
arrive again; an accepted SequenceReset does not land past a held number, and
lands on one only while recovering; a message consumed without a release pass
(before the session is up, or a Logon or Logout) is not followed by a held one;
and a Logon brings the session up with nothing held. -/
def StrandsNothing (s : Session) : Call → Prop
  | .onMessage m _ => ¬ s.Refuses m →
    (m.admin = .sequenceReset → ∀ q ∈ s.queued,
      m.newSeq < q.seq ∨ (m.newSeq = q.seq ∧ s.state = .recovering)) ∧
    (m.admin ≠ .sequenceReset → s.nextIn < m.seq → ∀ q ∈ s.queued, q.seq ≠ m.seq) ∧
    (m.admin ≠ .sequenceReset → m.seq = s.nextIn →
      (s.state ≠ .recovering ∨ m.admin = .logon ∨ m.admin = .logout) →
        ∀ q ∈ s.queued, q.seq ≠ s.nextIn + 1) ∧
    (m.admin = .logon → m.seq = s.nextIn → ¬ s.Up → s.queued = [])
  | _ => True

theorem HeldAhead.congr {s t : Session} (h : HeldAhead s) (hn : t.nextIn = s.nextIn)
    (hq : t.queued = s.queued) (hs : t.state = .active → s.state = .active) : HeldAhead t := by
  refine ⟨?_, ?_, ?_⟩
  · rw [hn, hq]
    exact h.ahead
  · rw [hq]
    exact h.nodup
  · intro ht
    rw [hq]
    exact h.active (hs ht)

/-- A release pass leaves the rest of the queue ahead, whatever it started
from, as long as nothing held was behind. -/
theorem settle_heldAhead {t : Session} (hr : t.state = .recovering)
    (hle : ∀ q ∈ t.queued, t.nextIn ≤ q.seq) (hnd : (t.queued.map (·.seq)).Nodup) :
    HeldAhead t.settle := by
  obtain ⟨ms, hrel, -, hdone⟩ := settle_spec t
  obtain ⟨hdone, hstate⟩ := hdone hr
  have hnd' : ((ms ++ t.settle.queued).map (·.seq)).Nodup := (hrel.perm.map _).nodup_iff.mp hnd
  rw [List.map_append, List.nodup_append] at hnd'
  refine ⟨fun q hq => ?_, hnd'.2.1, fun ha => ?_⟩
  · have hmem := hrel.perm.mem_iff.mpr (List.mem_append_right ms hq)
    by_contra hn
    have hne := hdone q hq
    -- the pass would have moved past `q` with another message of its number
    obtain ⟨p, hp, hps⟩ := hrel.run.exists_of_passed (hle q hmem)
      (.inl (lt_of_le_of_ne (not_lt.mp hn) hne))
    exact hnd'.2.2 _ (List.mem_map_of_mem hp) _ (List.mem_map_of_mem hq) hps
  · by_contra hne
    rw [hstate, if_neg hne] at ha
    cases ha

/-- The queue is untouched and the expected number moves on by one. -/
theorem HeldAhead.succ_iff {s t : Session} (h : HeldAhead s) (hn : t.nextIn = s.nextIn + 1)
    (hq : t.queued = s.queued) :
    HeldAhead t ↔ (∀ q ∈ s.queued, q.seq ≠ s.nextIn + 1) ∧ (t.state = .active → s.queued = []) := by
  constructor
  · intro ht
    refine ⟨fun q hmem => ?_, fun ha => hq ▸ ht.active ha⟩
    have hlt := ht.ahead q (hq ▸ hmem)
    rw [hn] at hlt
    exact hlt.ne'
  · rintro ⟨hne, ha⟩
    refine ⟨fun q hmem => ?_, hq ▸ h.nodup, fun hs => hq ▸ ha hs⟩
    rw [hq] at hmem
    rw [hn]
    exact lt_of_le_of_ne (add_one_le_of_lt (h.ahead q hmem)) (hne q hmem).symm

theorem logon_not_refused {s : Session} {m : Inbound} (hadmin : m.admin = .logon)
    (hseq : m.seq = s.nextIn) : ¬ s.Refuses m :=
  not_refuses (fun _ => hadmin) hseq.ge (fun ha => by simp [hadmin] at ha)
    fun ha => by simp [hadmin] at ha

theorem HeldAhead.onMessage {s : Session} (h : HeldAhead s) (m : Inbound) (now : Int64)
    (hok : StrandsNothing s (.onMessage m now)) : HeldAhead (s.onMessage m now).1 := by
  have heff := onMessage_effect s m now
  simp only [StrandsNothing] at hok
  generalize (s.onMessage m now).1 = s' at *
  generalize (s.onMessage m now).2 = o at *
  cases heff with
  | refused d r _ hcore _ _ =>
    have hst : s'.state = s.state := congrArg Core.state hcore
    exact h.congr (congrArg Core.nextIn hcore) (congrArg Core.queued hcore) fun ha => hst ▸ ha
  | held hadmin hseq hopen hcore _ =>
    have hn : s'.nextIn = s.nextIn := congrArg Core.nextIn hcore
    have hq : s'.queued = s.queued ++ [m] := congrArg Core.queued hcore
    have hst : s'.state = .recovering := congrArg Core.state hcore
    have htaken : ¬ s.Refuses m := not_refuses hopen hseq.le (fun ha => absurd ha hadmin)
      fun _ he => absurd he hseq.ne'
    have hnew := (hok htaken).2.1 hadmin hseq
    refine ⟨fun q hmem => ?_, ?_, fun ha => by simp [hst] at ha⟩
    · rw [hq, List.mem_append, List.mem_singleton] at hmem
      rw [hn]
      rcases hmem with hmem | rfl
      · exact h.ahead q hmem
      · exact hseq
    · rw [hq, List.map_append, List.nodup_append]
      refine ⟨h.nodup, by simp, fun a ha b hb => ?_⟩
      obtain ⟨q, hmem, rfl⟩ := List.mem_map.mp ha
      obtain rfl : b = m.seq := by simpa using hb
      exact hnew q hmem
  | skipped t hadmin hopen hseq hnew hcore hs _ =>
    have htn : t.nextIn = m.newSeq := congrArg Core.nextIn hcore
    have htq : t.queued = s.queued := congrArg Core.queued hcore
    have hts : t.state = s.state := congrArg Core.state hcore
    have htaken : ¬ s.Refuses m := not_refuses (fun h => absurd h hopen) hseq (fun _ => hnew)
      fun ha => by simp [hadmin] at ha
    have hland := (hok htaken).1 hadmin
    subst hs
    by_cases hr : s.state = .recovering
    · refine settle_heldAhead (hts.trans hr) (fun q hmem => ?_) (htq ▸ h.nodup)
      rw [htn]
      rcases hland q (htq ▸ hmem) with hlt | ⟨heq, -⟩
      · exact hlt.le
      · exact heq.le
    · rw [settle_of_ne (hts ▸ hr)]
      refine ⟨fun q hmem => ?_, htq ▸ h.nodup, fun ha => htq ▸ h.active (hts ▸ ha)⟩
      rw [htn]
      rcases hland q (htq ▸ hmem) with hlt | ⟨-, hrec⟩
      · exact hlt
      · exact absurd hrec hr
  | relogon hadmin hseq hup hcore _ =>
    have hst : s'.state = s.state := congrArg Core.state hcore
    refine (h.succ_iff (congrArg Core.nextIn hcore) (congrArg Core.queued hcore)).mpr
      ⟨?_, fun ha => h.active (hst ▸ ha)⟩
    exact (hok (logon_not_refused hadmin hseq)).2.2.1 (by simp [hadmin]) hseq (.inr (.inl hadmin))
  | loggedOn hadmin hseq hup hcore _ =>
    have hok' := hok (logon_not_refused hadmin hseq)
    exact (h.succ_iff (congrArg Core.nextIn hcore) (congrArg Core.queued hcore)).mpr
      ⟨hok'.2.2.1 (by simp [hadmin]) hseq (.inr (.inl hadmin)),
        fun _ => hok'.2.2.2 hadmin hseq hup⟩
  | loggedOut hadmin hseq hopen hcore _ =>
    have hst : s'.state = .loggedOut := congrArg Core.state hcore
    refine (h.succ_iff (congrArg Core.nextIn hcore) (congrArg Core.queued hcore)).mpr
      ⟨?_, fun ha => by simp [hst] at ha⟩
    have htaken : ¬ s.Refuses m := not_refuses (fun h => absurd h hopen) hseq.ge
      (fun ha => by simp [hadmin] at ha) fun ha => by simp [hadmin] at ha
    exact (hok htaken).2.2.1 (by simp [hadmin]) hseq (.inr (.inr hadmin))
  | passed t hadmin hseq hopen happ hcore hs _ _ =>
    have htn : t.nextIn = s.nextIn + 1 := congrArg Core.nextIn hcore
    have htq : t.queued = s.queued := congrArg Core.queued hcore
    have hts : t.state = s.state := congrArg Core.state hcore
    subst hs
    by_cases hr : s.state = .recovering
    · refine settle_heldAhead (hts.trans hr) (fun q hmem => ?_) (htq ▸ h.nodup)
      rw [htn]
      exact add_one_le_of_lt (h.ahead q (htq ▸ hmem))
    · rw [settle_of_ne (hts ▸ hr)]
      refine (h.succ_iff htn htq).mpr ⟨?_, fun ha => h.active (hts ▸ ha)⟩
      have htaken : ¬ s.Refuses m := not_refuses (fun h => absurd h hopen) hseq.ge
        (fun ha => absurd ha hadmin.1) fun ha _ => happ ha
      exact (hok htaken).2.2.1 hadmin.1 hseq (.inl hr)

/-- Conversely, a message that leaves the queue ahead strands nothing. Below the
last number the release pass cannot wrap round a stale message. -/
theorem strandsNothing_of_heldAhead {s : Session} (h : HeldAhead s) (m : Inbound) (now : Int64)
    (hmax : ∀ q ∈ s.queued, q.seq ≠ maxSeq) (h' : HeldAhead (s.onMessage m now).1) :
    StrandsNothing s (.onMessage m now) := by
  have heff := onMessage_effect s m now
  intro hopen
  generalize (s.onMessage m now).1 = s' at *
  generalize (s.onMessage m now).2 = o at *
  cases heff with
  | refused d r hwhy => exact absurd hwhy hopen
  | held hadmin hseq _ hcore _ =>
    have hq : s'.queued = s.queued ++ [m] := congrArg Core.queued hcore
    refine ⟨fun ha => absurd ha hadmin, fun _ _ q hmem he => ?_,
      fun _ he => absurd he hseq.ne', fun _ he => absurd he hseq.ne'⟩
    have hnd := h'.nodup
    rw [hq, List.map_append, List.nodup_append] at hnd
    exact hnd.2.2 _ (List.mem_map_of_mem hmem) m.seq (by simp) he
  | skipped t hadmin _ hseq hnew hcore hs _ =>
    have htn : t.nextIn = m.newSeq := congrArg Core.nextIn hcore
    have htq : t.queued = s.queued := congrArg Core.queued hcore
    have hts : t.state = s.state := congrArg Core.state hcore
    refine ⟨fun _ q hmem => ?_, fun ha => absurd hadmin ha, fun ha => absurd hadmin ha,
      fun ha => by simp [hadmin] at ha⟩
    subst hs
    obtain ⟨ms, hrel, hidle, -⟩ := settle_spec t
    have hfree : ∀ p ∈ ms, p.seq ≠ maxSeq := fun p hp =>
      hmax p (htq ▸ hrel.perm.mem_iff.mpr (List.mem_append_left _ hp))
    have hle := hrel.run.le hfree
    rcases List.mem_append.mp (hrel.perm.mem_iff.mp (htq ▸ hmem)) with hp | hp
    · have hge := (hrel.run.mem_range hfree q hp).1
      rw [htn] at hge
      by_cases hr : s.state = .recovering
      · exact hge.lt_or_eq.imp_right fun heq => ⟨heq, hr⟩
      · rw [(hidle (hts ▸ hr)).2] at hp
        simp at hp
    · exact .inl (htn ▸ hle.trans_lt (h'.ahead q hp))
  | relogon hadmin hseq hup hcore _ =>
    have hsucc := (h.succ_iff (congrArg Core.nextIn hcore) (congrArg Core.queued hcore)).mp h'
    exact ⟨fun ha => by simp [hadmin] at ha, fun _ hlt => absurd hseq hlt.ne', fun _ _ _ => hsucc.1,
      fun _ _ hn => absurd hup hn⟩
  | loggedOn hadmin hseq hup hcore _ =>
    have hsucc := (h.succ_iff (congrArg Core.nextIn hcore) (congrArg Core.queued hcore)).mp h'
    exact ⟨fun ha => by simp [hadmin] at ha, fun _ hlt => absurd hseq hlt.ne', fun _ _ _ => hsucc.1,
      fun _ _ _ => hsucc.2 (congrArg Core.state hcore)⟩
  | loggedOut hadmin hseq _ hcore _ =>
    have hsucc := (h.succ_iff (congrArg Core.nextIn hcore) (congrArg Core.queued hcore)).mp h'
    exact ⟨fun ha => by simp [hadmin] at ha, fun _ hlt => absurd hseq hlt.ne', fun _ _ _ => hsucc.1,
      fun ha => by simp [hadmin] at ha⟩
  | passed t hadmin hseq _ _ hcore hs _ _ =>
    have hts : t.state = s.state := congrArg Core.state hcore
    subst hs
    refine ⟨fun ha => absurd ha hadmin.1, fun _ hlt => absurd hseq hlt.ne', fun _ _ hwhy => ?_,
      fun ha => absurd ha hadmin.2.1⟩
    have hr : s.state ≠ .recovering := by
      rcases hwhy with hr | ha | ha
      · exact hr
      · exact absurd ha hadmin.2.1
      · exact absurd ha hadmin.2.2
    rw [settle_of_ne (hts ▸ hr)] at h'
    exact ((h.succ_iff (congrArg Core.nextIn hcore) (congrArg Core.queued hcore)).mp h').1

theorem HeldAhead.step {s : Session} (h : HeldAhead s) (c : Call)
    (hok : StrandsNothing s c) : HeldAhead (step s c).1 := by
  cases c with
  | beginLogon now => exact ⟨h.ahead, h.nodup, fun ha => by cases ha⟩
  | claimOutboundSeq => exact h.congr rfl rfl id
  | takeReleased => exact h.congr rfl rfl id
  | onMessage m now => exact h.onMessage m now hok
  | onClock now =>
    rcases (onClock_effect s now).2 with ⟨hcore, -⟩ | ⟨hcore, -⟩
    · have hst : (s.onClock now).1.state = s.state := congrArg Core.state hcore
      exact h.congr (congrArg Core.nextIn hcore) (congrArg Core.queued hcore) fun ha => hst ▸ ha
    · have hst : (s.onClock now).1.state = .disconnected := congrArg Core.state hcore
      refine h.congr (congrArg Core.nextIn hcore) (congrArg Core.queued hcore) fun ha => ?_
      cases hst.symm.trans ha

/-- A release pass that empties the queue ends the recovery. -/
theorem settle_recovering {t : Session} (h : t.settle.state = .recovering) :
    t.settle.queued ≠ [] := by
  by_cases hr : t.state = .recovering
  · obtain ⟨_, -, -, hdone⟩ := settle_spec t
    rw [(hdone hr).2] at h
    intro hnil
    simp [hnil] at h
  · rw [settle_of_ne hr] at h
    exact absurd h hr

/-- A recovering session holds something. -/
theorem step_recovering (s : Session) (c : Call) (h : s.state = .recovering → s.queued ≠ []) :
    (step s c).1.state = .recovering → (step s c).1.queued ≠ [] := by
  have hsame : ∀ {t : Session}, t.state = s.state → t.queued = s.queued →
      t.state = .recovering → t.queued ≠ [] := fun hs hq ht => hq ▸ h (hs ▸ ht)
  cases c with
  | beginLogon now => exact fun ht => by cases ht
  | claimOutboundSeq => exact h
  | takeReleased => exact h
  | onClock now =>
    rcases (onClock_effect s now).2 with ⟨hcore, -⟩ | ⟨hcore, -⟩
    · exact hsame (congrArg Core.state hcore) (congrArg Core.queued hcore)
    · exact fun ht => by cases (congrArg Core.state hcore).symm.trans ht
  | onMessage m now =>
    cases onMessage_effect s m now with
    | refused _ _ _ hcore | relogon _ _ _ hcore =>
      exact hsame (congrArg Core.state hcore) (congrArg Core.queued hcore)
    | loggedOn _ _ _ hcore | loggedOut _ _ _ hcore =>
      exact fun ht => by cases (congrArg Core.state hcore).symm.trans ht
    | held _ _ _ hcore =>
      have hq : (s.onMessage m now).1.queued = s.queued ++ [m] := congrArg Core.queued hcore
      exact fun _ => by simp [step, hq]
    | skipped t _ _ _ _ _ hs => exact fun ht => hs ▸ settle_recovering (hs ▸ ht)
    | passed t _ _ _ _ _ hs => exact fun ht => hs ▸ settle_recovering (hs ▸ ht)

/-- The session is not paused behind messages it has already passed. -/
def NotStuck (s : Session) : Prop :=
  (∀ q ∈ s.queued, q.seq < s.nextIn) → s.state ≠ .recovering

/-- **Recovery cannot get stuck in a run that strands nothing**, and below the
last number only such runs keep the held messages ahead. -/
theorem heldAhead_iff_strandsNothing (cfg : Config) (calls : List Call) :
    ((∀ e ∈ trace step (new cfg) calls, StrandsNothing e.pre e.input) →
      ∀ s ∈ states step (new cfg) calls, HeldAhead s ∧ NotStuck s) ∧
    ((∀ m now, .onMessage m now ∈ calls → m.seq ≠ maxSeq) →
      (∀ s ∈ states step (new cfg) calls, HeldAhead s) →
      ∀ e ∈ trace step (new cfg) calls, StrandsNothing e.pre e.input) := by
  have hstart : HeldAhead (new cfg) := ⟨by simp [new], by simp [new], by simp [new]⟩
  constructor
  · intro hok s hs
    have hinv := states_induction step
      (I := fun s => HeldAhead s ∧ (s.state = .recovering → s.queued ≠ []))
      (fun s c hc h => ⟨h.1.step c hc, step_recovering s c h.2⟩)
      (new cfg) ⟨hstart, fun h => by cases h⟩ calls hok s hs
    refine ⟨hinv.1, fun hall hr => ?_⟩
    obtain ⟨q, hq⟩ := List.exists_mem_of_ne_nil _ (hinv.2 hr)
    exact lt_asymm (hall q hq) (hinv.1.ahead q hq)
  · intro hmax hall
    refine steps_of_states step (I := HeldAhead) (J := fun s => ∀ q ∈ s.queued, q.seq ≠ maxSeq)
      (A := fun c => ∀ m now, c = .onMessage m now → m.seq ≠ maxSeq) ?_ ?_ (new cfg)
      (by simp [new]) calls (fun c hc m now he => hmax m now (he ▸ hc)) hall
    · intro s c hc hJ q hq
      rcases step_queued s c q hq with hq | ⟨-, now, he⟩
      · exact hJ q hq
      · exact hc q now he
    · intro s c hc hJ h h'
      cases c with
      | onMessage m now => exact strandsNothing_of_heldAhead h m now hJ h'
      | beginLogon | claimOutboundSeq | onClock | takeReleased => trivial

/-- Number 3 arrives twice while 2 is missing; when 2 comes, the second copy
stays behind and the session recovers for ever. -/
theorem duplicate_held_strands :
    ¬ ∀ s ∈ states step (new {}) [.beginLogon 0, .onMessage { seq := 1, admin := .logon } 0,
        .onMessage { seq := 3 } 0, .onMessage { seq := 3 } 0, .onMessage { seq := 2 } 0],
      HeldAhead s ∧ NotStuck s := by
  intro h
  have hlast := (h _ (exec_mem_states step (new {}) _)).2
  exact hlast (by decide) (by decide)

end Lloms.Session
