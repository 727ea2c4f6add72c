import Lloms.Session.Effect

/-! A rejected message does not disturb the session. There are six exits of
`onMessage` with a reject, two of them deep in `acceptInSequence`; all of them leave
the session as it was but for the liveness fields, the reject counter and, for a
second logon, the number it used up. -/
namespace Lloms.Session

/-- The session after a reject: the time of the last message and the outstanding
question may be new, and the expected number is `nextIn`. -/
structure TurnedAway (s : Session) (nextIn : UInt64) (s' : Session) (o : Outcome) : Prop where
  session : ∃ heard asked,
    s' = { s with lastInboundMs := heard, testRequestOutstanding := asked, nextIn }.countReject
  outcome : ∃ disconnect reject, o = { drop := true, disconnect, reject }

theorem turnedAway_alone (s : Session) (heard : Int64) (asked disconnect : Bool)
    (reject : Reject) :
    TurnedAway s s.nextIn
      { s with lastInboundMs := heard, testRequestOutstanding := asked }.countReject
      { drop := true, disconnect, reject } :=
  ⟨⟨heard, asked, rfl⟩, disconnect, reject, rfl⟩

section TurnedAway

variable {s s' : Session} {n : UInt64} {o : Outcome} (h : TurnedAway s n s' o)
include h

theorem TurnedAway.nextIn_eq : s'.nextIn = n := by
  obtain ⟨⟨heard, asked, rfl⟩, -⟩ := h
  rfl

theorem TurnedAway.keeps :
    s'.state = s.state ∧ s'.queued = s.queued ∧ s'.released = s.released ∧
      s'.nextOut = s.nextOut := by
  obtain ⟨⟨heard, asked, rfl⟩, -⟩ := h
  exact ⟨rfl, rfl, rfl, rfl⟩

theorem TurnedAway.stats_eq : s'.stats = { s.stats with rejects := s.stats.rejects + 1 } := by
  obtain ⟨⟨heard, asked, rfl⟩, -⟩ := h
  rfl

theorem TurnedAway.quiet :
    o.deliver = false ∧ o.queue = false ∧ o.sendHeartbeat = false ∧
      o.sendResendRequest = false ∧ o.sendResend = false := by
  obtain ⟨-, disconnect, reject, rfl⟩ := h
  exact ⟨rfl, rfl, rfl, rfl, rfl⟩

end TurnedAway

/-- What a reject can be: one that leaves the expected number alone, or a logon on a session
that is up, in sequence and counted. -/
def Rejection (s : Session) (m : Inbound) (s' : Session) (o : Outcome) : Prop :=
  (o.reject ≠ .alreadyLoggedOn ∧ TurnedAway s s.nextIn s' o) ∨
    (o.reject = .alreadyLoggedOn ∧ m.seq = s.nextIn ∧ TurnedAway s (s.nextIn + 1) s' o)

theorem acceptInSequence_rejection (s : Session) (m : Inbound) (now : Int64)
    (hseq : m.admin = .logon → m.seq = s.nextIn)
    (h : (s.acceptInSequence m now).2.reject ≠ .none) :
    Rejection s m (s.acceptInSequence m now).1 (s.acceptInSequence m now).2 := by
  cases ha : m.admin with
  | sequenceReset =>
    by_cases hn : m.newSeq ≤ s.nextIn
    · simp only [acceptInSequence, ha, hn, if_true]
      exact .inl ⟨by simp, turnedAway_alone s now false false .resetBackwards⟩
    · simp [acceptInSequence, ha, hn] at h
  | logon =>
    by_cases hup : s.state = .active ∨ s.state = .recovering
    · simp only [acceptInSequence, ha, hup, if_true]
      exact .inr ⟨rfl, hseq ha, ⟨now, false, rfl⟩, true, .alreadyLoggedOn, rfl⟩
    · simp [acceptInSequence, ha, hup] at h
  | none =>
    by_cases hdown : s.state ≠ .active ∧ s.state ≠ .recovering
    · simp only [acceptInSequence, ha]
      rw [if_pos hdown]
      exact .inl ⟨by simp, turnedAway_alone s now false false .notLoggedOn⟩
    · simp only [acceptInSequence, ha] at h
      rw [if_neg hdown] at h
      exact absurd rfl h
  | testRequest | resendRequest | heartbeat | logout =>
    simp [acceptInSequence, ha] at h

theorem onMessage_rejection (s : Session) (m : Inbound) (now : Int64)
    (h : (s.onMessage m now).2.reject ≠ .none) :
    Rejection s m (s.onMessage m now).1 (s.onMessage m now).2 := by
  unfold onMessage at h ⊢
  split at h
  · rename_i hclosed
    rw [if_pos hclosed]
    exact .inl ⟨nofun,
      turnedAway_alone s s.lastInboundMs s.testRequestOutstanding false .notLoggedOn⟩
  rename_i hclosed
  rw [if_neg hclosed]
  split at h
  · rename_i hbehind
    rw [if_pos hbehind]
    exact .inl ⟨nofun,
      turnedAway_alone s s.lastInboundMs s.testRequestOutstanding true .logonSequenceTooLow⟩
  rename_i hbehind
  rw [if_neg hbehind]
  split at h
  · rename_i hlow
    rw [if_pos hlow]
    split at h
    · exact absurd rfl h
    · rename_i hdup
      rw [if_neg hdup]
      exact .inl ⟨nofun,
        turnedAway_alone s now s.testRequestOutstanding true .sequenceTooLow⟩
  rename_i hlow
  rw [if_neg hlow]
  split at h
  · rename_i hgap
    rw [if_pos hgap]
    split at h
    · rename_i hreset
      rw [if_pos hreset]
      exact acceptInSequence_rejection s m now (fun hlogon => by simp [hlogon] at hreset) h
    · -- a held message has no reject, whether or not it opens a gap
      dsimp only at h
      split at h <;> exact absurd rfl h
  · rename_i hgap
    rw [if_neg hgap]
    exact acceptInSequence_rejection s m now
      (fun _ => le_antisymm (not_lt.mp hgap) (not_lt.mp hlow)) h

/-- **A rejected message does not disturb the session.** Nothing is delivered, held or
asked for, no statistic but the reject counter moves, and only a second logon uses up a
number: its own. -/
theorem rejected_undisturbed (s : Session) (m : Inbound) (now : Int64)
    (h : (s.onMessage m now).2.reject ≠ .none) :
    let s' := (s.onMessage m now).1
    let o := (s.onMessage m now).2
    (s'.state = s.state ∧ s'.queued = s.queued ∧ s'.released = s.released ∧
      s'.nextOut = s.nextOut) ∧
    s'.stats = { s.stats with rejects := s.stats.rejects + 1 } ∧
    (o.deliver = false ∧ o.queue = false ∧ o.sendHeartbeat = false ∧
      o.sendResendRequest = false ∧ o.sendResend = false) ∧
    (o.reject ≠ .alreadyLoggedOn → s'.nextIn = s.nextIn) ∧
    (o.reject = .alreadyLoggedOn → m.seq = s.nextIn ∧ s'.nextIn = m.seq + 1) := by
  rcases onMessage_rejection s m now h with ⟨hother, haway⟩ | ⟨hlogon, hseq, haway⟩
  · exact ⟨haway.keeps, haway.stats_eq, haway.quiet, fun _ => haway.nextIn_eq,
      fun heq => absurd heq hother⟩
  · refine ⟨haway.keeps, haway.stats_eq, haway.quiet, fun hne => absurd hlogon hne, fun _ => ?_⟩
    refine ⟨hseq, ?_⟩
    rw [hseq]
    exact haway.nextIn_eq

/-- A second logon with a gap open and a message held: it is rejected, and uses up its
number. -/
def secondLogon : List Call :=
  [.beginLogon 0, .onMessage { seq := 1, admin := .logon } 0, .onMessage { seq := 5 } 0]

theorem rejected_undisturbed_secondLogon :
    let s := Lib.exec step (new {}) secondLogon
    let m : Inbound := { seq := 2, admin := .logon }
    (s.onMessage m 0).2.reject = .alreadyLoggedOn ∧ s.queued = [{ seq := 5 }] ∧
      (s.onMessage m 0).1.queued = s.queued ∧ (s.onMessage m 0).1.nextIn = 3 := by
  have h := rejected_undisturbed (Lib.exec step (new {}) secondLogon)
    { seq := 2, admin := .logon } 0 (by decide)
  exact ⟨by decide, by decide, h.1.2.1, (h.2.2.2.2 (by decide)).2⟩

end Lloms.Session
