import Lloms.Session.Effect

/-! Application traffic and the logon. The session is up after an inbound Logon
that it did not reject; the gap branch of `onMessage` is the one way to come up
without it, and a run that never takes that branch before a logon hands nothing
over without one. -/
namespace Lloms.Session
open Lib

/-- A Logon that was not rejected. -/
def AcceptsLogon (e : Event) : Prop :=
  match e.input, e.output with
  | .onMessage m _, .outcome o => m.admin = .logon ∧ o.reject = .none
  | _, _ => False

/-- What ends a logon: a new `beginLogon`, an accepted Logout, a dead peer. -/
def EndsLogon (e : Event) : Prop :=
  match e.input, e.output with
  | .beginLogon _, _ => True
  | .onMessage m _, .outcome o => m.admin = .logout ∧ o.disconnect = true ∧ o.reject = .none
  | .onClock _, .outcome o => o.disconnect = true
  | _, _ => False

/-- A logon was accepted and nothing has ended it since. -/
def LiveLogon (h : List Event) : Prop := Since AcceptsLogon EndsLogon h

/-- The call delivers its message or moves a held one to the released list. -/
def HandsOver (e : Event) : Prop :=
  match e.input, e.output with
  | .onMessage _ _, .outcome o => o.deliver = true ∨ e.post.released ≠ e.pre.released
  | _, _ => False

/-- A message ahead of sequence that is neither a Logon nor a SequenceReset,
before the session is up: the branch that starts recovering without a logon. -/
def GapBeforeLogon (s : Session) : Call → Prop
  | .onMessage m _ => (s.state = .logonSent ∨ s.state = .loggedOut) ∧ s.nextIn < m.seq ∧
      m.admin ≠ .logon ∧ m.admin ≠ .sequenceReset
  | _ => False

instance (s : Session) : (c : Call) → Decidable (GapBeforeLogon s c)
  | .onMessage _ _ => inferInstanceAs (Decidable (_ ∧ _ ∧ _ ∧ _))
  | .beginLogon _ | .claimOutboundSeq | .onClock _ | .takeReleased => .isFalse id

theorem settle_up {s : Session} (h : s.settle.Up) : s.Up := by
  by_cases hr : s.state = .recovering
  · exact .inr hr
  · rwa [settle_of_ne hr] at h

theorem settle_released {s : Session} (h : s.settle.released ≠ s.released) : s.Up := by
  by_cases hr : s.state = .recovering
  · exact .inr hr
  · rw [settle_of_ne hr] at h
    exact absurd rfl h

theorem up_congr {s t : Session} (h : t.state = s.state) : t.Up ↔ s.Up := by
  unfold Up
  rw [h]

/-- A message is handed over, or held ones are released, only when the session is
up. -/
theorem up_of_handsOver {s : Session} {m : Inbound} {now : Int64}
    (h : HandsOver (event step s (.onMessage m now))) : s.Up := by
  have heff := onMessage_effect s m now
  change (s.onMessage m now).2.deliver = true ∨ (s.onMessage m now).1.released ≠ s.released at h
  generalize (s.onMessage m now).1 = s' at *
  generalize (s.onMessage m now).2 = o at *
  have hstays : ∀ {t : Session}, t.released = s.released → t.state = s.state →
      t.settle.released ≠ s.released → s.Up := fun htr hst hne =>
    (up_congr hst).mp (settle_released (by rwa [htr]))
  cases heff with
  | refused _ _ _ hcore ho _ | loggedOn _ _ _ hcore ho | loggedOut _ _ _ hcore ho =>
    have hre : s'.released = s.released := congrArg Core.released hcore
    simp [ho, hre] at h
  | held _ _ _ hcore ho =>
    have hre : s'.released = s.released := congrArg Core.released hcore
    have hdel : o.deliver = false := by rw [ho]; split <;> rfl
    simp [hdel, hre] at h
  | relogon _ _ hup _ _ => exact hup
  | skipped t _ _ _ _ hcore hs ho =>
    subst hs
    exact hstays (congrArg Core.released hcore) (congrArg Core.state hcore) (by simpa [ho] using h)
  | passed t _ _ _ happ hcore hs hdel _ =>
    subst hs
    rcases h with h | h
    · exact happ (by simpa [hdel] using h)
    · exact hstays (congrArg Core.released hcore) (congrArg Core.state hcore) h

/-- A message leaves the session up only if it was, or by an accepted Logon. -/
theorem onMessage_up (s : Session) (m : Inbound) (now : Int64)
    (hok : ¬ GapBeforeLogon s (.onMessage m now)) (h : (s.onMessage m now).1.Up) :
    AcceptsLogon (event step s (.onMessage m now)) ∨
      (s.Up ∧ ¬ EndsLogon (event step s (.onMessage m now))) := by
  have heff := onMessage_effect s m now
  simp only [AcceptsLogon, EndsLogon, event, step]
  generalize (s.onMessage m now).1 = s' at *
  generalize (s.onMessage m now).2 = o at *
  cases heff with
  | refused d r _ hcore ho hdis =>
    refine .inr ⟨(up_congr (congrArg Core.state hcore)).mp h, ?_⟩
    rintro ⟨-, hd, hr⟩
    rw [ho] at hd hr
    exact hdis hd hr
  | held hadmin hseq hopen hcore ho =>
    have hquiet : o.disconnect = false ∧ o.reject = .none := by
      rw [ho]; split <;> exact ⟨rfl, rfl⟩
    by_cases ha : m.admin = .logon
    · exact .inl ⟨ha, hquiet.2⟩
    · refine .inr ⟨?_, fun h => by simp [hquiet.1] at h⟩
      unfold Up
      unfold GapBeforeLogon at hok
      cases hs : s.state <;> simp_all
  | skipped t hadmin _ _ _ hcore hs ho =>
    subst hs
    exact .inr ⟨(up_congr (congrArg Core.state hcore)).mp (settle_up h), by simp [hadmin]⟩
  | relogon hadmin _ hup hcore ho => exact .inr ⟨hup, by simp [hadmin]⟩
  | loggedOn hadmin _ _ hcore ho => exact .inl ⟨hadmin, by rw [ho]⟩
  | loggedOut hadmin _ _ hcore ho =>
    have hst : s'.state = .loggedOut := congrArg Core.state hcore
    simp [Up, hst] at h
  | passed t hadmin _ _ happ hcore hs hdel hquiet =>
    subst hs
    exact .inr ⟨(up_congr (congrArg Core.state hcore)).mp (settle_up h), by simp [hquiet]⟩

/-- A session that is up has a live logon. -/
theorem step_keeps_logon (h : List Event) (s : Session) (c : Call)
    (hok : ¬ GapBeforeLogon s c) (hI : s.Up → LiveLogon h) :
    (step s c).1.Up → LiveLogon (h ++ [event step s c]) := by
  intro hup
  cases c with
  | beginLogon now => simp [step, beginLogon, claimOutboundSeq, Up] at hup
  | claimOutboundSeq => exact (since_concat _ _).mpr (.inr ⟨hI hup, id⟩)
  | takeReleased => exact (since_concat _ _).mpr (.inr ⟨hI hup, id⟩)
  | onClock now =>
    rcases (onClock_effect s now).2 with ⟨hcore, hd⟩ | ⟨hcore, -⟩
    · refine (since_concat _ _).mpr
        (.inr ⟨hI ((up_congr (congrArg Core.state hcore)).mp hup), ?_⟩)
      simp [EndsLogon, step, hd]
    · have hst : (s.onClock now).1.state = .disconnected := congrArg Core.state hcore
      simp [step, Up, hst] at hup
  | onMessage m now =>
    rcases onMessage_up s m now hok hup with ha | ⟨hs, he⟩
    · exact (since_concat _ _).mpr (.inl ha)
    · exact (since_concat _ _).mpr (.inr ⟨hI hs, he⟩)

/-- **Nothing is handed over without a live logon**, in every run that never
opens a gap before the logon. -/
theorem handsOver_needs_logon (cfg : Config) (calls : List Call)
    (hok : ∀ e ∈ trace step (new cfg) calls, ¬ GapBeforeLogon e.pre e.input)
    (h t : List Event) (e : Event) (hrun : trace step (new cfg) calls = h ++ e :: t)
    (he : HandsOver e) : LiveLogon h := by
  refine event_of_history step (P := fun s c => ¬ GapBeforeLogon s c)
    (I := fun h s => s.Up → LiveLogon h) (Q := fun h e => HandsOver e → LiveLogon h)
    step_keeps_logon ?_ (new cfg) ?_ calls hok h t e hrun he
  · intro h s c hok hI he
    cases c with
    | onMessage m now => exact hI (up_of_handsOver he)
    | beginLogon now => exact he.elim
    | claimOutboundSeq => exact he.elim
    | onClock now => exact he.elim
    | takeReleased => exact he.elim
  · simp [Up, new]

theorem LiveLogon.exists_accepts {h : List Event} (hl : LiveLogon h) :
    ∃ e ∈ h, AcceptsLogon e := by
  obtain ⟨before, e, after, rfl, he, -⟩ := hl
  exact ⟨e, by simp, he⟩

/-- A logon, then one application message. -/
theorem handsOver_needs_logon_first :
    HandsOver (event step (exec step (new {})
        [.beginLogon 0, .onMessage { seq := 1, admin := .logon } 0]) (.onMessage { seq := 2 } 0)) ∧
    LiveLogon (trace step (new {})
      [.beginLogon 0, .onMessage { seq := 1, admin := .logon } 0]) :=
  ⟨.inl rfl, handsOver_needs_logon {}
    [.beginLogon 0, .onMessage { seq := 1, admin := .logon } 0, .onMessage { seq := 2 } 0]
    (by decide) _ [] _ rfl (.inl rfl)⟩

/-- Before any logon: number 5 opens a gap, and then number 1 is delivered. -/
theorem gap_hands_over_unlogged :
    ¬ ∀ h t e, trace step (new {})
        [.beginLogon 0, .onMessage { seq := 5 } 0, .onMessage { seq := 1 } 0] = h ++ e :: t →
      HandsOver e → LiveLogon h := by
  intro hall
  have hl := hall (trace step (new {}) [.beginLogon 0, .onMessage { seq := 5 } 0]) [] _ rfl
    (.inl rfl)
  obtain ⟨e, he, ha⟩ := hl.exists_accepts
  simp only [trace, List.mem_cons, List.not_mem_nil, or_false] at he
  rcases he with rfl | rfl
  · exact ha
  · exact absurd ha.1 (by decide)

end Lloms.Session
