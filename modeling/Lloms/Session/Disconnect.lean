import Lloms.Session.Logon

/-! After a disconnect. Five ways out of a call say `disconnect`; a dead peer and a
logout also take the session down, but the fatal rejects leave the state as it is,
and the gap branch brings a session up that was told to go. A run that takes
neither way hands nothing over between a disconnect and the next logon. -/
namespace Lloms.Session
open Lib

/-! ## What a run says -/

/-- The call tells its caller to disconnect. -/
def Disconnects (e : Event) : Prop :=
  match e.output with
  | .outcome o => o.disconnect = true
  | _ => False

/-- A new logon: we begin one, or a Logon that is not an old one is not rejected. -/
def Revives (e : Event) : Prop :=
  match e.input, e.output with
  | .beginLogon _, _ => True
  | .onMessage m _, .outcome o => m.admin = .logon ∧ e.pre.nextIn ≤ m.seq ∧ o.reject = .none
  | _, _ => False

/-- The session was told to disconnect and no new logon has come since. -/
def ToldToDisconnect (h : List Event) : Prop := Since Disconnects Revives h

/-- A number already processed, on a message not marked as a duplicate. -/
def TooLow (s : Session) (m : Inbound) : Prop := m.seq < s.nextIn ∧ m.possDup = false

/-- A message that was too low came in since we last began a logon. -/
def LowSinceBegin (h : List Event) : Prop :=
  Since (fun e => match e.input with
      | .onMessage m _ => e.pre.TooLow m
      | _ => False)
    (fun e => match e.input with
      | .beginLogon _ => True
      | _ => False) h

/-- A reject that is fatal, on a session that is up. -/
def FatalWhileUp (s : Session) (m : Inbound) : Prop :=
  s.Up ∧ (s.TooLow m ∨ m.admin = .logon ∧ m.seq = s.nextIn)

instance (s : Session) (m : Inbound) : Decidable (s.FatalWhileUp m) :=
  inferInstanceAs (Decidable (_ ∧ (_ ∧ _ ∨ _ ∧ _)))

/-- A message ahead of sequence that is neither a Logon nor a SequenceReset, after
a logout or after a message that was too low in answer to our logon. -/
def GapAfterEnd (h : List Event) (s : Session) (m : Inbound) : Prop :=
  (s.state = .loggedOut ∨ s.state = .logonSent ∧ LowSinceBegin h) ∧
    s.nextIn < m.seq ∧ m.admin ≠ .logon ∧ m.admin ≠ .sequenceReset

/-- The call goes one of the two ways on which a session that was told to
disconnect stays up or comes up. -/
def KeepsActing (h : List Event) (e : Event) : Prop :=
  match e.input with
  | .onMessage m _ => FatalWhileUp e.pre m ∨ GapAfterEnd h e.pre m
  | _ => False

/-! ## One message -/

section Message

variable {s : Session} {m : Inbound} {now : Int64}

theorem acceptInSequence_disconnect (h : (s.acceptInSequence m now).2.disconnect = true) :
    m.admin = .logon ∨ m.admin = .logout := by
  cases ha : m.admin with
  | logon => exact .inl rfl
  | logout => exact .inr rfl
  | sequenceReset =>
    simp only [acceptInSequence, ha] at h
    by_cases hback : m.newSeq ≤ s.nextIn
    · simp [hback] at h
    · simp [hback] at h
  | none =>
    simp only [acceptInSequence, ha] at h
    by_cases hdown : s.state ≠ .active ∧ s.state ≠ .recovering
    · simp [hdown] at h
    · rw [if_neg hdown] at h
      cases h
  | testRequest | resendRequest | heartbeat => simp [acceptInSequence, ha] at h

/-- A message makes us disconnect because it is too low, or as a Logon or Logout
that is not. -/
theorem tooLow_of_disconnect (h : (s.onMessage m now).2.disconnect = true) :
    s.TooLow m ∨ ((s.state = .disconnected → m.admin = .logon) ∧ s.nextIn ≤ m.seq ∧
      (m.admin = .logon ∨ m.admin = .logout)) := by
  unfold onMessage at h
  split at h
  · cases h
  rename_i hopen
  split at h
  · rename_i hlogon
    exact .inl ⟨hlogon.2.1, by simpa using hlogon.2.2⟩
  split at h
  · rename_i hlow
    split at h
    · cases h
    · rename_i hdup
      exact .inl ⟨hlow, by simpa using hdup⟩
  rename_i hlow
  have hopen' : s.state = .disconnected → m.admin = .logon := by tauto
  split at h
  · split at h
    · exact .inr ⟨hopen', not_lt.mp hlow, acceptInSequence_disconnect h⟩
    · by_cases hr : s.state = .recovering
      · simp [hr] at h
      · simp [hr] at h
  · exact .inr ⟨hopen', not_lt.mp hlow, acceptInSequence_disconnect h⟩

/-- A message that is too low is a reason to disconnect, unless nothing is open. -/
theorem onMessage_tooLow (now : Int64) (hstate : s.state ≠ .disconnected) (hlow : s.TooLow m) :
    (s.onMessage m now).2.disconnect = true ∧ (s.onMessage m now).1.state = s.state := by
  unfold onMessage
  rw [if_neg fun h => hstate h.1]
  by_cases hlogon : m.admin = .logon ∧ m.seq < s.nextIn ∧ !m.possDup
  · rw [if_pos hlogon]
    exact ⟨rfl, rfl⟩
  · rw [if_neg hlogon, if_pos hlow.1]
    dsimp only
    rw [if_neg (by simp [hlow.2])]
    exact ⟨rfl, rfl⟩

/-- So is a second Logon. -/
theorem onMessage_relogon (now : Int64) (hup : s.Up) (hadmin : m.admin = .logon)
    (hseq : m.seq = s.nextIn) :
    (s.onMessage m now).2.disconnect = true ∧ (s.onMessage m now).1.state = s.state := by
  have hup' : s.state = .active ∨ s.state = .recovering := hup
  simp [onMessage, acceptInSequence, hadmin, hseq, hup', countReject, tally]

/-- The gap branch starts recovering, whatever the state was. -/
theorem onMessage_gap (hstate : s.state ≠ .disconnected) (hseq : s.nextIn < m.seq)
    (hreset : m.admin ≠ .sequenceReset) : (s.onMessage m now).1.state = .recovering := by
  cases onMessage_effect s m now with
  | held _ _ _ hcore _ => exact congrArg Core.state hcore
  | refused _ _ hrefuses _ _ _ =>
    exact absurd hrefuses (not_refuses (fun h => absurd h hstate) hseq.le (fun h => absurd h hreset)
      fun _ h => absurd h hseq.ne')
  | skipped _ hadmin _ _ _ _ _ _ => exact absurd hadmin hreset
  | relogon _ heq _ _ _ | loggedOn _ heq _ _ _ | loggedOut _ heq _ _ _ => exact absurd heq hseq.ne'
  | passed _ _ heq _ _ _ _ _ _ => exact absurd heq hseq.ne'

/-- A release pass on a session that is not up does nothing. -/
theorem settle_state_of_down {t : Session} (hdown : ¬ s.Up) (ht : t.state = s.state) :
    t.settle.state = s.state := by
  have hne : t.state ≠ .recovering := fun hr => hdown (.inr (ht ▸ hr))
  rw [settle_of_ne hne, ht]

/-- The next application message in sequence is handed over when the session is up. -/
theorem handsOver_next (hup : s.Up) (now : Int64) :
    HandsOver (event step s (.onMessage { seq := s.nextIn } now)) := by
  have hguard : ¬ (s.state ≠ .active ∧ s.state ≠ .recovering) := by
    unfold Up at hup
    tauto
  left
  simp [onMessage, acceptInSequence, hup.ne_disconnected, hguard]

end Message

/-! ## A run that takes neither way -/

/-- A session that was told to disconnect is not up, and still waits for its logon
only because of a message that was too low. -/
def StoodDown (h : List Event) (s : Session) : Prop :=
  ToldToDisconnect h → ¬ s.Up ∧ (s.state = .logonSent → LowSinceBegin h)

section Steps

variable {h : List Event} {s : Session}

/-- A call that leaves the state alone and begins no logon. -/
theorem StoodDown.idle (hq : StoodDown h s) {c : Call} {s' : Session} (hstate : s'.state = s.state)
    (hdis : ¬ Disconnects (event step s c)) (hlogon : ∀ now, c ≠ .beginLogon now) :
    StoodDown (h ++ [event step s c]) s' := by
  intro htold
  rcases (since_concat _ _).mp htold with hnow | ⟨hbefore, -⟩
  · exact absurd hnow hdis
  · obtain ⟨hdown, hlow⟩ := hq hbefore
    refine ⟨fun hup => hdown ((up_congr hstate).mp hup), fun hsent => ?_⟩
    refine (since_concat _ _).mpr (.inr ⟨hlow (hstate ▸ hsent), fun hbegin => ?_⟩)
    cases c with
    | beginLogon now => exact hlogon now rfl
    | claimOutboundSeq | onMessage m now | onClock now | takeReleased => exact hbegin

/-- A message that says disconnect, when that is not on a session that is up. -/
theorem stoodDown_of_disconnects {m : Inbound} {now : Int64} (hok : ¬ FatalWhileUp s m)
    (hdis : (s.onMessage m now).2.disconnect = true) :
    ¬ (s.onMessage m now).1.Up ∧ ((s.onMessage m now).1.state = .logonSent →
      LowSinceBegin (h ++ [event step s (.onMessage m now)])) := by
  have hwhy := tooLow_of_disconnect hdis
  cases onMessage_effect s m now with
  | refused _ _ hrefuses hcore ho _ =>
    have hlow : s.TooLow m := by
      rcases hwhy with hlow | ⟨hopen, hseq, hadmin⟩
      · exact hlow
      · refine absurd hrefuses (not_refuses hopen hseq (fun ha => ?_) fun ha => ?_)
        · simp [ha] at hadmin
        · simp [ha] at hadmin
    have hstate : (s.onMessage m now).1.state = s.state := congrArg Core.state hcore
    refine ⟨fun hup => hok ⟨(up_congr hstate).mp hup, .inl hlow⟩, fun _ => ?_⟩
    exact (since_concat _ _).mpr (.inl hlow)
  | relogon hadmin hseq hup _ _ => exact absurd ⟨hup, .inr ⟨hadmin, hseq⟩⟩ hok
  | loggedOut _ _ _ hcore _ =>
    have hstate : (s.onMessage m now).1.state = .loggedOut := congrArg Core.state hcore
    exact ⟨fun hup => by simp [Up, hstate] at hup, fun hsent => by simp [hstate] at hsent⟩
  | held _ _ _ _ ho =>
    rw [ho] at hdis
    split at hdis <;> cases hdis
  | skipped _ _ _ _ _ _ _ ho | loggedOn _ _ _ _ ho =>
    rw [ho] at hdis
    cases hdis
  | passed _ _ _ _ _ _ _ _ hquiet =>
    rw [hquiet.2.2.1] at hdis
    cases hdis

/-- A message on a session that was told to disconnect before. -/
theorem state_of_told {m : Inbound} {now : Int64} (hdown : ¬ s.Up)
    (hlow : s.state = .logonSent → LowSinceBegin h) (hok : ¬ GapAfterEnd h s m)
    (hrev : ¬ Revives (event step s (.onMessage m now))) :
    (s.onMessage m now).1.state = s.state ∨ (s.onMessage m now).1.state = .loggedOut := by
  cases onMessage_effect s m now with
  | refused _ _ _ hcore _ _ => exact .inl (congrArg Core.state hcore)
  | loggedOut _ _ _ hcore _ => exact .inr (congrArg Core.state hcore)
  | skipped t _ _ _ _ hcore hs _ =>
    rw [hs]
    exact .inl (settle_state_of_down hdown (congrArg Core.state hcore))
  | passed t _ _ _ _ hcore hs _ _ =>
    rw [hs]
    exact .inl (settle_state_of_down hdown (congrArg Core.state hcore))
  | relogon _ _ hup _ _ => exact absurd hup hdown
  | loggedOn hadmin hseq _ _ ho =>
    exact absurd ⟨hadmin, hseq.ge, congrArg Outcome.reject ho⟩ hrev
  | held hadmin hseq hopen _ ho =>
    -- the gap branch: a Logon revives, and nothing else may come here
    have hnone : (s.onMessage m now).2.reject = .none := by rw [ho]; split <;> rfl
    by_cases hlogon : m.admin = .logon
    · exact absurd ⟨hlogon, hseq.le, hnone⟩ hrev
    · refine absurd ⟨?_, hseq, hlogon, hadmin⟩ hok
      cases hs : s.state with
      | disconnected => exact absurd (hopen hs) hlogon
      | logonSent => exact .inr ⟨rfl, hlow hs⟩
      | active => exact absurd (.inl hs) hdown
      | recovering => exact absurd (.inr hs) hdown
      | loggedOut => exact .inl rfl

theorem stoodDown_message (hq : StoodDown h s) (m : Inbound) (now : Int64)
    (hok : ¬ KeepsActing h (event step s (.onMessage m now))) :
    StoodDown (h ++ [event step s (.onMessage m now)]) (s.onMessage m now).1 := by
  obtain ⟨hfatal, hgap⟩ := not_or.mp hok
  intro htold
  rcases (since_concat _ _).mp htold with hdis | ⟨hbefore, hrev⟩
  · exact stoodDown_of_disconnects hfatal hdis
  · obtain ⟨hdown, hlow⟩ := hq hbefore
    rcases state_of_told hdown hlow hgap hrev with hstate | hstate
    · refine ⟨fun hup => hdown ((up_congr hstate).mp hup), fun hsent => ?_⟩
      exact (since_concat _ _).mpr (.inr ⟨hlow (hstate ▸ hsent), id⟩)
    · exact ⟨fun hup => by simp [Up, hstate] at hup, fun hsent => by simp [hstate] at hsent⟩

theorem stoodDown_step (c : Call) (hq : StoodDown h s) (hok : ¬ KeepsActing h (event step s c)) :
    StoodDown (h ++ [event step s c]) (step s c).1 := by
  cases c with
  | beginLogon now =>
    intro htold
    rcases (since_concat _ _).mp htold with hdis | ⟨-, hrev⟩
    · exact hdis.elim
    · exact absurd trivial hrev
  | claimOutboundSeq => exact hq.idle rfl id (by simp)
  | takeReleased => exact hq.idle rfl id (by simp)
  | onMessage m now => exact stoodDown_message hq m now hok
  | onClock now =>
    rcases (onClock_effect s now).2 with ⟨hcore, hdis⟩ | ⟨hcore, -⟩
    · exact hq.idle (congrArg Core.state hcore) (by simp [Disconnects, step, hdis]) (by simp)
    · have hstate : (s.onClock now).1.state = .disconnected := congrArg Core.state hcore
      intro _
      exact ⟨fun hup => by simp [Up, step, hstate] at hup, fun hsent => by simp [step, hstate] at hsent⟩

end Steps

/-! ## A run that takes one of them -/

/-- A session that is logged out, or waits for its logon after a message that was
too low, was told to disconnect. -/
def Ended (h : List Event) (s : Session) : Prop :=
  (s.state = .loggedOut → ToldToDisconnect h) ∧
    (s.state = .logonSent → LowSinceBegin h → ToldToDisconnect h)

section Ended

variable {h : List Event} {s : Session}

theorem Ended.same_state (he : Ended h s) {e : Event} {s' : Session} (hstate : s'.state = s.state)
    (hrev : ¬ Revives e)
    (hlow : s.state = .logonSent → LowSinceBegin (h ++ [e]) → LowSinceBegin h ∨ Disconnects e) :
    Ended (h ++ [e]) s' := by
  refine ⟨fun hout => ?_, fun hsent hsince => ?_⟩
  · exact (since_concat _ _).mpr (.inr ⟨he.1 (hstate ▸ hout), hrev⟩)
  · rw [hstate] at hsent
    rcases hlow hsent hsince with hbefore | hdis
    · exact (since_concat _ _).mpr (.inr ⟨he.2 hsent hbefore, hrev⟩)
    · exact (since_concat _ _).mpr (.inl hdis)

theorem ended_of_up {s' : Session} (hup : s'.Up) : Ended h s' := by
  rcases hup with hs | hs
  · exact ⟨fun hout => by simp [hs] at hout, fun hsent => by simp [hs] at hsent⟩
  · exact ⟨fun hout => by simp [hs] at hout, fun hsent => by simp [hs] at hsent⟩

/-- A release pass leaves the session up or leaves the state alone. -/
theorem settle_up_or_same (t : Session) : t.settle.Up ∨ t.settle.state = t.state := by
  by_cases hr : t.state = .recovering
  · obtain ⟨-, -, -, hstate⟩ := settle_spec t
    left
    have hs := (hstate hr).2
    split at hs
    · exact .inl hs
    · exact .inr hs
  · exact .inr (congrArg Session.state (settle_of_ne hr))

/-- A message in sequence or ahead of it that is no Logon. -/
theorem Ended.settled (he : Ended h s) {m : Inbound} {now : Int64} {t : Session}
    (ht : t.state = s.state) (hadmin : m.admin ≠ .logon) (hseq : s.nextIn ≤ m.seq) :
    Ended (h ++ [event step s (.onMessage m now)]) t.settle := by
  rcases settle_up_or_same t with hup | hsame
  · exact ended_of_up hup
  · refine he.same_state (hsame.trans ht) (fun hrev => hadmin hrev.1) fun _ hsince => ?_
    rcases (since_concat _ _).mp hsince with hlow | ⟨hbefore, -⟩
    · exact absurd hlow.1 (not_lt.mpr hseq)
    · exact .inl hbefore

theorem ended_message (he : Ended h s) (m : Inbound) (now : Int64) :
    Ended (h ++ [event step s (.onMessage m now)]) (s.onMessage m now).1 := by
  cases onMessage_effect s m now with
  | refused _ _ hrefuses hcore _ _ =>
    refine he.same_state (congrArg Core.state hcore) (fun hrev => ?_) fun hsent hsince => ?_
    · refine not_refuses (fun _ => hrev.1) hrev.2.1 (fun ha => ?_) (fun ha => ?_) hrefuses
      · simp [hrev.1] at ha
      · simp [hrev.1] at ha
    · rcases (since_concat _ _).mp hsince with hlow | ⟨hbefore, -⟩
      · exact .inr (onMessage_tooLow now (by simp [hsent]) hlow).1
      · exact .inl hbefore
  | held _ _ _ hcore _ => exact ended_of_up (.inr (congrArg Core.state hcore))
  | skipped t hadmin _ hseq _ hcore hs _ =>
    rw [hs]
    exact he.settled (congrArg Core.state hcore) (by simp [hadmin]) hseq
  | relogon _ _ hup hcore _ => exact ended_of_up ((up_congr (congrArg Core.state hcore)).mpr hup)
  | loggedOn _ _ _ hcore _ => exact ended_of_up (.inl (congrArg Core.state hcore))
  | loggedOut _ _ _ hcore ho =>
    have hstate : (s.onMessage m now).1.state = .loggedOut := congrArg Core.state hcore
    refine ⟨fun _ => ?_, fun hsent => by simp [hstate] at hsent⟩
    exact (since_concat _ _).mpr (.inl (congrArg Outcome.disconnect ho))
  | passed t hadmin hseq _ _ hcore hs _ _ =>
    rw [hs]
    exact he.settled (congrArg Core.state hcore) hadmin.2.1 hseq.ge

theorem ended_step (c : Call) (he : Ended h s) : Ended (h ++ [event step s c]) (step s c).1 := by
  have hbefore : ∀ {e : Event}, LowSinceBegin (h ++ [e]) →
      (match e.input with | .onMessage _ _ => False | _ => True) → LowSinceBegin h := by
    intro e hsince hcall
    rcases (since_concat _ _).mp hsince with hlow | ⟨hbefore, -⟩
    · cases hc : e.input <;> rw [hc] at hlow hcall
      · exact hlow.elim
      · exact hlow.elim
      · exact hcall.elim
      · exact hlow.elim
      · exact hlow.elim
    · exact hbefore
  cases c with
  | beginLogon now =>
    refine ⟨fun hout => by simp [step, beginLogon, claimOutboundSeq] at hout, fun _ hsince => ?_⟩
    rcases (since_concat _ _).mp hsince with hlow | ⟨-, hbegin⟩
    · exact hlow.elim
    · exact absurd trivial hbegin
  | claimOutboundSeq => exact he.same_state rfl id fun _ hsince => .inl (hbefore hsince trivial)
  | takeReleased => exact he.same_state rfl id fun _ hsince => .inl (hbefore hsince trivial)
  | onMessage m now => exact ended_message he m now
  | onClock now =>
    rcases (onClock_effect s now).2 with ⟨hcore, -⟩ | ⟨hcore, -⟩
    · exact he.same_state (congrArg Core.state hcore) id fun _ hsince =>
        .inl (hbefore hsince trivial)
    · have hstate : (s.onClock now).1.state = .disconnected := congrArg Core.state hcore
      exact ⟨fun hout => by simp [step, hstate] at hout, fun hsent => by simp [step, hstate] at hsent⟩

/-- Either way the session is up although it was told to disconnect. -/
theorem up_though_told (he : Ended h s) (c : Call) (hbad : KeepsActing h (event step s c)) :
    (step s c).1.Up ∧ ToldToDisconnect (h ++ [event step s c]) := by
  cases c with
  | beginLogon now => exact hbad.elim
  | claimOutboundSeq => exact hbad.elim
  | onClock now => exact hbad.elim
  | takeReleased => exact hbad.elim
  | onMessage m now =>
    change FatalWhileUp s m ∨ GapAfterEnd h s m at hbad
    rcases hbad with ⟨hup, hlow | ⟨hadmin, hseq⟩⟩ | ⟨hstate, hseq, hadmin, hreset⟩
    · obtain ⟨hdis, hsame⟩ := onMessage_tooLow now hup.ne_disconnected hlow
      exact ⟨(up_congr hsame).mpr hup, (since_concat _ _).mpr (.inl hdis)⟩
    · obtain ⟨hdis, hsame⟩ := onMessage_relogon now hup hadmin hseq
      exact ⟨(up_congr hsame).mpr hup, (since_concat _ _).mpr (.inl hdis)⟩
    · have hopen : s.state ≠ .disconnected := by
        rcases hstate with hs | ⟨hs, -⟩
        · simp [hs]
        · simp [hs]
      have htold : ToldToDisconnect h := by
        rcases hstate with hs | ⟨hs, hlow⟩
        · exact he.1 hs
        · exact he.2 hs hlow
      refine ⟨.inr (onMessage_gap hopen hseq hreset), ?_⟩
      exact (since_concat _ _).mpr (.inr ⟨htold, fun hrev => hadmin hrev.1⟩)

end Ended

/-- **A session told to disconnect stops acting**, in every run in which no fatal
reject meets a session that is up and no gap opens on one that was told to go: until
the next logon it hands nothing over. A call that does one of the two leaves a
session that was told to disconnect and hands over the next message. -/
theorem stops_acting (cfg : Config) (calls : List Call) :
    (EachAfter (fun h e => ¬ KeepsActing h e) (trace step (new cfg) calls) →
      ∀ h e after, trace step (new cfg) calls = h ++ e :: after → HandsOver e →
        ¬ ToldToDisconnect h) ∧
    (∀ c, KeepsActing (trace step (new cfg) calls) (event step (exec step (new cfg) calls) c) →
      ToldToDisconnect (trace step (new cfg) (calls ++ [c])) ∧
      ∀ now, HandsOver (event step (exec step (new cfg) (calls ++ [c]))
        (.onMessage { seq := (exec step (new cfg) (calls ++ [c])).nextIn } now))) := by
  refine ⟨fun hok h e after hrun hhands htold => ?_, fun c hbad => ?_⟩
  · refine event_of_history step (P := fun _ _ => True)
      (I := fun h s => EachAfter (fun h e => ¬ KeepsActing h e) h → StoodDown h s)
      (Q := fun h e => EachAfter (fun h e => ¬ KeepsActing h e) h → HandsOver e →
        ¬ ToldToDisconnect h)
      (fun h s c _ hq hall => ?_) (fun h s c _ hq hall hhands htold => ?_) (new cfg)
      (fun _ htold => absurd htold not_since_nil) calls (fun _ _ => trivial) h after e hrun ?_ hhands
      htold
    · obtain ⟨hbefore, hlast⟩ := (eachAfter_concat _ _).mp hall
      exact stoodDown_step c (hq hbefore) hlast
    · cases c with
      | onMessage m now => exact (hq hall htold).1 (up_of_handsOver hhands)
      | beginLogon now => exact hhands
      | claimOutboundSeq => exact hhands
      | onClock now => exact hhands
      | takeReleased => exact hhands
    · intro before e' after' hsplit
      exact hok before e' (after' ++ e :: after) (by rw [hrun, hsplit]; simp)
  · have hended : Ended (trace step (new cfg) calls) (exec step (new cfg) calls) :=
      history_induction step (P := fun _ _ => True) (fun _ _ c _ he => ended_step c he) _
        ⟨fun hout => by simp [new] at hout, fun hsent => by simp [new] at hsent⟩ calls
        fun _ _ => trivial
    obtain ⟨hup, htold⟩ := up_though_told hended c hbad
    rw [trace_concat, exec_concat]
    exact ⟨htold, fun now => handsOver_next hup now⟩

/-- A logon, a logout, and a message behind it. -/
def lateMessage : List Call :=
  [.beginLogon 0, .onMessage { seq := 1, admin := .logon } 0,
    .onMessage { seq := 2, admin := .logout } 0, .onMessage { seq := 3 } 0]

theorem stops_acting_lateMessage :
    ToldToDisconnect (trace step (new {}) (lateMessage.take 3)) ∧
      ¬ HandsOver (event step (exec step (new {}) (lateMessage.take 3))
        (.onMessage { seq := 3 } 0)) := by
  have hquiet : ∀ e ∈ trace step (new {}) lateMessage, ∀ h, ¬ KeepsActing h e := by
    simp only [lateMessage, trace, List.forall_mem_cons]
    refine ⟨fun _ => id, fun _ => ?_, fun _ => ?_, fun _ => ?_, by simp⟩
    · exact not_or.mpr ⟨by decide, fun hgap => absurd hgap.2.1 (by decide)⟩
    · exact not_or.mpr ⟨by decide, fun hgap => absurd hgap.2.1 (by decide)⟩
    · exact not_or.mpr ⟨by decide, fun hgap => absurd hgap.2.1 (by decide)⟩
  have htold : ToldToDisconnect (trace step (new {}) (lateMessage.take 3)) :=
    ⟨trace step (new {}) (lateMessage.take 2), _, [], rfl, rfl, by simp⟩
  refine ⟨htold, fun hhands => ?_⟩
  exact (stops_acting {} lateMessage).1 (fun h e after hsplit => hquiet e (by simp [hsplit]) h)
    _ _ [] rfl hhands htold

/-- A stale message makes us disconnect, and the one behind it is delivered. -/
theorem acts_after_disconnect :
    ¬ ∀ h e after, trace step (new {})
        [.beginLogon 0, .onMessage { seq := 1, admin := .logon } 0, .onMessage { seq := 2 } 0,
          .onMessage { seq := 1 } 0, .onMessage { seq := 3 } 0] = h ++ e :: after →
      HandsOver e → ¬ ToldToDisconnect h := by
  intro hall
  let early : List Call := [.beginLogon 0, .onMessage { seq := 1, admin := .logon } 0,
    .onMessage { seq := 2 } 0]
  refine hall (trace step (new {}) early ++
    [event step (exec step (new {}) early) (.onMessage { seq := 1 } 0)]) _ [] rfl (.inl rfl) ?_
  exact (since_concat _ _).mpr (.inl rfl)

end Lloms.Session
