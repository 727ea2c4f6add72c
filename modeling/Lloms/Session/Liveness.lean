import Lloms.Session.Effect

/-! The two-step liveness check. Silence past the interval asks a question, and
silence past that declares the peer dead. `Heard` and `Ticks` say what a message
and a tick do to the two variables of the check, the time of the last message and
the outstanding question. -/
namespace Lloms.Session
open Lib

/-! ## The two variables -/

/-- What the liveness check looks at. -/
structure Watch where
  lastInboundMs : Int64
  testRequestOutstanding : Bool
  heartbeatMs : UInt32

def watch (s : Session) : Watch := ⟨s.lastInboundMs, s.testRequestOutstanding, s.heartbeatMs⟩

/-- The states in which silence is watched. -/
def Watched (s : Session) : Prop :=
  s.state = .active ∨ s.state = .recovering ∨ s.state = .logonSent

instance (s : Session) : Decidable s.Watched := inferInstanceAs (Decidable (_ ∨ _ ∨ _))

theorem watched_congr {s t : Session} (h : t.state = s.state) : t.Watched ↔ s.Watched := by
  unfold Watched
  rw [h]

theorem releaseNext_watch (s : Session) (m : Inbound) : (s.releaseNext m).watch = s.watch := by
  unfold releaseNext
  split_ifs <;> rfl

theorem releaseLoop_watch (fuel : Nat) (s : Session) : (releaseLoop fuel s).watch = s.watch := by
  induction fuel generalizing s with
  | zero => rfl
  | succ fuel ih =>
    rw [releaseLoop]
    cases s.queued.find? (fun q => q.seq = s.nextIn) with
    | none => rfl
    | some m => exact (ih _).trans (releaseNext_watch s m)

theorem settle_watch (s : Session) : s.settle.watch = s.watch := by
  have hloop := releaseLoop_watch s.queued.length s
  unfold settle
  split_ifs with hr
  · unfold releaseQueue
    dsimp only
    split_ifs with hq
    · exact hloop
    · exact hloop
  · rfl

/-- A message that is taken in sequence answers the question, whatever it is. -/
theorem acceptInSequence_watch (s : Session) (m : Inbound) (now : Int64) :
    (s.acceptInSequence m now).1.watch = ⟨now, false, s.heartbeatMs⟩ := by
  cases ha : m.admin with
  | sequenceReset =>
    simp only [acceptInSequence, ha]
    by_cases hback : m.newSeq ≤ s.nextIn
    · rw [if_pos hback]
      rfl
    · rw [if_neg hback]
      exact settle_watch _
  | logon =>
    simp only [acceptInSequence, ha]
    split_ifs with hup
    · rfl
    · exact settle_watch _
  | none =>
    simp only [acceptInSequence, ha]
    split_ifs with hdown
    · rfl
    · exact settle_watch _
  | testRequest | resendRequest | logout | heartbeat =>
    simp only [acceptInSequence, ha]
    exact settle_watch _

/-- What a message does to the check. A stale one moves the time on and leaves the
question standing. -/
inductive Heard (s : Session) (m : Inbound) (now : Int64) (s' : Session) (o : Outcome) : Prop
  | ignored (hwatch : s'.watch = s.watch) (hstate : s'.state = s.state) (hreject : o.reject ≠ .none)
  | stale (hlow : m.seq < s.nextIn)
      (hwatch : s'.watch = ⟨now, s.testRequestOutstanding, s.heartbeatMs⟩)
      (hstate : s'.state = s.state) (hreject : o.reject = .none ↔ m.possDup = true)
  | answered (hwatch : s'.watch = ⟨now, false, s.heartbeatMs⟩)

theorem onMessage_heard (s : Session) (m : Inbound) (now : Int64) :
    Heard s m now (s.onMessage m now).1 (s.onMessage m now).2 := by
  unfold onMessage
  split
  · exact .ignored rfl rfl (by simp)
  split
  · exact .ignored rfl rfl (by simp)
  split
  · rename_i hlow
    split
    · rename_i hdup
      exact .stale hlow rfl rfl (by simp [hdup])
    · rename_i hdup
      exact .stale hlow rfl rfl (by simpa using hdup)
  split
  · split
    · exact .answered (acceptInSequence_watch s m now)
    · by_cases hr : s.state = .recovering
      · simp only [hr, ne_eq, not_true_eq_false, if_false]
        exact .answered rfl
      · simp only [hr, ne_eq, not_false_eq_true, if_true]
        exact .answered rfl
  · exact .answered (acceptInSequence_watch s m now)

/-- A duplicate that is dropped quietly leaves the session as it was, but for the
time of the last message. -/
theorem onMessage_duplicate {s : Session} {m : Inbound} (now : Int64)
    (hstate : s.state ≠ .disconnected) (hlow : m.seq < s.nextIn) (hdup : m.possDup = true) :
    (s.onMessage m now).1.watch = ⟨now, s.testRequestOutstanding, s.heartbeatMs⟩ ∧
      (s.onMessage m now).1.state = s.state ∧ (s.onMessage m now).2.reject = .none := by
  unfold onMessage
  rw [if_neg (fun h => hstate h.1), if_neg (fun h => by simp [hdup] at h), if_pos hlow]
  dsimp only
  rw [if_pos hdup]
  exact ⟨rfl, rfl, rfl⟩

theorem heartbeat_lt (s : Session) : s.heartbeatMs.toNat < 2 ^ 63 := by
  have := s.heartbeatMs.toNat_lt
  omega

/-- What a tick does: nothing, ask, or declare the peer dead. -/
inductive Ticks (s : Session) (now : Int64) (s' : Session) (o : Outcome) : Prop
  | quiet (hs : s' = s) (ho : o = {})
  | asks (hwatch : s'.watch = ⟨now, true, s.heartbeatMs⟩) (ho : o = { sendHeartbeat := true })
  | dies (hwatched : s.Watched) (hasked : s.testRequestOutstanding = true)
      (hsilent : ¬ now - s.lastInboundMs < Int64.ofNat s.heartbeatMs.toNat)
      (hs : s' = { s with state := .disconnected }) (ho : o = { disconnect := true })

theorem onClock_ticks (s : Session) (now : Int64) :
    Ticks s now (s.onClock now).1 (s.onClock now).2 := by
  unfold onClock
  dsimp only
  split_ifs with hstate hsilent hasked
  · exact .quiet rfl rfl
  · exact .quiet rfl rfl
  · exact .asks rfl rfl
  · refine .dies ?_ (by simpa using hasked) hsilent rfl rfl
    unfold Watched
    tauto

/-! ## Runs -/

def Call.nowMs : Call → Option Int64
  | .beginLogon now | .onMessage _ now | .onClock now => some now
  | .claimOutboundSeq | .takeReleased => none

/-- The times at which calls were made. -/
def times (calls : List Call) : List Int64 := calls.filterMap Call.nowMs

/-- The tick at `t₀` asks the peer for a sign of life. -/
def Asks (t₀ : Int64) (e : Event) : Prop :=
  match e.input, e.output with
  | .onClock now, .outcome o => now = t₀ ∧ o.sendHeartbeat = true
  | _, _ => False

/-- What settles the question: a new logon, or a message that is not rejected. -/
def Answers (e : Event) : Prop :=
  match e.input, e.output with
  | .beginLogon _, _ => True
  | .onMessage _ _, .outcome o => o.reject = .none
  | _, _ => False

/-- The tick at `t` declares the peer dead. -/
def Dies (t : Int64) (e : Event) : Prop :=
  match e.input, e.output with
  | .onClock now, .outcome o => now = t ∧ o.disconnect = true
  | _, _ => False

/-- An interval or more before `t` the peer was asked, and nothing has settled the
question since. -/
def AskedBefore (interval : Nat) (t : Int64) (h : List Event) : Prop :=
  ∃ t₀ : Int64, Since (Asks t₀) Answers h ∧ interval ≤ t.toInt - t₀.toInt

/-- A possible duplicate, dropped while the peer is being asked: the way out of
`onMessage` that moves the time on and leaves the question standing. -/
def DuplicateWhileAsked (s : Session) : Call → Prop
  | .onMessage m _ => s.Watched ∧ s.testRequestOutstanding = true ∧ m.seq < s.nextIn ∧
      m.possDup = true
  | _ => False

instance (s : Session) : (c : Call) → Decidable (DuplicateWhileAsked s c)
  | .onMessage _ _ => inferInstanceAs (Decidable (_ ∧ _ ∧ _ ∧ _))
  | .beginLogon _ | .claimOutboundSeq | .onClock _ | .takeReleased => .isFalse id

/-- An outstanding question was asked by a tick, at the time of the last message
or before it, and nothing has settled it since. -/
def Questioned (h : List Event) (s : Session) : Prop :=
  (times (h.map Event.input)).Pairwise (· ≤ ·) → s.Watched → s.testRequestOutstanding = true →
    ∃ t₀, Since (Asks t₀) Answers h ∧ t₀ ≤ s.lastInboundMs ∧
      s.lastInboundMs ∈ times (h.map Event.input)

theorem times_concat (h : List Event) (s : Session) (c : Call) :
    times ((h ++ [event step s c]).map Event.input) =
      times (h.map Event.input) ++ c.nowMs.toList := by
  cases hc : c.nowMs <;> simp [times, hc]

section Steps

variable {h : List Event} {s : Session}

/-- A call that keeps the two variables and the state, and settles nothing. -/
theorem Questioned.idle (hq : Questioned h s) {c : Call} {s' : Session}
    (hwatch : s'.watch = s.watch) (hstate : s'.state = s.state)
    (hsilent : ¬ Answers (event step s c)) : Questioned (h ++ [event step s c]) s' := by
  have hlast : s'.lastInboundMs = s.lastInboundMs := congrArg Watch.lastInboundMs hwatch
  intro hsorted hw hout
  rw [times_concat] at hsorted ⊢
  obtain ⟨t₀, hsince, hle, hmem⟩ := hq (List.pairwise_append.mp hsorted).1
    ((watched_congr hstate).mp hw) ((congrArg Watch.testRequestOutstanding hwatch).symm.trans hout)
  rw [hlast]
  exact ⟨t₀, (since_concat _ _).mpr (.inr ⟨hsince, hsilent⟩), hle, List.mem_append_left _ hmem⟩

theorem questioned_message (hq : Questioned h s) (m : Inbound) (now : Int64)
    (hok : ¬ DuplicateWhileAsked s (.onMessage m now)) :
    Questioned (h ++ [event step s (.onMessage m now)]) (s.onMessage m now).1 := by
  cases onMessage_heard s m now with
  | ignored hwatch hstate hreject => exact hq.idle hwatch hstate hreject
  | answered hwatch =>
    intro _ _ hout
    have hno : (s.onMessage m now).1.testRequestOutstanding = false :=
      congrArg Watch.testRequestOutstanding hwatch
    rw [hno] at hout
    cases hout
  | stale hlow hwatch hstate hreject =>
    intro hsorted hw hout
    have hw' : s.Watched := (watched_congr hstate).mp hw
    have hout' : s.testRequestOutstanding = true :=
      (congrArg Watch.testRequestOutstanding hwatch).symm.trans hout
    have hlast : (s.onMessage m now).1.lastInboundMs = now := congrArg Watch.lastInboundMs hwatch
    rw [times_concat] at hsorted ⊢
    obtain ⟨hbefore, -, hafter⟩ := List.pairwise_append.mp hsorted
    obtain ⟨t₀, hsince, hle, hmem⟩ := hq hbefore hw' hout'
    have hsilent : ¬ Answers (event step s (.onMessage m now)) := fun hnone =>
      hok ⟨hw', hout', hlow, hreject.mp hnone⟩
    have hnow : now ∈ (Call.onMessage m now).nowMs.toList := by simp [Call.nowMs]
    refine ⟨t₀, (since_concat _ _).mpr (.inr ⟨hsince, hsilent⟩), ?_, ?_⟩
    · rw [hlast]
      exact hle.trans (hafter _ hmem _ hnow)
    · rw [hlast]
      exact List.mem_append_right _ hnow

theorem questioned_clock (hq : Questioned h s) (now : Int64) :
    Questioned (h ++ [event step s (.onClock now)]) (s.onClock now).1 := by
  cases onClock_ticks s now with
  | quiet hs ho => exact hq.idle (congrArg watch hs) (congrArg Session.state hs) id
  | asks hwatch ho =>
    have hlast : (s.onClock now).1.lastInboundMs = now := congrArg Watch.lastInboundMs hwatch
    intro _ _ _
    rw [times_concat, hlast]
    refine ⟨now, (since_concat _ _).mpr (.inl ?_), le_rfl, ?_⟩
    · exact ⟨rfl, congrArg Outcome.sendHeartbeat ho⟩
    · exact List.mem_append_right _ (by simp [Call.nowMs])
  | dies hwatched hasked hsilent hs ho =>
    intro _ hw
    rw [hs] at hw
    simp [Watched] at hw

theorem questioned_step (c : Call) (hok : ¬ DuplicateWhileAsked s c) (hq : Questioned h s) :
    Questioned (h ++ [event step s c]) (step s c).1 := by
  cases c with
  | beginLogon now =>
    intro _ _ hout
    cases hout
  | claimOutboundSeq => exact hq.idle rfl rfl id
  | takeReleased => exact hq.idle rfl rfl id
  | onMessage m now => exact questioned_message hq m now hok
  | onClock now => exact questioned_clock hq now

/-- A tick that declares the peer dead comes an interval after the question. -/
theorem Questioned.asked_of_dies (hq : Questioned h s) (c : Call) {t : Int64}
    (hsorted : (times ((h ++ [event step s c]).map Event.input)).Pairwise (· ≤ ·))
    (hdies : Dies t (event step s c)) : AskedBefore s.heartbeatMs.toNat t h := by
  cases c with
  | beginLogon now => exact hdies.elim
  | claimOutboundSeq => exact hdies.elim
  | takeReleased => exact hdies.elim
  | onMessage m now => exact hdies.elim
  | onClock now =>
    obtain ⟨rfl, hdis⟩ := hdies
    cases onClock_ticks s now with
    | quiet hs ho =>
      rw [ho] at hdis
      cases hdis
    | asks hwatch ho =>
      rw [ho] at hdis
      cases hdis
    | dies hwatched hasked hsilent hs ho =>
      rw [times_concat] at hsorted
      obtain ⟨hbefore, -, hafter⟩ := List.pairwise_append.mp hsorted
      obtain ⟨t₀, hsince, hle, hmem⟩ := hq hbefore hwatched hasked
      have hnow : s.lastInboundMs ≤ now := hafter _ hmem now (by simp [Call.nowMs])
      obtain ⟨hgone, -⟩ := (not_sub_lt_ofNat s.heartbeat_lt hnow).mp hsilent
      rw [Int64.le_iff_toInt_le] at hle
      exact ⟨t₀, hsince, by omega⟩

end Steps

theorem step_heartbeat (s : Session) (c : Call) : (step s c).1.heartbeatMs = s.heartbeatMs := by
  cases c with
  | beginLogon now => rfl
  | claimOutboundSeq => rfl
  | takeReleased => rfl
  | onMessage m now =>
    cases onMessage_heard s m now with
    | ignored hwatch _ _ => exact congrArg Watch.heartbeatMs hwatch
    | stale _ hwatch _ _ => exact congrArg Watch.heartbeatMs hwatch
    | answered hwatch => exact congrArg Watch.heartbeatMs hwatch
  | onClock now =>
    cases onClock_ticks s now with
    | quiet hs _ => exact congrArg Session.heartbeatMs hs
    | asks hwatch _ => exact congrArg Watch.heartbeatMs hwatch
    | dies _ _ _ hs _ =>
      change (s.onClock now).1.heartbeatMs = s.heartbeatMs
      rw [hs]

/-- Once a duplicate was dropped while the peer was being asked, the next interval
of silence kills without a new question. -/
theorem dies_unasked {s : Session} {m : Inbound} {t₁ t : Int64} (h : List Event)
    (hbad : DuplicateWhileAsked s (.onMessage m t₁)) (hgone : s.heartbeatMs.toNat ≤ t.toInt - t₁.toInt)
    (hfits : t.toInt - t₁.toInt < 9223372036854775808) (interval : Nat) :
    Dies t (event step (s.onMessage m t₁).1 (.onClock t)) ∧
      ¬ AskedBefore interval t (h ++ [event step s (.onMessage m t₁)]) := by
  obtain ⟨hw, hasked, hlow, hdup⟩ := hbad
  have hup : s.state ≠ .disconnected := by
    intro hs
    simp [Watched, hs] at hw
  obtain ⟨hwatch, hstate, hreject⟩ := onMessage_duplicate t₁ hup hlow hdup
  refine ⟨?_, ?_⟩
  · generalize (s.onMessage m t₁).1 = s' at hwatch hstate ⊢
    have hlast : s'.lastInboundMs = t₁ := congrArg Watch.lastInboundMs hwatch
    have hflag : s'.testRequestOutstanding = s.testRequestOutstanding :=
      congrArg Watch.testRequestOutstanding hwatch
    have hbeat : s'.heartbeatMs = s.heartbeatMs := congrArg Watch.heartbeatMs hwatch
    have hle : t₁ ≤ t := by
      rw [Int64.le_iff_toInt_le]
      omega
    have hsilent := (not_sub_lt_ofNat s.heartbeat_lt hle).mpr ⟨hgone, hfits⟩
    refine ⟨rfl, ?_⟩
    unfold onClock
    rw [if_neg (by rw [hstate]; unfold Watched at hw; tauto)]
    dsimp only
    rw [hlast, hbeat, if_neg hsilent, hflag, hasked, if_neg (by simp)]
  · rintro ⟨t₀, hsince, -⟩
    rcases (since_concat _ _).mp hsince with hasks | ⟨-, hsilent⟩
    · exact hasks
    · exact hsilent hreject

/-- **Liveness is a two-step.** In a run whose clock does not go back and that drops
no duplicate while the peer is being asked, whoever is declared dead was asked an
interval before, and no logon began and no message was accepted in between. A
duplicate that is dropped meanwhile breaks this at the next interval of silence. -/
theorem asked_before_death (cfg : Config) (calls : List Call)
    (hsorted : (times calls).Pairwise (· ≤ ·)) :
    let interval := (new cfg).heartbeatMs.toNat
    ((∀ e ∈ trace step (new cfg) calls, ¬ DuplicateWhileAsked e.pre e.input) →
      ∀ h e after t, trace step (new cfg) calls = h ++ e :: after → Dies t e →
        AskedBefore interval t h) ∧
    (∀ m t₁ t, DuplicateWhileAsked (exec step (new cfg) calls) (.onMessage m t₁) →
      interval ≤ t.toInt - t₁.toInt → t.toInt - t₁.toInt < 2 ^ 63 →
        Dies t (event step (exec step (new cfg) (calls ++ [.onMessage m t₁])) (.onClock t)) ∧
        ¬ AskedBefore interval t (trace step (new cfg) (calls ++ [.onMessage m t₁]))) := by
  intro interval
  have hbeat : (exec step (new cfg) calls).heartbeatMs = (new cfg).heartbeatMs :=
    exec_induction step (I := fun s => s.heartbeatMs = (new cfg).heartbeatMs)
      (fun s c hs => (step_heartbeat s c).trans hs) _ rfl calls
  refine ⟨fun hok h e after t hrun hdies => ?_, fun m t₁ t hbad hgone hfits => ?_⟩
  · have hprefix : (times ((h ++ [e]).map Event.input)).Pairwise (· ≤ ·) := by
      rw [← trace_inputs step (new cfg) calls, hrun, List.append_cons, List.map_append, times,
        List.filterMap_append] at hsorted
      exact (List.pairwise_append.mp hsorted).1
    refine event_of_history step (P := fun s c => ¬ DuplicateWhileAsked s c)
      (I := fun h s => s.heartbeatMs = (new cfg).heartbeatMs ∧ Questioned h s)
      (Q := fun h e => (times ((h ++ [e]).map Event.input)).Pairwise (· ≤ ·) → Dies t e →
        AskedBefore interval t h)
      (fun h s c hok hI => ⟨(step_heartbeat s c).trans hI.1, questioned_step c hok hI.2⟩)
      (fun h s c _ hI hprefix hdies => ?_) (new cfg) ⟨rfl, ?_⟩ calls hok h after e hrun hprefix hdies
    · have hasked := hI.2.asked_of_dies c hprefix hdies
      rwa [hI.1] at hasked
    · intro _ _ hout
      cases hout
  · rw [exec_concat, trace_concat]
    exact dies_unasked _ hbad (by rwa [hbeat]) hfits interval

/-- A logon, an interval of silence, the question, and another interval of silence. -/
def silentPeer : List Call :=
  [.beginLogon 0, .onMessage { seq := 1, admin := .logon } 0, .onClock 1000, .onClock 2000]

theorem asked_before_death_silentPeer :
    AskedBefore 1000 2000 (trace step (new { heartbeatMs := 1000 }) (silentPeer.take 3)) :=
  (asked_before_death { heartbeatMs := 1000 } silentPeer (by decide)).1 (by decide) _ _ [] 2000 rfl
    ⟨rfl, rfl⟩

/-- The same, but the peer replays an old message before the second interval of
silence. -/
def replayedAnswer : List Call :=
  [.beginLogon 0, .onMessage { seq := 1, admin := .logon } 0, .onClock 1000,
    .onMessage { seq := 1, possDup := true } 1500, .onClock 2500]

theorem replayed_answer_ignored :
    ¬ ∀ h e after t, trace step (new { heartbeatMs := 1000 }) replayedAnswer = h ++ e :: after →
      Dies t e → AskedBefore 1000 t h := by
  intro hall
  have hbad : DuplicateWhileAsked (exec step (new { heartbeatMs := 1000 }) (replayedAnswer.take 3))
      (.onMessage { seq := 1, possDup := true } 1500) := by decide
  obtain ⟨hdies, hunasked⟩ := dies_unasked (t := 2500)
    (trace step (new { heartbeatMs := 1000 }) (replayedAnswer.take 3)) hbad (by decide) (by decide) 1000
  exact hunasked (hall _ _ [] 2500 rfl hdies)

end Lloms.Session
