import Lloms.Session.Convergence

/-! Administrative messages behind a hole. What `acceptInSequence` does with a test
request, a resend request or a Logout, `releaseQueue` does not: it only moves the
counter on. So the caller is asked for the same things as in order exactly when
each of them arrives in its place. -/
namespace Lloms.Session
open Lib

/-- What the caller is asked to do, resend requests of our own apart. -/
inductive Action where
  | heartbeat
  | resend (replayFrom replayTo : UInt64)
  | disconnect
  deriving DecidableEq, Repr

def Outcome.actions (o : Outcome) : List Action :=
  (if o.sendHeartbeat then [.heartbeat] else []) ++
    (if o.sendResend then [.resend o.replayFrom o.replayTo] else []) ++
    (if o.disconnect then [.disconnect] else [])

def actions (h : List Event) : List Action :=
  h.flatMap fun e => match e.output with
    | .outcome o => o.actions
    | _ => []

/-- Messages given to `onMessage` one after the other, each with the time. -/
def feed (arrivals : List (Inbound × Int64)) : List Call :=
  arrivals.map fun a => .onMessage a.1 a.2

/-- Application messages, heartbeats, test requests and resend requests, and at the
end possibly a Logout. -/
def Allowed : List Inbound → Prop
  | [] => True
  | m :: ms => (m.admin = .none ∨ m.admin = .heartbeat ∨ m.admin = .testRequest ∨
      m.admin = .resendRequest ∨ (m.admin = .logout ∧ ms = [])) ∧ Allowed ms

/-- The kinds of message that ask something of the caller. -/
def Acts (m : Inbound) : Prop :=
  m.admin = .testRequest ∨ m.admin = .resendRequest ∨ m.admin = .logout

instance (m : Inbound) : Decidable (Acts m) := inferInstanceAs (Decidable (_ ∨ _ ∨ _))

/-- No message that asks something of the caller arrives before one with a lower
number. -/
def InPlace (arrivals : List Inbound) : Prop :=
  arrivals.Pairwise fun m q => Acts m → m.seq < q.seq

/-- What a message asks of the caller when it is accepted in sequence. -/
def requestedBy (nextOut : UInt64) (m : Inbound) : List Action :=
  match m.admin with
  | .testRequest => [.heartbeat]
  | .resendRequest =>
    [.resend m.resendFrom (if m.resendTo = 0 then nextOut - 1 else m.resendTo)]
  | .logout => [.disconnect]
  | _ => []

/-- What the messages that arrive in their place ask of the caller. -/
def requested (nextOut : UInt64) : List Inbound → List Action
  | [] => []
  | m :: rest => (if ∀ q ∈ rest, m.seq < q.seq then requestedBy nextOut m else []) ++
      requested nextOut rest

/-- The state after a block: a Logout counts only when it is the last to arrive. -/
def endState (arrivals : List Inbound) : State :=
  if ∃ m ∈ arrivals.getLast?, m.admin = .logout then .loggedOut else .active

/-- Two orders of arrival end alike and ask the same of the caller. -/
def SameEffect (s : Session) (arrivals ordered : List (Inbound × Int64)) : Prop :=
  (exec step s (feed arrivals)).state = (exec step s (feed ordered)).state ∧
    (exec step s (feed arrivals)).nextIn = (exec step s (feed ordered)).nextIn ∧
    (actions (trace step s (feed arrivals))).Perm (actions (trace step s (feed ordered)))

/-! ## One message -/

theorem onMessage_next {s : Session} {m : Inbound} (now : Int64) (hup : s.Up)
    (hm : m.seq = s.nextIn) : s.onMessage m now = s.acceptInSequence m now := by
  have hopen : ¬ (s.state = .disconnected ∧ m.admin ≠ .logon) := fun h => hup.ne_disconnected h.1
  rw [onMessage, if_neg hopen, if_neg (by simp [hm]), if_neg (by simp [hm]), if_neg (by simp [hm])]

/-- A message accepted in sequence asks for what its kind asks for. -/
theorem onMessage_actions {s : Session} {m : Inbound} (now : Int64) (hup : s.Up)
    (hm : m.seq = s.nextIn) (hadmin : m.admin ≠ .sequenceReset ∧ m.admin ≠ .logon) :
    (s.onMessage m now).2.actions = requestedBy s.nextOut m := by
  have hup' : ¬ (s.state ≠ .active ∧ s.state ≠ .recovering) := by
    unfold Up at hup
    tauto
  rw [onMessage_next now hup hm]
  cases ha : m.admin with
  | sequenceReset => exact absurd ha hadmin.1
  | logon => exact absurd ha hadmin.2
  | none => simp [acceptInSequence, ha, hup', Outcome.actions, requestedBy]
  | testRequest | resendRequest | logout | heartbeat =>
    simp [acceptInSequence, ha, Outcome.actions, requestedBy, tally]

theorem releaseLoop_nextOut (fuel : Nat) (s : Session) :
    (releaseLoop fuel s).nextOut = s.nextOut := by
  induction fuel generalizing s with
  | zero => rfl
  | succ fuel ih =>
    rw [releaseLoop]
    cases s.queued.find? (fun q => q.seq = s.nextIn) with
    | none => rfl
    | some m =>
      refine (ih _).trans ?_
      unfold releaseNext
      split_ifs <;> rfl

theorem settle_nextOut (s : Session) : s.settle.nextOut = s.nextOut := by
  unfold settle releaseQueue
  dsimp only
  split_ifs
  · exact releaseLoop_nextOut _ s
  · exact releaseLoop_nextOut _ s
  · rfl

theorem acceptInSequence_nextOut (s : Session) (m : Inbound) (now : Int64) :
    (s.acceptInSequence m now).1.nextOut = s.nextOut := by
  unfold acceptInSequence
  cases m.admin with
  | sequenceReset =>
    dsimp only
    split
    · rfl
    · exact settle_nextOut _
  | logon | none =>
    dsimp only
    split
    · rfl
    · exact settle_nextOut _
  | testRequest | resendRequest | logout | heartbeat => exact settle_nextOut _

theorem onMessage_nextOut (s : Session) (m : Inbound) (now : Int64) :
    (s.onMessage m now).1.nextOut = s.nextOut := by
  unfold onMessage
  dsimp only
  split_ifs
  all_goals first | rfl | exact acceptInSequence_nextOut s m now

/-! ## A block -/

theorem Allowed.admin {ms : List Inbound} (h : Allowed ms) {m : Inbound} (hm : m ∈ ms) :
    m.admin ≠ .sequenceReset ∧ m.admin ≠ .logon := by
  induction ms with
  | nil => cases hm
  | cons q ms ih =>
    obtain ⟨hq, hms⟩ := h
    rcases List.mem_cons.mp hm with rfl | hm
    · rcases hq with hq | hq | hq | hq | ⟨hq, -⟩
      all_goals
        rw [hq]
        exact ⟨Admin.noConfusion, Admin.noConfusion⟩
    · exact ih hms hm

theorem Allowed.suffix {ms ms' : List Inbound} (h : Allowed (ms ++ ms')) : Allowed ms' := by
  induction ms with
  | nil => exact h
  | cons m ms ih => exact ih h.2

theorem endState_cons {m : Inbound} {rest : List Inbound} (h : rest ≠ [] ∨ m.admin ≠ .logout) :
    endState (m :: rest) = endState rest := by
  cases rest with
  | nil =>
    rcases h with h | h
    · exact absurd rfl h
    · simp [endState, h]
  | cons q rest => rw [endState, List.getLast?_cons_cons, endState]

section Feeding

variable {s : Session} {m : Inbound} {rest todo : List Inbound} {b : UInt64}
  (h : Pending s (m :: rest) todo b) (hallowed : Allowed todo) (now : Int64)
include h hallowed

/-- A Logout that is next ends the block and the session. -/
theorem Pending.logout (hm : m.seq = s.nextIn) (hadmin : m.admin = .logout) :
    rest = [] ∧ (s.onMessage m now).1.nextIn = b ∧ (s.onMessage m now).1.state = .loggedOut := by
  obtain ⟨q, todo', rfl, -, hsame⟩ := h.cases_todo
  obtain rfl := hsame hm
  have hlast : todo' = [] := by
    rcases hallowed.1 with hq | hq | hq | hq | ⟨-, hnil⟩
    · rw [hadmin] at hq; cases hq
    · rw [hadmin] at hq; cases hq
    · rw [hadmin] at hq; cases hq
    · rw [hadmin] at hq; cases hq
    · exact hnil
  subst hlast
  have hlen := h.left.length_eq
  simp only [List.length_append, List.length_cons, List.length_nil] at hlen
  have hb : b = s.nextIn + 1 := by simpa using h.block.run.end_eq
  refine ⟨List.length_eq_zero_iff.mp (by omega), ?_⟩
  cases onMessage_effect s m now with
  | refused d r hwhy => exact absurd hwhy (h.not_refused (by simp [hadmin]))
  | held _ hlt => exact absurd hm hlt.ne'
  | skipped _ hreset => rw [hadmin] at hreset; cases hreset
  | relogon hlogon | loggedOn hlogon => rw [hadmin] at hlogon; cases hlogon
  | passed _ hother => exact absurd hadmin hother.2.2
  | loggedOut _ _ _ hcore =>
    rw [hb]
    exact ⟨congrArg Core.nextIn hcore, congrArg Core.state hcore⟩

end Feeding

/-- What feeding a block does, in terms of the order of arrival alone. -/
theorem Pending.feed {s : Session} {as : List (Inbound × Int64)} {todo : List Inbound} {b : UInt64}
    (h : Pending s (as.map Prod.fst) todo b) (hallowed : Allowed todo) :
    (exec step s (feed as)).nextIn = b ∧
      (exec step s (feed as)).state = endState (as.map Prod.fst) ∧
      actions (trace step s (feed as)) = requested s.nextOut (as.map Prod.fst) := by
  induction as generalizing s todo with
  | nil =>
    obtain rfl := h.done
    have hnil : s.queued = [] := by simpa using h.left.eq_nil
    have hnext : s.nextIn = b := by simpa using h.block.run.end_eq.symm
    exact ⟨hnext, h.state.trans (if_pos hnil), rfl⟩
  | cons a as ih =>
    obtain ⟨m, now⟩ := a
    change Pending s (m :: as.map Prod.fst) todo b at h
    change (exec step (s.onMessage m now).1 (Session.feed as)).nextIn = b ∧
      (exec step (s.onMessage m now).1 (Session.feed as)).state = endState (m :: as.map Prod.fst) ∧
      (s.onMessage m now).2.actions ++ actions (trace step (s.onMessage m now).1 (Session.feed as)) =
        (if ∀ q ∈ as.map Prod.fst, m.seq < q.seq then requestedBy s.nextOut m else []) ++
          requested s.nextOut (as.map Prod.fst)
    have hadmin := hallowed.admin (h.left.subset (by simp : m ∈ s.queued ++ m :: as.map Prod.fst))
    by_cases hm : m.seq = s.nextIn
    · rw [onMessage_actions now h.up hm hadmin, if_pos (h.next_iff.mp hm)]
      by_cases hlogout : m.admin = .logout
      · obtain ⟨hrest, hnext, hstate⟩ := h.logout hallowed now hm hlogout
        obtain rfl := List.map_eq_nil_iff.mp hrest
        exact ⟨hnext, hstate.trans (by simp [endState, hlogout]), rfl⟩
      · obtain ⟨ms, todo', rfl, hpend, -⟩ := h.pass now ⟨hadmin.1, hadmin.2, hlogout⟩ hm
        obtain ⟨h1, h2, h3⟩ := ih hpend hallowed.suffix
        rw [endState_cons (.inr hlogout), h3, onMessage_nextOut]
        exact ⟨h1, h2, rfl⟩
    · obtain ⟨hpend, -, -, hhb, hresend, hdisc, -⟩ := h.hold now hadmin.1 hm
      obtain ⟨h1, h2, h3⟩ := ih hpend hallowed
      have hlate : ¬ ∀ q ∈ as.map Prod.fst, m.seq < q.seq := fun hall => hm (h.next_iff.mpr hall)
      have hne : as.map Prod.fst ≠ [] := fun hnil => hlate (by simp [hnil])
      rw [endState_cons (.inl hne), h3, onMessage_nextOut, if_neg hlate]
      exact ⟨h1, h2, by simp [Outcome.actions, hhb, hresend, hdisc]⟩

/-! ## Comparing two orders -/

theorem length_requestedBy (nextOut : UInt64) (m : Inbound) :
    (requestedBy nextOut m).length = if Acts m then 1 else 0 := by
  cases ha : m.admin <;> simp [requestedBy, Acts, ha]

theorem requestedBy_of_not_acts {nextOut : UInt64} {m : Inbound} (h : ¬ Acts m) :
    requestedBy nextOut m = [] := by
  apply List.length_eq_zero_iff.mp
  rw [length_requestedBy, if_neg h]

theorem requested_of_inPlace (nextOut : UInt64) {ms : List Inbound} (h : InPlace ms) :
    requested nextOut ms = ms.flatMap (requestedBy nextOut) := by
  induction ms with
  | nil => rfl
  | cons m ms ih =>
    obtain ⟨hm, hms⟩ := List.pairwise_cons.mp h
    rw [requested, ih hms, List.flatMap_cons]
    by_cases ha : Acts m
    · rw [if_pos fun q hq => hm q hq ha]
    · rw [requestedBy_of_not_acts ha, ite_self]

theorem length_requested_le (nextOut : UInt64) (ms : List Inbound) :
    (requested nextOut ms).length ≤ (ms.flatMap (requestedBy nextOut)).length := by
  induction ms with
  | nil => exact Nat.le_refl _
  | cons m ms ih =>
    rw [requested, List.flatMap_cons, List.length_append, List.length_append]
    split_ifs
    · omega
    · rw [List.length_nil]
      omega

/-- A request that does not arrive in its place is missing in the count. -/
theorem inPlace_of_length (nextOut : UInt64) {ms : List Inbound}
    (h : (ms.flatMap (requestedBy nextOut)).length ≤ (requested nextOut ms).length) :
    InPlace ms := by
  induction ms with
  | nil => exact List.Pairwise.nil
  | cons m ms ih =>
    have hle := length_requested_le nextOut ms
    rw [requested, List.flatMap_cons, List.length_append, List.length_append,
      length_requestedBy] at h
    by_cases hall : ∀ q ∈ ms, m.seq < q.seq
    · rw [if_pos hall, length_requestedBy] at h
      exact List.pairwise_cons.mpr ⟨fun q hq _ => hall q hq, ih (by omega)⟩
    · rw [if_neg hall, List.length_nil] at h
      by_cases ha : Acts m
      · rw [if_pos ha] at h
        omega
      · exact List.pairwise_cons.mpr ⟨fun q _ hacts => absurd hacts ha, ih (by omega)⟩

theorem Block.sorted {a b : UInt64} {ms : List Inbound} (h : Block a ms b) :
    ms.Pairwise fun m q => m.seq < q.seq := by
  induction ms generalizing a with
  | nil => exact List.Pairwise.nil
  | cons m ms ih =>
    exact List.pairwise_cons.mpr ⟨fun q hq => h.lt_of_mem_tail hq, ih h.tail.2⟩

/-- The Logout of a block has its highest number. -/
theorem Block.le_logout {a b : UInt64} {ms : List Inbound} (h : Block a ms b) (hallowed : Allowed ms)
    {m q : Inbound} (hm : m ∈ ms) (hlogout : m.admin = .logout) (hq : q ∈ ms) : q.seq ≤ m.seq := by
  induction ms generalizing a with
  | nil => cases hm
  | cons c ms ih =>
    rcases List.mem_cons.mp hm with rfl | hlate
    · have hnil : ms = [] := by simpa [hlogout] using hallowed.1
      rw [hnil, List.mem_singleton] at hq
      rw [hq]
    · rcases List.mem_cons.mp hq with rfl | hq
      · exact (h.lt_of_mem_tail hlate).le
      · exact ih h.tail.2 hallowed.2 hlate hq

/-- In its place, a Logout with the highest number is the last to arrive. -/
theorem endState_of_inPlace {ms : List Inbound} (h : InPlace ms)
    (hmax : ∀ m ∈ ms, m.admin = .logout → ∀ q ∈ ms, q.seq ≤ m.seq) :
    endState ms = if ∃ m ∈ ms, m.admin = .logout then .loggedOut else .active := by
  have hiff : (∃ m ∈ ms.getLast?, m.admin = .logout) ↔ ∃ m ∈ ms, m.admin = .logout := by
    constructor
    · rintro ⟨m, hm, hlogout⟩
      exact ⟨m, List.mem_of_getLast? hm, hlogout⟩
    · rintro ⟨m, hm, hlogout⟩
      obtain ⟨pre, post, rfl⟩ := List.append_of_mem hm
      cases post with
      | nil => exact ⟨m, by simp, hlogout⟩
      | cons q post =>
        have hpair := (List.pairwise_append.mp h).2.1
        have hlt := (List.pairwise_cons.mp hpair).1 q (by simp) (.inr (.inr hlogout))
        exact absurd (hmax m hm hlogout q (by simp)) (not_le.mpr hlt)
  simp only [endState, hiff]

/-- A block has the same effect in some order of arrival as in sequence exactly
when no test request, resend request or Logout arrives before a lower number. -/
theorem sameEffect_iff_inPlace {s : Session} (hactive : s.state = .active) (hempty : s.queued = [])
    {block : List Inbound}
    (hrun : Consecutive s.nextIn block (s.nextIn + UInt64.ofNat block.length))
    (hroom : s.nextIn.toNat + block.length ≤ 2 ^ 64) (hallowed : Allowed block)
    (arrivals ordered : List (Inbound × Int64)) (hperm : (arrivals.map Prod.fst).Perm block)
    (hordered : ordered.map Prod.fst = block) :
    SameEffect s arrivals ordered ↔ InPlace (arrivals.map Prod.fst) := by
  have hblock : Block s.nextIn block _ := ⟨hrun, hroom⟩
  obtain ⟨hnextA, hstateA, hactsA⟩ := (pending_start hactive hempty hblock hperm).feed hallowed
  obtain ⟨hnextB, hstateB, hactsB⟩ :=
    (pending_start hactive hempty hblock (List.Perm.of_eq hordered)).feed hallowed
  have hsorted : InPlace block := by
    apply hblock.sorted.imp
    intro m q hlt _
    exact hlt
  have hflat := hperm.flatMap_right (requestedBy s.nextOut)
  rw [SameEffect, hnextA, hnextB, hstateA, hstateB, hactsA, hactsB, hordered,
    requested_of_inPlace s.nextOut hsorted]
  constructor
  · rintro ⟨-, -, hacts⟩
    apply inPlace_of_length s.nextOut
    rw [hflat.length_eq, hacts.length_eq]
  · intro hplace
    have hmax : ∀ m ∈ block, m.admin = .logout → ∀ q ∈ block, q.seq ≤ m.seq :=
      fun m hm hlogout q hq => hblock.le_logout hallowed hm hlogout hq
    refine ⟨?_, rfl, ?_⟩
    · rw [endState_of_inPlace hplace (by simpa only [hperm.mem_iff] using hmax),
        endState_of_inPlace hsorted hmax]
      simp only [hperm.mem_iff]
    · rw [requested_of_inPlace s.nextOut hplace]
      exact hflat

/-- Two messages the wrong way round, then a test request in its place. -/
def testInPlace : List (Inbound × Int64) :=
  [({ seq := 3 }, 0), ({ seq := 2 }, 0), ({ seq := 4, admin := .testRequest }, 0)]

theorem sameEffect_iff_inPlace_testInPlace :
    SameEffect loggedOn testInPlace
      [({ seq := 2 }, 0), ({ seq := 3 }, 0), ({ seq := 4, admin := .testRequest }, 0)] := by
  have hrun : Consecutive loggedOn.nextIn
      [{ seq := 2 }, { seq := 3 }, { seq := 4, admin := .testRequest }] (loggedOn.nextIn + 3) := by
    simp only [consecutive_cons]
    exact ⟨by decide, by decide, by decide, .nil _⟩
  refine (sameEffect_iff_inPlace (by decide) (by decide) hrun (by decide)
    ⟨.inl rfl, .inl rfl, .inr (.inr (.inl rfl)), trivial⟩ testInPlace _
    (List.Perm.swap ..) rfl).mpr ?_
  simp [InPlace, testInPlace, Acts]

/-- A test request that arrives before the message ahead of it, and in sequence. -/
def testFirst : List (Inbound × Int64) :=
  [({ seq := 3, admin := .testRequest }, 0), ({ seq := 2 }, 0)]

def testLast : List (Inbound × Int64) :=
  [({ seq := 2 }, 0), ({ seq := 3, admin := .testRequest }, 0)]

/-- The held test request is never answered. -/
theorem heldTestRequest_not_answered :
    loggedOn.state = .active ∧ loggedOn.queued = [] ∧ loggedOn.nextIn = 2 ∧
      actions (trace step loggedOn (feed testLast)) = [.heartbeat] ∧
      actions (trace step loggedOn (feed testFirst)) = [] ∧
      ¬ SameEffect loggedOn testFirst testLast := by
  refine ⟨by decide, by decide, by decide, by decide, by decide, ?_⟩
  rintro ⟨-, -, hacts⟩
  exact absurd hacts.length_eq (by decide)

end Lloms.Session
