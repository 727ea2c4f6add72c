import Mathlib.Logic.Function.Basic
import Lloms.Session.HeldAdmin

/-! Two sessions and a network between them. Either end stamps what it sends with the
numbers it claims. The network keeps all of it, and gives any of it to the other end, in
any order, as often as it likes or never, marked as a possible duplicate or not. Nobody
sends a SequenceReset. -/
namespace Lloms.Session
open Lib

inductive End where
  | left
  | right
  deriving DecidableEq, Repr

def End.other : End → End
  | .left => .right
  | .right => .left

@[simp] theorem End.other_other (e : End) : e.other.other = e := by cases e <;> rfl

theorem End.other_ne (e : End) : e.other ≠ e := by cases e <;> exact End.noConfusion

theorem End.eq_other_of_ne {e e' : End} (h : e ≠ e') : e = e'.other := by
  cases e <;> cases e' <;> first | rfl | exact absurd rfl h

/-- An end of the connection: what it has sent, which of the other's messages it was
given, and what its application was handed. -/
structure Party where
  session : Session
  sent : List Inbound := []
  got : List Nat := []
  handed : List Inbound := []

abbrev Pair := End → Party

inductive Move where
  | beginLogon (e : End) (nowMs : Int64)
  | send (e : End) (m : Inbound)
  | receive (e : End) (i : Nat) (possDup : Bool) (nowMs : Int64)
  | clock (e : End) (nowMs : Int64)
  deriving DecidableEq, Repr

/-- A message goes out under the number that was claimed for it. -/
def Party.say (p : Party) (claim : Session × UInt64) (m : Inbound) : Party :=
  { p with session := claim.1, sent := p.sent ++ [{ m with seq := claim.2 }] }

/-- Message `i` of the other end comes in. The application takes what is released. -/
def Party.hear (p : Party) (i : Nat) (m : Inbound) (nowMs : Int64) : Party × Outcome :=
  let r := p.session.onMessage m nowMs
  let t := r.1.takeReleased
  ({ p with
    session := t.1, got := i :: p.got
    handed := p.handed ++ ((if r.2.deliver then [m] else []) ++ t.2) }, r.2)

def Pair.step (w : Pair) : Move → Pair × Option Outcome
  | .beginLogon e now =>
    (Function.update w e ((w e).say ((w e).session.beginLogon now) { admin := .logon }), none)
  | .send e m => (Function.update w e ((w e).say (w e).session.claimOutboundSeq m), none)
  | .receive e i possDup now =>
    match (w e.other).sent[i]? with
    | none => (w, none)
    | some m =>
      let r := (w e).hear i { m with possDup } now
      (Function.update w e r.1, some r.2)
  | .clock e now =>
    let r := (w e).session.onClock now
    (Function.update w e { w e with session := r.1 }, some r.2)

def Pair.start (cfg : End → Config) : Pair := fun e => { session := new (cfg e) }

/-- A message but for the mark of a possible duplicate. -/
def unmarked (m : Inbound) : Inbound := { m with possDup := false }

theorem seq_of_unmarked {q m : Inbound} (h : unmarked q = unmarked m) : q.seq = m.seq :=
  show (unmarked q).seq = (unmarked m).seq from congrArg Inbound.seq h

/-! ## One direction -/

/-- `p` is at the `k`-th message of `o`: it has heard all before, and handed over the
application messages among them. What it holds are messages of `o` further on. -/
structure Follows (first : Nat) (o p : Party) (k : Nat) : Prop where
  numbered : ∀ {i m}, o.sent[i]? = some m → m.seq.toNat = first + i ∧ m.admin ≠ .sequenceReset
  next : o.session.nextOut.toNat = first + o.sent.length
  le : k ≤ o.sent.length
  nextIn : p.session.nextIn.toNat = first + k
  released : p.session.released = []
  held : ∀ q ∈ p.session.queued, ∃ i ∈ p.got, ∃ m, o.sent[i]? = some m ∧ unmarked q = unmarked m
  heard : ∀ i < k, i ∈ p.got
  handed : p.handed.map unmarked =
    ((o.sent.take k).filter fun m => m.admin = .none).map unmarked

section Follow

variable {first k : Nat} {o p : Party} {sent : List Inbound}

/-- Consecutive messages that were sent are a stretch of what was sent. -/
theorem Consecutive.of_sent {got : List Nat} {a b : UInt64} {cs : List Inbound}
    (hrun : Consecutive a cs b)
    (hnum : ∀ {i m}, sent[i]? = some m → m.seq.toNat = first + i)
    (hroom : first + sent.length < 18446744073709551616) (ha : a.toNat = first + k)
    (hk : k ≤ sent.length)
    (hcs : ∀ q ∈ cs, ∃ i ∈ got, ∃ m, sent[i]? = some m ∧ unmarked q = unmarked m) :
    k + cs.length ≤ sent.length ∧ b.toNat = first + (k + cs.length) ∧
      cs.map unmarked = ((sent.drop k).take cs.length).map unmarked ∧
      ∀ i, k ≤ i → i < k + cs.length → i ∈ got := by
  induction hrun generalizing k with
  | nil a =>
    refine ⟨hk, ha, by simp, fun i hi hlt => ?_⟩
    simp only [List.length_nil] at hlt
    omega
  | @cons b ms q hrest ih =>
    obtain ⟨⟨i, hi, m, hm, heq⟩, hms⟩ := List.forall_mem_cons.mp hcs
    have hseq := seq_of_unmarked heq
    obtain rfl : i = k := by
      have hnumber := hnum hm
      rw [← hseq, ha] at hnumber
      omega
    obtain ⟨hlt, hget⟩ := List.getElem?_eq_some_iff.mp hm
    have hnext : (q.seq + 1).toNat = first + (i + 1) := by
      rw [UInt64.toNat_add, ha, UInt64.toNat_one]
      omega
    obtain ⟨hle, hb, htake, hgot⟩ := ih hnext hlt hms
    rw [List.length_cons]
    refine ⟨by omega, by rw [hb]; omega, ?_, fun j hj hlt' => ?_⟩
    · rw [List.drop_eq_getElem_cons hlt, List.take_succ_cons, List.map_cons, List.map_cons, htake,
        hget, heq]
    · by_cases hij : j = i
      · exact hij ▸ hi
      · exact hgot j (by omega) (by omega)

theorem Follows.hear (h : Follows first o p k)
    (hroom : first + o.sent.length < 18446744073709551615)
    {i : Nat} {m : Inbound} (hi : o.sent[i]? = some m) (possDup : Bool) (now : Int64) :
    ∃ k', Follows first o (p.hear i { m with possDup } now).1 k' := by
  have hsmall : ∀ {j : Nat} {q m' : Inbound}, o.sent[j]? = some m' → unmarked q = unmarked m' →
      q.seq ≠ maxSeq := by
    intro j q m' hj heq hmax
    obtain ⟨hlt, -⟩ := List.getElem?_eq_some_iff.mp hj
    have hnumber := (h.numbered hj).1
    rw [← seq_of_unmarked heq, hmax] at hnumber
    have hnat : maxSeq.toNat = 18446744073709551615 := rfl
    omega
  set m' : Inbound := { m with possDup } with hm'
  have hmark : unmarked m' = unmarked m := rfl
  obtain ⟨a, cs, hacc⟩ := (onMessage_effect p.session m' now).accounts h.released
    (hsmall hi hmark) fun q hq => by
      obtain ⟨j, -, m₁, hj, heq⟩ := h.held q hq
      exact hsmall hj heq
  have ha : a = p.session.nextIn := by
    by_contra hne
    have hlt : p.session.nextIn < a := lt_of_le_of_ne hacc.jump_le (Ne.symm hne)
    have hjump := (hacc.jumped p.session.nextIn).mpr ⟨le_rfl, hlt⟩
    exact (h.numbered hi).2 hjump.1
  have hsource : ∀ q ∈ cs ++ (p.session.onMessage m' now).1.queued,
      ∃ j ∈ i :: p.got, ∃ m₁, o.sent[j]? = some m₁ ∧ unmarked q = unmarked m₁ := by
    intro q hq
    rcases hacc.source q hq with hold | rfl
    · obtain ⟨j, hj, hm₁⟩ := h.held q hold
      exact ⟨j, List.mem_cons_of_mem _ hj, hm₁⟩
    · exact ⟨i, List.mem_cons_self, m, hi, hmark⟩
  obtain ⟨hle, hnext, htake, hgot⟩ := hacc.run.of_sent (fun hj => (h.numbered hj).1)
    (by omega) (ha ▸ h.nextIn) h.le fun q hq => hsource q (List.mem_append_left _ hq)
  refine ⟨k + cs.length, h.numbered, h.next, hle, hnext, rfl,
    fun q hq => hsource q (List.mem_append_right _ hq), fun j hj => ?_, ?_⟩
  · by_cases hjk : j < k
    · exact List.mem_cons_of_mem _ (h.heard j hjk)
    · exact hgot j (Nat.not_lt.mp hjk) hj
  · have hfilter : ∀ l : List Inbound, (l.filter fun m => m.admin = .none).map unmarked =
        (l.map unmarked).filter fun m => m.admin = .none := by
      intro l
      rw [List.filter_map]
      rfl
    change (p.handed ++ ((if (p.session.onMessage m' now).2.deliver then [m'] else []) ++
      (p.session.onMessage m' now).1.released)).map unmarked = _
    rw [hacc.log, List.map_append, h.handed, List.take_add, List.filter_append, List.map_append,
      hfilter cs, htake, ← hfilter]

/-- What is not sent or heard makes no difference. -/
theorem Follows.congr {o' p' : Party} (h : Follows first o p k) (hsent : o'.sent = o.sent)
    (hout : o'.session.nextOut = o.session.nextOut)
    (hin : p'.session.nextIn = p.session.nextIn ∧ p'.session.queued = p.session.queued ∧
      p'.session.released = p.session.released)
    (hgot : p'.got = p.got) (hhanded : p'.handed = p.handed) : Follows first o' p' k where
  numbered := by rw [hsent]; exact h.numbered
  next := by rw [hout, hsent]; exact h.next
  le := by rw [hsent]; exact h.le
  nextIn := by rw [hin.1]; exact h.nextIn
  released := by rw [hin.2.2]; exact h.released
  held := by rw [hin.2.1, hgot, hsent]; exact h.held
  heard := by rw [hgot]; exact h.heard
  handed := by rw [hhanded, hsent]; exact h.handed

/-- A claim moves the outbound number, and nothing that has to do with hearing. -/
structure Claims (s : Session) (claim : Session × UInt64) : Prop where
  seq : claim.2 = s.nextOut
  nextOut : claim.1.nextOut = s.nextOut + 1
  hears : claim.1.nextIn = s.nextIn ∧ claim.1.queued = s.queued ∧ claim.1.released = s.released

theorem claims_claimOutboundSeq (s : Session) : Claims s s.claimOutboundSeq :=
  ⟨rfl, rfl, rfl, rfl, rfl⟩

theorem claims_beginLogon (s : Session) (now : Int64) : Claims s (s.beginLogon now) :=
  ⟨rfl, rfl, rfl, rfl, rfl⟩

theorem Follows.say (h : Follows first o p k)
    (hroom : first + o.sent.length < 18446744073709551615) {claim : Session × UInt64}
    (hclaim : Claims o.session claim) {m : Inbound} (hm : m.admin ≠ .sequenceReset) :
    Follows first (o.say claim m) p k where
  numbered {i m'} hi := by
    rcases Nat.lt_or_ge i o.sent.length with hlt | hge
    · rw [Party.say, List.getElem?_append_left hlt] at hi
      exact h.numbered hi
    · rw [Party.say, List.getElem?_append_right hge] at hi
      obtain ⟨hlt, hget⟩ := List.getElem?_eq_some_iff.mp hi
      simp only [List.length_singleton, List.getElem_singleton] at hlt hget
      subst hget
      refine ⟨?_, hm⟩
      rw [hclaim.seq, h.next]
      omega
  next := by
    have hnext := h.next
    simp only [Party.say, hclaim.nextOut, List.length_append, List.length_singleton]
    rw [UInt64.toNat_add, UInt64.toNat_one, hnext]
    omega
  le := by
    have hle := h.le
    simp only [Party.say, List.length_append]
    omega
  nextIn := h.nextIn
  released := h.released
  held q hq := by
    obtain ⟨i, hi, m', hm', heq⟩ := h.held q hq
    obtain ⟨hlt, -⟩ := List.getElem?_eq_some_iff.mp hm'
    exact ⟨i, hi, m', by rw [Party.say, List.getElem?_append_left hlt, hm'], heq⟩
  heard := h.heard
  handed := by
    rw [Party.say, List.take_append_of_le_length h.le]
    exact h.handed

end Follow

/-! ## Both directions -/

/-- `n` more moves are to come, for which there are numbers left. -/
structure Together (cfg : End → Config) (n : Nat) (w : Pair) : Prop where
  follows : ∀ e, ∃ k, Follows (new (cfg e)).nextIn.toNat (w e.other) (w e) k
  room : ∀ e, (new (cfg e)).nextIn.toNat + (w e.other).sent.length + n < 18446744073709551616

section Moved

variable {cfg : End → Config} {n : Nat} {w : Pair}

/-- One end changes, but not in what it has sent. -/
theorem Together.hear (h : Together cfg (n + 1) w) {e : End} {p : Party}
    (hsent : p.sent = (w e).sent)
    (hout : p.session.nextOut = (w e).session.nextOut)
    (hfollows : ∃ k, Follows (new (cfg e)).nextIn.toNat (w e.other) p k) :
    Together cfg n (Function.update w e p) := by
  have hother : Function.update w e p e.other = w e.other := Function.update_of_ne e.other_ne _ _
  have hself : Function.update w e p e = p := Function.update_self ..
  constructor
  · intro e'
    by_cases he : e' = e
    · subst he
      rw [hself, hother]
      exact hfollows
    · obtain rfl := End.eq_other_of_ne he
      obtain ⟨k, hk⟩ := h.follows e.other
      rw [End.other_other] at hk ⊢
      rw [hself, hother]
      exact ⟨k, hk.congr hsent hout ⟨rfl, rfl, rfl⟩ rfl rfl⟩
  · intro e'
    have hroom := h.room e'
    by_cases he : e' = e
    · subst he
      rw [hother]
      omega
    · obtain rfl := End.eq_other_of_ne he
      rw [End.other_other] at hroom ⊢
      rw [hself, hsent]
      omega

/-- One end says something. -/
theorem Together.say (h : Together cfg (n + 1) w) {e : End} {claim : Session × UInt64}
    (hclaim : Claims (w e).session claim) {m : Inbound} (hm : m.admin ≠ .sequenceReset) :
    Together cfg n (Function.update w e ((w e).say claim m)) := by
  have hother : Function.update w e ((w e).say claim m) e.other = w e.other :=
    Function.update_of_ne e.other_ne _ _
  have hself : Function.update w e ((w e).say claim m) e = (w e).say claim m :=
    Function.update_self ..
  constructor
  · intro e'
    by_cases he : e' = e
    · subst he
      obtain ⟨k, hk⟩ := h.follows e'
      rw [hself, hother]
      exact ⟨k, hk.congr rfl rfl hclaim.hears rfl rfl⟩
    · obtain rfl := End.eq_other_of_ne he
      obtain ⟨k, hk⟩ := h.follows e.other
      have hroom := h.room e.other
      rw [End.other_other] at hk hroom ⊢
      rw [hself, hother]
      exact ⟨k, hk.say (by omega) hclaim hm⟩
  · intro e'
    have hroom := h.room e'
    by_cases he : e' = e
    · subst he
      rw [hother]
      omega
    · obtain rfl := End.eq_other_of_ne he
      rw [End.other_other] at hroom ⊢
      rw [hself]
      simp only [Party.say, List.length_append, List.length_singleton]
      omega

theorem onClock_nextOut (s : Session) (now : Int64) : (s.onClock now).1.nextOut = s.nextOut := by
  unfold onClock
  dsimp only
  split_ifs <;> rfl

theorem Together.step (h : Together cfg (n + 1) w) {move : Move}
    (hmove : ∀ e m, move = .send e m → m.admin ≠ .sequenceReset) :
    Together cfg n (w.step move).1 := by
  cases move with
  | beginLogon e now => exact h.say (claims_beginLogon _ now) (by decide)
  | send e m => exact h.say (claims_claimOutboundSeq _) (hmove e m rfl)
  | receive e i possDup now =>
    cases hi : (w e.other).sent[i]? with
    | none =>
      simp only [Pair.step, hi]
      exact ⟨h.follows, fun e => Nat.lt_of_succ_lt (h.room e)⟩
    | some m =>
      simp only [Pair.step, hi]
      obtain ⟨k, hk⟩ := h.follows e
      have hroom := h.room e
      exact h.hear rfl (onMessage_nextOut _ _ now) (hk.hear (by omega) hi possDup now)
  | clock e now =>
    obtain ⟨k, hk⟩ := h.follows e
    exact h.hear rfl (onClock_nextOut _ now) ⟨k, hk.congr rfl rfl (onClock_keeps _ now) rfl rfl⟩

theorem Together.run {moves : List Move} (h : Together cfg moves.length w)
    (hsent : ∀ e m, .send e m ∈ moves → m.admin ≠ .sequenceReset) :
    Together cfg 0 (exec Pair.step w moves) ∧
      ∀ ev ∈ trace Pair.step w moves, ∃ n, Together cfg n ev.pre := by
  induction moves generalizing w with
  | nil => exact ⟨h, fun ev hev => absurd hev List.not_mem_nil⟩
  | cons move moves ih =>
    have hnext := h.step fun e m heq => hsent e m (heq ▸ List.mem_cons_self)
    obtain ⟨hend, htrace⟩ := ih hnext fun e m hm => hsent e m (List.mem_cons_of_mem _ hm)
    refine ⟨hend, fun ev hev => ?_⟩
    rcases List.mem_cons.mp hev with rfl | hev
    · exact ⟨_, h⟩
    · exact htrace ev hev

end Moved

theorem acceptInSequence_reject (s : Session) (m : Inbound) (now : Int64) :
    (s.acceptInSequence m now).2.reject ≠ .sequenceTooLow ∧
      (s.acceptInSequence m now).2.reject ≠ .logonSequenceTooLow := by
  unfold acceptInSequence
  cases m.admin <;> dsimp only <;> (try split_ifs) <;>
    exact ⟨Reject.noConfusion, Reject.noConfusion⟩

/-- Only an old message that is not marked is rejected for its number. -/
theorem old_of_rejected {s : Session} {m : Inbound} {now : Int64}
    (h : (s.onMessage m now).2.reject = .sequenceTooLow ∨
      (s.onMessage m now).2.reject = .logonSequenceTooLow) :
    m.seq < s.nextIn ∧ m.possDup = false := by
  have haccept := acceptInSequence_reject s m now
  unfold onMessage at h
  dsimp only at h
  split_ifs at h with hdown hlogon hold hdup hahead hreset hgap
  · simp at h
  · exact ⟨hlogon.2.1, by simpa using hlogon.2.2⟩
  · simp at h
  · exact ⟨hold, by simpa using hdup⟩
  · exact absurd h (not_or.mpr haccept)
  · simp at h
  · simp at h
  · exact absurd h (not_or.mpr haccept)

theorem together_start (cfg : End → Config)
    (hagree : ∀ e, (new (cfg e)).nextIn = (new (cfg e.other)).nextOut) {n : Nat}
    (hroom : ∀ e, (new (cfg e)).nextIn.toNat + n < 18446744073709551616) :
    Together cfg n (Pair.start cfg) where
  follows e := by
    refine ⟨0, ?_⟩
    exact {
      numbered := fun h => by cases h
      next := by rw [hagree e]; rfl
      le := Nat.le_refl _
      nextIn := rfl
      released := rfl
      held := fun q hq => absurd hq List.not_mem_nil
      heard := fun i hi => absurd hi (Nat.not_lt_zero i)
      handed := rfl }
  room e := hroom e

/-- The message is old only if it was heard before. -/
theorem Together.accepts {cfg : End → Config} {n : Nat} {w : Pair} (h : Together cfg n w) {e : End}
    {i : Nat} {possDup : Bool} {now : Int64} {o : Outcome}
    (ho : (w.step (.receive e i possDup now)).2 = some o)
    (hmarked : possDup = true ∨ i ∉ (w e).got) :
    o.reject ≠ .sequenceTooLow ∧ o.reject ≠ .logonSequenceTooLow := by
  cases hi : (w e.other).sent[i]? with
  | none => simp [Pair.step, hi] at ho
  | some m =>
    simp only [Pair.step, hi, Option.some.injEq] at ho
    subst ho
    rw [← not_or]
    intro hreject
    obtain ⟨hold, hunmarked⟩ := old_of_rejected hreject
    obtain ⟨k, hk⟩ := h.follows e
    have hlt : i < k := by
      have hnumber := (hk.numbered hi).1
      have hnext := hk.nextIn
      have hless := UInt64.lt_iff_toNat_lt.mp hold
      dsimp only at hless
      omega
    rcases hmarked with htrue | hnew
    · dsimp only at hunmarked
      rw [htrue] at hunmarked
      cases hunmarked
    · exact hnew (hk.heard i hlt)

/-- The application at either end has been handed what the other end has sent it, up to
the number it expects: nothing is lost, doubled, swapped or made up, whatever the network
does. And no end is rejected for its numbers, as long as what comes again is marked. -/
theorem pair_agrees (cfg : End → Config)
    (hagree : ∀ e, (new (cfg e)).nextIn = (new (cfg e.other)).nextOut) (moves : List Move)
    (hsent : ∀ e m, .send e m ∈ moves → m.admin ≠ .sequenceReset)
    (hroom : ∀ e, (new (cfg e)).nextIn.toNat + moves.length < 18446744073709551616) :
    let w := exec Pair.step (Pair.start cfg) moves
    (∀ e, ∃ k ≤ (w e.other).sent.length,
      (w e).session.nextIn.toNat = (new (cfg e)).nextIn.toNat + k ∧
      (w e).handed.map unmarked =
        (((w e.other).sent.take k).filter fun m => m.admin = .none).map unmarked) ∧
    ∀ ev ∈ trace Pair.step (Pair.start cfg) moves, ∀ e i possDup now o,
      ev.input = .receive e i possDup now → ev.output = some o →
      (possDup = true ∨ i ∉ (ev.pre e).got) →
      o.reject ≠ .sequenceTooLow ∧ o.reject ≠ .logonSequenceTooLow := by
  obtain ⟨hend, htrace⟩ := (together_start cfg hagree hroom).run hsent
  refine ⟨fun e => ?_, fun ev hev e i possDup now o hin hout hmarked => ?_⟩
  · obtain ⟨k, hk⟩ := hend.follows e
    exact ⟨k, hk.le, hk.nextIn, hk.handed⟩
  · obtain ⟨n, h⟩ := htrace ev hev
    have houtput : ev.output = (ev.pre.step ev.input).2 := by
      rw [event_of_mem_trace Pair.step _ _ ev hev]
      rfl
    rw [hin, hout] at houtput
    exact h.accepts houtput.symm hmarked

/-- Both ends log on. Two messages from the right come in the wrong order, the first of
them twice. -/
def crossed : List Move :=
  [.beginLogon .left 0, .beginLogon .right 0, .receive .left 0 false 0, .receive .right 0 false 0,
    .send .right {}, .send .right {}, .receive .left 2 false 0, .receive .left 1 true 0,
    .receive .left 1 true 0, .clock .left 500]

theorem pair_agrees_crossed :
    let w := exec Pair.step (Pair.start fun _ => {}) crossed
    (∃ k ≤ (w .right).sent.length, (w .left).session.nextIn.toNat = 1 + k ∧
      (w .left).handed.map unmarked =
        (((w .right).sent.take k).filter fun m => m.admin = .none).map unmarked) ∧
      (w .left).handed = [{ seq := 2, possDup := true }, { seq := 3 }] := by
  have hsent : ∀ e m, .send e m ∈ crossed → m.admin ≠ .sequenceReset := by
    intro e m hm
    simp only [crossed, List.mem_cons, reduceCtorEq, Move.send.injEq, List.not_mem_nil, or_false,
      false_or] at hm
    rcases hm with ⟨-, rfl⟩ | ⟨-, rfl⟩ <;> decide
  exact ⟨(pair_agrees (fun _ => {}) (fun _ => rfl) crossed hsent fun _ => by decide).1 .left,
    by decide⟩

end Lloms.Session
