import Mathlib.Data.List.Perm.Basic
import Lloms.Session.Basic

/-! What one `onMessage` can do. `Releases` describes the release loop once and
for all: which held messages leave, in which order, and where the expected
sequence ends. `Effect` lists the seven ways a message is disposed of; every
invariant of the session is a case analysis over it. -/
namespace Lloms.Session
open Lib

/-! ## Runs of consecutive numbers -/

/-- `ms` carries the numbers from `a` up to, not including, `b`, one each and
in order. -/
inductive Consecutive : UInt64 → List Inbound → UInt64 → Prop
  | nil (a : UInt64) : Consecutive a [] a
  | cons {b : UInt64} {ms : List Inbound} (m : Inbound) :
      Consecutive (m.seq + 1) ms b → Consecutive m.seq (m :: ms) b

/-- Every number the run moves past belongs to one of its messages, also when
the counter wraps. -/
theorem Consecutive.exists_of_passed {a b : UInt64} {ms : List Inbound}
    (h : Consecutive a ms b) {n : UInt64} (ha : a ≤ n) (hb : n < b ∨ b < a) :
    ∃ m ∈ ms, m.seq = n := by
  induction h with
  | nil a =>
    rcases hb with hb | hb
    · exact absurd hb (not_lt.mpr ha)
    · exact absurd hb (lt_irrefl a)
  | @cons b ms m _ ih =>
    by_cases hn : m.seq = n
    · exact ⟨m, by simp, hn⟩
    · have hlt : m.seq < n := lt_of_le_of_ne ha hn
      obtain ⟨q, hq, hs⟩ := ih (add_one_le_of_lt hlt)
        (hb.imp_right fun h => h.trans (lt_add_one_of_lt hlt))
      exact ⟨q, by simp [hq], hs⟩

/-- The last sequence number, which the counter cannot move past. -/
def maxSeq : UInt64 := 18446744073709551615

theorem lt_add_one_of_ne_maxSeq {n : UInt64} (h : n ≠ maxSeq) : n < n + 1 := by
  refine lt_add_one_of_lt (lt_of_le_of_ne ?_ h)
  rw [UInt64.le_iff_toNat_le]
  exact Nat.le_of_lt_succ n.toNat_lt

theorem Consecutive.le {a b : UInt64} {ms : List Inbound} (h : Consecutive a ms b)
    (hm : ∀ m ∈ ms, m.seq ≠ maxSeq) : a ≤ b := by
  induction h with
  | nil => exact le_rfl
  | cons m _ ih =>
    obtain ⟨hne, hm'⟩ := List.forall_mem_cons.mp hm
    exact (lt_add_one_of_ne_maxSeq hne).le.trans (ih hm')

theorem Consecutive.mem_range {a b : UInt64} {ms : List Inbound} (h : Consecutive a ms b)
    (hm : ∀ m ∈ ms, m.seq ≠ maxSeq) : ∀ m ∈ ms, a ≤ m.seq ∧ m.seq < b := by
  induction h with
  | nil => simp
  | cons m hrest ih =>
    obtain ⟨hne, hm'⟩ := List.forall_mem_cons.mp hm
    have hlt := lt_add_one_of_ne_maxSeq hne
    intro q hq
    rcases List.mem_cons.mp hq with rfl | hq
    · exact ⟨le_rfl, hlt.trans_le (hrest.le hm')⟩
    · obtain ⟨h1, h2⟩ := ih hm' q hq
      exact ⟨hlt.le.trans h1, h2⟩

theorem Consecutive.pairwise {a b : UInt64} {ms : List Inbound} (h : Consecutive a ms b)
    (hm : ∀ m ∈ ms, m.seq ≠ maxSeq) : ms.Pairwise fun p q => p.seq < q.seq := by
  induction h with
  | nil => exact .nil
  | cons m hrest ih =>
    obtain ⟨hne, hm'⟩ := List.forall_mem_cons.mp hm
    refine .cons (fun q hq => ?_) (ih hm')
    exact (lt_add_one_of_ne_maxSeq hne).trans_le (hrest.mem_range hm' q hq).1

/-- Each number of the run belongs to exactly one message. -/
theorem Consecutive.filter_seq {a b : UInt64} {ms : List Inbound} (h : Consecutive a ms b)
    (hm : ∀ m ∈ ms, m.seq ≠ maxSeq) {n : UInt64} (ha : a ≤ n) (hb : n < b) :
    ∃ m ∈ ms, (ms.filter fun q => q.seq = n) = [m] := by
  obtain ⟨m, hmem, rfl⟩ := h.exists_of_passed ha (.inl hb)
  obtain ⟨as, bs, rfl⟩ := List.append_of_mem hmem
  have hp := h.pairwise hm
  rw [List.pairwise_append, List.pairwise_cons] at hp
  obtain ⟨-, ⟨hbs, -⟩, has⟩ := hp
  refine ⟨m, hmem, ?_⟩
  rw [List.filter_append, List.filter_cons_of_pos (by simp),
    List.filter_eq_nil_iff.mpr, List.filter_eq_nil_iff.mpr]
  · rfl
  · intro q hq
    simpa using (hbs q hq).ne'
  · intro q hq
    simpa using (has q hq m (by simp)).ne

/-! ## The release loop -/

/-- `s'` is `s` after the held messages `ms` were let go. -/
structure Releases (s s' : Session) (ms : List Inbound) : Prop where
  run : Consecutive s.nextIn ms s'.nextIn
  perm : s.queued.Perm (ms ++ s'.queued)
  released : s'.released = s.released ++ ms.filter fun m => m.admin = .none

theorem Releases.refl (s : Session) : Releases s s [] :=
  ⟨.nil _, List.Perm.refl _, by simp⟩

theorem find?_perm_eraseP {α : Type} {p : α → Bool} {l : List α} {a : α}
    (h : l.find? p = some a) : l.Perm (a :: l.eraseP p) := by
  obtain ⟨hp, as, bs, rfl, has⟩ := List.find?_eq_some_iff_append.mp h
  rw [List.eraseP_append_right _ (by simpa using has), List.eraseP_cons_of_pos hp]
  exact List.perm_middle

theorem releaseNext_releases (s : Session) (m : Inbound)
    (h : s.queued.find? (fun q => q.seq = s.nextIn) = some m) :
    Releases s (s.releaseNext m) [m] ∧ (s.releaseNext m).state = s.state := by
  have hm : m.seq = s.nextIn := by simpa using List.find?_some h
  have hp := find?_perm_eraseP h
  have hrun : Consecutive s.nextIn [m] (s.nextIn + 1) := hm ▸ .cons m (.nil _)
  unfold releaseNext
  split
  · rename_i ha
    exact ⟨⟨hrun, hp, by simp [tally, ha]⟩, rfl⟩
  · rename_i ha
    exact ⟨⟨hrun, hp, by simp [ha]⟩, rfl⟩

theorem Consecutive.append {a b c : UInt64} {ms ns : List Inbound} (h : Consecutive a ms b)
    (h' : Consecutive b ns c) : Consecutive a (ms ++ ns) c := by
  induction h with
  | nil => exact h'
  | cons m _ ih => exact .cons m (ih h')

theorem Releases.trans {s t u : Session} {ms ns : List Inbound} (h : Releases s t ms)
    (h' : Releases t u ns) : Releases s u (ms ++ ns) where
  run := h.run.append h'.run
  perm := by
    rw [List.append_assoc]
    exact h.perm.trans (h'.perm.append_left ms)
  released := by rw [h'.released, h.released, List.filter_append, List.append_assoc]

theorem releaseLoop_releases (fuel : Nat) (s : Session) :
    ∃ ms, Releases s (releaseLoop fuel s) ms ∧ (releaseLoop fuel s).state = s.state := by
  induction fuel generalizing s with
  | zero => exact ⟨[], Releases.refl s, rfl⟩
  | succ fuel ih =>
    rw [releaseLoop]
    cases hf : s.queued.find? (fun q => q.seq = s.nextIn) with
    | none => exact ⟨[], Releases.refl s, rfl⟩
    | some m =>
      obtain ⟨hr, hst⟩ := releaseNext_releases s m hf
      obtain ⟨ms, hrs, hsts⟩ := ih (s.releaseNext m)
      exact ⟨m :: ms, hr.trans hrs, hsts.trans hst⟩

/-- The loop stops because nothing held is next in sequence, not because the
fuel is spent. -/
theorem releaseLoop_done (fuel : Nat) (s : Session) (h : s.queued.length ≤ fuel) :
    ∀ q ∈ (releaseLoop fuel s).queued, q.seq ≠ (releaseLoop fuel s).nextIn := by
  induction fuel generalizing s with
  | zero =>
    have hnil : s.queued = [] := List.length_eq_zero_iff.mp (by omega)
    simp [releaseLoop, hnil]
  | succ fuel ih =>
    rw [releaseLoop]
    cases hf : s.queued.find? (fun q => q.seq = s.nextIn) with
    | none => simpa using List.find?_eq_none.mp hf
    | some m =>
      apply ih
      have hlen := (releaseNext_releases s m hf).1.perm.length_eq
      simp only [List.singleton_append, List.length_cons] at hlen
      omega

/-- The tail of `acceptInSequence`, on the fields that sequencing looks at. -/
theorem settle_spec (s : Session) :
    ∃ ms, Releases s s.settle ms ∧
      (s.state ≠ .recovering → s.settle = s ∧ ms = []) ∧
      (s.state = .recovering →
        (∀ q ∈ s.settle.queued, q.seq ≠ s.settle.nextIn) ∧
        s.settle.state = if s.settle.queued = [] then .active else .recovering) := by
  by_cases hr : s.state = .recovering
  · obtain ⟨ms, hrel, hst⟩ := releaseLoop_releases s.queued.length s
    have hdone := releaseLoop_done s.queued.length s le_rfl
    have hs : s.settle = s.releaseQueue := if_pos hr
    refine ⟨ms, ?_, fun h => absurd hr h, fun _ => ?_⟩
    · rw [hs, releaseQueue]
      split
      · exact ⟨hrel.run, hrel.perm, hrel.released⟩
      · exact hrel
    · rw [hs, releaseQueue]
      split
      · rename_i hq
        exact ⟨hdone, by simp⟩
      · exact ⟨hdone, by simp [hst, hr]⟩
  · have hs : s.settle = s := if_neg hr
    exact ⟨[], by rw [hs]; exact Releases.refl s, fun _ => ⟨hs, rfl⟩, fun h => absurd h hr⟩

/-! ## The seven effects -/

/-- The fields that sequencing looks at. -/
structure Core where
  state : State
  nextIn : UInt64
  queued : List Inbound
  released : List Inbound

def core (s : Session) : Core := ⟨s.state, s.nextIn, s.queued, s.released⟩

@[simp] theorem core_tally (s : Session) (f : Stats → Stats) : (s.tally f).core = s.core := rfl
@[simp] theorem core_countReject (s : Session) : s.countReject.core = s.core := rfl
@[simp] theorem core_state (s : Session) : s.core.state = s.state := rfl
@[simp] theorem core_nextIn (s : Session) : s.core.nextIn = s.nextIn := rfl
@[simp] theorem core_queued (s : Session) : s.core.queued = s.queued := rfl
@[simp] theorem core_released (s : Session) : s.core.released = s.released := rfl

/-- The session is up: an application message in sequence is acted on. -/
def Up (s : Session) : Prop := s.state = .active ∨ s.state = .recovering

instance (s : Session) : Decidable s.Up := inferInstanceAs (Decidable (_ ∨ _))

theorem Up.ne_disconnected {s : Session} (h : s.Up) : s.state ≠ .disconnected := by
  rcases h with hs | hs
  · rw [hs]
    exact State.noConfusion
  · rw [hs]
    exact State.noConfusion

/-- The tests under which `onMessage` turns a message away and leaves the
sequencing fields alone. -/
def Refuses (s : Session) (m : Inbound) : Prop :=
  (s.state = .disconnected ∧ m.admin ≠ .logon) ∨
  m.seq < s.nextIn ∨
  (m.admin = .sequenceReset ∧ m.newSeq ≤ s.nextIn) ∨
  (m.admin = .none ∧ m.seq = s.nextIn ∧ ¬ s.Up)

instance (s : Session) (m : Inbound) : Decidable (s.Refuses m) :=
  inferInstanceAs (Decidable (_ ∨ _ ∨ _ ∨ _))

/-- A message that passes all these tests is not turned away. -/
theorem not_refuses {s : Session} {m : Inbound}
    (hopen : s.state = .disconnected → m.admin = .logon) (hseq : s.nextIn ≤ m.seq)
    (hreset : m.admin = .sequenceReset → s.nextIn < m.newSeq)
    (happ : m.admin = .none → m.seq = s.nextIn → s.Up) : ¬ s.Refuses m := by
  rintro (⟨h, hne⟩ | h | ⟨h, hle⟩ | ⟨h, heq, hdown⟩)
  · exact hne (hopen h)
  · exact absurd h (not_lt.mpr hseq)
  · exact absurd hle (not_le.mpr (hreset h))
  · exact hdown (happ h heq)

inductive Effect (s : Session) (m : Inbound) (s' : Session) (o : Outcome) : Prop
  | refused (disconnect : Bool) (reject : Reject) (hwhy : s.Refuses m)
      (hcore : s'.core = s.core)
      (ho : o = { drop := true, disconnect := disconnect, reject := reject })
      (hdis : disconnect = true → reject ≠ .none)
  | held (hadmin : m.admin ≠ .sequenceReset) (hseq : s.nextIn < m.seq)
      (hopen : s.state = .disconnected → m.admin = .logon)
      (hcore : s'.core = { s.core with state := .recovering, queued := s.queued ++ [m] })
      (ho : o = if s.state = .recovering then { queue := true } else
        { queue := true, sendResendRequest := true
          resendFrom := s.nextIn, resendTo := m.seq - 1 })
  | skipped (t : Session) (hadmin : m.admin = .sequenceReset) (hopen : s.state ≠ .disconnected)
      (hseq : s.nextIn ≤ m.seq) (hnew : s.nextIn < m.newSeq)
      (hcore : t.core = { s.core with nextIn := m.newSeq })
      (hs : s' = t.settle) (ho : o = { drop := true })
  | relogon (hadmin : m.admin = .logon) (hseq : m.seq = s.nextIn) (hup : s.Up)
      (hcore : s'.core = { s.core with nextIn := s.nextIn + 1 })
      (ho : o = { drop := true, disconnect := true, reject := .alreadyLoggedOn })
  | loggedOn (hadmin : m.admin = .logon) (hseq : m.seq = s.nextIn) (hup : ¬ s.Up)
      (hcore : s'.core = { s.core with state := .active, nextIn := s.nextIn + 1 })
      (ho : o = { drop := true })
  | loggedOut (hadmin : m.admin = .logout) (hseq : m.seq = s.nextIn)
      (hopen : s.state ≠ .disconnected)
      (hcore : s'.core = { s.core with state := .loggedOut, nextIn := s.nextIn + 1 })
      (ho : o = { drop := true, disconnect := true })
  | passed (t : Session)
      (hadmin : m.admin ≠ .sequenceReset ∧ m.admin ≠ .logon ∧ m.admin ≠ .logout)
      (hseq : m.seq = s.nextIn) (hopen : s.state ≠ .disconnected)
      (happ : m.admin = .none → s.Up)
      (hcore : t.core = { s.core with nextIn := s.nextIn + 1 })
      (hs : s' = t.settle)
      (hdeliver : o.deliver = decide (m.admin = .none))
      (hquiet : o.queue = false ∧ o.sendResendRequest = false ∧ o.disconnect = false ∧
        o.reject = .none)

theorem settle_of_ne {s : Session} (h : s.state ≠ .recovering) : s.settle = s := if_neg h

theorem acceptInSequence_effect (s : Session) (m : Inbound) (now : Int64)
    (hopen : s.state = .disconnected → m.admin = .logon) (hseq : s.nextIn ≤ m.seq)
    (hnext : m.admin ≠ .sequenceReset → m.seq = s.nextIn) :
    Effect s m (s.acceptInSequence m now).1 (s.acceptInSequence m now).2 := by
  cases ha : m.admin with
  | sequenceReset =>
    by_cases hn : m.newSeq ≤ s.nextIn
    · simp only [acceptInSequence, ha, hn, if_true]
      exact .refused false .resetBackwards (.inr (.inr (.inl ⟨ha, hn⟩))) rfl rfl (by simp)
    · simp only [acceptInSequence, ha, hn, if_false]
      exact .skipped _ ha (fun h => by simp [hopen h] at ha) hseq (not_le.mp hn) rfl rfl rfl
  | logon =>
    have hs := hnext (by simp [ha])
    by_cases hup : s.Up
    · have hup' : s.state = .active ∨ s.state = .recovering := hup
      simp only [acceptInSequence, ha, hup', if_true]
      exact .relogon ha hs hup rfl rfl
    · have hup' : ¬ (s.state = .active ∨ s.state = .recovering) := hup
      simp only [acceptInSequence, ha, hup', if_false]
      rw [settle_of_ne (by simp)]
      exact .loggedOn ha hs hup rfl rfl
  | logout =>
    simp only [acceptInSequence, ha]
    rw [settle_of_ne (by simp)]
    exact .loggedOut ha (hnext (by simp [ha])) (fun h => by simp [hopen h] at ha) rfl rfl
  | none =>
    have hs := hnext (by simp [ha])
    by_cases hup : s.state ≠ .active ∧ s.state ≠ .recovering
    · simp only [acceptInSequence, ha]
      rw [if_pos hup]
      have hdown : ¬ s.Up := fun h => h.elim hup.1 hup.2
      exact .refused false .notLoggedOn (.inr (.inr (.inr ⟨ha, hs, hdown⟩))) rfl rfl (by simp)
    · simp only [acceptInSequence, ha]
      rw [if_neg hup]
      have hup' : s.Up := by unfold Up; tauto
      exact .passed _ (by simp [ha]) hs (fun h => by simp [hopen h] at ha) (fun _ => hup')
        rfl rfl (by simp [ha]) (by simp)
  | testRequest | resendRequest | heartbeat =>
    simp only [acceptInSequence, ha]
    exact .passed _ (by simp [ha]) (hnext (by simp [ha])) (fun h => by simp [hopen h] at ha)
      (by simp [ha]) rfl rfl (by simp [ha]) (by simp)

theorem onMessage_effect (s : Session) (m : Inbound) (now : Int64) :
    Effect s m (s.onMessage m now).1 (s.onMessage m now).2 := by
  unfold onMessage
  split
  · rename_i h
    exact .refused false .notLoggedOn (.inl h) rfl rfl (by simp)
  rename_i hopen
  have hopen' : s.state = .disconnected → m.admin = .logon := by tauto
  split
  · rename_i h
    exact .refused true .logonSequenceTooLow (.inr (.inl h.2.1)) rfl rfl (by simp)
  split
  · rename_i hlow
    split
    · exact .refused false .none (.inr (.inl hlow)) rfl rfl (by simp)
    · exact .refused true .sequenceTooLow (.inr (.inl hlow)) rfl rfl (by simp)
  rename_i hlow
  split
  · rename_i hgap
    split
    · rename_i ha
      exact acceptInSequence_effect s m now hopen' (not_lt.mp hlow) (fun h => absurd ha h)
    · rename_i ha
      by_cases hr : s.state = .recovering
      · simp only [hr, ne_eq, not_true_eq_false, if_false]
        exact .held ha hgap hopen' (by simp [core, tally, hr]) (by simp [hr])
      · simp only [hr, ne_eq, not_false_eq_true, if_true]
        exact .held ha hgap hopen' (by simp [core, tally]) (by simp [hr])
  · rename_i hgap
    exact acceptInSequence_effect s m now hopen' (not_lt.mp hlow)
      (fun _ => le_antisymm (not_lt.mp hgap) (not_lt.mp hlow))

/-- The clock touches the sequencing fields only when it declares the peer
dead, and never asks for a resend. -/
theorem onClock_effect (s : Session) (now : Int64) :
    (s.onClock now).2.sendResendRequest = false ∧
    (((s.onClock now).1.core = s.core ∧ (s.onClock now).2.disconnect = false) ∨
    ((s.onClock now).1.core = { s.core with state := .disconnected } ∧
      (s.onClock now).2.disconnect = true)) := by
  unfold onClock
  dsimp only
  split_ifs
  · exact ⟨rfl, .inl ⟨rfl, rfl⟩⟩
  · exact ⟨rfl, .inl ⟨rfl, rfl⟩⟩
  · exact ⟨rfl, .inl ⟨rfl, rfl⟩⟩
  · exact ⟨rfl, .inr ⟨rfl, rfl⟩⟩

theorem onClock_keeps (s : Session) (now : Int64) :
    (s.onClock now).1.nextIn = s.nextIn ∧ (s.onClock now).1.queued = s.queued ∧
      (s.onClock now).1.released = s.released := by
  rcases (onClock_effect s now).2 with ⟨hcore, -⟩ | ⟨hcore, -⟩
  · exact ⟨congrArg Core.nextIn hcore, congrArg Core.queued hcore, congrArg Core.released hcore⟩
  · exact ⟨congrArg Core.nextIn hcore, congrArg Core.queued hcore, congrArg Core.released hcore⟩

/-- A release pass holds nothing new. -/
theorem mem_queued_of_settle {t : Session} {q : Inbound} (h : q ∈ t.settle.queued) :
    q ∈ t.queued := by
  obtain ⟨ms, hr, -⟩ := settle_spec t
  exact hr.perm.mem_iff.mpr (List.mem_append_right _ h)

/-- Whatever is held was held before, or is the message just given and ahead of sequence. -/
theorem step_queued (s : Session) (c : Call) (q : Inbound) (hq : q ∈ (step s c).1.queued) :
    q ∈ s.queued ∨ (s.nextIn < q.seq ∧ ∃ now, c = .onMessage q now) := by
  have hto : ∀ {l : List Inbound}, (step s c).1.queued = l → q ∈ l := fun h => h ▸ hq
  cases c with
  | beginLogon now => exact .inl hq
  | claimOutboundSeq => exact .inl hq
  | takeReleased => exact .inl hq
  | onClock now => exact .inl (hto (onClock_keeps s now).2.1)
  | onMessage m now =>
    have hsettle : ∀ {t : Session}, t.queued = s.queued → (s.onMessage m now).1 = t.settle →
        q ∈ s.queued := fun ht hs =>
      ht ▸ mem_queued_of_settle (hto (congrArg Session.queued hs))
    cases onMessage_effect s m now with
    | refused _ _ _ hcore | relogon _ _ _ hcore | loggedOn _ _ _ hcore | loggedOut _ _ _ hcore =>
      exact .inl (hto (congrArg Core.queued hcore))
    | held _ hseq _ hcore =>
      have hmem : q ∈ s.queued ++ [m] := hto (congrArg Core.queued hcore)
      rcases List.mem_append.mp hmem with h | h
      · exact .inl h
      · obtain rfl := List.mem_singleton.mp h
        exact .inr ⟨hseq, now, rfl⟩
    | skipped t _ _ _ _ hcore hs => exact .inl (hsettle (congrArg Core.queued hcore) hs)
    | passed t _ _ _ _ hcore hs => exact .inl (hsettle (congrArg Core.queued hcore) hs)

end Lloms.Session
