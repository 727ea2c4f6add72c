import Lloms.Session.Delivery

/-! Nothing that is held vanishes or is counted twice. Every message that was ever
held is still held or was let go of, once; of those let go of, the application messages
lie in the released list or were taken from it. The two counters that speak about this
are compared with the outcomes and lists themselves. -/
namespace Lloms.Session
open Lib

/-! ## What a run holds, delivers, lets go of and hands out -/

/-- The message of a call that returned `queue`. -/
def heldBy (e : Event) : List Inbound :=
  match e.input, e.output with
  | .onMessage m _, .outcome o => if o.queue then [m] else []
  | _, _ => []

/-- The message of a call that returned `deliver`. -/
def deliveredBy (e : Event) : List Inbound :=
  match e.input, e.output with
  | .onMessage m _, .outcome o => if o.deliver then [m] else []
  | _, _ => []

/-- The messages that left the queue in a call. -/
def letGoBy (e : Event) : List Inbound := e.pre.queued.diff e.post.queued

/-- The messages that a call of `takeReleased` handed out. -/
def takenBy (e : Event) : List Inbound :=
  match e.output with
  | .messages ms => ms
  | _ => []

def everHeld (h : List Event) : List Inbound := h.flatMap heldBy

def everDelivered (h : List Event) : List Inbound := h.flatMap deliveredBy

def letGo (h : List Event) : List Inbound := h.flatMap letGoBy

def taken (h : List Event) : List Inbound := h.flatMap takenBy

/-- The application messages of a list. -/
def apps (ms : List Inbound) : List Inbound := ms.filter fun m => m.admin = .none

/-! ## The counters of one message -/

/-- What one message adds to the counters, and that it has one outcome. -/
structure Counted (s s' : Session) (o : Outcome) : Prop where
  one : [o.deliver, o.queue, o.drop].count true = 1
  queuedTotal : s'.stats.queuedTotal = s.stats.queuedTotal + UInt64.ofNat o.queue.toNat
  delivered : ∃ k, s'.released.length = s.released.length + k ∧
    s'.stats.delivered = s.stats.delivered + UInt64.ofNat (o.deliver.toNat + k)

/-- What the release loop adds: as much to the counter as to the list. -/
structure Freed (s s' : Session) (k : Nat) : Prop where
  released : s'.released.length = s.released.length + k
  delivered : s'.stats.delivered = s.stats.delivered + UInt64.ofNat k
  queuedTotal : s'.stats.queuedTotal = s.stats.queuedTotal

theorem Freed.refl (s : Session) : Freed s s 0 := ⟨rfl, by simp, rfl⟩

theorem Freed.trans {s t u : Session} {j k : Nat} (h : Freed s t j) (h' : Freed t u k) :
    Freed s u (j + k) where
  released := by rw [h'.released, h.released, Nat.add_assoc]
  delivered := by rw [h'.delivered, h.delivered, UInt64.ofNat_add, UInt64.add_assoc]
  queuedTotal := h'.queuedTotal.trans h.queuedTotal

theorem releaseNext_freed (s : Session) (m : Inbound) : ∃ k, Freed s (s.releaseNext m) k := by
  unfold releaseNext
  split
  · exact ⟨1, by simp [tally], rfl, rfl⟩
  · exact ⟨0, rfl, by simp, rfl⟩

theorem releaseLoop_freed (fuel : Nat) (s : Session) : ∃ k, Freed s (releaseLoop fuel s) k := by
  induction fuel generalizing s with
  | zero => exact ⟨0, Freed.refl s⟩
  | succ fuel ih =>
    rw [releaseLoop]
    cases s.queued.find? fun q => q.seq = s.nextIn with
    | none => exact ⟨0, Freed.refl s⟩
    | some m =>
      obtain ⟨j, hj⟩ := releaseNext_freed s m
      obtain ⟨k, hk⟩ := ih (s.releaseNext m)
      exact ⟨j + k, hj.trans hk⟩

theorem settle_freed (s : Session) : ∃ k, Freed s s.settle k := by
  unfold settle
  split
  · obtain ⟨k, hk⟩ := releaseLoop_freed s.queued.length s
    unfold releaseQueue
    dsimp only
    split
    · exact ⟨k, hk.released, hk.delivered, hk.queuedTotal⟩
    · exact ⟨k, hk⟩
  · exact ⟨0, Freed.refl s⟩

section Counting

variable {s t : Session} {o : Outcome}

/-- A message that is not held, before the release pass and after it. -/
theorem counted_settle (hone : [o.deliver, o.queue, o.drop].count true = 1)
    (hqueue : o.queue = false) (htotal : t.stats.queuedTotal = s.stats.queuedTotal)
    (hreleased : t.released = s.released)
    (hdelivered : t.stats.delivered = s.stats.delivered + UInt64.ofNat o.deliver.toNat) :
    Counted s t.settle o := by
  obtain ⟨k, hk⟩ := settle_freed t
  refine ⟨hone, ?_, k, by rw [hk.released, hreleased], ?_⟩
  · rw [hk.queuedTotal, htotal, hqueue]
    simp
  · rw [hk.delivered, hdelivered, UInt64.ofNat_add, UInt64.add_assoc]

/-- A message that is turned away: it is dropped, and no counter here moves. -/
theorem counted_dropped {s' : Session} (hone : [o.deliver, o.queue, o.drop] = [false, false, true])
    (htotal : s'.stats.queuedTotal = s.stats.queuedTotal) (hreleased : s'.released = s.released)
    (hdelivered : s'.stats.delivered = s.stats.delivered) : Counted s s' o := by
  have houts := hone
  simp only [List.cons.injEq] at houts
  obtain ⟨hdeliver, hqueue, -⟩ := houts
  refine ⟨by rw [hone]; rfl, ?_, 0, by rw [hreleased]; rfl, ?_⟩
  · rw [htotal, hqueue]
    simp
  · rw [hdelivered, hdeliver]
    simp

end Counting

theorem acceptInSequence_counted (s : Session) (m : Inbound) (now : Int64) :
    Counted s (s.acceptInSequence m now).1 (s.acceptInSequence m now).2 := by
  cases ha : m.admin with
  | sequenceReset =>
    by_cases hn : m.newSeq ≤ s.nextIn
    · simp only [acceptInSequence, ha, hn, if_true]
      exact counted_dropped rfl rfl rfl rfl
    · simp only [acceptInSequence, ha, hn, if_false]
      refine counted_settle rfl rfl ?_ rfl ?_
      · simp only [tally]
        split <;> rfl
      · simp only [tally]
        split <;> simp
  | logon =>
    by_cases hup : s.state = .active ∨ s.state = .recovering
    · simp only [acceptInSequence, ha, hup, if_true]
      exact counted_dropped rfl rfl rfl rfl
    · simp only [acceptInSequence, ha, hup, if_false]
      exact counted_settle rfl rfl rfl rfl (by simp)
  | none =>
    simp only [acceptInSequence, ha]
    split
    · exact counted_dropped rfl rfl rfl rfl
    · exact counted_settle rfl rfl rfl rfl rfl
  | testRequest | resendRequest | heartbeat | logout =>
    simp only [acceptInSequence, ha]
    exact counted_settle rfl rfl rfl rfl (by simp [tally])

theorem onMessage_counted (s : Session) (m : Inbound) (now : Int64) :
    Counted s (s.onMessage m now).1 (s.onMessage m now).2 := by
  unfold onMessage
  split
  · exact counted_dropped rfl rfl rfl rfl
  split
  · exact counted_dropped rfl rfl rfl rfl
  split
  · dsimp only
    split
    · exact counted_dropped rfl rfl rfl rfl
    · exact counted_dropped rfl rfl rfl rfl
  split
  · split
    · exact acceptInSequence_counted s m now
    · -- held: the first gap adds two more counters, which are none of these
      dsimp only
      by_cases hrec : s.state = .recovering
      · simp only [hrec, ne_eq, not_true_eq_false, if_false]
        exact ⟨rfl, rfl, 0, rfl, by simp [tally]⟩
      · simp only [hrec, ne_eq, not_false_eq_true, if_true]
        exact ⟨rfl, rfl, 0, rfl, by simp [tally]⟩
  · exact acceptInSequence_counted s m now

/-! ## Where the messages go -/

/-- What one message moves: it joins the queue or not, the messages `ms` leave the queue in
order, and the application messages among them join the released list. -/
structure Moves (s : Session) (m : Inbound) (s' : Session) (o : Outcome) (ms : List Inbound) :
    Prop where
  queued : (s.queued ++ if o.queue then [m] else []).Perm (ms ++ s'.queued)
  letGo : (s.queued.diff s'.queued).Perm ms
  released : s'.released = s.released ++ apps ms
  run : ∃ a, s.nextIn ≤ a ∧ Consecutive a ms s'.nextIn

section Moving

variable {s s' : Session} {m : Inbound} {o : Outcome}

/-- A message that is turned away or consumed without a release pass. -/
theorem moves_none (hqueue : o.queue = false) (hq : s'.queued = s.queued)
    (hr : s'.released = s.released) (hn : s.nextIn ≤ s'.nextIn) : Moves s m s' o [] where
  queued := by simp [hqueue, hq]
  letGo := by
    rw [hq]
    exact diff_perm_of_perm (List.Perm.refl _)
  released := by simp [hr, apps]
  run := ⟨s'.nextIn, hn, .nil _⟩

theorem moves_held (hqueue : o.queue = true) (hq : s'.queued = s.queued ++ [m])
    (hr : s'.released = s.released) (hn : s'.nextIn = s.nextIn) : Moves s m s' o [] where
  queued := by simp [hqueue, hq]
  letGo := by
    rw [hq, List.diff_append]
    have hself : s.queued.diff s.queued = [] := (diff_perm_of_perm (List.Perm.refl _)).eq_nil
    simp [hself]
  released := by simp [hr, apps]
  run := ⟨s'.nextIn, hn.ge, .nil _⟩

theorem moves_settled {t : Session} (hqueue : o.queue = false) (hq : t.queued = s.queued)
    (hr : t.released = s.released) (hn : s.nextIn ≤ t.nextIn) :
    ∃ ms, Moves s m t.settle o ms := by
  obtain ⟨ms, hrel, -⟩ := settle_spec t
  refine ⟨ms, ?_, ?_, ?_, t.nextIn, hn, hrel.run⟩
  · simpa [hqueue] using hq ▸ hrel.perm
  · exact diff_perm_of_perm (hq ▸ hrel.perm)
  · rw [hrel.released, hr]
    rfl

theorem Effect.moves (h : Effect s m s' o) (hm : m.seq ≠ maxSeq) : ∃ ms, Moves s m s' o ms := by
  have hnext : m.seq = s.nextIn → s.nextIn ≤ s.nextIn + 1 := fun heq =>
    (lt_add_one_of_ne_maxSeq (heq ▸ hm)).le
  cases h with
  | refused d r _ hcore ho _ =>
    exact ⟨[], moves_none (by rw [ho]) (congrArg Core.queued hcore) (congrArg Core.released hcore)
      (congrArg Core.nextIn hcore).ge⟩
  | held _ _ _ hcore ho =>
    exact ⟨[], moves_held (by rw [ho]; split <;> rfl) (congrArg Core.queued hcore)
      (congrArg Core.released hcore) (congrArg Core.nextIn hcore)⟩
  | skipped t _ _ _ hnew hcore hs ho =>
    rw [hs]
    exact moves_settled (by rw [ho]) (congrArg Core.queued hcore) (congrArg Core.released hcore)
      (hnew.le.trans (congrArg Core.nextIn hcore).ge)
  | relogon _ hseq _ hcore ho | loggedOn _ hseq _ hcore ho | loggedOut _ hseq _ hcore ho =>
    exact ⟨[], moves_none (by rw [ho]) (congrArg Core.queued hcore) (congrArg Core.released hcore)
      ((hnext hseq).trans (congrArg Core.nextIn hcore).ge)⟩
  | passed t _ hseq _ _ hcore hs _ hquiet =>
    rw [hs]
    exact moves_settled hquiet.1 (congrArg Core.queued hcore) (congrArg Core.released hcore)
      ((hnext hseq).trans (congrArg Core.nextIn hcore).ge)

end Moving

/-! ## The account of a run -/

/-- The application messages that ever joined the released list, in that order. -/
def everReleased (h : List Event) (s : Session) : List Inbound := taken h ++ s.released

structure Conserved (h : List Event) (s : Session) : Prop where
  noLast : ∀ q ∈ s.queued, q.seq ≠ maxSeq
  held : (everHeld h).Perm (s.queued ++ letGo h)
  freed : (apps (letGo h)).Perm (everReleased h s)
  sorted : (everReleased h s).Pairwise fun p q => p.seq < q.seq
  below : ∀ m ∈ everReleased h s, m.seq < s.nextIn
  queuedTotal : s.stats.queuedTotal = UInt64.ofNat (everHeld h).length
  delivered : s.stats.delivered =
    UInt64.ofNat ((everDelivered h).length + (everReleased h s).length)

theorem conserved_new (cfg : Config) : Conserved [] (new cfg) :=
  ⟨by simp [new], List.Perm.refl _, List.Perm.refl _, .nil, by simp [everReleased, taken, new],
    rfl, rfl⟩

/-- Messages join what is held, and those let go of change sides. -/
theorem perm_joined {ever queue gone joined ms queue' left : List Inbound}
    (hever : ever.Perm (queue ++ gone)) (hmoved : (queue ++ joined).Perm (ms ++ queue'))
    (hleft : left.Perm ms) : (ever ++ joined).Perm (queue' ++ (gone ++ left)) := by
  rw [← Multiset.coe_eq_coe] at hever hmoved hleft ⊢
  simp only [← Multiset.coe_add] at hever hmoved ⊢
  calc (ever : Multiset Inbound) + joined = (queue + joined) + gone := by
        rw [hever, Multiset.add_assoc, Multiset.add_comm (gone : Multiset Inbound),
          ← Multiset.add_assoc]
    _ = queue' + (gone + left) := by
        rw [hmoved, hleft, Multiset.add_comm (ms : Multiset Inbound), Multiset.add_assoc,
          Multiset.add_comm (ms : Multiset Inbound)]

section Step

variable {h : List Event} {s : Session}

/-- A call that touches none of this, or only empties the released list. -/
theorem Conserved.still (hc : Conserved h s) {e : Event} {s' : Session} (hpre : e.pre = s)
    (hpost : e.post = s') (hheld : heldBy e = []) (hdel : deliveredBy e = [])
    (hq : s'.queued = s.queued) (hn : s'.nextIn = s.nextIn)
    (hout : takenBy e ++ s'.released = s.released)
    (hstats : s'.stats.queuedTotal = s.stats.queuedTotal ∧
      s'.stats.delivered = s.stats.delivered) : Conserved (h ++ [e]) s' := by
  have hlet : letGo (h ++ [e]) = letGo h := by
    have hself : s.queued.diff s.queued = [] := (diff_perm_of_perm (List.Perm.refl _)).eq_nil
    simp [letGo, letGoBy, hpre, hpost, hq, hself]
  have hever : everHeld (h ++ [e]) = everHeld h := by simp [everHeld, hheld]
  have hdone : everDelivered (h ++ [e]) = everDelivered h := by simp [everDelivered, hdel]
  have hrel : everReleased (h ++ [e]) s' = everReleased h s := by
    simp [everReleased, taken, hout]
  refine ⟨hq ▸ hc.noLast, ?_, ?_, ?_, ?_, ?_, ?_⟩
  · rw [hever, hlet, hq]
    exact hc.held
  · rw [hlet, hrel]
    exact hc.freed
  · rw [hrel]
    exact hc.sorted
  · rw [hrel, hn]
    exact hc.below
  · rw [hstats.1, hever]
    exact hc.queuedTotal
  · rw [hstats.2, hdone, hrel]
    exact hc.delivered

theorem Conserved.message (hc : Conserved h s) (m : Inbound) (now : Int64) (hm : m.seq ≠ maxSeq) :
    Conserved (h ++ [event step s (.onMessage m now)]) (s.onMessage m now).1 := by
  obtain ⟨ms, hmoves⟩ := (onMessage_effect s m now).moves hm
  have hcount := onMessage_counted s m now
  have hheld : heldBy (event step s (.onMessage m now)) =
      if (s.onMessage m now).2.queue then [m] else [] := rfl
  have hdel : deliveredBy (event step s (.onMessage m now)) =
      if (s.onMessage m now).2.deliver then [m] else [] := rfl
  have htaken : takenBy (event step s (.onMessage m now)) = [] := rfl
  have hletGo : letGoBy (event step s (.onMessage m now)) =
      s.queued.diff (s.onMessage m now).1.queued := rfl
  generalize event step s (.onMessage m now) = e at hheld hdel htaken hletGo ⊢
  generalize (s.onMessage m now).1 = s' at hmoves hcount hletGo ⊢
  generalize (s.onMessage m now).2 = o at hmoves hcount hheld hdel
  have hever : everHeld (h ++ [e]) = everHeld h ++ if o.queue then [m] else [] := by
    simp [everHeld, hheld]
  have hlet : letGo (h ++ [e]) = letGo h ++ s.queued.diff s'.queued := by simp [letGo, hletGo]
  have hrel : everReleased (h ++ [e]) s' = everReleased h s ++ apps ms := by
    simp [everReleased, taken, htaken, hmoves.released]
  have hsource : ∀ q ∈ ms ++ s'.queued, q.seq ≠ maxSeq := by
    intro q hq
    rcases List.mem_append.mp (hmoves.queued.mem_iff.mpr hq) with hq | hq
    · exact hc.noLast q hq
    · split at hq
      · rw [List.mem_singleton.mp hq]
        exact hm
      · simp at hq
  have hms : ∀ q ∈ ms, q.seq ≠ maxSeq := fun q hq => hsource q (List.mem_append_left _ hq)
  obtain ⟨a, ha, hrun⟩ := hmoves.run
  have hrange := hrun.mem_range hms
  refine ⟨fun q hq => hsource q (List.mem_append_right _ hq), ?_, ?_, ?_, ?_, ?_, ?_⟩
  · rw [hever, hlet]
    exact perm_joined hc.held hmoves.queued hmoves.letGo
  · rw [hrel, hlet, apps, List.filter_append]
    exact hc.freed.append (hmoves.letGo.filter _)
  · rw [hrel, List.pairwise_append]
    refine ⟨hc.sorted, (hrun.pairwise hms).filter _, fun p hp q hq => ?_⟩
    exact (hc.below p hp).trans_le (ha.trans (hrange q (List.mem_of_mem_filter hq)).1)
  · rw [hrel]
    intro q hq
    rcases List.mem_append.mp hq with hq | hq
    · exact (hc.below q hq).trans_le (ha.trans (hrun.le hms))
    · exact (hrange q (List.mem_of_mem_filter hq)).2
  · rw [hcount.queuedTotal, hc.queuedTotal, hever, List.length_append, UInt64.ofNat_add]
    cases o.queue <;> rfl
  · obtain ⟨k, hk, hdelivered⟩ := hcount.delivered
    have hkapps : k = (apps ms).length := by
      rw [hmoves.released, List.length_append] at hk
      exact (Nat.add_left_cancel hk).symm
    have hone : (everDelivered (h ++ [e])).length =
        (everDelivered h).length + o.deliver.toNat := by
      simp only [everDelivered, List.flatMap_append, List.flatMap_cons, List.flatMap_nil, hdel,
        List.append_nil, List.length_append]
      cases o.deliver <;> rfl
    rw [hdelivered, hc.delivered, ← UInt64.ofNat_add, hone, hrel, List.length_append, hkapps]
    congr 1
    omega

theorem Conserved.step (hc : Conserved h s) (c : Call)
    (hok : ∀ m now, c = .onMessage m now → m.seq ≠ maxSeq) :
    Conserved (h ++ [event step s c]) (step s c).1 := by
  cases c with
  | beginLogon now => exact hc.still rfl rfl rfl rfl rfl rfl rfl ⟨rfl, rfl⟩
  | claimOutboundSeq => exact hc.still rfl rfl rfl rfl rfl rfl rfl ⟨rfl, rfl⟩
  | takeReleased =>
    exact hc.still rfl rfl rfl rfl rfl rfl (List.append_nil _) ⟨rfl, rfl⟩
  | onClock now =>
    obtain ⟨hn, hq, hr⟩ := onClock_keeps s now
    refine hc.still rfl rfl rfl rfl hq hn hr ?_
    change (s.onClock now).1.stats.queuedTotal = _ ∧ (s.onClock now).1.stats.delivered = _
    unfold onClock
    dsimp only
    split_ifs <;> exact ⟨rfl, rfl⟩
  | onMessage m now => exact hc.message m now (hok m now rfl)

end Step

theorem conserved_run (cfg : Config) (calls : List Call)
    (hcalls : ∀ m now, .onMessage m now ∈ calls → m.seq ≠ maxSeq) :
    Conserved (trace step (new cfg) calls) (exec step (new cfg) calls) := by
  refine history_induction (P := fun _ c => ∀ m now, c = .onMessage m now → m.seq ≠ maxSeq) step
    (fun h s c hok hc => hc.step c hok) (new cfg) (conserved_new cfg) calls ?_
  intro e he m now hinput
  exact hcalls m now (hinput ▸ input_mem_of_mem_trace step (new cfg) calls e he)

/-- **Nothing held vanishes or is counted twice.** Every message has exactly one outcome.
Those ever held are the ones still held and the ones let go of; the application messages
among them are held, released or taken, each in one place and as often as it was held, and
the released ones come in increasing order. Both counters agree with this. -/
theorem held_conserved (cfg : Config) (calls : List Call)
    (hcalls : ∀ m now, .onMessage m now ∈ calls → m.seq ≠ maxSeq) :
    let h := trace step (new cfg) calls
    let s := exec step (new cfg) calls
    (∀ e ∈ h, ∀ m now o, e.input = .onMessage m now → e.output = .outcome o →
      [o.deliver, o.queue, o.drop].count true = 1) ∧
    (s.stats.queuedTotal.toNat = (everHeld h).length % 2 ^ 64 ∧
      (everHeld h).length = s.queued.length + (letGo h).length) ∧
    ((apps (everHeld h)).Perm (apps s.queued ++ (s.released ++ taken h)) ∧
      (taken h ++ s.released).Pairwise fun p q => p.seq < q.seq) ∧
    s.stats.delivered.toNat =
      ((everDelivered h).length + (taken h ++ s.released).length) % 2 ^ 64 := by
  intro h s
  have hc : Conserved h s := conserved_run cfg calls hcalls
  refine ⟨?outcome, ⟨?total, ?count⟩, ⟨?places, hc.sorted⟩, ?delivered⟩
  case outcome =>
    intro e he m now o hinput houtput
    rw [event_of_mem_trace step (new cfg) calls e he, hinput] at houtput
    injection houtput with ho
    rw [← ho]
    exact (onMessage_counted e.pre m now).one
  case total => rw [hc.queuedTotal, UInt64.toNat_ofNat']
  case count => rw [hc.held.length_eq, List.length_append]
  case places =>
    have happs := hc.held.filter fun m => m.admin = .none
    rw [List.filter_append] at happs
    exact happs.trans ((hc.freed.trans List.perm_append_comm).append_left _)
  case delivered =>
    rw [hc.delivered, UInt64.toNat_ofNat']
    rfl

/-- Two copies of 3 and a 4 are held; 2 closes the gap and frees one copy and the 4. -/
def twiceHeld : List Call :=
  [.beginLogon 0, .onMessage { seq := 1, admin := .logon } 0, .onMessage { seq := 3 } 0,
    .onMessage { seq := 3, possDup := true } 0, .onMessage { seq := 4 } 0, .onMessage { seq := 2 } 0]

theorem held_conserved_twiceHeld :
    (everHeld (trace step (new {}) twiceHeld)).length = 3 ∧
    (exec step (new {}) twiceHeld).queued = [{ seq := 3, possDup := true }] ∧
    (exec step (new {}) twiceHeld).released = [{ seq := 3 }, { seq := 4 }] ∧
    (apps (everHeld (trace step (new {}) twiceHeld))).Perm
      (apps (exec step (new {}) twiceHeld).queued ++
        ((exec step (new {}) twiceHeld).released ++ taken (trace step (new {}) twiceHeld))) := by
  refine ⟨by decide, by decide, by decide, (held_conserved {} twiceHeld ?_).2.2.1.1⟩
  intro m now hm
  simp only [twiceHeld, List.mem_cons, Call.onMessage.injEq, List.not_mem_nil, or_false,
    reduceCtorEq, false_or] at hm
  rcases hm with ⟨rfl, -⟩ | ⟨rfl, -⟩ | ⟨rfl, -⟩ | ⟨rfl, -⟩ | ⟨rfl, -⟩ <;> decide

end Lloms.Session
