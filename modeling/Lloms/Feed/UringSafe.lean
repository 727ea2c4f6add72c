import Lloms.Feed.UringBooks

/-! The io_uring loop never touches freed memory. -/
namespace Lloms.Feed.UringLoop
open Lib

namespace Loop

section Steps

variable {s s' : Loop} {rest rest' : Option Ptr → Prop} {loose : Int → Prop} {p : Ptr} {res : Int}

theorem Inv.submitRecv (h : Inv rest loose s) {c : Conn} (hc : s.connAt p = some c)
    (hnobody : ∀ t, s.request t ≠ some (some p)) (hrest : ∀ r, rest r → r = some p ∨ rest' r)
    (hroom : s.sq.length < kQueueDepth) :
    ∃ s', s.submitRecv p = .ok s' ∧ Inv rest' loose s' ∧ Submitted (some p) s s' := by
  have hwatched : s.Watched (some p) := by
    rw [Watched, hc]
    exact Option.some_ne_none c
  rw [Loop.submitRecv, hc]
  exact h.submit (e := ⟨.recv c.fd p, s.fresh⟩) rfl hwatched hnobody hrest hroom

theorem Inv.submitAccept (h : Inv rest loose s) (hnobody : ∀ t, s.request t ≠ some none)
    (hrest : ∀ r, rest r → r = none ∨ rest' r) (hroom : s.sq.length < kQueueDepth) :
    ∃ s', s.submitAccept = .ok s' ∧ Inv rest' loose s' ∧ Submitted none s s' :=
  h.submit (e := ⟨.accept, s.fresh⟩) rfl trivial hnobody hrest hroom

/-- The completion of an accept, once it is seen. -/
theorem Inv.reapAccept (h : Inv (fun r => r = none) (fun fd => res = fd ∧ 0 ≤ fd) s)
    (hstage : s.stage ≠ .closed) (hnobody : ∀ t, s.request t ≠ some none)
    (hfew : s.conns.length < kQueueDepth) (hfewer : 0 ≤ res → s.conns.length + 1 < kQueueDepth) :
    ∃ s', s.reapAccept res = .ok s' ∧ Inv (fun _ => False) (fun _ => False) s' ∧
      s'.stage = s.stage ∧ (∀ fd, ¬ s'.Accepted fd) ∧ s'.conns.length < kQueueDepth ∧
      s.fresh < s'.fresh ∧
      s'.view = if 0 ≤ res then Function.update s.view s.fresh (some ([], [])) else s.view := by
  have hroom : ∀ {s : Loop} {rest loose}, Inv rest loose s → (∀ t, s.request t ≠ some none) →
      s.conns.length < kQueueDepth → s.sq.length < kQueueDepth :=
    fun h hnobody hfew => Nat.lt_of_le_of_lt (h.sq_length_le (r := none) trivial hnobody) hfew
  unfold Loop.reapAccept
  by_cases hres : 0 ≤ res
  · obtain ⟨hemplace, hinv, hfresh⟩ := h.emplace hstage ⟨rfl, hres⟩ hnobody
    set s₁ : Loop := { s with
      conns := s.conns ++ [(res, s.fresh)]
      connAt := Function.update s.connAt s.fresh (some { fd := res }), fresh := s.fresh + 1 }
    have hconn : s₁.connAt s.fresh = some { fd := res } := Function.update_self ..
    have hsq : s.sq.length < kQueueDepth := hroom h hnobody hfew
    obtain ⟨s₂, hrecv, hinv₂, hsub₂⟩ := hinv.submitRecv hconn hfresh
      (fun r hr => hr.symm) hsq
    have hnobody₂ := hsub₂.others none (Option.some_ne_none _).symm hnobody
    have hfew₂ : s₂.conns.length < kQueueDepth := by
      rw [hsub₂.conns]
      simpa [s₁] using hfewer hres
    obtain ⟨s₃, haccept, hinv₃, hsub₃⟩ := hinv₂.submitAccept hnobody₂
      (fun r hr => .inl hr) (hroom hinv₂ hnobody₂ hfew₂)
    refine ⟨s₃, ?_, hinv₃.mono (fun _ => id) fun fd => ?_, ?_, fun fd hacc => ?_, ?_, ?_, ?_⟩
    · rw [if_pos hres, hemplace]
      simp only [hrecv, Except.bind, haccept]
    · exact iff_of_false id fun hfd => hfd.2 hfd.1.1.symm
    · rw [hsub₃.stage, hsub₂.stage]
    · rw [hsub₃.accepted, hsub₂.accepted] at hacc
      exact not_accepted hnobody fd hacc
    · rwa [hsub₃.conns]
    · rw [hsub₃.fresh, hsub₂.fresh]
      exact Nat.lt_succ_of_lt (Nat.lt_succ_of_lt (Nat.lt_succ_self _))
    · rw [if_pos hres, hsub₃.view, hsub₂.view]
      funext p
      by_cases hp : p = s.fresh
      · subst hp
        rw [Function.update_self, view, hconn]
        have hnone : s₁.waiting s.fresh = 0 := by
          refine waiting_of_not fun e _ hop => hfresh e.data ?_
          rw [request, hop]
          rfl
        rw [hnone]
        rfl
      · rw [Function.update_of_ne hp, view, view]
        have hsame : s₁.connAt p = s.connAt p := Function.update_of_ne hp _ _
        rw [hsame]
        rfl
  · obtain ⟨s', haccept, hinv, hsub⟩ := h.submitAccept hnobody
      (fun r hr => .inl hr) (hroom h hnobody hfew)
    refine ⟨s', by rw [if_neg hres, haccept], hinv.mono (fun _ => id) fun fd => ?_, hsub.stage,
      fun fd hacc => ?_, by rwa [hsub.conns], ?_, by rw [if_neg hres, hsub.view]⟩
    · refine iff_of_false id ?_
      rintro ⟨rfl, hfd⟩
      exact hres hfd
    · exact not_accepted hnobody fd ((hsub.accepted fd).mp hacc)
    · rw [hsub.fresh]
      exact Nat.lt_succ_self _

theorem takeData_ok {c : Conn} (hc : s.connAt p = some c) (hsmall : res ≤ kRecvBufSize) :
    let r := takeIn c.partialBytes (c.buf.take res.toNat)
    s.takeData p res = .ok ({ s with
      connAt := Function.update s.connAt p (some { c with partialBytes := r.2 }) }, r.1) := by
  rw [takeData, hc]
  dsimp only
  rw [if_neg (Int.not_lt.mpr hsmall)]

/-- The completion of a recv, once it is seen. -/
theorem Inv.reapRecv (h : Inv (fun r => r = some p) (fun _ => False) s)
    (hstage : s.stage ≠ .closed) {c : Conn} (hc : s.connAt p = some c)
    (hnobody : ∀ t, s.request t ≠ some (some p)) (hfew : s.conns.length < kQueueDepth)
    (hsmall : res ≤ kRecvBufSize) :
    ∃ s' orders, s.reapRecv p res = .ok (s', orders) ∧
      Inv (fun _ => False) (fun _ => False) s' ∧ s'.stage = s.stage ∧
      (∀ fd, s'.Accepted fd ↔ s.Accepted fd) ∧ s'.conns.length ≤ s.conns.length ∧
      s.fresh ≤ s'.fresh ∧
      ((0 < res ∧ orders = (takeIn c.partialBytes (c.buf.take res.toNat)).1 ∧ s'.view =
          Function.update s.view p (some ((takeIn c.partialBytes (c.buf.take res.toNat)).2, []))) ∨
        (res ≤ 0 ∧ orders = [] ∧
          (s'.view = s.view ∨ s'.view = Function.update s.view p none))) := by
  have hwaiting : s.waiting p = 0 := by
    refine waiting_of_not fun e _ hop => hnobody e.data ?_
    rw [request, hop]
    rfl
  have hroom : s.sq.length < kQueueDepth := by
    refine Nat.lt_of_le_of_lt (h.sq_length_le (r := some p) ?_ hnobody) hfew
    rw [Watched, hc]
    exact Option.some_ne_none c
  unfold Loop.reapRecv
  by_cases hpos : res > 0
  · have htake := takeData_ok hc hsmall
    set r := takeIn c.partialBytes (c.buf.take res.toNat)
    have hset := h.setConn hc (show ({ c with partialBytes := r.2 } : Conn).fd = c.fd from rfl)
    obtain ⟨s', hrecv, hinv, hsub⟩ := hset.submitRecv (Function.update_self ..) hnobody
      (fun r hr => .inl hr) hroom
    refine ⟨s', r.1, ?_, hinv, hsub.stage, hsub.accepted, Nat.le_of_eq (by rw [hsub.conns]), ?_,
      .inl ⟨hpos, rfl, ?_⟩⟩
    · rw [if_pos hpos, htake]
      simp only [Except.bind, hrecv, Except.map]
    · rw [hsub.fresh]
      exact Nat.le_succ _
    · rw [hsub.view, view_setConn, hwaiting]
      rfl
  · have hres : res ≤ 0 := Int.not_lt.mp hpos
    by_cases hagain : res = -EAGAIN ∨ res = -EINTR
    · obtain ⟨s', hrecv, hinv, hsub⟩ := h.submitRecv hc hnobody
        (fun r hr => .inl hr) hroom
      refine ⟨s', [], ?_, hinv, hsub.stage, hsub.accepted, Nat.le_of_eq (by rw [hsub.conns]), ?_,
        .inr ⟨hres, rfl, .inl hsub.view⟩⟩
      · rw [if_neg hpos, if_pos hagain, hrecv]
        rfl
      · rw [hsub.fresh]
        exact Nat.le_succ _
    · obtain ⟨hclose, hinv⟩ := h.close hstage hc hnobody fun r hr => .inl hr
      refine ⟨_, [], ?_, hinv, rfl, fun _ => Iff.rfl, List.length_filter_le .., Nat.le_refl _,
        .inr ⟨hres, rfl, .inr ?_⟩⟩
      · rw [if_neg hpos, if_neg hagain, hc]
        dsimp only
        rw [hclose]
        rfl
      · funext p'
        have hkey : (c.fd, p') ∈ s.conns ↔ p' = p := by
          have hmem : (c.fd, p) ∈ s.conns := h.mapped.mpr ⟨c, hc, rfl⟩
          refine ⟨fun hmem' => ?_, fun hp => hp ▸ hmem⟩
          exact congrArg Prod.snd (List.inj_on_of_nodup_map h.keys hmem' hmem rfl)
        by_cases hp : p' = p
        · subst hp
          rw [Function.update_self]
          simp [view, erase, hkey]
        · rw [Function.update_of_ne hp]
          simp only [view, erase, hkey, hp, if_false]
          rfl

end Steps

/-! ## The loop, connection by connection -/

/-- The connections as streams. A `Conn` that is still to come is at `fresh` or later. -/
structure Streams where
  view : Ptr → Option (List UInt8 × List UInt8)
  fresh : Ptr

def streams (s : Loop) : Streams := ⟨s.view, s.fresh⟩

/-- What a step does to the streams. -/
inductive Moves (v : Streams) : Did → Streams → Prop where
  | idle {fresh : Ptr} (hfresh : v.fresh ≤ fresh) : Moves v .quiet ⟨v.view, fresh⟩
  | accepted {fresh : Ptr} (hfresh : v.fresh < fresh) :
      Moves v .quiet ⟨Function.update v.view v.fresh (some ([], [])), fresh⟩
  | received {p : Ptr} {carried : List UInt8} (data : List UInt8)
      (hp : v.view p = some (carried, [])) :
      Moves v (.delivered p data) ⟨Function.update v.view p (some (carried, data)), v.fresh⟩
  | tookIn {p fresh : Ptr} {carried data : List UInt8} (hp : v.view p = some (carried, data))
      (hfresh : v.fresh ≤ fresh) :
      Moves v (.pushed p (takeIn carried data).1)
        ⟨Function.update v.view p (some ((takeIn carried data).2, [])), fresh⟩
  | retried {p fresh : Ptr} (hfresh : v.fresh ≤ fresh) : Moves v (.pushed p []) ⟨v.view, fresh⟩
  | ended {p fresh : Ptr} {carried : List UInt8} (hp : v.view p = some (carried, []))
      (hfresh : v.fresh ≤ fresh) :
      Moves v (.pushed p []) ⟨Function.update v.view p none, fresh⟩
  | late (orders : List Order) : Moves v (.late orders) v

/-- No more than 255 connections are open at a time. -/
def Fits (s : Loop) : Input → Prop
  | .complete _ (.accepted _) => s.conns.length + 1 < kQueueDepth
  | _ => True

instance (s : Loop) : (i : Input) → Decidable (s.Fits i)
  | .complete _ (.accepted _) => inferInstanceAs (Decidable (_ < _))
  | .complete _ (.data _) | .complete _ (.failed _) | .turn _ _ _ | .stop | .finish =>
    .isTrue trivial

def Running (s : Loop) : Prop := s.stage = .waiting ∨ s.stage = .peeking

/-- What holds of the loop in every state. Nothing is submitted in the final drain. -/
structure Safe (s : Loop) : Prop where
  inv : Inv (fun _ => ¬ s.Running) (fun _ => False) s
  few : s.Running → s.conns.length < kQueueDepth
  fewer : s.Running → ∀ fd, s.Accepted fd → s.conns.length + 1 < kQueueDepth

section Steps

variable {s : Loop} {e : Cqe} {p : Ptr} {rest : Option Ptr → Prop} {loose : Int → Prop}

/-- A completion in the loop. -/
theorem Inv.reap (h : Inv (fun _ => False) (fun _ => False) s) (hstage : s.stage ≠ .closed)
    (hcq : s.cq.head? = some e) (hfew : s.conns.length < kQueueDepth)
    (hfewer : ∀ fd, s.Accepted fd → s.conns.length + 1 < kQueueDepth) :
    ∃ s' did, s.reap e = .ok (s', did) ∧ Inv (fun _ => False) (fun _ => False) s' ∧
      s'.stage = s.stage ∧ s'.conns.length < kQueueDepth ∧
      (∀ fd, s'.Accepted fd → s'.conns.length + 1 < kQueueDepth) ∧
      Moves s.streams did s'.streams := by
  have hmem : e ∈ s.cq := List.mem_of_head? hcq
  have hlive : s.opAt e.data ≠ none :=
    h.live.mpr (List.mem_append_right _ (List.mem_map_of_mem hmem))
  obtain ⟨op, hop⟩ := Option.ne_none_iff_exists'.mp hlive
  obtain ⟨hseen, hnobody⟩ := h.seen hcq hop
  have hlt : e.data < s.fresh := by
    refine Nat.lt_of_not_le fun hle => hlive (h.frontier hle).1
  obtain ⟨kind, conn⟩ := op
  cases kind with
  | accept =>
    obtain rfl : conn = none := (h.kinds hop).mp rfl
    have hview := h.view_seen_accept hcq hop
    have hinv : Inv (fun r => r = none) (fun fd => e.res = fd ∧ 0 ≤ fd) (s.seen e) :=
      hseen.mono (fun r hr => hr.resolve_left id) fun fd => by simp
    obtain ⟨s', hreap, hinv', hstage', hnone, hfew', hfresh, hview'⟩ :=
      hinv.reapAccept hstage hnobody hfew fun hres => hfewer e.res ⟨e, hmem, hop, rfl, hres⟩
    refine ⟨s', .quiet, ?_, hinv', hstage', hfew', fun fd hacc => absurd hacc (hnone fd), ?_⟩
    · rw [← reapAccept_seen hlt] at hreap
      simp only [Loop.reap, hop]
      cases hs : s.reapAccept e.res with
      | error f => simp [hs, Except.map] at hreap
      | ok s₁ =>
        rw [hs] at hreap
        rw [← Except.ok.inj hreap]
        rfl
    · rw [streams, streams, hview', hview]
      split_ifs
      · exact .accepted hfresh
      · exact .idle (Nat.le_of_lt hfresh)
  | recv =>
    have hconn : conn ≠ none := fun hnone => by cases (h.kinds hop).mpr hnone
    obtain ⟨p, rfl⟩ := Option.ne_none_iff_exists'.mp hconn
    obtain ⟨c, hc, hold, hview⟩ := h.view_seen_recv hcq hop
    have hinv : Inv (fun r => r = some p) (fun _ => False) (s.seen e) :=
      hseen.mono (fun r hr => hr.resolve_left id) fun fd => by simp
    obtain ⟨s', orders, hreap, hinv', hstage', hacc, hconns, hfresh, hview'⟩ :=
      hinv.reapRecv hstage hc hnobody hfew (h.small hmem hop)
    have hfewer' : ∀ fd, s'.Accepted fd → s'.conns.length + 1 < kQueueDepth := fun fd hfd =>
      Nat.lt_of_le_of_lt (Nat.succ_le_succ hconns)
        (hfewer fd (accepted_of_seen ((hacc fd).mp hfd)))
    refine ⟨s', .pushed p orders, ?_, hinv', hstage', Nat.lt_of_le_of_lt hconns hfew, hfewer', ?_⟩
    · rw [← reapRecv_seen hlt] at hreap
      simp only [Loop.reap, hop]
      cases hs : s.reapRecv p e.res with
      | error f => simp [hs, Except.map] at hreap
      | ok r =>
        rw [hs] at hreap
        obtain ⟨rfl, rfl⟩ := Prod.mk.inj (Except.ok.inj hreap)
        rfl
    · rw [streams, streams]
      rcases hview' with ⟨-, rfl, hview'⟩ | ⟨hneg, rfl, hview'⟩
      · rw [hview', hview, Function.update_idem]
        exact .tookIn hold hfresh
      · have hnil : c.buf.take e.res.toNat = [] := by
          rw [Int.toNat_of_nonpos hneg, List.take_zero]
        rw [hnil] at hold
        rcases hview' with hview' | hview'
        · rw [hview', hview, ← hold, Function.update_eq_self]
          exact .retried hfresh
        · rw [hview', hview, Function.update_idem]
          exact .ended hold hfresh

/-- A completion in the final drain. -/
theorem Inv.drain (h : Inv (fun _ => True) (fun _ => False) s) (hstage : s.stage ≠ .closed)
    (hcq : s.cq.head? = some e) (reads : List (List UInt8)) :
    ∃ s' did, s.drain e reads = .ok (s', did) ∧ Inv (fun _ => True) (fun _ => False) s' ∧
      s'.stage = s.stage ∧ Moves s.streams did s'.streams := by
  have hmem : e ∈ s.cq := List.mem_of_head? hcq
  have hlive : s.opAt e.data ≠ none :=
    h.live.mpr (List.mem_append_right _ (List.mem_map_of_mem hmem))
  obtain ⟨op, hop⟩ := Option.ne_none_iff_exists'.mp hlive
  obtain ⟨hseen, hnobody⟩ := h.seen hcq hop
  obtain ⟨kind, conn⟩ := op
  cases kind with
  | accept =>
    obtain rfl : conn = none := (h.kinds hop).mp rfl
    have hview := h.view_seen_accept hcq hop
    by_cases hres : e.res ≥ 0
    · have hinv : Inv (fun _ => True) (fun fd => fd = e.res) (s.seen e) := by
        refine hseen.mono (fun _ _ => trivial) fun fd => ?_
        simp only [true_and, false_or]
        exact ⟨fun hfd => ⟨hfd.symm, hfd ▸ hres⟩, fun hfd => hfd.1.symm⟩
      obtain ⟨hclose, hinv'⟩ := hinv.closeLoose hstage (fun _ => Iff.rfl) hnobody
      refine ⟨_, .late (lateOrders [] reads), ?_, hinv', rfl, ?_⟩
      · simp only [Loop.drain, hop, if_pos hres]
        have hopen : s.opened e.res = true := by
          by_contra hno
          rw [closeFd, if_neg (show ¬ (s.seen e).opened e.res = true from hno)] at hclose
          cases hclose
        rw [closeFd, if_pos hopen]
        rfl
      · have hsame : ({ s.seen e with opened := Function.update (s.seen e).opened e.res false } :
            Loop).streams = s.streams := by
          rw [streams, streams, ← hview]
          rfl
        rw [hsame]
        exact .late _
    · have hinv : Inv (fun _ => True) (fun _ => False) (s.seen e) := by
        refine hseen.mono (fun _ _ => trivial) fun fd => ?_
        simp only [true_and, false_or, false_iff, not_and]
        rintro rfl
        exact hres
      refine ⟨s.seen e, .quiet, by simp only [Loop.drain, hop, if_neg hres], hinv, rfl, ?_⟩
      rw [streams, streams, hview]
      exact .idle (Nat.le_refl _)
  | recv =>
    have hconn : conn ≠ none := fun hnone => by cases (h.kinds hop).mpr hnone
    obtain ⟨p, rfl⟩ := Option.ne_none_iff_exists'.mp hconn
    obtain ⟨c, hc, hold, hview⟩ := h.view_seen_recv hcq hop
    have hinv : Inv (fun _ => True) (fun _ => False) (s.seen e) :=
      hseen.mono (fun _ _ => trivial) fun fd => by simp
    have hwaiting : (s.seen e).waiting p = 0 := by rw [h.waiting_seen hcq hop, if_pos rfl]
    by_cases hres : e.res > 0
    · have htake := takeData_ok hc (h.small hmem hop)
      set r := takeIn c.partialBytes (c.buf.take e.res.toNat)
      have hset := hinv.setConn (p := p) (c := c) hc
        (show ({ c with partialBytes := r.2 } : Conn).fd = c.fd from rfl)
      refine ⟨_, .pushed p r.1, ?_, hset, rfl, ?_⟩
      · simp only [Loop.drain, hop, if_pos hres, htake]
        rfl
      · rw [streams, streams, view_setConn, hview, Function.update_idem, hwaiting]
        exact .tookIn hold (Nat.le_refl _)
    · refine ⟨s.seen e, .quiet, by simp only [Loop.drain, hop, if_neg hres], hinv, rfl, ?_⟩
      rw [Int.toNat_of_nonpos (Int.not_lt.mp hres), List.take_zero] at hold
      rw [streams, streams, hview, ← hold, Function.update_eq_self]
      exact .idle (Nat.le_refl _)

/-- The kernel has nothing for a request. -/
theorem Inv.refuse (h : Inv rest loose s) {i : Nat} {e : Sqe} (hi : s.flight[i]? = some e)
    {res : Int} (hres : res < 0) :
    let s' := { s with flight := s.flight.eraseIdx i, cq := s.cq ++ [⟨e.data, res⟩] }
    Inv rest loose s' ∧ Moves s.streams .quiet s'.streams ∧
      ∀ fd, s'.Accepted fd → s.Accepted fd := by
  intro s'
  have hno : ∀ fd, ¬ (e.op.kind = .accept ∧ res = fd ∧ 0 ≤ fd) := by
    rintro fd ⟨-, rfl, hpos⟩
    exact Int.not_lt.mpr hpos hres
  obtain ⟨hinv, hbefore, hafter, hacc⟩ := h.answer hi s.opened
    (fun _ => Int.le_trans (Int.le_of_lt hres) (Int.natCast_nonneg _))
    (fun fd => (or_iff_left (hno fd)).symm) fun _ hpos => absurd hres (Int.not_lt.mpr hpos)
  refine ⟨hinv, ?_, fun fd hfd => ((hacc fd).mp hfd).resolve_right (hno fd)⟩
  have hwaiting : s'.waiting = s.waiting := by
    rw [Int.toNat_of_nonpos (Int.le_of_lt hres), ← hbefore] at hafter
    exact hafter
  have hview : s'.view = s.view := by
    funext p
    rw [view, view, hwaiting]
  rw [streams, streams, hview]
  exact .idle (Nat.le_refl _)

/-- The kernel accepts a connection. -/
theorem Inv.acceptOne (h : Inv rest loose s) {i : Nat} {t : Ptr}
    (hi : s.flight[i]? = some ⟨.accept, t⟩) {fd : Nat} (hopen : s.opened fd = false) :
    let s' := { s with
      flight := s.flight.eraseIdx i, cq := s.cq ++ [⟨t, fd⟩]
      opened := Function.update s.opened fd true }
    Inv rest loose s' ∧ Moves s.streams .quiet s'.streams := by
  intro s'
  have hopened : ∀ fd', Function.update s.opened fd true fd' = true ↔ s.opened fd' = true ∨
      ((Sqe.op ⟨.accept, t⟩).kind = .accept ∧ (fd : Int) = fd' ∧ 0 ≤ fd') := by
    intro fd'
    by_cases hfd : fd' = fd
    · subst hfd
      exact iff_of_true (Function.update_self ..) (.inr ⟨rfl, rfl, Int.natCast_nonneg _⟩)
    · rw [Function.update_of_ne hfd]
      exact (or_iff_left fun hnew => hfd hnew.2.1.symm).symm
  obtain ⟨hinv, -, hafter, -⟩ := h.answer hi _ (fun hk => by cases hk) hopened fun _ _ => hopen
  have hwaiting : s'.waiting = s.waiting := hafter
  have hview : s'.view = s.view := by
    funext p
    rw [view, view, hwaiting]
  refine ⟨hinv, ?_⟩
  rw [streams, streams, hview]
  exact .idle (Nat.le_refl _)

/-- The kernel fills a buffer, and the `Conn` it is in is still there. -/
theorem Inv.receive (h : Inv rest loose s) {i : Nat} {fd : Int} {t : Ptr}
    (hi : s.flight[i]? = some ⟨.recv fd p, t⟩) {data : List UInt8}
    (hlen : data.length ≤ kRecvBufSize) :
    ∃ c, s.connAt p = some c ∧
      let c' := { c with buf := data ++ c.buf.drop data.length }
      let s' := { s with
        flight := s.flight.eraseIdx i, cq := s.cq ++ [⟨t, data.length⟩]
        connAt := Function.update s.connAt p (some c') }
      Inv rest loose s' ∧ Moves s.streams (.delivered p data) s'.streams ∧
        ∀ fd, s'.Accepted fd → s.Accepted fd := by
  have hop := h.asked (List.mem_append_right _ (List.mem_of_getElem? hi))
  have hwatched : s.Watched (some p) := by
    refine h.requests.taken_of_has (h := t) ?_
    rw [request, hop]
    rfl
  obtain ⟨c, hc⟩ := Option.ne_none_iff_exists'.mp hwatched
  have hno : ∀ fd', ¬ ((Sqe.op ⟨.recv fd p, t⟩).kind = .accept ∧
      (data.length : Int) = fd' ∧ 0 ≤ fd') :=
    fun fd' hk => by cases hk.1
  obtain ⟨hinv, hbefore, hafter, hacc⟩ := h.answer hi s.opened
    (fun _ => Int.ofNat_le.mpr hlen) (fun fd' => (or_iff_left (hno fd')).symm) fun hk => by cases hk
  refine ⟨c, hc, hinv.setConn hc rfl, ?_,
    fun fd' hfd => ((hacc fd').mp hfd).resolve_right (hno fd')⟩
  let s₁ : Loop := { s with flight := s.flight.eraseIdx i, cq := s.cq ++ [⟨t, data.length⟩] }
  have hnone : s.waiting p = 0 := (congrFun hbefore p).trans (if_pos rfl)
  have hfilled : s₁.waiting p = data.length := (congrFun hafter p).trans (if_pos rfl)
  have hothers : ∀ p', p' ≠ p → s₁.waiting p' = s.waiting p' := fun p' hp =>
    (congrFun hafter p').trans (if_neg fun heq => hp (Option.some.inj heq).symm)
  have hview : s₁.view =
      Function.update s.view p (some (c.partialBytes, c.buf.take data.length)) := by
    funext p'
    by_cases hp : p' = p
    · subst hp
      rw [view_eq (s := s₁) hc, hfilled, Function.update_self]
    · rw [Function.update_of_ne hp, view, view, hothers p' hp]
  have hview' := view_setConn (s := s₁) (p := p) { c with buf := data ++ c.buf.drop data.length }
  rw [hview, Function.update_idem, hfilled, List.take_left] at hview'
  have hold : s.view p = some (c.partialBytes, []) := by
    rw [view_eq hc, hnone]
    rfl
  have hmoves := Moves.received (v := s.streams) data hold
  exact (congrArg (fun v => Moves s.streams (.delivered p data) ⟨v, s.fresh⟩) hview').mpr hmoves

/-- The kernel answers a request. -/
theorem Inv.complete (h : Inv rest loose s) {i : Nat} {e : Sqe} (hi : s.flight[i]? = some e)
    (reply : Reply) :
    let r := Loop.complete { s with flight := s.flight.eraseIdx i } e reply
    Inv rest loose r.1 ∧ r.1.stage = s.stage ∧ r.1.conns = s.conns ∧
      Moves s.streams r.2 r.1.streams ∧
      ∀ fd, r.1.Accepted fd → s.Accepted fd ∨ ∃ fd, reply = .accepted fd := by
  intro r
  have hrefused : ∀ {res : Int}, res < 0 →
      r = ({ s with flight := s.flight.eraseIdx i, cq := s.cq ++ [⟨e.data, res⟩] }, .quiet) →
      Inv rest loose r.1 ∧ r.1.stage = s.stage ∧ r.1.conns = s.conns ∧
        Moves s.streams r.2 r.1.streams ∧
        ∀ fd, r.1.Accepted fd → s.Accepted fd ∨ ∃ fd, reply = .accepted fd := by
    intro res hres hr
    obtain ⟨hinv, hmoves, hacc⟩ := h.refuse hi hres
    rw [hr]
    exact ⟨hinv, rfl, rfl, hmoves, fun fd hfd => .inl (hacc fd hfd)⟩
  obtain ⟨wanted, t⟩ := e
  cases wanted with
  | accept =>
    cases reply with
    | accepted fd =>
      by_cases hopen : s.opened fd = true
      · exact hrefused (show (-24 : Int) < 0 by decide)
          (by simp only [r, Loop.complete, if_pos hopen])
      · obtain ⟨hinv, hmoves⟩ := h.acceptOne hi (Bool.eq_false_iff.mpr hopen)
        have hr : r = ({ s with
            flight := s.flight.eraseIdx i, cq := s.cq ++ [⟨t, fd⟩]
            opened := Function.update s.opened fd true }, .quiet) := by
          simp only [r, Loop.complete, if_neg hopen]
        rw [hr]
        exact ⟨hinv, rfl, rfl, hmoves, fun fd' _ => .inr ⟨fd, rfl⟩⟩
    | data bytes => exact hrefused (show (-22 : Int) < 0 by decide) rfl
    | failed errno => exact hrefused (show -((errno : Int) + 1) < 0 by omega) rfl
  | recv fd p =>
    cases reply with
    | accepted fd => exact hrefused (show (-22 : Int) < 0 by decide) rfl
    | data bytes =>
      obtain ⟨c, hc, hinv, hmoves, hacc⟩ := h.receive hi
        (show (bytes.take kRecvBufSize).length ≤ kRecvBufSize from List.length_take_le ..)
      have hr : r = ({ s with
          flight := s.flight.eraseIdx i, cq := s.cq ++ [⟨t, (bytes.take kRecvBufSize).length⟩]
          connAt := Function.update s.connAt p (some { c with
            buf := bytes.take kRecvBufSize ++ c.buf.drop (bytes.take kRecvBufSize).length }) },
          .delivered p (bytes.take kRecvBufSize)) := by
        simp only [r, Loop.complete, hc]
      rw [hr]
      exact ⟨hinv, rfl, rfl, hmoves, fun fd' hfd => .inl (hacc fd' hfd)⟩
    | failed errno => exact hrefused (show -((errno : Int) + 1) < 0 by omega) rfl

/-- The map is closed, each descriptor once. -/
theorem closeAll_ok (l : List (Int × Ptr)) {s : Loop} (hopen : ∀ e ∈ l, s.opened e.1 = true)
    (hkeys : (l.map Prod.fst).Nodup) :
    ∃ opened, s.closeAll l = .ok { s with opened } ∧
      ∀ fd, opened fd = true ↔ s.opened fd = true ∧ ∀ p, (fd, p) ∉ l := by
  induction l generalizing s with
  | nil => exact ⟨s.opened, rfl, fun fd => by simp⟩
  | cons e l ih =>
    obtain ⟨fd, p⟩ := e
    rw [List.map_cons, List.nodup_cons] at hkeys
    let s₁ : Loop := { s with opened := Function.update s.opened fd false }
    have hclose : s.closeFd fd = .ok s₁ := by
      rw [closeFd, if_pos (hopen (fd, p) List.mem_cons_self)]
    have hother : ∀ e ∈ l, s₁.opened e.1 = true := by
      intro e he
      have hne : e.1 ≠ fd := fun heq => hkeys.1 (List.mem_map.mpr ⟨e, he, heq⟩)
      exact (Function.update_of_ne hne _ _).trans (hopen e (List.mem_cons_of_mem _ he))
    obtain ⟨opened, hall, hrest⟩ := ih hother hkeys.2
    refine ⟨opened, by rw [closeAll, hclose]; exact hall, fun fd' => (hrest fd').trans ?_⟩
    by_cases hfd : fd' = fd
    · subst hfd
      refine iff_of_false (fun h => ?_) fun h => h.2 p List.mem_cons_self
      simp [s₁] at h
    · have hsame : s₁.opened fd' = s.opened fd' := Function.update_of_ne hfd _ _
      simp [hsame, hfd]

theorem Safe.complete (h : Safe s) {i : Nat} {reply : Reply} (hfits : s.Fits (.complete i reply)) :
    Safe (s.step (.complete i reply)).1 ∧
      Moves s.streams (s.step (.complete i reply)).2 (s.step (.complete i reply)).1.streams := by
  cases hi : s.flight[i]? with
  | none =>
    have hstep : s.step (.complete i reply) = (s, .quiet) := by simp only [Loop.step, hi]
    rw [hstep]
    exact ⟨h, .idle (Nat.le_refl _)⟩
  | some e =>
    obtain ⟨hinv, hstage, hconns, hmoves, hacc⟩ := h.inv.complete hi reply
    have hstep : s.step (.complete i reply) =
        Loop.complete { s with flight := s.flight.eraseIdx i } e reply := by
      simp only [Loop.step, hi]
    rw [hstep]
    set r := Loop.complete { s with flight := s.flight.eraseIdx i } e reply
    have hrun : r.1.Running ↔ s.Running := by rw [Running, Running, hstage]
    refine ⟨⟨hinv.mono (fun _ hr => mt hrun.mp hr) fun _ => Iff.rfl, fun hr => ?_,
      fun hr fd hfd => ?_⟩, hmoves⟩
    · rw [hconns]
      exact h.few (hrun.mp hr)
    · rw [hconns]
      rcases hacc fd hfd with hold | ⟨fd, rfl⟩
      · exact h.fewer (hrun.mp hr) fd hold
      · exact hfits

/-- The loop looks at a completion. -/
theorem Safe.reap (h : Safe s) (hrun : s.Running) (hcq : s.cq.head? = some e) :
    let r := s.orFault .peeking (s.reap e)
    Safe r.1 ∧ Moves s.streams r.2 r.1.streams := by
  intro r
  have hopen : s.stage ≠ .closed := by rcases hrun with hstage | hstage <;> rw [hstage] <;> decide
  obtain ⟨s', did, hreap, hinv, hstage, hfew, hfewer, hmoves⟩ :=
    (h.inv.mono (fun _ hr => hr hrun) fun _ => Iff.rfl).reap hopen hcq (h.few hrun) (h.fewer hrun)
  have hr : r = ({ s' with stage := .peeking }, did) := by
    simp only [r, hreap]
    rfl
  have hinv' := hinv.setStage .peeking (by decide) (hstage ▸ hopen)
  rw [hr]
  exact ⟨⟨hinv'.mono (fun _ => False.elim) fun _ => Iff.rfl, fun _ => hfew, fun _ => hfewer⟩,
    hmoves⟩

theorem Safe.drain (h : Safe s) (hstage : s.stage = .draining) (hcq : s.cq.head? = some e)
    (reads : List (List UInt8)) :
    let r := s.orFault .draining (s.drain e reads)
    Safe r.1 ∧ Moves s.streams r.2 r.1.streams := by
  intro r
  have hopen : s.stage ≠ .closed := by rw [hstage]; decide
  obtain ⟨s', did, hdrain, hinv, hstage', hmoves⟩ :=
    (h.inv.mono (fun _ _ => trivial) fun _ => Iff.rfl).drain hopen hcq reads
  have hr : r = ({ s' with stage := .draining }, did) := by
    simp only [r, hdrain]
    rfl
  rw [hr]
  have hinv' := hinv.setStage .draining (by decide) (hstage' ▸ hopen)
  have hrun : ¬ Running { s' with stage := .draining } := by simp [Running]
  exact ⟨⟨hinv'.mono (fun _ _ => hrun) fun _ => Iff.rfl, fun hr => absurd hr hrun,
    fun hr => absurd hr hrun⟩, hmoves⟩

theorem Safe.turn (h : Safe s) (sees : Bool) (taken : Nat) (reads : List (List UInt8)) :
    Safe (s.turn sees taken reads).1 ∧
      Moves s.streams (s.turn sees taken reads).2 (s.turn sees taken reads).1.streams := by
  have hidle : Safe s ∧ Moves s.streams .quiet s.streams := ⟨h, .idle (Nat.le_refl _)⟩
  have hhead : ∀ {e}, (if sees then s.cq.head? else none) = some e → s.cq.head? = some e := by
    intro e he
    cases sees with
    | false => cases he
    | true => exact he
  unfold Loop.turn
  cases hstage : s.stage with
  | waiting =>
    cases hsee : (if sees then s.cq.head? else none) with
    | none => exact hidle
    | some e => exact h.reap (.inl hstage) (hhead hsee)
  | peeking =>
    cases hsee : (if sees then s.cq.head? else none) with
    | none =>
      have hrun : s.Running := .inr hstage
      have hinv := h.inv.ioUringSubmit (by rw [hstage]; decide) taken
      exact ⟨⟨hinv.mono (fun _ hr => absurd hrun hr) fun _ => Iff.rfl, fun _ => h.few hrun,
        fun _ => h.fewer hrun⟩, .idle (Nat.le_refl _)⟩
    | some e => exact h.reap (.inr hstage) (hhead hsee)
  | draining =>
    cases hsee : (if sees then s.cq.head? else none) with
    | none => exact hidle
    | some e => exact h.drain hstage (hhead hsee) reads
  | closed => exact hidle

theorem Safe.finish (h : Safe s) (hstage : s.stage = .draining) :
    ∃ opened, s.step .finish = ({ s with opened, stage := .closed }, .quiet) ∧
      Safe { s with opened, stage := .closed } := by
  have hopen : s.stage ≠ .closed := by rw [hstage]; decide
  obtain ⟨opened, hall, hrest⟩ := closeAll_ok s.conns
    (fun e he => (h.inv.opened e.1).mpr (.inl ⟨hopen, e.2, he⟩)) h.inv.keys
  have hrun : ¬ Running { s with opened, stage := .closed } := by simp [Running]
  refine ⟨opened, by simp only [Loop.step, hstage, if_true, hall]; rfl, ⟨?_,
    fun hr => absurd hr hrun, fun hr => absurd hr hrun⟩⟩
  have hinv : Inv (fun _ => True) (fun _ => False) s :=
    h.inv.mono (fun _ _ => trivial) fun _ => Iff.rfl
  refine { hinv with
    requests := h.inv.requests.mono_rest fun _ _ => hrun
    opened := fun fd => (hrest fd).trans ?_, apart := fun hno => absurd rfl hno }
  rw [h.inv.opened]
  constructor
  · rintro ⟨⟨-, p, hmem⟩ | hacc | hno, hout⟩
    · exact absurd hmem (hout p)
    · exact .inr (.inl hacc)
    · exact hno.elim
  · rintro (⟨hno, -⟩ | hacc | hno)
    · exact absurd rfl hno
    · exact ⟨.inr (.inl hacc), fun p => h.inv.apart hopen fd p (.inl hacc)⟩
    · exact hno.elim

/-- One step of the loop or the kernel. -/
theorem Safe.step (h : Safe s) {i : Input} (hfits : s.Fits i) :
    Safe (s.step i).1 ∧ Moves s.streams (s.step i).2 (s.step i).1.streams := by
  have hidle : Safe s ∧ Moves s.streams .quiet s.streams := ⟨h, .idle (Nat.le_refl _)⟩
  cases i with
  | complete i reply => exact h.complete hfits
  | turn sees taken reads => exact h.turn sees taken reads
  | stop =>
    rw [Loop.step]
    split_ifs with hstage
    · have hinv := h.inv.setStage .draining (by decide) (by rw [hstage]; decide)
      have hrun : ¬ Running { s with stage := .draining } := by simp [Running]
      exact ⟨⟨hinv.mono (fun _ _ => hrun) fun _ => Iff.rfl, fun hr => absurd hr hrun,
        fun hr => absurd hr hrun⟩, .idle (Nat.le_refl _)⟩
    · exact hidle
  | finish =>
    by_cases hstage : s.stage = .draining
    · obtain ⟨opened, hstep, hsafe⟩ := h.finish hstage
      rw [hstep]
      exact ⟨hsafe, .idle (Nat.le_refl _)⟩
    · have hstep : s.step .finish = (s, .quiet) := by simp only [Loop.step, if_neg hstage]
      rw [hstep]
      exact hidle

theorem safe_start : Safe start := by
  have hop : ∀ t op, start.opAt t = some op ↔ t = 0 ∧ op = ⟨.accept, none⟩ := by
    intro t op
    by_cases ht : t = 0 <;> simp [start, ht, eq_comm]
  have hlive : ∀ t, start.opAt t ≠ none ↔ t ∈ start.tags := by
    intro t
    by_cases ht : t = 0 <;> simp [Loop.tags, start, ht]
  have hrequest : ∀ t r, start.request t = some r ↔ t = 0 ∧ r = none := by
    intro t r
    simp only [request, Option.map_eq_some_iff, hop]
    constructor
    · rintro ⟨op, ⟨rfl, rfl⟩, rfl⟩
      exact ⟨rfl, rfl⟩
    · rintro ⟨rfl, rfl⟩
      exact ⟨_, ⟨rfl, rfl⟩, rfl⟩
  have hwatched : ∀ r, start.Watched r → r = none := by
    rintro (_ | p) hr
    · rfl
    · exact absurd rfl hr
  have haccepted : ∀ fd, ¬ start.Accepted fd := by
    rintro fd ⟨e, he, -⟩
    cases he
  refine ⟨⟨⟨fun {t r} hr => ?_, fun hr hr' => ?_, fun {r} hr => .inl ⟨0, ?_⟩⟩, by decide,
    fun {t} => hlive t, fun {e} he => ?_, fun {t op} ht => ?_, fun {t} ht => ⟨?_, rfl⟩,
    fun {fd p} => ?_, List.nodup_nil, fun fd => ?_, fun _ fd p _ hmem => ?_, fun {e p} he => ?_⟩,
    fun _ => by decide, fun _ fd hacc => absurd hacc (haccepted fd)⟩
  · rw [((hrequest t r).mp hr).2]
    trivial
  · rw [((hrequest _ _).mp hr).1, ((hrequest _ _).mp hr').1]
  · exact (hrequest 0 r).mpr ⟨rfl, hwatched r hr⟩
  · obtain rfl : e = ⟨.accept, 0⟩ := by simpa [start] using he
    rfl
  · rw [((hop t op).mp ht).2]
    simp
  · by_contra hne
    have hzero : t = 0 := by simpa [Loop.tags, start] using (hlive t).mp hne
    subst hzero
    exact absurd ht (by decide)
  · refine iff_of_false List.not_mem_nil ?_
    rintro ⟨c, hc, -⟩
    cases hc
  · refine iff_of_false Bool.false_ne_true ?_
    rintro (⟨-, p, hmem⟩ | hacc | hno)
    · cases hmem
    · exact haccepted fd hacc
    · exact hno
  · cases hmem
  · cases he

end Steps

/-- A connection comes, sends a byte and goes, and comes again when the loop is told
to stop. -/
def session : List Input :=
  [.turn false 1 [], .complete 0 (.accepted 5), .turn true 0 [], .turn false 2 [],
    .complete 0 (.data [1]), .turn true 0 [], .turn false 1 [], .complete 1 (.data []),
    .turn true 0 [], .turn false 0 [], .complete 0 (.accepted 5), .stop, .turn true 0 [[7]],
    .finish]

end Loop

end Lloms.Feed.UringLoop
