import Mathlib.Data.List.Find
import Mathlib.Data.List.Nodup
import Mathlib.Data.List.Perm.Subperm
import Lloms.Feed.UringMemory

/-! What the io_uring loop has to keep track of. Every live `Op` is outstanding exactly
once; there is one accept, and one recv for each `Conn` in the map; and the descriptors
that are open are those of the map and one that was just accepted. Each helper keeps
these books. -/
namespace Lloms.Feed.UringLoop
open Lib

/-- The `Op` that goes with a submission. -/
def Sqe.op (e : Sqe) : Op :=
  match e.wanted with
  | .accept => ⟨.accept, none⟩
  | .recv _ p => ⟨.recv, some p⟩

namespace Loop

/-- The tags of all requests that are outstanding, a completion that was not seen
included. -/
def tags (s : Loop) : List Ptr := s.sq.map Sqe.data ++ s.flight.map Sqe.data ++ s.cq.map Cqe.data

/-- What a tag's request is for: the listening socket, or a `Conn`. -/
def request (s : Loop) (t : Ptr) : Option (Option Ptr) := (s.opAt t).map Op.conn

/-- What there are requests for. -/
def Watched (s : Loop) : Option Ptr → Prop
  | none => True
  | some p => s.connAt p ≠ none

/-- The descriptor of an accept that has completed and was not seen. -/
def Accepted (s : Loop) (fd : Int) : Prop :=
  ∃ e ∈ s.cq, s.opAt e.data = some ⟨.accept, none⟩ ∧ e.res = fd ∧ 0 ≤ fd

/-- The descriptor of a connection that was not closed. -/
def Mapped (s : Loop) (fd : Int) : Prop := s.stage ≠ .closed ∧ ∃ p, (fd, p) ∈ s.conns

/-- What holds between any two steps of the loop. `rest` is what has no request now,
`loose` a descriptor that is in the loop's hands. -/
structure Inv (rest : Option Ptr → Prop) (loose : Int → Prop) (s : Loop) : Prop where
  requests : Accounted s.Watched s.request rest
  tags : s.tags.Nodup
  live : ∀ {t}, s.opAt t ≠ none ↔ t ∈ s.tags
  asked : ∀ {e}, e ∈ s.sq ++ s.flight → s.opAt e.data = some e.op
  kinds : ∀ {t op}, s.opAt t = some op → (op.kind = .accept ↔ op.conn = none)
  frontier : ∀ {t}, s.fresh ≤ t → s.opAt t = none ∧ s.connAt t = none
  mapped : ∀ {fd p}, (fd, p) ∈ s.conns ↔ ∃ c, s.connAt p = some c ∧ c.fd = fd
  keys : (s.conns.map Prod.fst).Nodup
  opened : ∀ fd, s.opened fd = true ↔ s.Mapped fd ∨ s.Accepted fd ∨ loose fd
  apart : s.stage ≠ .closed → ∀ fd p, s.Accepted fd ∨ loose fd → (fd, p) ∉ s.conns
  small : ∀ {e p}, e ∈ s.cq → s.opAt e.data = some ⟨.recv, some p⟩ → e.res ≤ kRecvBufSize

/-- How much of the buffer of `p` a recv has filled and the loop has not looked at. -/
def waiting (s : Loop) (p : Ptr) : Nat :=
  ((s.cq.find? fun e => s.opAt e.data = some ⟨.recv, some p⟩).map fun e => e.res.toNat).getD 0

/-- A `Conn` as a stream: the bytes carried over, and those that wait in its buffer. -/
def view (s : Loop) (p : Ptr) : Option (List UInt8 × List UInt8) :=
  (s.connAt p).map fun c => (c.partialBytes, c.buf.take (s.waiting p))

/-- What a submission for `r` leaves as it was. -/
structure Submitted (r : Option Ptr) (s s' : Loop) : Prop where
  conns : s'.conns = s.conns
  connAt : s'.connAt = s.connAt
  stage : s'.stage = s.stage
  fresh : s'.fresh = s.fresh + 1
  accepted : ∀ fd, s'.Accepted fd ↔ s.Accepted fd
  waiting : s'.waiting = s.waiting
  others : ∀ r', r' ≠ r → (∀ t, s.request t ≠ some r') → ∀ t, s'.request t ≠ some r'

theorem Submitted.view {r : Option Ptr} {s s' : Loop} (h : Submitted r s s') :
    s'.view = s.view := by
  funext p
  rw [Loop.view, h.connAt, h.waiting]
  rfl

section Lemmas

variable {s s' : Loop} {rest rest' : Option Ptr → Prop} {loose : Int → Prop} {p : Ptr} {fd : Int}

/-- The queue holds at most one submission for each thing that is watched, but for
one that has no request. -/
theorem Inv.sq_length_le (h : Inv rest loose s) {r : Option Ptr} (hwatched : s.Watched r)
    (hnobody : ∀ t, s.request t ≠ some r) : s.sq.length ≤ s.conns.length := by
  let watched : List (Option Ptr) := none :: s.conns.map fun e => some e.2
  have hmem : ∀ r, s.Watched r → r ∈ watched := by
    rintro (_ | p) hr
    · exact List.mem_cons_self
    · obtain ⟨c, hc⟩ := Option.ne_none_iff_exists'.mp hr
      refine List.mem_cons_of_mem _ (List.mem_map.mpr ⟨(c.fd, p), h.mapped.mpr ⟨c, hc, rfl⟩, rfl⟩)
  have hrequest : ∀ e ∈ s.sq, s.request e.data = some e.op.conn := fun e he => by
    rw [request, h.asked (List.mem_append_left _ he)]
    rfl
  have hnodup : (r :: s.sq.map fun e => e.op.conn).Nodup := by
    refine List.nodup_cons.mpr ⟨fun hr => ?_, ?_⟩
    · obtain ⟨e, he, rfl⟩ := List.mem_map.mp hr
      exact hnobody e.data (hrequest e he)
    · have htags : (s.sq.map Sqe.data).Nodup :=
        (List.nodup_append.mp (List.nodup_append.mp h.tags).1).1
      refine List.Nodup.map_on (fun e he e' he' heq => ?_) (List.Nodup.of_map _ htags)
      have hsame : e.data = e'.data :=
        h.requests.once (hrequest e he) (heq ▸ hrequest e' he')
      exact List.inj_on_of_nodup_map htags he he' hsame
  have hsub : (r :: s.sq.map fun e => e.op.conn) ⊆ watched := by
    intro r' hr'
    rcases List.mem_cons.mp hr' with rfl | hr'
    · exact hmem _ hwatched
    · obtain ⟨e, he, rfl⟩ := List.mem_map.mp hr'
      exact hmem _ (h.requests.taken_of_has (hrequest e he))
  have hle := (hnodup.subperm hsub).length_le
  simp only [watched, List.length_cons, List.length_map] at hle
  omega

theorem waiting_congr (hcq : s'.cq = s.cq) (hop : ∀ e ∈ s.cq, s'.opAt e.data = s.opAt e.data) :
    s'.waiting = s.waiting := by
  funext p
  rw [waiting, waiting, hcq]
  congr 2
  refine List.find?_congr fun e he => ?_
  rw [hop e he]

theorem waiting_of_not (hnone : ∀ e ∈ s.cq, s.opAt e.data ≠ some ⟨.recv, some p⟩) :
    s.waiting p = 0 := by
  have hfind : (s.cq.find? fun e => s.opAt e.data = some ⟨.recv, some p⟩) = none :=
    List.find?_eq_none.mpr fun e he => by simpa using hnone e he
  rw [waiting, hfind]
  rfl

/-- The bytes that wait in a buffer are those of the one completion there is. -/
theorem Inv.waiting_of_mem (h : Inv rest loose s) {e : Cqe} (he : e ∈ s.cq)
    (hop : s.opAt e.data = some ⟨.recv, some p⟩) : s.waiting p = e.res.toNat := by
  cases hfind : s.cq.find? fun e => s.opAt e.data = some ⟨.recv, some p⟩ with
  | none =>
    have hnot := List.find?_eq_none.mp hfind e he
    simp [hop] at hnot
  | some e' =>
    have hop' : s.opAt e'.data = some ⟨.recv, some p⟩ := by simpa using List.find?_some hfind
    have hmem : e' ∈ s.cq := List.mem_of_find?_eq_some hfind
    have hdata : e'.data = e.data :=
      h.requests.once (by rw [request, hop']; rfl) (by rw [request, hop]; rfl)
    have htags : (s.cq.map Cqe.data).Nodup := (List.nodup_append.mp h.tags).2.1
    obtain rfl := List.inj_on_of_nodup_map htags hmem he hdata
    rw [waiting, hfind]
    rfl

theorem view_eq {c : Conn} (hc : s.connAt p = some c) :
    s.view p = some (c.partialBytes, c.buf.take (s.waiting p)) := by
  rw [view, hc]
  rfl

/-- The contents of a `Conn` show in its own view only. -/
theorem view_setConn (c' : Conn) :
    ({ s with connAt := Function.update s.connAt p (some c') } : Loop).view =
      Function.update s.view p (some (c'.partialBytes, c'.buf.take (s.waiting p))) := by
  funext p'
  by_cases hp : p' = p
  · subst hp
    simp only [view, Function.update_self]
    rfl
  · simp only [view, Function.update_of_ne hp]
    rfl

/-! ### What a completion is used for does not look at it -/

section Seen

variable {e : Cqe} {res : Int}

theorem submit_ok {wanted : Wanted} {op : Op} (hs : s.submit wanted op = .ok s') :
    s'.fresh = s.fresh + 1 := by
  unfold submit at hs
  split at hs
  · cases hs
  · obtain rfl := Except.ok.inj hs
    rfl

theorem submit_seen (wanted : Wanted) (op : Op) (hlt : e.data < s.fresh) :
    (s.submit wanted op).map (fun s => s.seen e) = (s.seen e).submit wanted op := by
  have hne : s.fresh ≠ e.data := Nat.ne_of_gt hlt
  unfold submit
  by_cases hfull : s.sq.length ≥ kQueueDepth
  · rw [if_pos hfull, if_pos (show (s.seen e).sq.length ≥ kQueueDepth from hfull)]
    rfl
  · rw [if_neg hfull, if_neg (show ¬ (s.seen e).sq.length ≥ kQueueDepth from hfull)]
    simp only [Except.map, seen, Function.update_comm hne]

theorem submitRecv_seen (hlt : e.data < s.fresh) :
    (s.submitRecv p).map (fun s => s.seen e) = (s.seen e).submitRecv p := by
  unfold submitRecv
  cases hc : s.connAt p with
  | none => simp [seen, hc, Except.map]
  | some c => simpa [seen, hc] using submit_seen (.recv c.fd p) ⟨.recv, some p⟩ hlt

theorem emplace_seen (s : Loop) (e : Cqe) (fd : Int) :
    (s.seen e).emplace fd = ((s.emplace fd).1.seen e, (s.emplace fd).2) := by
  unfold emplace
  by_cases hany : (s.conns.any fun e => e.1 = fd) = true
  · rw [if_pos hany, if_pos (show ((s.seen e).conns.any fun e => e.1 = fd) = true from hany)]
    rfl
  · rw [if_neg hany, if_neg (show ¬ ((s.seen e).conns.any fun e => e.1 = fd) = true from hany)]
    rfl

theorem emplace_fresh (s : Loop) (fd : Int) : (s.emplace fd).1.fresh = s.fresh + 1 := by
  unfold emplace
  split <;> rfl

theorem submitRecv_fresh (hs : s.submitRecv p = .ok s') : s'.fresh = s.fresh + 1 := by
  unfold submitRecv at hs
  cases hc : s.connAt p with
  | none => simp [hc] at hs
  | some c =>
    rw [hc] at hs
    exact submit_ok hs

theorem reapAccept_seen (hlt : e.data < s.fresh) :
    (s.reapAccept res).map (fun s => s.seen e) = (s.seen e).reapAccept res := by
  unfold reapAccept
  by_cases hres : res ≥ 0
  · simp only [if_pos hres, emplace_seen]
    have hlt' : e.data < (s.emplace res).1.fresh := by
      rw [emplace_fresh]
      exact Nat.lt_succ_of_lt hlt
    rw [← submitRecv_seen hlt']
    cases hs : (s.emplace res).1.submitRecv (s.emplace res).2 with
    | error f => rfl
    | ok s' =>
      refine submit_seen _ _ ?_
      rw [submitRecv_fresh hs]
      exact Nat.lt_succ_of_lt hlt'
  · simp only [if_neg hres]
    exact submit_seen _ _ hlt

theorem takeData_seen (s : Loop) (e : Cqe) (p : Ptr) (res : Int) :
    (s.seen e).takeData p res = (s.takeData p res).map fun r => (r.1.seen e, r.2) := by
  unfold takeData
  cases hc : s.connAt p with
  | none => simp [seen, hc, Except.map]
  | some c =>
    by_cases hbig : res > kRecvBufSize
    · simp [seen, hc, hbig, Except.map]
    · simp [seen, hc, hbig, Except.map]

theorem takeData_fresh {r : Loop × List Order} (hs : s.takeData p res = .ok r) :
    r.1.fresh = s.fresh := by
  unfold takeData at hs
  cases hc : s.connAt p with
  | none => simp [hc] at hs
  | some c =>
    rw [hc] at hs
    dsimp only at hs
    split at hs
    · cases hs
    · obtain rfl := Except.ok.inj hs
      rfl

theorem reapRecv_seen (hlt : e.data < s.fresh) :
    (s.reapRecv p res).map (fun r => (r.1.seen e, r.2)) = (s.seen e).reapRecv p res := by
  unfold reapRecv
  by_cases hpos : res > 0
  · simp only [if_pos hpos, takeData_seen]
    cases hs : s.takeData p res with
    | error f => rfl
    | ok r =>
      have hlt' : e.data < r.1.fresh := by rwa [takeData_fresh hs]
      have hseen := submitRecv_seen (p := p) hlt'
      simp only [Except.map, Except.bind] at hseen ⊢
      rw [← hseen]
      cases r.1.submitRecv p <;> rfl
  · by_cases hagain : res = -EAGAIN ∨ res = -EINTR
    · simp only [if_neg hpos, if_pos hagain, ← submitRecv_seen hlt]
      cases s.submitRecv p <;> rfl
    · simp only [if_neg hpos, if_neg hagain]
      cases hc : s.connAt p with
      | none => simp [seen, hc, Except.map]
      | some c =>
        by_cases hopen : s.opened c.fd = true
        · simp [seen, hc, closeFd, hopen, Except.map, erase]
        · simp [seen, hc, closeFd, hopen, Except.map]

end Seen

/-! ### One helper at a time -/

/-- A completion is seen, and its `Op` is gone: what it was for has no request. -/
theorem Inv.seen (h : Inv rest loose s) {e : Cqe} {op : Op} (hcq : s.cq.head? = some e)
    (hop : s.opAt e.data = some op) :
    Inv (fun r => rest r ∨ r = op.conn)
        (fun fd => loose fd ∨ (op.kind = .accept ∧ e.res = fd ∧ 0 ≤ fd)) (s.seen e) ∧
      ∀ t, (s.seen e).request t ≠ some op.conn := by
  obtain ⟨cq, hcq⟩ : ∃ cq, s.cq = e :: cq := List.head?_eq_some_iff.mp hcq
  have hself : (s.seen e).request e.data = none := by simp [request, Loop.seen]
  have hother : ∀ t, t ≠ e.data → (s.seen e).opAt t = s.opAt t :=
    fun t ht => Function.update_of_ne ht _ _
  have hrequest : ∀ t, t ≠ e.data → (s.seen e).request t = s.request t :=
    fun t ht => congrArg (Option.map Op.conn) (hother t ht)
  have hold : s.request e.data = some op.conn := by rw [request, hop]; rfl
  have htags : s.tags.Perm (e.data :: (s.seen e).tags) := by
    simp only [Loop.tags, Loop.seen, hcq, List.map_cons, List.tail_cons]
    exact List.perm_middle
  have hnodup := List.nodup_cons.mp (htags.nodup_iff.mp h.tags)
  have hmem : ∀ {e' : Cqe}, e' ∈ (s.seen e).cq → e' ∈ s.cq ∧ e'.data ≠ e.data := by
    intro e' he'
    have htail : e' ∈ cq := by simpa [Loop.seen, hcq] using he'
    refine ⟨by rw [hcq]; exact List.mem_cons_of_mem _ htail, fun heq => hnodup.1 ?_⟩
    rw [← heq, Loop.tags]
    exact List.mem_append_right _ (List.mem_map_of_mem he')
  have haccepted : ∀ fd, s.Accepted fd ↔
      (s.seen e).Accepted fd ∨ (op.kind = .accept ∧ e.res = fd ∧ 0 ≤ fd) := by
    intro fd
    constructor
    · rintro ⟨e', he', hop', hres⟩
      rw [hcq] at he'
      rcases List.mem_cons.mp he' with rfl | htail
      · obtain rfl : op = ⟨.accept, none⟩ := Option.some.inj (hop.symm.trans hop')
        exact .inr ⟨rfl, hres⟩
      · have hin : e' ∈ (s.seen e).cq := by simpa [Loop.seen, hcq] using htail
        exact .inl ⟨e', hin, (hother _ (hmem hin).2).trans hop', hres⟩
    · rintro (⟨e', he', hop', hres⟩ | ⟨hkind, hres⟩)
      · obtain ⟨hin, hne⟩ := hmem he'
        exact ⟨e', hin, (hother _ hne).symm.trans hop', hres⟩
      · have hconn : op.conn = none := (h.kinds hop).mp hkind
        refine ⟨e, by rw [hcq]; exact List.mem_cons_self, ?_, hres⟩
        rw [hop, ← hkind, ← hconn]
  refine ⟨⟨?_, hnodup.2, fun {t} => ?_, fun {e'} he' => ?_, fun {t op'} hop' => ?_,
    fun {t} ht => ?_, h.mapped, h.keys, fun fd => ?_, fun hstage fd p hfd => ?_,
    fun {e' p} he' hop' => ?_⟩, fun t => ?_⟩
  · refine h.requests.abandon (fun t => t = e.data) (fun t ht => ht ▸ hself) hrequest
      fun r hr => hr.imp_right ?_
    rintro ⟨t, rfl, ht⟩
    exact Option.some.inj (ht.symm.trans hold)
  · by_cases ht : t = e.data
    · subst ht
      exact iff_of_false (by simp [Loop.seen]) hnodup.1
    · rw [hother t ht, h.live, htags.mem_iff, List.mem_cons]
      exact or_iff_right ht
  · have hne : e'.data ≠ e.data := by
      intro heq
      refine hnodup.1 (heq ▸ ?_)
      rw [Loop.tags, ← List.map_append]
      exact List.mem_append_left _ (List.mem_map_of_mem he')
    exact (hother _ hne).trans (h.asked he')
  · by_cases ht : t = e.data
    · simp [ht, Loop.seen] at hop'
    · exact h.kinds ((hother t ht).symm.trans hop')
  · have hf := h.frontier ht
    have hne : t ≠ e.data := by
      rintro rfl
      rw [hop] at hf
      cases hf.1
    exact ⟨(hother t hne).trans hf.1, hf.2⟩
  · have hopen : s.opened fd = true ↔ (s.seen e).Mapped fd ∨ _ := h.opened fd
    rw [haccepted fd] at hopen
    rw [or_right_comm, or_assoc] at hopen
    exact hopen
  · refine h.apart hstage fd p ?_
    rw [haccepted fd]
    rw [or_right_comm, or_assoc]
    exact hfd
  · obtain ⟨hin, hne⟩ := hmem he'
    exact h.small hin ((hother _ hne).symm.trans hop')
  · by_cases ht : t = e.data
    · rw [ht, hself]
      exact (Option.some_ne_none _).symm
    · rw [hrequest t ht]
      exact fun hr => ht (h.requests.once hr hold)

/-- A submission for something that is watched and has no request. -/
theorem Inv.submit (h : Inv rest loose s) {e : Sqe} (hdata : e.data = s.fresh)
    (hwatched : s.Watched e.op.conn) (hnobody : ∀ t, s.request t ≠ some e.op.conn)
    (hrest : ∀ r, rest r → r = e.op.conn ∨ rest' r) (hroom : s.sq.length < kQueueDepth) :
    ∃ s', s.submit e.wanted e.op = .ok s' ∧ Inv rest' loose s' ∧ Submitted e.op.conn s s' := by
  obtain ⟨wanted, data⟩ := e
  obtain rfl : data = s.fresh := hdata
  set op := Sqe.op ⟨wanted, s.fresh⟩ with hop
  let s' : Loop := { s with
    opAt := Function.update s.opAt s.fresh (some op), fresh := s.fresh + 1
    sq := s.sq ++ [⟨wanted, s.fresh⟩] }
  have hself : s'.opAt s.fresh = some op := Function.update_self ..
  have hother : ∀ t, t ≠ s.fresh → s'.opAt t = s.opAt t := fun t ht => Function.update_of_ne ht _ _
  have hnew : s.opAt s.fresh = none := (h.frontier (Nat.le_refl _)).1
  have hout : s.fresh ∉ s.tags := fun hmem => h.live.mpr hmem hnew
  have htags : s'.tags.Perm (s.fresh :: s.tags) := by
    simp only [Loop.tags, s', List.map_append, List.map_cons, List.map_nil, List.append_assoc,
      List.singleton_append]
    exact List.perm_middle
  have hold : ∀ t, t ∈ s.tags → t ≠ s.fresh := fun t ht heq => hout (heq ▸ ht)
  have hcq : ∀ e ∈ s.cq, s'.opAt e.data = s.opAt e.data := fun e he =>
    hother _ (hold _ (List.mem_append_right _ (List.mem_map_of_mem he)))
  have haccepted : ∀ fd, s'.Accepted fd ↔ s.Accepted fd := by
    intro fd
    constructor
    · rintro ⟨e, he, hop, hres⟩
      exact ⟨e, he, (hcq e he).symm.trans hop, hres⟩
    · rintro ⟨e, he, hop, hres⟩
      exact ⟨e, he, (hcq e he).trans hop, hres⟩
  refine ⟨s', by rw [Loop.submit, if_neg (Nat.not_le.mpr hroom)], ⟨?_, ?_, fun {t} => ?_,
    fun {e} he => ?_, fun {t op'} hop' => ?_, fun {t} ht => ?_, h.mapped, h.keys,
    fun fd => ?_, fun hstage fd p hfd => ?_, fun {e p} he hop' => ?_⟩,
    ⟨rfl, rfl, rfl, rfl, haccepted, waiting_congr rfl hcq, fun r hr hnone t => ?_⟩⟩
  · refine h.requests.claim (h := s.fresh) hnobody (fun r => ?_) hrest ?_ ?_ fun t ht => ?_
    · exact ⟨.inl, fun hr => hr.elim id fun heq => heq ▸ hwatched⟩
    · rw [request, hnew]; rfl
    · rw [request, hself]; rfl
    · exact congrArg (Option.map Op.conn) (hother t ht)
  · exact htags.nodup_iff.mpr (List.nodup_cons.mpr ⟨hout, h.tags⟩)
  · rw [htags.mem_iff, List.mem_cons]
    by_cases ht : t = s.fresh
    · subst ht
      exact iff_of_true (by rw [hself]; exact Option.some_ne_none _) (.inl rfl)
    · rw [hother t ht, h.live]
      exact (or_iff_right ht).symm
  · have hcases : e ∈ s.sq ++ s.flight ∨ e = ⟨wanted, s.fresh⟩ := by
      simp only [s', List.mem_append, List.mem_singleton] at he ⊢
      rwa [or_right_comm] at he
    rcases hcases with he | rfl
    · have htag : e.data ∈ s.tags := by
        rw [Loop.tags, ← List.map_append]
        exact List.mem_append_left _ (List.mem_map_of_mem he)
      exact (hother _ (hold _ htag)).trans (h.asked he)
    · exact hself
  · by_cases ht : t = s.fresh
    · subst ht
      obtain rfl : op = op' := Option.some.inj (hself.symm.trans hop')
      rw [hop]
      cases wanted <;> simp [Sqe.op]
    · exact h.kinds ((hother t ht).symm.trans hop')
  · have hle : s.fresh ≤ t := Nat.le_of_succ_le ht
    have hne : t ≠ s.fresh := Nat.ne_of_gt ht
    exact ⟨(hother t hne).trans (h.frontier hle).1, (h.frontier hle).2⟩
  · rw [haccepted fd]
    exact h.opened fd
  · refine h.apart hstage fd p ?_
    rwa [haccepted fd] at hfd
  · have hne := hold _ (List.mem_append_right _ (List.mem_map_of_mem he))
    exact h.small he ((hother _ hne).symm.trans hop')
  · by_cases ht : t = s.fresh
    · subst ht
      rw [request, hself]
      exact fun heq => hr (Option.some.inj heq).symm
    · rw [request, hother t ht]
      exact hnone t

/-- When nothing accepts, no accepted descriptor waits. -/
theorem not_accepted (hnobody : ∀ t, s.request t ≠ some none) (fd : Int) : ¬ s.Accepted fd := by
  rintro ⟨e, -, hop, -⟩
  exact hnobody e.data (by rw [request, hop]; rfl)

/-- A new `Conn` for a descriptor that is in the loop's hands. -/
theorem Inv.emplace (h : Inv rest loose s) (hstage : s.stage ≠ .closed) (hloose : loose fd)
    (hnobody : ∀ t, s.request t ≠ some none) :
    let s' := { s with
      conns := s.conns ++ [(fd, s.fresh)]
      connAt := Function.update s.connAt s.fresh (some { fd }), fresh := s.fresh + 1 }
    s.emplace fd = (s', s.fresh) ∧
      Inv (fun r => rest r ∨ r = some s.fresh) (fun fd' => loose fd' ∧ fd' ≠ fd) s' ∧
      ∀ t, s'.request t ≠ some (some s.fresh) := by
  intro s'
  have hfree : ∀ p, (fd, p) ∉ s.conns := fun p => h.apart hstage fd p (.inr hloose)
  have hnew : s.connAt s.fresh = none := (h.frontier (Nat.le_refl _)).2
  have hself : s'.connAt s.fresh = some { fd } := Function.update_self ..
  have hother : ∀ p, p ≠ s.fresh → s'.connAt p = s.connAt p :=
    fun p hp => Function.update_of_ne hp _ _
  have hany : (s.conns.any fun e => e.1 = fd) = false := by
    rw [List.any_eq_false]
    rintro ⟨fd', p⟩ hmem
    simp only [decide_eq_true_eq]
    rintro rfl
    exact hfree p hmem
  have hwatched : ∀ r, s'.Watched r ↔ s.Watched r ∨ r = some s.fresh := by
    rintro (_ | p)
    · exact iff_of_true trivial (.inl trivial)
    · by_cases hp : p = s.fresh
      · subst hp
        exact iff_of_true (by rw [Watched, hself]; exact Option.some_ne_none _) (.inr rfl)
      · simp only [Watched, hother p hp, Option.some.injEq, hp, or_false]
  refine ⟨by rw [Loop.emplace, hany]; rfl, ⟨?_, h.tags, h.live, h.asked, h.kinds, fun {t} ht => ?_,
    fun {fd' p} => ?_, ?_, fun fd' => ?_, fun _ fd' p hfd hmem => ?_, h.small⟩, fun t ht => ?_⟩
  · exact h.requests.add hwatched fun _ => id
  · have hle : s.fresh ≤ t := Nat.le_of_succ_le ht
    exact ⟨(h.frontier hle).1, (hother t (Nat.ne_of_gt ht)).trans (h.frontier hle).2⟩
  · simp only [s', List.mem_append, List.mem_singleton, Prod.mk.injEq]
    by_cases hp : p = s.fresh
    · subst hp
      have hout : (fd', s.fresh) ∉ s.conns := by
        rw [h.mapped, hnew]
        rintro ⟨c, hc, -⟩
        cases hc
      simp only [hout, false_or, and_true, Function.update_self, Option.some.injEq, exists_eq_left']
      exact eq_comm
    · simp only [hp, and_false, or_false, Function.update_of_ne hp]
      exact h.mapped
  · simp only [s', List.map_append, List.map_cons, List.map_nil]
    refine List.nodup_append.mpr ⟨h.keys, List.nodup_singleton _, fun fd₁ hfd₁ fd₂ hfd₂ heq => ?_⟩
    obtain ⟨⟨fd', p⟩, hmem, rfl⟩ := List.mem_map.mp hfd₁
    obtain rfl := List.mem_singleton.mp hfd₂
    exact hfree p (heq ▸ hmem)
  · have hopen : s.opened fd' = true ↔ _ := h.opened fd'
    refine hopen.trans ?_
    simp only [Mapped, s', List.mem_append, List.mem_singleton, Prod.mk.injEq]
    by_cases hfd : fd' = fd
    · subst hfd
      exact iff_of_true (.inr (.inr hloose)) (.inl ⟨hstage, s.fresh, .inr ⟨rfl, rfl⟩⟩)
    · simp only [hfd, false_and, or_false, ne_eq, not_false_eq_true, and_true]
      exact Iff.rfl
  · have hne : fd' ≠ fd := hfd.elim (fun hacc => absurd hacc (not_accepted hnobody fd')) And.right
    simp only [s', List.mem_append, List.mem_singleton, Prod.mk.injEq, hne, false_and,
      or_false] at hmem
    exact h.apart hstage fd' p (hfd.imp_right And.left) hmem
  · exact h.requests.taken_of_has ht hnew

/-- The contents of a `Conn` change, its descriptor does not. -/
theorem Inv.setConn (h : Inv rest loose s) {c c' : Conn} (hc : s.connAt p = some c)
    (hfd : c'.fd = c.fd) :
    Inv rest loose { s with connAt := Function.update s.connAt p (some c') } := by
  have hother : ∀ p', p' ≠ p → Function.update s.connAt p (some c') p' = s.connAt p' :=
    fun p' hp => Function.update_of_ne hp _ _
  refine { h with
    requests := h.requests.congr (fun r => ?_) fun _ => rfl
    frontier := fun {t} ht => ?_, mapped := fun {fd p'} => ?_ }
  · cases r with
    | none => exact Iff.rfl
    | some p' =>
      by_cases hp : p' = p
      · simp [Watched, hp, hc]
      · simp [Watched, hother p' hp]
  · have hne : t ≠ p := by
      rintro rfl
      rw [(h.frontier ht).2] at hc
      cases hc
    exact ⟨(h.frontier ht).1, (hother t hne).trans (h.frontier ht).2⟩
  · rw [h.mapped]
    by_cases hp : p' = p
    · simp [hp, hc, hfd]
    · simp only [hother p' hp]

/-- A `Conn` without a request is closed and freed. -/
theorem Inv.close (h : Inv rest loose s) (hstage : s.stage ≠ .closed) {c : Conn}
    (hc : s.connAt p = some c) (hnobody : ∀ t, s.request t ≠ some (some p))
    (hrest : ∀ r, rest r → r = some p ∨ rest' r) :
    s.closeFd c.fd = .ok { s with opened := Function.update s.opened c.fd false } ∧
      Inv rest' loose ({ s with opened := Function.update s.opened c.fd false }.erase c.fd) := by
  have hmem : (c.fd, p) ∈ s.conns := h.mapped.mpr ⟨c, hc, rfl⟩
  have hopen : s.opened c.fd = true := (h.opened c.fd).mpr (.inl ⟨hstage, p, hmem⟩)
  let s' := { s with opened := Function.update s.opened c.fd false }.erase c.fd
  have hkey : ∀ {p'}, (c.fd, p') ∈ s.conns ↔ p' = p := by
    intro p'
    constructor
    · intro hmem'
      exact congrArg Prod.snd (List.inj_on_of_nodup_map h.keys hmem' hmem rfl)
    · rintro rfl
      exact hmem
  have hself : s'.connAt p = none := by simp [s', erase, hkey]
  have hother : ∀ p', p' ≠ p → s'.connAt p' = s.connAt p' := fun p' hp => by
    simp [s', erase, hkey, hp]
  have hconns : ∀ {fd p'}, (fd, p') ∈ s'.conns ↔ (fd, p') ∈ s.conns ∧ fd ≠ c.fd := by
    intro fd p'
    simp [s', erase, List.mem_filter]
  refine ⟨by rw [closeFd, if_pos hopen], ⟨?_, h.tags, h.live, h.asked, h.kinds, fun {t} ht => ?_,
    fun {fd p'} => ?_, ?_, fun fd => ?_, fun _ fd p' hfd hmem' => ?_, h.small⟩⟩
  · refine h.requests.clear hnobody (fun r => ?_) hrest
    cases r with
    | none => exact iff_of_true trivial ⟨trivial, (Option.some_ne_none p).symm⟩
    | some p' =>
      by_cases hp : p' = p
      · subst hp
        exact iff_of_false (fun hw => hw hself) fun hw => hw.2 rfl
      · change s'.connAt p' ≠ none ↔ s.connAt p' ≠ none ∧ some p' ≠ some p
        rw [hother p' hp]
        exact (and_iff_left fun heq => hp (Option.some.inj heq)).symm
  · refine ⟨(h.frontier ht).1, ?_⟩
    change s'.connAt t = none
    by_cases hp : t = p
    · rw [hp, hself]
    · rw [hother t hp]
      exact (h.frontier ht).2
  · change (fd, p') ∈ s'.conns ↔ ∃ c, s'.connAt p' = some c ∧ c.fd = fd
    rw [hconns]
    by_cases hp : p' = p
    · subst hp
      rw [hself]
      refine iff_of_false ?_ fun ⟨_, hc', _⟩ => (Option.some_ne_none _) hc'.symm
      rintro ⟨hmem', hne⟩
      obtain ⟨c', hc', rfl⟩ := h.mapped.mp hmem'
      exact hne (congrArg Conn.fd (Option.some.inj (hc'.symm.trans hc)))
    · rw [hother p' hp, h.mapped]
      refine ⟨And.left, fun hc' => ⟨hc', ?_⟩⟩
      rintro rfl
      exact hp (hkey.mp (h.mapped.mpr hc'))
  · exact h.keys.sublist (List.filter_sublist.map _)
  · change s'.opened fd = true ↔
      (s.stage ≠ .closed ∧ ∃ p, (fd, p) ∈ s'.conns) ∨ s.Accepted fd ∨ loose fd
    by_cases hfd : fd = c.fd
    · subst hfd
      refine iff_of_false (by simp [s', erase]) ?_
      rintro (⟨-, p', hmem'⟩ | hacc)
      · exact (hconns.mp hmem').2 rfl
      · exact h.apart hstage c.fd p hacc hmem
    · have hopen' : s'.opened fd = s.opened fd := by simp [s', erase, Function.update_of_ne hfd]
      have hin : ∀ p', (fd, p') ∈ s'.conns ↔ (fd, p') ∈ s.conns :=
        fun p' => hconns.trans (and_iff_left hfd)
      simp only [hopen', h.opened, Mapped, hin]
  · exact h.apart hstage fd p' hfd (hconns.mp hmem').1

/-- A descriptor that did not make it into the map is closed again. -/
theorem Inv.closeLoose (h : Inv rest loose s) (hstage : s.stage ≠ .closed)
    (hloose : ∀ fd', loose fd' ↔ fd' = fd) (hnobody : ∀ t, s.request t ≠ some none) :
    s.closeFd fd = .ok { s with opened := Function.update s.opened fd false } ∧
      Inv rest (fun _ => False) { s with opened := Function.update s.opened fd false } := by
  have hfree : ∀ p, (fd, p) ∉ s.conns := fun p => h.apart hstage fd p (.inr ((hloose fd).mpr rfl))
  have hopen : s.opened fd = true := (h.opened fd).mpr (.inr (.inr ((hloose fd).mpr rfl)))
  refine ⟨by rw [closeFd, if_pos hopen], { h with opened := fun fd' => ?_, apart := ?_ }⟩
  · by_cases hfd : fd' = fd
    · subst hfd
      refine iff_of_false (by simp) ?_
      rintro (⟨-, p, hmem⟩ | hacc | hno)
      · exact hfree p hmem
      · exact not_accepted hnobody fd' hacc
      · exact hno
    · have hopen' : s.opened fd' = true ↔ _ := h.opened fd'
      simp only [hloose, hfd, or_false] at hopen'
      change Function.update s.opened fd false fd' = true ↔
        s.Mapped fd' ∨ s.Accepted fd' ∨ False
      rw [Function.update_of_ne hfd, or_false]
      exact hopen'
  · rintro - fd' p (hacc | hno)
    · exact absurd hacc (not_accepted hnobody fd')
    · exact hno.elim

theorem Inv.mono (h : Inv rest loose s) {loose' : Int → Prop} (hrest : ∀ r, rest r → rest' r)
    (hloose : ∀ fd, loose' fd ↔ loose fd) : Inv rest' loose' s := by
  refine { h with requests := h.requests.mono_rest hrest, opened := fun fd => ?_,
                  apart := fun hstage fd p hfd => ?_ }
  · rw [hloose]
    exact h.opened fd
  · rw [hloose] at hfd
    exact h.apart hstage fd p hfd

/-- Where the loop is makes no difference, but for what was closed at the end. -/
theorem Inv.setStage (h : Inv rest loose s) (stage : Stage) (hstage : stage ≠ .closed)
    (hold : s.stage ≠ .closed) : Inv rest loose { s with stage } := by
  refine { h with opened := fun fd => ?_, apart := fun _ => h.apart hold }
  have hopen : s.opened fd = true ↔ _ := h.opened fd
  simp only [Mapped, hold, hstage, ne_eq, not_false_eq_true, true_and] at hopen ⊢
  exact hopen

/-- `io_uring_submit` moves submissions, and that is all. -/
theorem Inv.ioUringSubmit (h : Inv rest loose s) (hstage : s.stage ≠ .closed) (taken : Nat) :
    Inv rest loose (s.ioUringSubmit taken) := by
  have hwith : (s.sq.drop taken ++ (s.flight ++ s.sq.take taken)).Perm (s.sq ++ s.flight) := by
    refine List.perm_append_comm.trans ?_
    rw [List.append_assoc, List.take_append_drop]
    exact List.perm_append_comm
  have htags : (s.ioUringSubmit taken).tags.Perm s.tags := by
    rw [Loop.tags, Loop.tags, ← List.map_append, ← List.map_append]
    exact (hwith.map Sqe.data).append_right _
  have hstage' : Inv rest loose { s with stage := .waiting } :=
    h.setStage .waiting (by decide) hstage
  refine { hstage' with
    tags := htags.nodup_iff.mpr h.tags, live := fun {t} => ?_, asked := fun he => ?_ }
  · rw [htags.mem_iff]
    exact h.live
  · exact h.asked (hwith.mem_iff.mp he)

/-- The kernel answers a request. An accept may open a descriptor. -/
theorem Inv.answer (h : Inv rest loose s) {i : Nat} {e : Sqe} (hi : s.flight[i]? = some e)
    (opened : Int → Bool) {res : Int} (hsmall : e.op.kind = .recv → res ≤ kRecvBufSize)
    (hopened : ∀ fd, opened fd = true ↔
      s.opened fd = true ∨ (e.op.kind = .accept ∧ res = fd ∧ 0 ≤ fd))
    (hnew : e.op.kind = .accept → 0 ≤ res → s.opened res = false) :
    let s' := { s with flight := s.flight.eraseIdx i, cq := s.cq ++ [⟨e.data, res⟩], opened }
    Inv rest loose s' ∧ s.waiting = (fun p => if e.op.conn = some p then 0 else s.waiting p) ∧
      s'.waiting = (fun p => if e.op.conn = some p then res.toNat else s.waiting p) ∧
      ∀ fd, s'.Accepted fd ↔ s.Accepted fd ∨ (e.op.kind = .accept ∧ res = fd ∧ 0 ≤ fd) := by
  intro s'
  have hflight : e ∈ s.flight := List.mem_of_getElem? hi
  have hop : s.opAt e.data = some e.op := h.asked (List.mem_append_right _ hflight)
  have hrequest : s.request e.data = some e.op.conn := by rw [request, hop]; rfl
  have htags : s'.tags.Perm s.tags := by
    obtain ⟨hlt, hget⟩ := List.getElem?_eq_some_iff.mp hi
    have hperm : (e :: s.flight.eraseIdx i).Perm s.flight :=
      hget ▸ List.getElem_cons_eraseIdx_perm hlt
    simp only [Loop.tags, s', List.map_append, List.map_cons, List.map_nil, List.append_assoc]
    refine List.Perm.append_left _ ?_
    rw [← List.append_assoc]
    refine (List.perm_append_comm.trans ?_).trans ((hperm.map Sqe.data).append_right _)
    exact List.Perm.refl _
  have hnot : ∀ e' ∈ s.cq, e'.data ≠ e.data := fun e' he' heq =>
    (List.nodup_append.mp h.tags).2.2 e.data
      (List.mem_append_right _ (List.mem_map_of_mem hflight)) e'.data (List.mem_map_of_mem he')
      heq.symm
  have hnone : ∀ p, e.op.conn = some p → ∀ e' ∈ s.cq, s.opAt e'.data ≠ some ⟨.recv, some p⟩ := by
    intro p hp e' he' hop'
    refine hnot e' he' (h.requests.once (r := some p) ?_ (hp ▸ hrequest))
    rw [request, hop']
    rfl
  have hkind : e.op.kind = .accept ↔ e.op = ⟨.accept, none⟩ := by
    unfold Sqe.op
    cases e.wanted <;> simp
  have hrecv : ∀ p, e.op.conn = some p ↔ e.op = ⟨.recv, some p⟩ := by
    intro p
    unfold Sqe.op
    cases e.wanted <;> simp
  have haccepted : ∀ fd, s'.Accepted fd ↔
      s.Accepted fd ∨ (e.op.kind = .accept ∧ res = fd ∧ 0 ≤ fd) := by
    intro fd
    simp only [Accepted, s', List.mem_append, List.mem_singleton, or_and_right, exists_or,
      exists_eq_left, hop, Option.some.injEq, hkind]
  refine ⟨{ h with
    tags := htags.nodup_iff.mpr h.tags, live := fun {t} => ?_, asked := fun {e'} he' => ?_
    opened := fun fd => ?_, apart := fun hstage fd p hfd hmem => ?_
    small := fun {e' p} he' hop' => ?_ }, ?_, ?_, haccepted⟩
  · rw [htags.mem_iff]
    exact h.live
  · exact h.asked ((List.Sublist.append_left (List.eraseIdx_sublist _ i) _).subset he')
  · change opened fd = true ↔ s.Mapped fd ∨ s'.Accepted fd ∨ loose fd
    rw [hopened, haccepted, h.opened]
    exact or_assoc.trans (or_congr_right or_right_comm)
  · have hopen : s.opened fd = true := (h.opened fd).mpr (.inl ⟨hstage, p, hmem⟩)
    rw [haccepted, or_assoc] at hfd
    rcases hfd with hacc | ⟨hk, rfl, hpos⟩ | hloose
    · exact h.apart hstage fd p (.inl hacc) hmem
    · rw [hnew hk hpos] at hopen
      cases hopen
    · exact h.apart hstage fd p (.inr hloose) hmem
  · rcases List.mem_append.mp he' with he' | he'
    · exact h.small he' hop'
    · obtain rfl := List.mem_singleton.mp he'
      refine hsmall ?_
      rw [Option.some.inj (hop.symm.trans hop')]
  · funext p
    split_ifs with hp
    · exact waiting_of_not (hnone p hp)
    · rfl
  · funext p
    have hfind : s'.waiting p = (((s.cq.find? fun e => s.opAt e.data = some ⟨.recv, some p⟩).or
        ([⟨e.data, res⟩].find? fun e => s.opAt e.data = some ⟨.recv, some p⟩)).map
          fun e => e.res.toNat).getD 0 := by
      rw [← List.find?_append]
      rfl
    rw [hfind]
    split_ifs with hp
    · have hold : (s.cq.find? fun e => s.opAt e.data = some ⟨.recv, some p⟩) = none :=
        List.find?_eq_none.mpr fun e' he' => by simpa using hnone p hp e' he'
      rw [hold, List.find?_cons_of_pos (by simp [hop, (hrecv p).mp hp])]
      rfl
    · have hother : e.op ≠ ⟨.recv, some p⟩ := fun heq => hp ((hrecv p).mpr heq)
      rw [List.find?_cons_of_neg (by simp [hop, hother]), List.find?_nil, Option.or_none]
      rfl

/-! ### What waits in the buffers -/

theorem accepted_of_seen {e : Cqe} (hacc : (s.seen e).Accepted fd) : s.Accepted fd := by
  obtain ⟨e', he', hop, hres⟩ := hacc
  have hne : e'.data ≠ e.data := by
    intro heq
    rw [heq] at hop
    simp [Loop.seen] at hop
  have hsame : (s.seen e).opAt e'.data = s.opAt e'.data := Function.update_of_ne hne _ _
  exact ⟨e', List.mem_of_mem_tail he', hsame ▸ hop, hres⟩

/-- A completion is looked at for what it is for, and for nothing else. -/
theorem Inv.waiting_seen (h : Inv rest loose s) {e : Cqe} {op : Op} (hcq : s.cq.head? = some e)
    (hop : s.opAt e.data = some op) (p : Ptr) :
    (s.seen e).waiting p = if op.conn = some p then 0 else s.waiting p := by
  have hnobody := (h.seen hcq hop).2
  obtain ⟨cq, hcq⟩ : ∃ cq, s.cq = e :: cq := List.head?_eq_some_iff.mp hcq
  split_ifs with hconn
  · refine waiting_of_not fun e' _ hop' => hnobody e'.data ?_
    rw [request, hop', hconn]
    rfl
  · have hskip : s.opAt e.data ≠ some ⟨.recv, some p⟩ := by
      rw [hop]
      exact fun heq => hconn (congrArg Op.conn (Option.some.inj heq))
    have hdata : ∀ e' ∈ cq, e'.data ≠ e.data := by
      have hnodup : (s.cq.map Cqe.data).Nodup := (List.nodup_append.mp h.tags).2.1
      rw [hcq, List.map_cons, List.nodup_cons] at hnodup
      exact fun e' he' heq => hnodup.1 (heq ▸ List.mem_map_of_mem he')
    rw [waiting, waiting, hcq, List.find?_cons_of_neg (by simpa using hskip)]
    congr 2
    simp only [Loop.seen, hcq, List.tail_cons]
    exact List.find?_congr fun e' he' => by rw [Function.update_of_ne (hdata e' he')]

theorem Inv.view_seen_accept (h : Inv rest loose s) {e : Cqe} (hcq : s.cq.head? = some e)
    (hop : s.opAt e.data = some ⟨.accept, none⟩) : (s.seen e).view = s.view := by
  funext p
  rw [view, view, h.waiting_seen hcq hop, if_neg (Option.some_ne_none p).symm]
  rfl

theorem Inv.view_seen_recv (h : Inv rest loose s) {e : Cqe} (hcq : s.cq.head? = some e)
    (hop : s.opAt e.data = some ⟨.recv, some p⟩) :
    ∃ c, s.connAt p = some c ∧ s.view p = some (c.partialBytes, c.buf.take e.res.toNat) ∧
      (s.seen e).view = Function.update s.view p (some (c.partialBytes, [])) := by
  have hwatched : s.Watched (some p) := by
    refine h.requests.taken_of_has (h := e.data) ?_
    rw [request, hop]
    rfl
  obtain ⟨c, hc⟩ := Option.ne_none_iff_exists'.mp hwatched
  refine ⟨c, hc, by rw [view_eq hc, h.waiting_of_mem (List.mem_of_head? hcq) hop], ?_⟩
  funext p'
  by_cases hp : p' = p
  · subst hp
    rw [Function.update_self, view_eq (s := s.seen e) hc, h.waiting_seen hcq hop, if_pos rfl]
    rfl
  · rw [Function.update_of_ne hp, view, view, h.waiting_seen hcq hop,
      if_neg fun heq => hp (Option.some.inj heq).symm]
    rfl

end Lemmas

end Loop

end Lloms.Feed.UringLoop
