import Mathlib.Algebra.BigOperators.Group.List.Basic
import Mathlib.Algebra.GroupWithZero.Nat
import Mathlib.Algebra.Order.BigOperators.Group.List
import Mathlib.Algebra.Order.Group.Nat
import Mathlib.Data.UInt
import Lloms.Router.Tables

/-! Outbound numbering and the router's counters. A venue's stream is numbered
from one after each logon, by what is routed there and by nothing else; four
counters move together on the one way through `route` that sends, and each of the
six ways that refuse moves one counter of its own. -/
namespace Lloms.OrderRouter
open Lib

/-! ## What `route` can do -/

/-- Exactly one of the reject counters has gone up, by one. -/
inductive OneReject (s : RouterStats) : RouterStats → Prop where
  | notConfigured : OneReject s { s with rejectedNotConfigured := s.rejectedNotConfigured + 1 }
  | invalid : OneReject s { s with rejectedInvalid := s.rejectedInvalid + 1 }
  | unknownSymbol : OneReject s { s with rejectedUnknownSymbol := s.rejectedUnknownSymbol + 1 }
  | venueDown : OneReject s { s with rejectedVenueDown := s.rejectedVenueDown + 1 }
  | draining : OneReject s { s with rejectedDraining := s.rejectedDraining + 1 }
  | idExhausted : OneReject s { s with rejectedIdExhausted := s.rejectedIdExhausted + 1 }

def rejects (s : RouterStats) : List UInt64 :=
  [s.rejectedNotConfigured, s.rejectedInvalid, s.rejectedUnknownSymbol, s.rejectedVenueDown,
    s.rejectedDraining, s.rejectedIdExhausted]

/-- A route call refuses and counts that once, or sends to a venue there is. -/
theorem TablesOk.route_cases {r : OrderRouter} (hok : r.TablesOk) (request : RouteRequest) :
    (∃ stats decision venue, OneReject r.stats stats ∧ decision ≠ .routed ∧
      r.route request = some ({ r with stats }, { decision, venue })) ∨
    ∃ venue v, r.venuePtr venue = some v ∧ r.valid = true ∧ ¬ r.counter > r.counterMax ∧
      r.route request = some (r.send venue v) := by
  unfold route
  by_cases hvalid : r.valid = true
  swap
  · exact .inl ⟨_, _, _, .notConfigured, by decide, if_pos (by simp [hvalid])⟩
  rw [if_neg (by simp [hvalid])]
  by_cases hqty : request.order.qty ≤ 0
  · exact .inl ⟨_, _, _, .invalid, by decide, if_pos hqty⟩
  rw [if_neg hqty]
  cases hroute : r.routes request.order.symbol with
  | none =>
    have hvenue : r.venueFor request.order.symbol = kNoVenue := by simp [venueFor, hroute]
    exact .inl ⟨_, _, _, .unknownSymbol, by decide, if_pos hvenue⟩
  | some venue =>
    obtain ⟨v, hv⟩ := hok.venuePtr_ne_none hroute
    have hvenue : r.venueFor request.order.symbol = venue := by simp [venueFor, hroute]
    have hne : venue ≠ kNoVenue := by
      rintro rfl
      rw [venuePtr_kNoVenue] at hv
      cases hv
    simp only [hvenue, if_neg hne, hv]
    by_cases hdown : v.state = .down
    · exact .inl ⟨_, _, _, .venueDown, by decide, if_pos hdown⟩
    rw [if_neg hdown]
    by_cases hdrain : v.state = .drainOnly ∧ (!request.liquidating) = true
    · exact .inl ⟨_, _, _, .draining, by decide, if_pos hdrain⟩
    rw [if_neg hdrain]
    by_cases hmax : r.counter > r.counterMax
    · exact .inl ⟨_, _, _, .idExhausted, by decide, if_pos hmax⟩
    · exact .inr ⟨venue, v, hv, hvalid, hmax, if_neg hmax⟩

/-! ## What a history says -/

def Call.isRoute : Call → Bool
  | .route _ => true
  | _ => false

def routeCalls (h : List Event) : Nat := h.countP fun e => e.input.isRoute

/-- The venue and the number of an order that was routed. -/
def Reply.sent? : Reply → Option (VenueId × UInt64)
  | .result res => if res.decision = .routed then some (res.venue, res.venueSeq) else none
  | _ => none

/-- A logon to the venue starts the list again, and an order routed there adds its
number. -/
def numberOne (venue : VenueId) (seqs : List UInt64) (e : Event) : List UInt64 :=
  if e.input = .onLogon venue then []
  else
    match e.output.sent? with
    | some (dest, seq) => if dest = venue then seqs ++ [seq] else seqs
    | none => seqs

/-- The numbers of the orders routed to a venue since the last logon to it. -/
def seqsFor (venue : VenueId) (h : List Event) : List UInt64 := h.foldl (numberOne venue) []

theorem seqsFor_concat (venue : VenueId) (h : List Event) (e : Event) :
    seqsFor venue (h ++ [e]) = numberOne venue (seqsFor venue h) e := by
  rw [seqsFor, List.foldl_append]
  rfl

theorem routeCalls_concat (h : List Event) (e : Event) :
    routeCalls (h ++ [e]) = routeCalls h + if e.input.isRoute then 1 else 0 := by
  rw [routeCalls, List.countP_append, routeCalls]
  simp [List.countP_cons]

/-! ## Venues after a write -/

section Venues

variable {r : OrderRouter} {venue : VenueId} {v v' : Venue}

theorem venuePtr_setVenue (hv : r.venuePtr venue = some v) (venue' : VenueId) :
    (r.setVenue venue v').venuePtr venue' = if venue' = venue then some v' else r.venuePtr venue' := by
  obtain ⟨hpos, hget⟩ := venuePtr_eq_some.mp hv
  have hlt := (List.getElem?_eq_some_iff.mp hget).1
  split_ifs with heq
  · rw [heq, venuePtr_eq_some]
    exact ⟨hpos, by rw [setVenue, List.getElem?_set_self hlt]⟩
  · have hne : 1 ≤ venue'.toNat → venue.toNat - 1 ≠ venue'.toNat - 1 := by
      intro hpos' hsame
      exact heq (UInt16.toNat_inj.mp (by omega))
    apply Option.ext
    intro w
    rw [venuePtr_eq_some, venuePtr_eq_some]
    refine and_congr_right fun hpos' => ?_
    rw [setVenue, List.getElem?_set_ne (hne hpos')]

/-- A venue's number, read off the numbers of all; ids that point nowhere have 0. -/
theorem venueSeq_eq (r : OrderRouter) (venue : VenueId) :
    r.venueSeq venue =
      if venue = kNoVenue then 0 else (r.venues.map Venue.seq).getD (venue.toNat - 1) 0 := by
  unfold venueSeq venuePtr
  by_cases hzero : venue = kNoVenue
  · simp [hzero]
  · have hpos : venue.toNat ≠ 0 := fun h => hzero (UInt16.toNat_inj.mp h)
    by_cases hout : venue.toNat > r.venues.length
    · have hnone : r.venues[venue.toNat - 1]? = none := List.getElem?_eq_none (by omega)
      simp [hzero, hout, List.getD_eq_getElem?_getD, hnone]
    · simp [hzero, hout, List.getD_eq_getElem?_getD]

theorem venueSeq_congr {r' : OrderRouter} (h : r'.venues.map Venue.seq = r.venues.map Venue.seq)
    (venue : VenueId) : r'.venueSeq venue = r.venueSeq venue := by
  rw [venueSeq_eq, venueSeq_eq, h]

/-- A new venue has sent nothing. -/
theorem venueSeq_addVenue (r : OrderRouter) (name : Text) (initial : VenueState) (venue : VenueId) :
    (r.addVenue name initial).1.venueSeq venue = r.venueSeq venue := by
  unfold addVenue
  split_ifs
  · rfl
  · have hzero : ∀ i, ((r.venues.map Venue.seq) ++ [0]).getD i 0 = (r.venues.map Venue.seq).getD i 0 := by
      intro i
      rw [List.getD_eq_getElem?_getD, List.getD_eq_getElem?_getD, List.getElem?_append]
      split_ifs with hlt
      · rfl
      · rw [List.getElem?_eq_none (Nat.not_lt.mp hlt)]
        cases i - (r.venues.map Venue.seq).length <;> rfl
    rw [venueSeq_eq, venueSeq_eq, ← hzero, List.map_append]
    rfl

/-- How many orders all venues together have been sent. -/
def totalRouted (r : OrderRouter) : Nat := (r.venues.map fun v => v.routed.toNat).sum

/-- The total, read through `venueRouted` for each id there is. -/
theorem TablesOk.sum_venueRouted {r : OrderRouter} (hok : r.TablesOk) :
    ((List.range' 1 r.venueCount).map fun id => (r.venueRouted (UInt16.ofNat id)).toNat).sum =
      r.totalRouted := by
  have hcount := hok.count
  apply congrArg List.sum
  apply List.ext_getElem
  · simp [venueCount]
  · intro i hi hi'
    have hlt : i < r.venues.length := by simpa using hi'
    have hid : (UInt16.ofNat (1 + i)).toNat = 1 + i := by
      apply UInt16.toNat_ofNat_of_lt'
      unfold venueCount at hcount
      change 1 + i < 65536
      omega
    have hv : r.venuePtr (UInt16.ofNat (1 + i)) = some r.venues[i] := by
      rw [venuePtr_eq_some, hid, Nat.add_sub_cancel_left]
      exact ⟨by omega, List.getElem?_eq_getElem hlt⟩
    rw [List.getElem_map, List.getElem_map, List.getElem_range', Nat.one_mul, venueRouted, hv]
    rfl

theorem totalRouted_addVenue (r : OrderRouter) (name : Text) (initial : VenueState) :
    (r.addVenue name initial).1.totalRouted = r.totalRouted := by
  unfold addVenue
  split_ifs
  · rfl
  · simp [totalRouted]

theorem totalRouted_setVenue (hv : r.venuePtr venue = some v)
    (hrouted : v'.routed.toNat = v.routed.toNat + 1) :
    (r.setVenue venue v').totalRouted = r.totalRouted + 1 := by
  obtain ⟨-, hget⟩ := venuePtr_eq_some.mp hv
  obtain ⟨hlt, rfl⟩ := List.getElem?_eq_some_iff.mp hget
  have hlt' : venue.toNat - 1 < (r.venues.map fun v => v.routed.toNat).length := by
    rw [List.length_map]
    exact hlt
  rw [totalRouted, setVenue, List.map_set, List.sum_set, if_pos hlt', hrouted, totalRouted,
    ← List.sum_take_add_sum_drop (r.venues.map fun v => v.routed.toNat) (venue.toNat - 1),
    List.drop_eq_getElem_cons hlt', List.sum_cons, List.getElem_map]
  omega

/-- One venue has been sent no more than all. -/
theorem routed_le_total (hv : r.venuePtr venue = some v) : v.routed.toNat ≤ r.totalRouted := by
  obtain ⟨-, hget⟩ := venuePtr_eq_some.mp hv
  exact List.single_le_sum (fun _ _ => Nat.zero_le _) _
    (List.mem_map_of_mem (List.mem_of_getElem? hget))

end Venues

/-! ## One call -/

/-- What a call can do to the counters: nothing, one reject, or one order sent. -/
inductive Counts (r : OrderRouter) (e : Event) : Prop where
  | idle (output : e.output.sent? = none) (input : e.input.isRoute = false)
      (stats : e.post.stats = r.stats) (total : e.post.totalRouted = r.totalRouted)
  | refused (output : e.output.sent? = none) (input : e.input.isRoute = true)
      (stats : RouterStats) (one : OneReject r.stats stats) (post : e.post = { r with stats })
  | sent (venue : VenueId) (output : e.output.sent? = some (venue, r.venueSeq venue + 1))
      (input : e.input.isRoute = true) (room : ¬ r.counter > r.counterMax)
      (stats : e.post.stats = { r.stats with routed := r.stats.routed + 1 })
      (total : r.totalRouted + 1 < 2 ^ 64 → e.post.totalRouted = r.totalRouted + 1)

/-- What a call does to the number of every venue. -/
def NumbersOf (r : OrderRouter) (e : Event) : Prop :=
  ∀ venue, e.post.venueSeq venue =
    if e.input = .onLogon venue then 0
    else if e.output.sent?.map Prod.fst = some venue then r.venueSeq venue + 1
    else r.venueSeq venue

section Calls

variable {r : OrderRouter}

/-- A write through a pointer that changes neither counter of the venue. -/
theorem setVenue_idle {venue : VenueId} {v : Venue} (v' : Venue) (hv : r.venuePtr venue = some v)
    (hseq : v'.seq = v.seq) (hrouted : v'.routed = v.routed) :
    (∀ w, (r.setVenue venue v').venueSeq w = r.venueSeq w) ∧
      (r.setVenue venue v').totalRouted = r.totalRouted := by
  refine ⟨venueSeq_congr (map_setVenue Venue.seq hv hseq), ?_⟩
  rw [totalRouted, totalRouted]
  exact congrArg List.sum (map_setVenue (fun v => v.routed.toNat) hv (by rw [hrouted]))

theorem setVenueState_idle (r : OrderRouter) (venue : VenueId) (state : VenueState) :
    (∀ w, (r.setVenueState venue state).1.venueSeq w = r.venueSeq w) ∧
      (r.setVenueState venue state).1.totalRouted = r.totalRouted ∧
      (r.setVenueState venue state).1.stats = r.stats := by
  unfold setVenueState
  cases hv : r.venuePtr venue with
  | none => exact ⟨fun _ => rfl, rfl, rfl⟩
  | some v =>
    obtain ⟨hseq, htotal⟩ := setVenue_idle { v with state } hv rfl rfl
    exact ⟨hseq, htotal, rfl⟩

/-- A logon restarts the numbers of its own venue. -/
theorem onLogon_restarts (r : OrderRouter) (venue : VenueId) :
    (∀ w, (r.onLogon venue).venueSeq w = if venue = w then 0 else r.venueSeq w) ∧
      (r.onLogon venue).totalRouted = r.totalRouted ∧ (r.onLogon venue).stats = r.stats := by
  unfold onLogon
  cases hv : r.venuePtr venue with
  | none =>
    refine ⟨fun w => ?_, rfl, rfl⟩
    split_ifs with hw
    · rw [← hw, venueSeq, hv]
      rfl
    · rfl
  | some v =>
    refine ⟨fun w => ?_, ?_, rfl⟩
    · rw [venueSeq, venuePtr_setVenue hv, venueSeq]
      by_cases hw : w = venue
      · rw [if_pos hw, if_pos hw.symm]
        rfl
      · rw [if_neg hw, if_neg (Ne.symm hw)]
    · rw [totalRouted, totalRouted]
      exact congrArg List.sum (map_setVenue (fun v => v.routed.toNat) hv rfl)

theorem route_numbers (hok : r.TablesOk) (request : RouteRequest) :
    Counts r (event step r (.route request)) ∧ NumbersOf r (event step r (.route request)) := by
  rcases hok.route_cases request with
    ⟨stats, decision, venue, hone, hdecision, hroute⟩ | ⟨venue, v, hv, -, hmax, hroute⟩
  · rw [event_route hroute]
    have hsent : (Reply.result { decision, venue }).sent? = none := if_neg hdecision
    refine ⟨.refused hsent rfl stats hone rfl, fun w => ?_⟩
    simp only [hsent, Option.map_none, reduceCtorEq, if_false]
    rfl
  · rw [event_route hroute]
    have hseq : r.venueSeq venue = v.seq := by
      rw [venueSeq, hv]
      rfl
    constructor
    · refine .sent venue ?_ rfl hmax rfl fun hlt => ?_
      · rw [hseq]
        rfl
      · apply totalRouted_setVenue hv
        have hle := routed_le_total hv
        rw [UInt64.toNat_add, UInt64.toNat_one]
        omega
    · intro w
      have hpost : (r.send venue v).1.venueSeq w =
          if w = venue then v.seq + 1 else r.venueSeq w := by
        change (((r.setVenue venue _).venuePtr w).map Venue.seq).getD 0 = _
        rw [venuePtr_setVenue hv]
        split_ifs <;> rfl
      change (r.send venue v).1.venueSeq w =
        if (Call.route request) = .onLogon w then 0
        else if some venue = some w then r.venueSeq w + 1 else r.venueSeq w
      have hcall : Call.route request ≠ .onLogon w := by simp
      rw [hpost, if_neg hcall]
      by_cases hw : w = venue
      · rw [if_pos hw, if_pos (by rw [hw]), hw, hseq]
      · rw [if_neg hw, if_neg fun h => hw (Option.some.inj h).symm]

theorem step_numbers (hok : r.TablesOk) (c : Call) :
    Counts r (event step r c) ∧ NumbersOf r (event step r c) := by
  cases c with
  | route request => exact route_numbers hok request
  | addVenue name initial =>
    refine ⟨.idle rfl rfl ?_ (totalRouted_addVenue r name initial), fun w => ?_⟩
    · simp only [event, step, addVenue]
      split_ifs <;> rfl
    · simpa [step, Reply.sent?] using venueSeq_addVenue r name initial w
  | setVenueState venue state =>
    obtain ⟨hseq, htotal, hstats⟩ := setVenueState_idle r venue state
    exact ⟨.idle rfl rfl hstats htotal, fun w => by simpa [step, Reply.sent?] using hseq w⟩
  | onLogon venue =>
    obtain ⟨hseq, htotal, hstats⟩ := onLogon_restarts r venue
    exact ⟨.idle rfl rfl hstats htotal, fun w => by simpa [step, Reply.sent?] using hseq w⟩
  | onDisconnect venue =>
    obtain ⟨hseq, htotal, hstats⟩ := setVenueState_idle r venue .down
    rw [← onDisconnect_eq] at htotal hstats
    simp only [← onDisconnect_eq] at hseq
    exact ⟨.idle rfl rfl hstats htotal, fun w => by simpa [step, Reply.sent?] using hseq w⟩
  | mapSymbol symbol venue =>
    have hsame : (r.mapSymbol symbol venue).1.venues = r.venues ∧
        (r.mapSymbol symbol venue).1.stats = r.stats := by
      unfold mapSymbol
      cases r.venuePtr venue <;> exact ⟨rfl, rfl⟩
    refine ⟨.idle rfl rfl hsame.2 (by simp [totalRouted, step, hsame.1]), fun w => ?_⟩
    have hseq := venueSeq_congr (congrArg (List.map Venue.seq) hsame.1) w
    simpa [step, Reply.sent?] using hseq
  | unmapSymbol symbol => exact ⟨.idle rfl rfl rfl rfl, fun w => by simp [step, Reply.sent?]; rfl⟩

end Calls

/-! ## Runs -/

/-- The counters after the history `h`. -/
structure Numbered (epoch bits : UInt32) (h : List Event) (r : OrderRouter) : Prop where
  tables : r.TablesOk
  issued : Issued epoch bits h r
  total : r.totalRouted = (routedIds h).length
  routed : r.stats.routed.toNat = (routedIds h).length
  seqs : ∀ venue, (seqsFor venue h).map UInt64.toNat = List.range' 1 (seqsFor venue h).length
  current : ∀ venue, (r.venueSeq venue).toNat = (seqsFor venue h).length
  seqs_le : ∀ venue, (seqsFor venue h).length ≤ (routedIds h).length
  calls : UInt64.ofNat (routeCalls h) = r.stats.routed + (rejects r.stats).sum
  callsExact : routeCalls h < 2 ^ 64 →
    routeCalls h = r.stats.routed.toNat + ((rejects r.stats).map UInt64.toNat).sum

/-- A reply that sends nothing has issued no id. -/
theorem routedIds_concat (h : List Event) (e : Event) :
    (routedIds (h ++ [e])).length = (routedIds h).length + if e.output.sent?.isSome then 1 else 0 := by
  rw [routedIds_append, List.length_append]
  congr 1
  cases ho : e.output with
  | result res =>
    by_cases hd : res.decision = .routed <;> simp [routedIds, ho, Reply.sent?, hd]
  | unit | venue | bool | fault => simp [routedIds, ho, Reply.sent?]

section Run

variable {epoch bits : UInt32} {h : List Event} {r : OrderRouter}

/-- The ids leave the 64-bit counters plenty of room. -/
theorem Numbered.routed_lt (hN : Numbered epoch bits h r) : (routedIds h).length < 2 ^ 48 := by
  by_cases hnil : routedIds h = []
  · simp [hnil]
  · have hcap := hN.issued.capacity
    have hlt := (hN.issued.fits (hN.issued.usable hnil)).counterMax_lt
    omega

theorem OneReject.counts {s s' : RouterStats} (hone : OneReject s s') :
    s'.routed = s.routed ∧ (rejects s').sum = (rejects s).sum + 1 ∧
      (((rejects s).map UInt64.toNat).sum + 1 < 2 ^ 64 →
        ((rejects s').map UInt64.toNat).sum = ((rejects s).map UInt64.toNat).sum + 1) := by
  cases hone <;> refine ⟨rfl, ?_, ?_⟩
  all_goals
    simp only [rejects, List.map_cons, List.map_nil, List.sum_cons, List.sum_nil, UInt64.toNat_add,
      UInt64.toNat_one, ← UInt64.toNat_inj, UInt64.toNat_zero]
    omega

/-- The step keeps every counter in line. -/
theorem numbered_step (hN : Numbered epoch bits h r) (c : Call) :
    Numbered epoch bits (h ++ [event step r c]) (step r c).1 := by
  obtain ⟨hcounts, hnumbers⟩ := step_numbers hN.tables c
  have htables := (keeps_step c hN.tables).1
  have hissued := issued_step hN.issued c
  have hlt := hN.routed_lt
  have hlen := routedIds_concat h (event step r c)
  have hcalls := routeCalls_concat h (event step r c)
  have hpost : (event step r c).post = (step r c).1 := rfl
  generalize event step r c = e at *
  rw [← hpost] at htables hissued ⊢
  -- nothing was sent: every list of numbers stays, or starts again
  have hquiet : e.output.sent? = none → ∀ venue,
      (seqsFor venue (h ++ [e])).map UInt64.toNat =
        List.range' 1 (seqsFor venue (h ++ [e])).length ∧
      (e.post.venueSeq venue).toNat = (seqsFor venue (h ++ [e])).length ∧
      (seqsFor venue (h ++ [e])).length ≤ (routedIds h).length := by
    intro hsent venue
    rw [hnumbers venue, seqsFor_concat, numberOne, hsent]
    by_cases hlogon : e.input = .onLogon venue
    · simp [hlogon]
    · simp only [if_neg hlogon, Option.map_none, reduceCtorEq, if_false]
      exact ⟨hN.seqs venue, hN.current venue, hN.seqs_le venue⟩
  cases hcounts with
  | idle hsent hinput hstats htotal =>
    rw [hsent, Option.isSome_none, if_neg Bool.false_ne_true, Nat.add_zero] at hlen
    rw [hinput, if_neg Bool.false_ne_true, Nat.add_zero] at hcalls
    refine ⟨htables, hissued, ?_, ?_, fun venue => (hquiet hsent venue).1,
      fun venue => (hquiet hsent venue).2.1, fun venue => ?_, ?_, ?_⟩
    · rw [htotal, hlen, hN.total]
    · rw [hstats, hlen, hN.routed]
    · rw [hlen]
      exact (hquiet hsent venue).2.2
    · rw [hcalls, hstats]
      exact hN.calls
    · rw [hcalls, hstats]
      exact hN.callsExact
  | refused hsent hinput stats hone hpost' =>
    rw [hsent, Option.isSome_none, if_neg Bool.false_ne_true, Nat.add_zero] at hlen
    rw [hinput, if_pos rfl] at hcalls
    obtain ⟨hrouted, hsum, hexact⟩ := hone.counts
    refine ⟨htables, hissued, ?_, ?_, fun venue => (hquiet hsent venue).1,
      fun venue => (hquiet hsent venue).2.1, fun venue => ?_, ?_, ?_⟩
    · rw [hlen, hpost', ← hN.total]
      rfl
    · rw [hlen, hpost', ← hN.routed, hrouted]
    · rw [hlen]
      exact (hquiet hsent venue).2.2
    · rw [hcalls, hpost', hrouted, hsum, UInt64.ofNat_add, hN.calls, UInt64.add_assoc]
      rfl
    · intro hbound
      rw [hcalls] at hbound ⊢
      have hprev := hN.callsExact (by omega)
      rw [hpost', hrouted, hexact (by omega)]
      omega
  | sent venue hsent hinput hmax hstats htotal =>
    rw [hsent, Option.isSome_some, if_pos rfl] at hlen
    rw [hinput, if_pos rfl] at hcalls
    have hroutedNext : (r.stats.routed + 1).toNat = (routedIds h).length + 1 := by
      rw [UInt64.toNat_add, UInt64.toNat_one, hN.routed]
      omega
    have hcall : ∀ w, e.input ≠ .onLogon w := by
      intro w hw
      rw [hw] at hinput
      cases hinput
    have hnext : ∀ w, (r.venueSeq w + 1).toNat = (seqsFor w h).length + 1 := by
      intro w
      have hle := hN.seqs_le w
      rw [UInt64.toNat_add, UInt64.toNat_one, hN.current w]
      omega
    have hseqs : ∀ w, (seqsFor w (h ++ [e])).map UInt64.toNat =
          List.range' 1 (seqsFor w (h ++ [e])).length ∧
        (e.post.venueSeq w).toNat = (seqsFor w (h ++ [e])).length ∧
        (seqsFor w (h ++ [e])).length ≤ (routedIds h).length + 1 := by
      intro w
      have hle := hN.seqs_le w
      rw [hnumbers w, seqsFor_concat, numberOne, if_neg (hcall w), if_neg (hcall w), hsent]
      by_cases hw : venue = w
      · subst hw
        simp only [if_true, Option.map_some, List.map_append, List.map_singleton, hN.seqs venue,
          List.length_append, List.length_singleton, hnext venue, List.range'_1_concat]
        exact ⟨by rw [Nat.add_comm 1], trivial, by omega⟩
      · have hw' : some venue ≠ some w := fun he => hw (Option.some.inj he)
        simp only [if_neg hw, Option.map_some, if_neg hw']
        exact ⟨hN.seqs w, hN.current w, by omega⟩
    refine ⟨htables, hissued, ?_, ?_, fun w => (hseqs w).1, fun w => (hseqs w).2.1,
      fun w => ?_, ?_, ?_⟩
    · rw [hlen, htotal (by rw [hN.total]; omega), hN.total]
    · rw [hstats, hlen]
      exact hroutedNext
    · rw [hlen]
      exact (hseqs w).2.2
    · rw [hcalls, hstats, UInt64.ofNat_add, hN.calls, UInt64.add_assoc,
        UInt64.add_comm _ (UInt64.ofNat 1), ← UInt64.add_assoc]
      rfl
    · intro hbound
      rw [hcalls] at hbound ⊢
      have hprev := hN.callsExact (by omega)
      have hrouted := hN.routed
      rw [hstats]
      change _ = (r.stats.routed + 1).toNat + ((rejects r.stats).map UInt64.toNat).sum
      rw [hroutedNext]
      omega

end Run

theorem numbered_new (epoch bits : UInt32) : Numbered epoch bits [] (new epoch bits) := by
  have hfields : (new epoch bits).venues = [] ∧ (new epoch bits).stats = {} := by
    unfold new
    split_ifs <;> exact ⟨rfl, rfl⟩
  have hseq : ∀ venue, (new epoch bits).venueSeq venue = 0 := by
    intro venue
    rw [venueSeq_eq, hfields.1]
    simp
  refine ⟨tablesOk_new epoch bits, issued_new epoch bits, ?_, ?_, fun _ => rfl, fun venue => ?_,
    fun _ => le_rfl, ?_, fun _ => ?_⟩
  · rw [totalRouted, hfields.1]
    rfl
  · rw [hfields.2]
    rfl
  · rw [hseq]
    rfl
  · rw [hfields.2]
    rfl
  · rw [hfields.2]
    rfl

/-- **Numbering is gapless and a reject consumes nothing.** In every run the orders
routed to a venue since its last logon carry 1, 2, 3, ...; a venue's counter moves
only by an order sent there and a logon to it; a `route` that does not send leaves
everything but one reject counter, which goes up by one; the orders routed are the
ids issued and the sum over the venues; and all route calls are accounted for, as
64-bit counters always and as numbers until there are 2^64 of them. -/
theorem numbering_gapless (epoch bits : UInt32) (calls : List Call) :
    let h := trace step (new epoch bits) calls
    let r := exec step (new epoch bits) calls
    (∀ venue, (seqsFor venue h).map UInt64.toNat = List.range' 1 (seqsFor venue h).length) ∧
    (∀ e ∈ h, NumbersOf e.pre e) ∧
    (∀ e ∈ h, ∀ request, e.input = .route request → ∃ res, e.output = .result res ∧
      (res.decision ≠ .routed → ∃ stats, OneReject e.pre.stats stats ∧
        e.post = { e.pre with stats })) ∧
    r.stats.routed = r.idsIssued ∧
    r.stats.routed.toNat =
      ((List.range' 1 r.venueCount).map fun id => (r.venueRouted (UInt16.ofNat id)).toNat).sum ∧
    UInt64.ofNat (routeCalls h) = r.stats.routed + (rejects r.stats).sum ∧
    (routeCalls h < 2 ^ 64 →
      routeCalls h = r.stats.routed.toNat + ((rejects r.stats).map UInt64.toNat).sum) := by
  intro h r
  have hN : Numbered epoch bits h r :=
    history_induction step (P := fun _ _ => True) (I := Numbered epoch bits)
      (fun _ _ c _ hN => numbered_step hN c) _ (numbered_new epoch bits) calls fun _ _ => trivial
  have hevents : ∀ e ∈ h, e.pre.TablesOk ∧ e = event step e.pre e.input := by
    intro e he
    refine ⟨?_, event_of_mem_trace step _ calls e he⟩
    obtain ⟨before, after, hrun⟩ := List.append_of_mem he
    exact event_of_history step (P := fun _ _ => True) (I := Numbered epoch bits)
      (Q := fun _ e => e.pre.TablesOk) (fun _ _ c _ hN => numbered_step hN c)
      (fun _ _ _ _ hN => hN.tables) _ (numbered_new epoch bits) calls (fun _ _ => trivial) before
      after e hrun
  refine ⟨hN.seqs, fun e he => ?_, fun e he request hinput => ?_, ?_, ?_, hN.calls, hN.callsExact⟩
  · obtain ⟨hok, heq⟩ := hevents e he
    have hnumbers := (step_numbers hok e.input).2
    rwa [← heq] at hnumbers
  · obtain ⟨hok, heq⟩ := hevents e he
    rw [hinput] at heq
    rcases hok.route_cases request with
      ⟨stats, decision, venue, hone, -, hroute⟩ | ⟨venue, v, -, -, -, hroute⟩
    · rw [event_route hroute] at heq
      rw [heq]
      exact ⟨_, rfl, fun _ => ⟨stats, hone, rfl⟩⟩
    · rw [event_route hroute] at heq
      rw [heq]
      exact ⟨_, rfl, fun hne => absurd rfl hne⟩
  · have hcounter := hN.issued.counter
    rw [idsIssued, ← UInt64.toNat_inj, hN.routed, toNat_sub_one_of_pos (by omega)]
    omega
  · rw [hN.tables.sum_venueRouted, hN.routed, ← hN.total]

end Lloms.OrderRouter
