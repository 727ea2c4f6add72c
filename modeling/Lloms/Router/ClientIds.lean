import Mathlib.Data.List.Nodup
import Lloms.Router.OrderRouter

/-! Client order IDs. The ids of a run are the numbers behind the epoch's bits,
counted from one, so they repeat neither in a run nor, under another epoch, in
any other one. -/
namespace Lloms.OrderRouter
open Lib

/-! ## What `route` can do -/

/-- Every test of `route` before the one on the id space passes. -/
def Routable (r : OrderRouter) (request : RouteRequest) : Prop :=
  r.valid = true ∧ ¬ request.order.qty ≤ 0 ∧
    ∃ v, r.venuePtr (r.venueFor request.order.symbol) = some v ∧ v.state ≠ .down ∧
      (v.state = .drainOnly → request.liquidating = true)

theorem venuePtr_kNoVenue (r : OrderRouter) : r.venuePtr kNoVenue = none := by simp [venuePtr]

theorem route_of_routable {r : OrderRouter} {request : RouteRequest} (h : r.Routable request) :
    ∃ v, r.venuePtr (r.venueFor request.order.symbol) = some v ∧
      r.route request = some
        (if r.counter > r.counterMax then
          r.refuse (fun st => { st with rejectedIdExhausted := st.rejectedIdExhausted + 1 })
            .rejectIdSpaceExhausted (r.venueFor request.order.symbol)
        else r.send (r.venueFor request.order.symbol) v) := by
  obtain ⟨hvalid, hqty, v, hv, hdown, hdrain⟩ := h
  have hvenue : r.venueFor request.order.symbol ≠ kNoVenue := by
    intro he
    rw [he, venuePtr_kNoVenue] at hv
    cases hv
  have hdraining : ¬ (v.state = .drainOnly ∧ (!request.liquidating) = true) := by
    rintro ⟨hd, hl⟩
    simp [hdrain hd] at hl
  refine ⟨v, hv, ?_⟩
  unfold route
  rw [if_neg (by simp [hvalid]), if_neg hqty]
  simp only [if_neg hvenue, hv, if_neg hdown, if_neg hdraining]
  split_ifs <;> rfl

/-- Any other order is refused, unless the venue pointer is null. -/
theorem route_of_not_routable {r : OrderRouter} {request : RouteRequest}
    (h : ¬ r.Routable request) :
    r.route request = none ∨ ∃ f decision venue, decision ≠ .routed ∧
      r.route request = some (r.refuse f decision venue) := by
  unfold route
  by_cases hvalid : r.valid = true
  swap
  · exact .inr ⟨_, _, _, by decide, if_pos (by simp [hvalid])⟩
  rw [if_neg (by simp [hvalid])]
  by_cases hqty : request.order.qty ≤ 0
  · exact .inr ⟨_, _, _, by decide, if_pos hqty⟩
  rw [if_neg hqty]
  by_cases hvenue : r.venueFor request.order.symbol = kNoVenue
  · exact .inr ⟨_, _, _, by decide, if_pos hvenue⟩
  simp only [if_neg hvenue]
  cases hv : r.venuePtr (r.venueFor request.order.symbol) with
  | none => exact .inl rfl
  | some v =>
    right
    by_cases hdown : v.state = .down
    · exact ⟨_, _, _, by decide, if_pos hdown⟩
    simp only [if_neg hdown]
    by_cases hdrain : v.state = .drainOnly ∧ (!request.liquidating) = true
    · exact ⟨_, _, _, by decide, if_pos hdrain⟩
    · refine absurd ⟨hvalid, hqty, v, hv, hdown, fun hd => ?_⟩ h
      by_contra hl
      exact hdrain ⟨hd, by simpa using hl⟩

/-! ## The layout of an id -/

/-- What a router keeps for life. -/
structure SameLayout (r r' : OrderRouter) : Prop where
  epoch : r'.epoch = r.epoch
  counterBits : r'.counterBits = r.counterBits
  counterMax : r'.counterMax = r.counterMax
  valid : r'.valid = r.valid

/-- A usable router: the counter and the epoch share the 64 bits. -/
structure Fits (r : OrderRouter) : Prop where
  bits_pos : 1 ≤ r.counterBits.toNat
  bits_le : r.counterBits.toNat ≤ 48
  epoch_lt : r.epoch.toNat < 2 ^ (64 - r.counterBits.toNat)
  counterMax : r.counterMax.toNat = 2 ^ r.counterBits.toNat - 1

/-- `(1 << bits) - 1` below the width of the word. -/
theorem toNat_one_shiftLeft_sub_one {bits : UInt32} (h : bits.toNat < 64) :
    ((1 : UInt64) <<< bits.toUInt64 - 1).toNat = 2 ^ bits.toNat - 1 := by
  have hlt : 2 ^ bits.toNat < 2 ^ 64 := Nat.pow_lt_pow_right (by decide) h
  have hshift : ((1 : UInt64) <<< bits.toUInt64).toNat = 2 ^ bits.toNat := by
    rw [UInt64.toNat_shiftLeft, UInt32.toNat_toUInt64, Nat.mod_eq_of_lt h, Nat.shiftLeft_eq,
      UInt64.toNat_one, Nat.one_mul, Nat.mod_eq_of_lt hlt]
  rw [toNat_sub_one_of_pos (by rw [hshift]; exact Nat.two_pow_pos _), hshift]

theorem new_fits (epoch bits : UInt32) (h : (new epoch bits).valid = true) :
    Fits (new epoch bits) := by
  by_cases hbad : bits < 1 ∨ bits > 48
  · simp only [new, if_pos hbad] at h
    cases h
  · have hbits : 1 ≤ bits.toNat ∧ bits.toNat ≤ 48 := by
      rw [not_or, gt_iff_lt, UInt32.lt_iff_toNat_lt, UInt32.lt_iff_toNat_lt] at hbad
      change ¬ bits.toNat < 1 ∧ ¬ 48 < bits.toNat at hbad
      omega
    have hsub : (64 - bits).toNat = 64 - bits.toNat := by
      refine UInt32.toNat_sub_of_le _ _ (UInt32.le_iff_toNat_le.mpr ?_)
      change bits.toNat ≤ 64
      omega
    have hsmall : ¬ 64 - bits ≥ 64 := by
      rw [ge_iff_le, UInt32.le_iff_toNat_le, hsub]
      change ¬ 64 ≤ _
      omega
    simp only [new, if_neg hbad, if_neg hsmall, decide_eq_true_eq] at h ⊢
    rw [UInt64.le_iff_toNat_le, UInt32.toNat_toUInt64,
      toNat_one_shiftLeft_sub_one (by omega), hsub] at h
    refine ⟨hbits.1, hbits.2, ?_, toNat_one_shiftLeft_sub_one (by omega)⟩
    have := Nat.two_pow_pos (64 - bits.toNat)
    change epoch.toNat < 2 ^ (64 - bits.toNat)
    omega

theorem Fits.counterMax_lt {r : OrderRouter} (h : r.Fits) : r.counterMax.toNat < 2 ^ 48 := by
  have hpow := Nat.pow_le_pow_right (n := 2) (by decide) h.bits_le
  have := Nat.two_pow_pos r.counterBits.toNat
  rw [h.counterMax]
  omega

/-- The number of the `k`-th order, counted from 0. -/
def nthId (epoch bits : UInt32) (k : Nat) : Nat := epoch.toNat * 2 ^ bits.toNat + (k + 1)

/-- Shifting and or-ing is exact while the counter stays in its bits. -/
theorem clientOrderId_toNat {r : OrderRouter} (h : r.Fits) {k : Nat}
    (hcount : r.counter.toNat = k + 1) (hmax : ¬ r.counter > r.counterMax) :
    r.clientOrderId.toNat = nthId r.epoch r.counterBits k := by
  have hle : r.counter.toNat < 2 ^ r.counterBits.toNat := by
    rw [gt_iff_lt, UInt64.lt_iff_toNat_lt, h.counterMax] at hmax
    have := Nat.two_pow_pos r.counterBits.toNat
    omega
  have hbits := h.bits_le
  have hword : r.epoch.toNat * 2 ^ r.counterBits.toNat < 2 ^ 64 := by
    have hmul := (Nat.mul_lt_mul_right (Nat.two_pow_pos r.counterBits.toNat)).mpr h.epoch_lt
    rwa [← Nat.pow_add, Nat.sub_add_cancel (by omega)] at hmul
  rw [clientOrderId, UInt64.toNat_or, UInt64.toNat_shiftLeft, UInt32.toNat_toUInt64,
    UInt32.toNat_toUInt64, Nat.mod_eq_of_lt (show r.counterBits.toNat < 64 by omega),
    Nat.mod_eq_of_lt (by rwa [Nat.shiftLeft_eq]), ← Nat.shiftLeft_add_eq_or_of_lt hle,
    Nat.shiftLeft_eq, hcount, nthId]

/-! ## Runs -/

/-- The ids of the orders that were routed, in order. -/
def routedIds (h : List Event) : List UInt64 :=
  h.filterMap fun e => match e.output with
    | .result res => if res.decision = .routed then some res.clientOrderId else none
    | _ => none

/-- Every result but a routed one carries no id. -/
def BlankUnlessRouted (e : Event) : Prop :=
  ∀ res, e.output = .result res → res.decision ≠ .routed → res.clientOrderId = 0

theorem routedIds_append (h h' : List Event) : routedIds (h ++ h') = routedIds h ++ routedIds h' :=
  List.filterMap_append

/-- What one call does to the ids: it issues the next one or none. -/
structure Issues (r : OrderRouter) (e : Event) : Prop where
  layout : SameLayout r e.post
  blank : BlankUnlessRouted e
  ids : (e.post.counter = r.counter ∧ routedIds [e] = []) ∨
    (r.valid = true ∧ ¬ r.counter > r.counterMax ∧ e.post.counter = r.counter + 1 ∧
      routedIds [e] = [r.clientOrderId])

/-- A call that neither routes nor touches the counter. -/
theorem issues_of_idle {r : OrderRouter} {e : Event} (hl : SameLayout r e.post)
    (hc : e.post.counter = r.counter) (ho : ∀ res, e.output ≠ .result res) : Issues r e where
  layout := hl
  blank := fun res hres => absurd hres (ho res)
  ids := by
    refine .inl ⟨hc, ?_⟩
    cases h : e.output with
    | result res => exact absurd h (ho res)
    | unit | venue | bool | fault => simp [routedIds, h]

theorem event_route {r r' : OrderRouter} {request : RouteRequest} {res : RouteResult}
    (h : r.route request = some (r', res)) :
    event step r (.route request) = ⟨r, .route request, .result res, r'⟩ := by
  simp only [event, step, h]

theorem refuse_issues (r : OrderRouter) (request : RouteRequest) {f : RouterStats → RouterStats}
    {decision : RouteDecision} {venue : VenueId} (hd : decision ≠ .routed)
    (h : r.route request = some (r.refuse f decision venue)) :
    Issues r (event step r (.route request)) := by
  rw [event_route h]
  refine ⟨⟨rfl, rfl, rfl, rfl⟩, ?_, .inl ⟨rfl, by simp [routedIds, hd]⟩⟩
  rintro res hres -
  cases hres
  rfl

theorem route_issues (r : OrderRouter) (request : RouteRequest) :
    Issues r (event step r (.route request)) := by
  by_cases h : r.Routable request
  · obtain ⟨v, -, hroute⟩ := route_of_routable h
    by_cases hmax : r.counter > r.counterMax
    · rw [if_pos hmax] at hroute
      exact refuse_issues r request (by decide) hroute
    · rw [if_neg hmax] at hroute
      rw [event_route hroute]
      refine ⟨⟨rfl, rfl, rfl, rfl⟩, ?_, .inr ⟨h.1, hmax, rfl, by simp [routedIds]⟩⟩
      intro res hres hne
      cases hres
      exact absurd rfl hne
  · rcases route_of_not_routable h with hroute | ⟨f, decision, venue, hd, hroute⟩
    · refine issues_of_idle ?_ ?_ ?_ <;> simp only [event, step, hroute]
      · exact ⟨rfl, rfl, rfl, rfl⟩
      · simp
    · exact refuse_issues r request hd hroute

theorem setVenueState_layout (r : OrderRouter) (venue : VenueId) (state : VenueState) :
    SameLayout r (r.setVenueState venue state).1 ∧
      (r.setVenueState venue state).1.counter = r.counter := by
  unfold setVenueState
  cases r.venuePtr venue <;> exact ⟨⟨rfl, rfl, rfl, rfl⟩, rfl⟩

theorem step_issues (r : OrderRouter) (c : Call) : Issues r (event step r c) := by
  cases c with
  | route request => exact route_issues r request
  | addVenue name initial =>
    have h : SameLayout r (r.addVenue name initial).1 ∧
        (r.addVenue name initial).1.counter = r.counter := by
      unfold addVenue
      split_ifs <;> exact ⟨⟨rfl, rfl, rfl, rfl⟩, rfl⟩
    exact issues_of_idle h.1 h.2 (by simp [step])
  | setVenueState venue state =>
    have h := setVenueState_layout r venue state
    exact issues_of_idle h.1 h.2 (by simp [step])
  | onLogon venue =>
    have h : SameLayout r (r.onLogon venue) ∧ (r.onLogon venue).counter = r.counter := by
      unfold onLogon
      cases r.venuePtr venue <;> exact ⟨⟨rfl, rfl, rfl, rfl⟩, rfl⟩
    exact issues_of_idle h.1 h.2 (by simp [step])
  | onDisconnect venue =>
    have h := setVenueState_layout r venue .down
    rw [← onDisconnect_eq] at h
    exact issues_of_idle h.1 h.2 (by simp [step])
  | mapSymbol symbol venue =>
    have h : SameLayout r (r.mapSymbol symbol venue).1 ∧
        (r.mapSymbol symbol venue).1.counter = r.counter := by
      unfold mapSymbol
      cases r.venuePtr venue <;> exact ⟨⟨rfl, rfl, rfl, rfl⟩, rfl⟩
    exact issues_of_idle h.1 h.2 (by simp [step])
  | unmapSymbol symbol => exact issues_of_idle ⟨rfl, rfl, rfl, rfl⟩ rfl (by simp [step])

/-- The ids issued so far are the first ones of the epoch, and the counter stands
behind them. -/
structure Issued (epoch bits : UInt32) (h : List Event) (r : OrderRouter) : Prop where
  layout : SameLayout (new epoch bits) r
  ids : (routedIds h).map UInt64.toNat =
    (List.range (routedIds h).length).map (nthId epoch bits)
  counter : r.counter.toNat = (routedIds h).length + 1
  capacity : (routedIds h).length ≤ r.counterMax.toNat
  usable : routedIds h ≠ [] → r.valid = true
  blank : ∀ e ∈ h, BlankUnlessRouted e

theorem Issued.fits {epoch bits : UInt32} {h : List Event} {r : OrderRouter}
    (hI : Issued epoch bits h r) (hv : r.valid = true) : r.Fits := by
  have hf := new_fits epoch bits (hI.layout.valid ▸ hv)
  have hl := hI.layout
  refine ⟨?_, ?_, ?_, ?_⟩
  · rw [hl.counterBits]
    exact hf.bits_pos
  · rw [hl.counterBits]
    exact hf.bits_le
  · rw [hl.counterBits, hl.epoch]
    exact hf.epoch_lt
  · rw [hl.counterBits, hl.counterMax]
    exact hf.counterMax

theorem new_fields (epoch bits : UInt32) :
    (new epoch bits).epoch = epoch ∧ (new epoch bits).counterBits = bits ∧
      (new epoch bits).counter = 1 := by
  unfold new
  split_ifs <;> exact ⟨rfl, rfl, rfl⟩

theorem issued_new (epoch bits : UInt32) : Issued epoch bits [] (new epoch bits) where
  layout := ⟨rfl, rfl, rfl, rfl⟩
  ids := rfl
  counter := by
    rw [(new_fields epoch bits).2.2]
    rfl
  capacity := Nat.zero_le _
  usable := fun h => absurd rfl h
  blank := by simp

theorem issued_step {epoch bits : UInt32} {h : List Event} {r : OrderRouter}
    (hI : Issued epoch bits h r) (c : Call) :
    Issued epoch bits (h ++ [event step r c]) (step r c).1 := by
  obtain ⟨hlay, hblank, hids⟩ := step_issues r c
  have hlay' : SameLayout (new epoch bits) (step r c).1 :=
    ⟨hlay.epoch.trans hI.layout.epoch, hlay.counterBits.trans hI.layout.counterBits,
      hlay.counterMax.trans hI.layout.counterMax, hlay.valid.trans hI.layout.valid⟩
  have hall : ∀ e ∈ h ++ [event step r c], BlankUnlessRouted e := by
    intro e he
    rcases List.mem_append.mp he with he | he
    · exact hI.blank e he
    · obtain rfl := List.mem_singleton.mp he
      exact hblank
  rw [event_post] at hids
  rcases hids with ⟨hc, hnone⟩ | ⟨hv, hmax, hc, hone⟩
  · have hsame : routedIds (h ++ [event step r c]) = routedIds h := by
      rw [routedIds_append, hnone, List.append_nil]
    exact ⟨hlay', by rw [hsame]; exact hI.ids, by rw [hsame, hc]; exact hI.counter,
      by rw [hsame]; exact hlay.counterMax ▸ hI.capacity,
      fun hne => hlay.valid.trans (hI.usable (hsame ▸ hne)), hall⟩
  · have hmore : routedIds (h ++ [event step r c]) = routedIds h ++ [r.clientOrderId] := by
      rw [routedIds_append, hone]
    have hfits := hI.fits hv
    have hid := clientOrderId_toNat hfits hI.counter hmax
    rw [hI.layout.epoch, hI.layout.counterBits, (new_fields epoch bits).1,
      (new_fields epoch bits).2.1] at hid
    have hlt := hfits.counterMax_lt
    have hcount := hI.counter
    rw [gt_iff_lt, UInt64.lt_iff_toNat_lt] at hmax
    refine ⟨hlay', ?_, ?_, ?_, fun _ => hlay.valid.trans hv, hall⟩
    · rw [hmore, List.map_append, hI.ids, List.length_append, List.length_singleton,
        List.range_succ, List.map_append, List.map_singleton, List.map_singleton, hid]
    · rw [hmore, hc, UInt64.toNat_add, UInt64.toNat_one, List.length_append, List.length_singleton]
      omega
    · have hkept : (step r c).1.counterMax = r.counterMax := hlay.counterMax
      rw [hmore, List.length_append, List.length_singleton, hkept]
      omega

theorem issued_run (epoch bits : UInt32) (calls : List Call) :
    Issued epoch bits (trace step (new epoch bits) calls) (exec step (new epoch bits) calls) :=
  history_induction step (P := fun _ _ => True) (I := Issued epoch bits)
    (fun _ _ c _ hI => issued_step hI c) _ (issued_new epoch bits) calls fun _ _ => trivial

/-- An id of the run is the epoch and a counter that fits its bits. -/
theorem Issued.mem {epoch bits : UInt32} {h : List Event} {r : OrderRouter}
    (hI : Issued epoch bits h r) {id : UInt64} (hid : id ∈ routedIds h) :
    ∃ k, id.toNat = epoch.toNat * 2 ^ bits.toNat + k ∧ 1 ≤ k ∧ k < 2 ^ bits.toNat := by
  have hv := hI.usable (List.ne_nil_of_mem hid)
  have hmax := (hI.fits hv).counterMax
  rw [hI.layout.counterBits, (new_fields epoch bits).2.1] at hmax
  have hmem : id.toNat ∈ (routedIds h).map UInt64.toNat := List.mem_map_of_mem hid
  rw [hI.ids] at hmem
  obtain ⟨k, hk, he⟩ := List.mem_map.mp hmem
  have hlt := List.mem_range.mp hk
  have hcap := hI.capacity
  exact ⟨k + 1, he.symm, by omega, by omega⟩

theorem Issued.nodup {epoch bits : UInt32} {h : List Event} {r : OrderRouter}
    (hI : Issued epoch bits h r) : (routedIds h).Nodup := by
  have hmap : ((routedIds h).map UInt64.toNat).Nodup := by
    rw [hI.ids]
    refine List.Nodup.map (fun j k hjk => ?_) List.nodup_range
    unfold nthId at hjk
    omega
  exact List.Nodup.of_map _ hmap

theorem Issued.length_le {epoch bits : UInt32} {h : List Event} {r : OrderRouter}
    (hI : Issued epoch bits h r) : (routedIds h).length ≤ 2 ^ bits.toNat - 1 := by
  by_cases hnil : routedIds h = []
  · simp [hnil]
  · have hcap := hI.capacity
    rwa [(hI.fits (hI.usable hnil)).counterMax, hI.layout.counterBits,
      (new_fields epoch bits).2.1] at hcap

/-- When the ids are used up, an order that passes every other test is refused
for that reason. -/
theorem Issued.exhausted {epoch bits : UInt32} {h : List Event} {r : OrderRouter}
    (hI : Issued epoch bits h r) (hfull : (routedIds h).length = 2 ^ bits.toNat - 1)
    {request : RouteRequest} (hr : r.Routable request) :
    ∃ r' res, r.route request = some (r', res) ∧ res.decision = .rejectIdSpaceExhausted := by
  obtain ⟨v, -, hroute⟩ := route_of_routable hr
  have hmax := (hI.fits hr.1).counterMax
  rw [hI.layout.counterBits, (new_fields epoch bits).2.1] at hmax
  have hover : r.counter > r.counterMax := by
    rw [gt_iff_lt, UInt64.lt_iff_toNat_lt, hmax, hI.counter, hfull]
    omega
  rw [if_pos hover] at hroute
  exact ⟨_, _, hroute, rfl⟩

/-- **Client order IDs are never used twice.** In every run the ids are distinct,
carry the epoch above a counter between 1 and `2 ^ bits - 1`, and are at most that
many; only routed orders have one; and a run under another epoch shares none. -/
theorem clientOrderIds_unique (epoch bits : UInt32) (calls : List Call) :
    let h := trace step (new epoch bits) calls
    let r := exec step (new epoch bits) calls
    (routedIds h).Nodup ∧
    (∀ id ∈ routedIds h, id ≠ 0 ∧ id.toNat >>> bits.toNat = epoch.toNat ∧
      1 ≤ id.toNat % 2 ^ bits.toNat ∧ id.toNat % 2 ^ bits.toNat ≤ 2 ^ bits.toNat - 1) ∧
    (routedIds h).length ≤ 2 ^ bits.toNat - 1 ∧
    ((routedIds h).length = 2 ^ bits.toNat - 1 → ∀ request, r.Routable request →
      ∃ r' res, r.route request = some (r', res) ∧ res.decision = .rejectIdSpaceExhausted) ∧
    (∀ e ∈ h, ∀ res, e.output = .result res → res.decision ≠ .routed → res.clientOrderId = 0) ∧
    ∀ epoch' calls', epoch' ≠ epoch → ∀ id ∈ routedIds h,
      id ∉ routedIds (trace step (new epoch' bits) calls') := by
  intro h r
  have hI : Issued epoch bits h r := issued_run epoch bits calls
  -- the epoch is the quotient of an id by the counter's range
  have hquot : ∀ e j : Nat, j < 2 ^ bits.toNat →
      (e * 2 ^ bits.toNat + j) / 2 ^ bits.toNat = e := by
    intro e j hj
    rw [Nat.mul_comm, Nat.mul_add_div (Nat.two_pow_pos _), Nat.div_eq_of_lt hj, Nat.add_zero]
  refine ⟨hI.nodup, fun id hid => ?_, hI.length_le, fun hfull _ => hI.exhausted hfull, hI.blank,
    fun epoch' calls' hne id hid hid' => ?_⟩
  · obtain ⟨k, hk, h1, hlt⟩ := hI.mem hid
    have hmod : id.toNat % 2 ^ bits.toNat = k := by
      rw [hk, Nat.mul_comm, Nat.mul_add_mod, Nat.mod_eq_of_lt hlt]
    refine ⟨fun h0 => ?_, ?_, by omega, by omega⟩
    · rw [h0] at hk
      simp at hk
      omega
    · rw [Nat.shiftRight_eq_div_pow, hk, hquot _ _ hlt]
  · obtain ⟨k, hk, -, hlt⟩ := hI.mem hid
    obtain ⟨k', hk', -, hlt'⟩ := (issued_run epoch' bits calls').mem hid'
    apply hne
    rw [← UInt32.toNat_inj, ← hquot epoch'.toNat k' hlt', ← hk', hk, hquot _ _ hlt]

end Lloms.OrderRouter
