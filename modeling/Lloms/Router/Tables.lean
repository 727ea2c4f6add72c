import Lloms.Router.ClientIds
import Lloms.Router.Configure

/-! The router's tables. A venue's id is its place in the vector, so the names in
front of it never change; the routing table only holds such places. Every
operation keeps that, a configuration that stops half way included, and so the
pointer that `route` follows is never null. -/
namespace Lloms.OrderRouter
open Lib

/-- The names in the order of the ids. -/
def names (r : OrderRouter) : List Text := r.venues.map Venue.name

structure TablesOk (r : OrderRouter) : Prop where
  named : ∀ name ∈ r.names, name ≠ []
  distinct : r.names.Nodup
  count : r.venueCount ≤ 65534
  routes : ∀ symbol venue, r.routes symbol = some venue →
    1 ≤ venue.toNat ∧ venue.toNat ≤ r.venueCount

section Names

variable {r : OrderRouter} {venue : VenueId} {v v' : Venue}

theorem length_names (r : OrderRouter) : r.names.length = r.venueCount := List.length_map _

/-- A pointer is the element in front of which the others are counted. -/
theorem venuePtr_eq_some : r.venuePtr venue = some v ↔
    1 ≤ venue.toNat ∧ r.venues[venue.toNat - 1]? = some v := by
  have hzero : venue = kNoVenue ↔ venue.toNat = 0 := by
    rw [← UInt16.toNat_inj]
    exact Iff.rfl
  unfold venuePtr
  split_ifs with h
  · rw [hzero] at h
    simp only [false_iff, not_and]
    intro hpos hget
    have hlt := (List.getElem?_eq_some_iff.mp hget).1
    omega
  · rw [hzero] at h
    constructor
    · intro hv
      exact ⟨by omega, hv⟩
    · exact And.right

/-- A write through a pointer that keeps `g` of the venue keeps it for all. -/
theorem map_setVenue {β : Type} (g : Venue → β) (hv : r.venuePtr venue = some v)
    (hg : g v' = g v) : (r.setVenue venue v').venues.map g = r.venues.map g := by
  obtain ⟨-, hget⟩ := venuePtr_eq_some.mp hv
  obtain ⟨hlt, rfl⟩ := List.getElem?_eq_some_iff.mp hget
  have hlt' : venue.toNat - 1 < (r.venues.map g).length := by
    rw [List.length_map]
    exact hlt
  have hsame : (r.venues.map g)[venue.toNat - 1] = g v' := by
    rw [hg]
    exact List.getElem_map _
  rw [setVenue, List.map_set, ← hsame]
  exact List.set_getElem_self hlt'

/-- What a search by name finds: the first place of the name, if it has one. -/
theorem findVenue_cases (hcount : r.venueCount ≤ 65534) (name : Text) :
    (name ∉ r.names ∧ r.findVenue name = kNoVenue) ∨
      ∃ i, r.names[i]? = some name ∧ (r.findVenue name).toNat = i + 1 := by
  unfold findVenue
  cases hfind : r.venues.findIdx? fun v => v.name = name with
  | none =>
    left
    rw [List.findIdx?_eq_none_iff] at hfind
    refine ⟨fun hmem => ?_, rfl⟩
    obtain ⟨v, hv, hname⟩ := List.mem_map.mp hmem
    simpa [hname] using hfind v hv
  | some i =>
    right
    obtain ⟨hlt, hname, -⟩ := List.findIdx?_eq_some_iff_getElem.mp hfind
    have hi : i + 1 < 2 ^ 16 := by
      change r.venues.length ≤ 65534 at hcount
      omega
    refine ⟨i, ?_, UInt16.toNat_ofNat_of_lt' hi⟩
    rw [names, List.getElem?_map, List.getElem?_eq_getElem hlt]
    simpa using hname

/-- The name of an id in range. -/
theorem names_getElem? (hpos : 1 ≤ venue.toNat) (hle : venue.toNat ≤ r.venueCount) :
    r.names[venue.toNat - 1]? = some (r.venueName venue) := by
  have hlt : venue.toNat - 1 < r.venues.length := by
    change _ ≤ r.venues.length at hle
    omega
  have hv : r.venuePtr venue = some r.venues[venue.toNat - 1] :=
    venuePtr_eq_some.mpr ⟨hpos, List.getElem?_eq_getElem hlt⟩
  rw [names, List.getElem?_map, List.getElem?_eq_getElem hlt, venueName, hv]
  rfl

/-- An id is found by its own name, as names are distinct. -/
theorem TablesOk.findVenue_venueName (hok : r.TablesOk) (hpos : 1 ≤ venue.toNat)
    (hle : venue.toNat ≤ r.venueCount) : r.findVenue (r.venueName venue) = venue := by
  have hname := names_getElem? hpos hle
  rcases findVenue_cases hok.count (r.venueName venue) with ⟨hmem, -⟩ | ⟨i, hi, hfind⟩
  · exact absurd (List.mem_of_getElem? hname) hmem
  · have hlt : venue.toNat - 1 < r.names.length := by
      rw [length_names]
      omega
    have hplace : venue.toNat - 1 = i := 
      (List.getElem?_inj hlt hok.distinct).mp (hname.trans hi.symm)
    apply UInt16.toNat_inj.mp
    omega

end Names

/-! ## What each operation keeps -/

/-- An operation that leaves the tables consistent and the names in their places. -/
def Keeps (r r' : OrderRouter) : Prop := r.TablesOk → r'.TablesOk ∧ r.names <+: r'.names

theorem Keeps.refl (r : OrderRouter) : Keeps r r := fun h => ⟨h, List.prefix_refl _⟩

theorem Keeps.trans {r r' r'' : OrderRouter} (h : Keeps r r') (h' : Keeps r' r'') : Keeps r r'' := by
  intro hok
  obtain ⟨hok', hpre⟩ := h hok
  obtain ⟨hok'', hpre'⟩ := h' hok'
  exact ⟨hok'', hpre.trans hpre'⟩

section Operations

variable {r : OrderRouter}

theorem keeps_of_same {r' : OrderRouter} (hnames : r'.names = r.names)
    (hroutes : r'.routes = r.routes) : Keeps r r' := by
  intro hok
  have hcount : r'.venueCount = r.venueCount := by rw [← length_names, hnames, length_names]
  refine ⟨⟨?_, ?_, ?_, ?_⟩, hnames ▸ List.prefix_refl _⟩
  · rw [hnames]
    exact hok.named
  · rw [hnames]
    exact hok.distinct
  · rw [hcount]
    exact hok.count
  · rw [hcount, hroutes]
    exact hok.routes

/-- A write through a pointer that keeps the name. -/
theorem keeps_setVenue {venue : VenueId} {v v' : Venue} (hv : r.venuePtr venue = some v)
    (hname : v'.name = v.name) : Keeps r (r.setVenue venue v') :=
  keeps_of_same (map_setVenue Venue.name hv hname) rfl

theorem keeps_addVenue (name : Text) (initial : VenueState) :
    Keeps r (r.addVenue name initial).1 := by
  unfold addVenue
  split_ifs with hbad
  · exact Keeps.refl r
  · simp only [not_or, not_not, ge_iff_le, Nat.not_le] at hbad
    obtain ⟨hname, hroom, hnew⟩ := hbad
    intro hok
    have hnames : ({ r with venues := r.venues ++ [{ name, state := initial }] } : OrderRouter).names =
        r.names ++ [name] := List.map_append
    have hcount : ({ r with venues := r.venues ++ [{ name, state := initial }] } :
        OrderRouter).venueCount = r.venueCount + 1 := List.length_append
    refine ⟨⟨?_, ?_, ?_, ?_⟩, ?_⟩
    · intro n hn
      rw [hnames] at hn
      rcases List.mem_append.mp hn with hn | hn
      · exact hok.named n hn
      · rw [List.mem_singleton.mp hn]
        exact hname
    · have hfresh : name ∉ r.names := by
        rcases findVenue_cases hok.count name with ⟨hmem, -⟩ | ⟨i, -, hfind⟩
        · exact hmem
        · rw [hnew] at hfind
          exact absurd hfind (by simp [kNoVenue])
      rw [hnames, ← List.concat_eq_append]
      exact hok.distinct.concat hfresh
    · rw [hcount]
      exact Nat.succ_le_of_lt hroom
    · intro symbol venue hroute
      have := hok.routes symbol venue hroute
      rw [hcount]
      omega
    · rw [hnames]
      exact List.prefix_append _ _

theorem keeps_setVenueState (venue : VenueId) (state : VenueState) :
    Keeps r (r.setVenueState venue state).1 := by
  unfold setVenueState
  cases hv : r.venuePtr venue with
  | none => exact Keeps.refl r
  | some v => exact keeps_setVenue hv rfl

theorem keeps_onLogon (venue : VenueId) : Keeps r (r.onLogon venue) := by
  unfold onLogon
  cases hv : r.venuePtr venue with
  | none => exact Keeps.refl r
  | some v => exact keeps_setVenue hv rfl

theorem keeps_onDisconnect (venue : VenueId) : Keeps r (r.onDisconnect venue) := by
  rw [onDisconnect_eq]
  exact keeps_setVenueState venue .down

theorem keeps_mapSymbol (symbol : Symbol) (venue : VenueId) :
    Keeps r (r.mapSymbol symbol venue).1 := by
  unfold mapSymbol
  cases hv : r.venuePtr venue with
  | none => exact Keeps.refl r
  | some v =>
    intro hok
    refine ⟨{ hok with routes := fun symbol' venue' hroute => ?_ }, List.prefix_refl _⟩
    change Function.update r.routes symbol (some venue) symbol' = some venue' at hroute
    by_cases hsymbol : symbol' = symbol
    · rw [hsymbol] at hroute
      obtain rfl : venue = venue' := by simpa using hroute
      obtain ⟨hpos, hget⟩ := venuePtr_eq_some.mp hv
      have hlt := (List.getElem?_eq_some_iff.mp hget).1
      exact ⟨hpos, by change _ ≤ r.venues.length; omega⟩
    · rw [Function.update_of_ne hsymbol] at hroute
      exact hok.routes symbol' venue' hroute

theorem keeps_unmapSymbol (symbol : Symbol) : Keeps r (r.unmapSymbol symbol).1 := by
  intro hok
  refine ⟨{ hok with routes := fun symbol' venue' hroute => ?_ }, List.prefix_refl _⟩
  by_cases hsymbol : symbol' = symbol
  · rw [hsymbol] at hroute
    simp [unmapSymbol] at hroute
  · simp only [unmapSymbol, Function.update_of_ne hsymbol] at hroute
    exact hok.routes symbol' venue' hroute

/-- The pointer `route` follows is not null. -/
theorem TablesOk.venuePtr_ne_none (hok : r.TablesOk) {symbol : Symbol} {venue : VenueId}
    (hroute : r.routes symbol = some venue) : ∃ v, r.venuePtr venue = some v := by
  obtain ⟨hpos, hle⟩ := hok.routes symbol venue hroute
  have hlt : venue.toNat - 1 < r.venues.length := by
    change _ ≤ r.venues.length at hle
    omega
  exact ⟨_, venuePtr_eq_some.mpr ⟨hpos, List.getElem?_eq_getElem hlt⟩⟩

theorem keeps_route (request : RouteRequest) : Keeps r (r.step (.route request)).1 := by
  by_cases hroutable : r.Routable request
  · obtain ⟨v, hv, hroute⟩ := route_of_routable hroutable
    rw [step, hroute]
    split_ifs
    · exact keeps_of_same rfl rfl
    · exact keeps_of_same (map_setVenue Venue.name hv rfl) rfl
  · rcases route_of_not_routable hroutable with hroute | ⟨f, decision, venue, -, hroute⟩
    · rw [step, hroute]
      exact Keeps.refl r
    · rw [step, hroute]
      exact keeps_of_same rfl rfl

theorem keeps_step (call : Call) : Keeps r (r.step call).1 := by
  cases call with
  | addVenue name initial => exact keeps_addVenue name initial
  | setVenueState venue state => exact keeps_setVenueState venue state
  | onLogon venue => exact keeps_onLogon venue
  | onDisconnect venue => exact keeps_onDisconnect venue
  | mapSymbol symbol venue => exact keeps_mapSymbol symbol venue
  | unmapSymbol symbol => exact keeps_unmapSymbol symbol
  | route request => exact keeps_route request

/-- `route` never follows a null pointer. -/
theorem TablesOk.not_fault (hok : r.TablesOk) (call : Call) : (r.step call).2 ≠ .fault := by
  cases call with
  | route request =>
    have hsome : r.route request ≠ none := by
      unfold route
      split
      · simp
      · split
        · simp
        · cases hroute : r.routes request.order.symbol with
          | none => simp [venueFor, hroute]
          | some venue =>
            obtain ⟨v, hv⟩ := hok.venuePtr_ne_none hroute
            simp only [venueFor, hroute, Option.getD_some, hv]
            split_ifs <;> simp
    cases hroute : r.route request with
    | none => exact absurd hroute hsome
    | some result => simp [step, hroute]
  | addVenue name initial => simp [step]
  | setVenueState venue state => simp [step]
  | onLogon venue => simp [step]
  | onDisconnect venue => simp [step]
  | mapSymbol symbol venue => simp [step]
  | unmapSymbol symbol => simp [step]

/-! ## Configuration, finished or not -/

theorem keeps_addVenues (r : OrderRouter) (names : List Text) : Keeps r (r.addVenues names).1 := by
  induction names generalizing r with
  | nil => exact Keeps.refl r
  | cons name names ih =>
    simp only [addVenues]
    split
    · exact keeps_addVenue name .down
    · exact (keeps_addVenue name .down).trans (ih _)

theorem keeps_setStates (cfg : Config) (r : OrderRouter) (keys : List Text) :
    Keeps r (r.setStates cfg keys).1 := by
  induction keys generalizing r with
  | nil => exact Keeps.refl r
  | cons key keys ih =>
    simp only [setStates]
    split
    · exact ih r
    · split
      · exact Keeps.refl r
      · cases parseState (cfg.getStr key) with
        | none => exact Keeps.refl r
        | some state => exact (keeps_setVenueState _ state).trans (ih _)

theorem keeps_mapRoutes (cfg : Config) (r : OrderRouter) (keys : List Text) :
    Keeps r (r.mapRoutes cfg keys).1 := by
  induction keys generalizing r with
  | nil => exact Keeps.refl r
  | cons key keys ih =>
    simp only [mapRoutes]
    split
    · exact ih r
    · cases parseSymbol (key.drop kRoutePrefix.length) with
      | none => exact Keeps.refl r
      | some symbol =>
        simp only
        split
        · exact Keeps.refl r
        · exact (keeps_mapSymbol symbol _).trans (ih _)

theorem keeps_configureRouter (cfg : Config) (r : OrderRouter) :
    Keeps r (r.configureRouter cfg).1 := by
  have hvenues := keeps_addVenues r (splitCsv (cfg.getStr "venues".toList))
  unfold configureRouter
  generalize r.addVenues (splitCsv (cfg.getStr "venues".toList)) = added at hvenues ⊢
  obtain ⟨r₁, error₁⟩ := added
  cases error₁ with
  | some error => exact hvenues
  | none =>
    have hstates := keeps_setStates cfg r₁ cfg.keys
    simp only
    generalize r₁.setStates cfg cfg.keys = stated at hstates ⊢
    obtain ⟨r₂, error₂⟩ := stated
    cases error₂ with
    | some error => exact hvenues.trans hstates
    | none => exact (hvenues.trans hstates).trans (keeps_mapRoutes cfg r₂ cfg.keys)

end Operations

/-! ## Runs -/

/-- A call of the router, or a configuration of it. -/
inductive Operation where
  | call (c : Call)
  | configure (cfg : Config)

def operate (r : OrderRouter) : Operation → OrderRouter × Reply
  | .call c => r.step c
  | .configure cfg => ((r.configureRouter cfg).1, .bool (r.configureRouter cfg).2.isNone)

theorem keeps_operate (r : OrderRouter) (op : Operation) : Keeps r (r.operate op).1 := by
  cases op with
  | call c => exact keeps_step c
  | configure cfg => exact keeps_configureRouter cfg r

theorem keeps_run (r : OrderRouter) (ops : List Operation) : Keeps r (exec operate r ops) := by
  induction ops generalizing r with
  | nil => exact Keeps.refl r
  | cons op ops ih => exact (keeps_operate r op).trans (ih _)

theorem tablesOk_new (sessionEpoch counterBits : UInt32) : (new sessionEpoch counterBits).TablesOk := by
  have hfields : (new sessionEpoch counterBits).venues = [] ∧
      (new sessionEpoch counterBits).routes = fun _ => none := by
    unfold new
    split_ifs <;> exact ⟨rfl, rfl⟩
  refine ⟨?_, ?_, ?_, ?_⟩
  · simp [names, hfields.1]
  · simp [names, hfields.1]
  · simp [venueCount, hfields.1]
  · simp [hfields.2]

/-- Names in their places make ids for good. -/
theorem same_id {r r' : OrderRouter} (hok : r.TablesOk) (hok' : r'.TablesOk)
    (hpre : r.names <+: r'.names) {venue : VenueId} (hpos : 1 ≤ venue.toNat)
    (hle : venue.toNat ≤ r.venueCount) :
    venue.toNat ≤ r'.venueCount ∧ r'.venueName venue = r.venueName venue ∧
      r'.findVenue (r.venueName venue) = r.findVenue (r.venueName venue) := by
  have hcount := hpre.length_le
  rw [length_names, length_names] at hcount
  have hle' := hle.trans hcount
  have hname := names_getElem? hpos hle
  have hname' := names_getElem? hpos hle'
  have hsame : r'.venueName venue = r.venueName venue := by
    obtain ⟨rest, hrest⟩ := hpre
    have hlt := (List.getElem?_eq_some_iff.mp hname).1
    rw [← hrest, List.getElem?_append_left hlt, hname] at hname'
    exact (Option.some.inj hname').symm
  refine ⟨hle', hsame, ?_⟩
  rw [hok.findVenue_venueName hpos hle, ← hsame, hok'.findVenue_venueName hpos hle']

/-- **The tables stay consistent.** After any operations on a fresh router: every
id in the routing table points to a venue, so no `route` has followed a null
pointer; names are non-empty and distinct, and there are few enough of them for
16 bits; each id is found by its name. And whatever follows, each id keeps its
name. -/
theorem tables_stay_consistent (sessionEpoch counterBits : UInt32) (ops more : List Operation) :
    let r := exec operate (new sessionEpoch counterBits) ops
    let r' := exec operate r more
    (∀ symbol venue, r.routes symbol = some venue →
      1 ≤ venue.toNat ∧ venue.toNat ≤ r.venueCount ∧ r.venuePtr venue ≠ none) ∧
    (∀ e ∈ trace operate (new sessionEpoch counterBits) ops, e.output ≠ .fault) ∧
    (∀ name ∈ r.names, name ≠ []) ∧ r.names.Nodup ∧ r.venueCount ≤ 65534 ∧
    ∀ venue : VenueId, 1 ≤ venue.toNat → venue.toNat ≤ r.venueCount →
      r.findVenue (r.venueName venue) = venue ∧
      venue.toNat ≤ r'.venueCount ∧ r'.venueName venue = r.venueName venue ∧
      r'.findVenue (r.venueName venue) = r.findVenue (r.venueName venue) := by
  intro r r'
  have hnew := tablesOk_new sessionEpoch counterBits
  obtain ⟨hok, -⟩ : r.TablesOk ∧ _ := keeps_run _ ops hnew
  obtain ⟨hok', hpre⟩ : r'.TablesOk ∧ _ := keeps_run r more hok
  refine ⟨fun symbol venue hroute => ?_, fun e he => ?_, hok.named, hok.distinct, hok.count,
    fun venue hpos hle => ⟨hok.findVenue_venueName hpos hle, same_id hok hok' hpre hpos hle⟩⟩
  · obtain ⟨hpos, hle⟩ := hok.routes symbol venue hroute
    obtain ⟨v, hv⟩ := hok.venuePtr_ne_none hroute
    exact ⟨hpos, hle, by simp [hv]⟩
  · obtain ⟨before, after, hrun⟩ := List.append_of_mem he
    refine event_of_history operate (P := fun _ _ => True) (I := fun _ s => s.TablesOk)
      (Q := fun _ e => e.output ≠ .fault) (fun _ s op _ hs => (keeps_operate s op hs).1) ?_ _ hnew
      ops (fun _ _ => trivial) before after e hrun
    intro _ s op _ hs
    cases op with
    | call c => exact hs.not_fault c
    | configure cfg => simp [operate]

/-- A configuration that fails on its second route leaves two venues and one route
behind, all of them good. -/
example :
    let cfg := Config.fromString "venues: A,B\nroute.5: A\nroute.x: B".toList
    let r := ((new 1 32).configureRouter cfg).1
    r.names = ["A".toList, "B".toList] ∧ r.venueFor 5 = 1 ∧ r.findVenue (r.venueName 2) = 2 := by
  decide

end Lloms.OrderRouter
