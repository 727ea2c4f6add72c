import Lloms.Router.Passes
import Lloms.Router.Symbol

/-! What a configuration leaves behind. One that fails leaves what its passes had
done up to the error, and so an untouched router only where that was nothing. One
that succeeds on an empty router has installed the file, unless two route keys are
two spellings of one number: of these the last in the order of the keys counts. -/
namespace Lloms.OrderRouter
open Lib

/-! ## A configuration that fails -/

/-- The first listed venue is refused. -/
def FirstRefused (cfg : Config) (r : OrderRouter) : Prop :=
  ∃ name, (listed cfg).head? = some name ∧ (name ∈ r.names ∨ 65534 ≤ r.venueCount)

/-- The state entries in front of the first bad one name the states the venues are
in. -/
def StatesIdle (cfg : Config) (r : OrderRouter) : Prop :=
  ∀ v ∈ r.venues,
    stateKey v.name ∈ (stateKeys cfg).takeWhile (fun key => StateOk cfg r.names key) →
      parseState (cfg.getStr (stateKey v.name)) = some v.state

/-- Of the route entries in front of the first bad one, the last for each symbol
names the venue the symbol is mapped to. -/
def RoutesIdle (cfg : Config) (r : OrderRouter) : Prop :=
  ∀ symbol key,
    lastRoute ((routeKeys cfg).takeWhile fun key => RouteOk cfg r.names key) symbol = some key →
      r.routes symbol = some (r.findVenue (routeTarget cfg key))

/-- No venue is listed, and the entries that are carried out, the routes only
behind good state entries, say what the router has already. -/
def NothingNew (cfg : Config) (r : OrderRouter) : Prop :=
  listed cfg = [] ∧ StatesIdle cfg r ∧
    ((∀ key ∈ stateKeys cfg, StateOk cfg r.names key) → RoutesIdle cfg r)

theorem foldl_restateAll_eq_self {cfg : Config} {keys : List Text} {r : OrderRouter}
    (hkeys : ∀ key ∈ keys, kStatePrefix <+: key ∧ (parseState (cfg.getStr key)).isSome) :
    keys.foldl (restateAll cfg) r = r ↔ ∀ v ∈ r.venues, stateKey v.name ∈ keys →
      parseState (cfg.getStr (stateKey v.name)) = some v.state := by
  have hvenue : ∀ v, keys.foldl (restate cfg) v = v ↔
      (stateKey v.name ∈ keys → parseState (cfg.getStr (stateKey v.name)) = some v.state) := by
    intro v
    rw [foldl_restate cfg fun key hkey => (hkeys key hkey).1]
    by_cases hmem : stateKey v.name ∈ keys
    · obtain ⟨state, hstate⟩ := Option.isSome_iff_exists.mp (hkeys _ hmem).2
      rw [if_pos hmem, hstate, Option.getD_some, Option.some_inj]
      exact ⟨fun h _ => congrArg Venue.state h, fun h => by rw [h hmem]⟩
    · simp [hmem]
  have hrouter : keys.foldl (restateAll cfg) r = r ↔
      r.venues.map (fun v => keys.foldl (restate cfg) v) = r.venues.map id := by
    rw [foldl_restateAll, List.map_id]
    exact ⟨fun h => congrArg OrderRouter.venues h, fun h => by rw [h]⟩
  rw [hrouter, List.map_inj_left]
  exact forall₂_congr fun v _ => hvenue v

theorem foldl_remapAll_eq_self {cfg : Config} {find : Text → VenueId} {keys : List Text}
    {r : OrderRouter} :
    keys.foldl (remapAll cfg find) r = r ↔ ∀ symbol key, lastRoute keys symbol = some key →
      r.routes symbol = some (find (routeTarget cfg key)) := by
  have hrouter : keys.foldl (remapAll cfg find) r = r ↔
      keys.foldl (remap cfg find) r.routes = r.routes := by
    rw [foldl_remapAll]
    exact ⟨fun h => congrArg OrderRouter.routes h, fun h => by rw [h]⟩
  rw [hrouter, funext_iff]
  refine forall_congr' fun symbol => ?_
  rw [foldl_remap]
  cases lastRoute keys symbol with
  | none => simp
  | some key => simp [eq_comm]

section Failed

variable {cfg : Config} {r : OrderRouter} (hok : r.TablesOk)
include hok

theorem configureRouter_of_firstRefused (h : FirstRefused cfg r) :
    (r.configureRouter cfg).1 = r := by
  obtain ⟨name, hhead, hbad⟩ := h
  obtain ⟨rest, hlisted⟩ := List.head?_eq_some_iff.mp hhead
  have hname : name ≠ [] := listed_ne_nil cfg name (by rw [hlisted]; exact List.mem_cons_self)
  have hold : ¬ (name ∉ r.names ∧ r.venueCount < 65534) := by
    rintro ⟨hnew, hroom⟩
    rcases hbad with hmem | hfull
    · exact hnew hmem
    · exact absurd hroom (Nat.not_lt.mpr hfull)
  have hadd := addVenue_eq hok hname
  rw [if_neg hold] at hadd
  have hvenues : r.addVenues (listed cfg) =
      (r, some ("duplicate or unusable venue name: ".toList ++ name)) := by
    rw [hlisted, addVenues, hadd, if_pos rfl]
  rw [configureRouter_of_refused cfg (by rw [hvenues]; exact Option.some_ne_none _), hvenues]

/-- A first venue that is taken stays, whatever comes of the rest. -/
theorem configureRouter_ne_of_first {name : Text} (hhead : (listed cfg).head? = some name)
    (h : ¬ FirstRefused cfg r) : (r.configureRouter cfg).1 ≠ r := by
  obtain ⟨rest, hlisted⟩ := List.head?_eq_some_iff.mp hhead
  have hname : name ≠ [] := listed_ne_nil cfg name (by rw [hlisted]; exact List.mem_cons_self)
  have hnew : name ∉ r.names ∧ r.venueCount < 65534 := by
    by_contra hcon
    rw [not_and_or, not_not, Nat.not_lt] at hcon
    exact h ⟨name, hhead, hcon⟩
  have hadd := addVenue_eq hok hname
  rw [if_pos hnew] at hadd
  have hvenues : r.addVenues (listed cfg) = (r.addVenue name .down).1.addVenues rest := by
    rw [hlisted, addVenues, if_neg ((addVenue_ok hok hname).mpr hnew)]
  obtain ⟨hok₁, -⟩ := keeps_addVenue name .down hok
  have hpre := (keeps_addVenues _ rest hok₁).2
  rw [← hvenues] at hpre
  have hlen := (hpre.trans (configureRouter_names cfg hok)).length_le
  intro heq
  rw [heq, length_names, length_names, hadd] at hlen
  simp only [venueCount, List.length_append, List.length_singleton] at hlen
  omega

/-- With no venue listed the two other passes start from the router as it is. -/
theorem configureRouter_of_unlisted (hlisted : listed cfg = []) :
    (r.configureRouter cfg).1 = r ↔ StatesIdle cfg r ∧
      ((∀ key ∈ stateKeys cfg, StateOk cfg r.names key) → RoutesIdle cfg r) := by
  have hsame : withListed cfg r = r := by
    rw [withListed, hlisted, List.map_nil, List.append_nil]
  obtain ⟨-, -, heq⟩ := configureRouter_of_listed cfg hok
    (by rw [hlisted, List.append_nil]; exact hok.distinct)
    (by rw [hlisted]; exact hok.count)
  rw [hsame] at heq
  rw [heq]
  have hgood : ∀ key ∈ (stateKeys cfg).takeWhile (fun key => StateOk cfg r.names key),
      kStatePrefix <+: key ∧ (parseState (cfg.getStr key)).isSome := by
    intro key hkey
    have hpre := (List.mem_filter.mp ((List.takeWhile_prefix _).subset hkey)).2
    have hstate : StateOk cfg r.names key := by simpa using List.mem_takeWhile_imp hkey
    exact ⟨of_decide_eq_true hpre, hstate.2⟩
  have hstates := foldl_restateAll_eq_self hgood (r := r)
  generalize hr₂ : ((stateKeys cfg).takeWhile fun key => StateOk cfg r.names key).foldl
    (restateAll cfg) r = r₂ at hstates ⊢
  split_ifs with hall
  · -- the routes pass leaves the venues to the states pass
    constructor
    · intro h
      have hr : r₂ = r := by
        have hvenues : r₂.venues = r.venues := by
          have hfold := congrArg OrderRouter.venues h
          rw [foldl_remapAll] at hfold
          exact hfold
        rw [← hr₂, foldl_restateAll] at hvenues ⊢
        dsimp only at hvenues
        rw [hvenues]
      rw [hr] at h
      exact ⟨hstates.mp hr, fun _ => foldl_remapAll_eq_self.mp h⟩
    · rintro ⟨hidle, hroutes⟩
      rw [hstates.mpr hidle]
      exact foldl_remapAll_eq_self.mpr (hroutes hall)
  · rw [StatesIdle, ← hstates]
    exact ⟨fun h => ⟨h, fun hcon => absurd hcon hall⟩, And.left⟩

theorem untouched_iff : ((r.configureRouter cfg).2 ≠ none → (r.configureRouter cfg).1 = r) ↔
    Accepts cfg r ∨ FirstRefused cfg r ∨ NothingNew cfg r := by
  rw [← configureRouter_ok cfg hok]
  constructor
  · intro h
    by_cases hnone : (r.configureRouter cfg).2 = none
    · exact .inl hnone
    · have hsame := h hnone
      cases hhead : (listed cfg).head? with
      | some name =>
        by_contra hcon
        exact configureRouter_ne_of_first hok hhead (fun hf => hcon (.inr (.inl hf))) hsame
      | none =>
        have hlisted := List.head?_eq_none_iff.mp hhead
        exact .inr (.inr ⟨hlisted, (configureRouter_of_unlisted hok hlisted).mp hsame⟩)
  · rintro (hnone | hrefused | ⟨hlisted, hidle⟩) herror
    · exact absurd hnone herror
    · exact configureRouter_of_firstRefused hok hrefused
    · exact (configureRouter_of_unlisted hok hlisted).mpr hidle

end Failed

/-- **When a failed configuration leaves the router untouched**, for every router
that any operations have led to: the file can be carried out and nothing fails, or
its first venue is refused, or it lists no venue and what is carried out in front
of the error says what the router has already. A retry is then a first call. -/
theorem failed_configuration_untouched (sessionEpoch counterBits : UInt32)
    (ops : List Operation) (cfg : Config) :
    let r := exec operate (new sessionEpoch counterBits) ops
    ((r.configureRouter cfg).2 ≠ none → (r.configureRouter cfg).1 = r ∧
      ∀ cfg', (r.configureRouter cfg).1.configureRouter cfg' = r.configureRouter cfg') ↔
    Accepts cfg r ∨ FirstRefused cfg r ∨ NothingNew cfg r := by
  intro r
  obtain ⟨hok, -⟩ : r.TablesOk ∧ _ := keeps_run _ ops (tablesOk_new sessionEpoch counterBits)
  rw [← untouched_iff hok]
  constructor
  · exact fun h herror => (h herror).1
  · intro h herror
    have hsame := h herror
    exact ⟨hsame, fun cfg' => by rw [hsame]⟩

/-- A route key that is not a number: the configuration fails and the venue stays,
so that the corrected file fails too. -/
theorem failed_configuration_leaves_venue :
    let r := new 1 32
    let cfg := Config.fromString "venues: A\nroute.x: A".toList
    let corrected := Config.fromString "venues: A\nroute.5: A".toList
    (r.configureRouter cfg).2 ≠ none ∧ (r.configureRouter cfg).1.names = ["A".toList] ∧
      (r.configureRouter cfg).1 ≠ r ∧ (r.configureRouter corrected).2 = none ∧
      ((r.configureRouter cfg).1.configureRouter corrected).2 ≠ none := by
  intro r cfg corrected
  have hnames : (r.configureRouter cfg).1.names = ["A".toList] := by decide
  refine ⟨by decide, hnames, fun heq => ?_, by decide, by decide⟩
  rw [heq] at hnames
  exact absurd hnames (by decide)

/-! ## A configuration that succeeds -/

/-- The number a route key stands for. -/
def routeNumber (key : Text) : Nat := decimal (key.drop kRoutePrefix.length)

theorem toNat_symbolOf {key : Text} {symbol : Symbol} (h : symbolOf key = some symbol) :
    symbol.toNat = routeNumber key := by
  rw [symbolOf] at h
  by_cases htext : SymbolText (key.drop kRoutePrefix.length)
  · rw [parseSymbol_of_symbolText htext] at h
    obtain rfl := Option.some.inj h
    exact toNat_symbol_of_le htext.2.2
  · rw [parseSymbol_of_not_symbolText htext] at h
    cases h

/-- Every route key's number is mapped to the venue the entry names. -/
def HasRoutes (cfg : Config) (r : OrderRouter) : Prop :=
  ∀ key ∈ routeKeys cfg, ∃ symbol : Symbol, symbol.toNat = routeNumber key ∧
    r.venueFor symbol = r.findVenue (routeTarget cfg key) ∧
    r.venueFor symbol ≠ kNoVenue

/-- The router is what the file says: the listed venues with the ids 1, 2, ... in
order, each in the state of its entry or down if it has none, every route entry in
the routing table and nothing else. -/
structure Installed (cfg : Config) (r : OrderRouter) : Prop where
  venues : r.names = listed cfg
  ids : ∀ i name, (listed cfg)[i]? = some name → (r.findVenue name).toNat = i + 1
  states : ∀ v ∈ r.venues, if stateKey v.name ∈ cfg.keys
    then parseState (cfg.getStr (stateKey v.name)) = some v.state else v.state = .down
  routes : HasRoutes cfg r
  only : ∀ symbol, r.routes symbol ≠ none →
    ∃ key ∈ routeKeys cfg, symbol.toNat = routeNumber key

/-- Two route entries for one number name one venue. -/
def NoClash (cfg : Config) : Prop :=
  ∀ key ∈ routeKeys cfg, ∀ key' ∈ routeKeys cfg, routeNumber key = routeNumber key' →
    routeTarget cfg key = routeTarget cfg key'

instance (cfg : Config) : Decidable (NoClash cfg) :=
  inferInstanceAs (Decidable (∀ key ∈ routeKeys cfg, ∀ key' ∈ routeKeys cfg, _ → _))

theorem mem_of_lastRoute {keys : List Text} {symbol : Symbol} {key : Text}
    (h : lastRoute keys symbol = some key) : key ∈ keys ∧ symbolOf key = some symbol := by
  obtain ⟨hmem, hsymbol⟩ := List.mem_filter.mp (List.mem_of_getLast? h)
  exact ⟨hmem, of_decide_eq_true hsymbol⟩

theorem lastRoute_of_mem {keys : List Text} {symbol : Symbol} {key : Text} (hkey : key ∈ keys)
    (hsymbol : symbolOf key = some symbol) : ∃ last, lastRoute keys symbol = some last := by
  have hmem : key ∈ keys.filter fun key => symbolOf key = some symbol :=
    List.mem_filter.mpr ⟨hkey, decide_eq_true hsymbol⟩
  exact Option.isSome_iff_exists.mp (List.getLast?_isSome.mpr (List.ne_nil_of_mem hmem))

/-- Two names of the table with one id are the same. -/
theorem TablesOk.findVenue_inj {r : OrderRouter} (hok : r.TablesOk) {name name' : Text}
    (hname : name ∈ r.names) (hname' : name' ∈ r.names)
    (h : r.findVenue name = r.findVenue name') : name = name' := by
  rcases findVenue_cases hok.count name with ⟨hmem, -⟩ | ⟨i, hi, hfind⟩
  · exact absurd hname hmem
  · rcases findVenue_cases hok.count name' with ⟨hmem, -⟩ | ⟨j, hj, hfind'⟩
    · exact absurd hname' hmem
    · obtain rfl : i = j := by rw [h] at hfind; omega
      exact Option.some.inj (hi.symm.trans hj)

section Success

variable {cfg : Config} {r : OrderRouter}

theorem tablesOk_of_empty (hvenues : r.venues = []) (hroutes : r.routes = fun _ => none) :
    r.TablesOk := by
  refine ⟨?_, ?_, ?_, ?_⟩
  · simp [names, hvenues]
  · simp [names, hvenues]
  · simp [venueCount, hvenues]
  · simp [hroutes]

variable (hvenues : r.venues = []) (hroutes : r.routes = fun _ => none)
  (hsuccess : (r.configureRouter cfg).2 = none)
include hvenues hroutes hsuccess

/-- What a configuration that succeeds on an empty router has written. -/
theorem configureRouter_writes :
    let r' := (r.configureRouter cfg).1
    r'.TablesOk ∧ r'.names = listed cfg ∧ Accepts cfg r ∧
    r'.venues = (listed cfg).map (fun name => (stateKeys cfg).foldl (restate cfg) { name }) ∧
    ∀ symbol, r'.routes symbol = (lastRoute (routeKeys cfg) symbol).map fun key =>
      r'.findVenue (routeTarget cfg key) := by
  intro r'
  have hok := tablesOk_of_empty hvenues hroutes
  have haccepts := (configureRouter_ok cfg hok).mp hsuccess
  obtain ⟨hok', -⟩ := keeps_configureRouter cfg r hok
  obtain ⟨-, -, heq⟩ := configureRouter_of_listed cfg hok haccepts.fresh haccepts.room
  have hnames₁ := names_withListed cfg r
  have hstates : (stateKeys cfg).takeWhile (fun key => StateOk cfg (withListed cfg r).names key) =
      stateKeys cfg := by
    rw [List.takeWhile_eq_self_iff, hnames₁]
    exact fun key hkey => decide_eq_true (haccepts.states key hkey)
  have hroutes' : (routeKeys cfg).takeWhile (fun key => RouteOk cfg (withListed cfg r).names key) =
      routeKeys cfg := by
    rw [List.takeWhile_eq_self_iff, hnames₁]
    exact fun key hkey => decide_eq_true (haccepts.routes key hkey)
  rw [if_pos (by rw [hnames₁]; exact haccepts.states), hstates, hroutes', foldl_remapAll,
    foldl_restateAll] at heq
  have hwritten : r'.venues =
      (listed cfg).map fun name => (stateKeys cfg).foldl (restate cfg) { name } := by
    rw [show r' = _ from heq]
    simp [withListed, hvenues]
  have hnames : r'.names = listed cfg := by
    rw [names, hwritten, List.map_map]
    refine (List.map_congr_left fun name _ => ?_).trans (List.map_id _)
    exact foldl_restate_name cfg _ _
  have hfind : (withListed cfg r).findVenue = r'.findVenue := by
    refine funext fun name => findVenue_congr ?_ name
    rw [hnames₁, hnames, names, hvenues]
    rfl
  refine ⟨hok', hnames, haccepts, hwritten, fun symbol => ?_⟩
  rw [hfind] at heq
  have htable := congrFun (congrArg OrderRouter.routes heq) symbol
  dsimp only at htable
  rw [show r'.routes symbol = _ from htable, foldl_remap, withListed, hroutes]
  cases lastRoute (routeKeys cfg) symbol <;> rfl

/-- All but the routes is installed, whatever the file says. -/
theorem configureRouter_tables :
    let r' := (r.configureRouter cfg).1
    r'.names = listed cfg ∧
    (∀ i name, (listed cfg)[i]? = some name → (r'.findVenue name).toNat = i + 1) ∧
    (∀ v ∈ r'.venues, if stateKey v.name ∈ cfg.keys
      then parseState (cfg.getStr (stateKey v.name)) = some v.state else v.state = .down) ∧
    ∀ symbol, r'.routes symbol ≠ none → ∃ key ∈ routeKeys cfg, symbol.toNat = routeNumber key := by
  intro r'
  obtain ⟨hok', hnames, haccepts, hwritten, htable⟩ := configureRouter_writes hvenues hroutes hsuccess
  refine ⟨hnames, fun i name hi => ?_, fun v hv => ?_, fun symbol hsome => ?_⟩
  · rw [← hnames] at hi
    rcases findVenue_cases hok'.count name with ⟨hmem, -⟩ | ⟨j, hj, hfind⟩
    · exact absurd (List.mem_of_getElem? hi) hmem
    · have hlt := (List.getElem?_eq_some_iff.mp hi).1
      rw [(List.getElem?_inj hlt hok'.distinct).mp (hi.trans hj.symm)]
      exact hfind
  · rw [show r'.venues = _ from hwritten] at hv
    obtain ⟨name, -, rfl⟩ := List.mem_map.mp hv
    have hpre : ∀ key ∈ stateKeys cfg, kStatePrefix <+: key :=
      fun key hkey => of_decide_eq_true (List.mem_filter.mp hkey).2
    have hkeys : stateKey name ∈ cfg.keys ↔ stateKey name ∈ stateKeys cfg := by
      rw [stateKeys, List.mem_filter]
      exact ⟨fun h => ⟨h, decide_eq_true (List.prefix_append _ _)⟩, And.left⟩
    rw [foldl_restate_name, foldl_restate cfg hpre]
    dsimp only
    by_cases hmem : stateKey name ∈ stateKeys cfg
    · obtain ⟨state, hstate⟩ := Option.isSome_iff_exists.mp (haccepts.states _ hmem).2
      rw [if_pos (hkeys.mpr hmem), if_pos hmem, hstate]
      rfl
    · rw [if_neg fun h => hmem (hkeys.mp h), if_neg hmem]
  · rw [htable] at hsome
    cases hlast : lastRoute (routeKeys cfg) symbol with
    | none =>
      rw [hlast] at hsome
      exact absurd rfl hsome
    | some key =>
      obtain ⟨hkey, hsymbol⟩ := mem_of_lastRoute hlast
      exact ⟨key, hkey, toNat_symbolOf hsymbol⟩

/-- The routes are installed unless two entries for one number disagree. -/
theorem hasRoutes_iff : HasRoutes cfg (r.configureRouter cfg).1 ↔ NoClash cfg := by
  obtain ⟨hok', hnames, haccepts, -, htable⟩ := configureRouter_writes hvenues hroutes hsuccess
  -- every entry has a symbol and a venue of the table
  have hentry : ∀ key ∈ routeKeys cfg, (∃ symbol, symbolOf key = some symbol) ∧
      routeTarget cfg key ∈ (r.configureRouter cfg).1.names := by
    intro key hkey
    obtain ⟨hsome, htarget⟩ := haccepts.routes key hkey
    rw [names, hvenues] at htarget
    rw [hnames]
    exact ⟨Option.isSome_iff_exists.mp hsome, htarget⟩
  constructor
  · intro h key hkey key' hkey' hnumber
    obtain ⟨symbol, hsymbol, hvenue, -⟩ := h key hkey
    obtain ⟨symbol', hsymbol', hvenue', -⟩ := h key' hkey'
    obtain rfl : symbol = symbol' := UInt32.toNat_inj.mp (by rw [hsymbol, hsymbol', hnumber])
    exact hok'.findVenue_inj (hentry key hkey).2 (hentry key' hkey').2 (hvenue.symm.trans hvenue')
  · intro h key hkey
    obtain ⟨⟨symbol, hsymbol⟩, hmem⟩ := hentry key hkey
    obtain ⟨last, hlast⟩ := lastRoute_of_mem hkey hsymbol
    obtain ⟨hlmem, hlsymbol⟩ := mem_of_lastRoute hlast
    have hnumber : routeNumber last = routeNumber key :=
      (toNat_symbolOf hlsymbol).symm.trans (toNat_symbolOf hsymbol)
    have hvenue : (r.configureRouter cfg).1.venueFor symbol =
        (r.configureRouter cfg).1.findVenue (routeTarget cfg key) := by
      rw [venueFor, htable, hlast, Option.map_some, Option.getD_some,
        h last hlmem key hkey hnumber]
    refine ⟨symbol, toNat_symbolOf hsymbol, hvenue, ?_⟩
    rw [hvenue]
    exact fun hzero => (findVenue_eq_none hok'.count _).mp hzero hmem

end Success

/-- **When a successful configuration installs what the file says**, on a router
without venues and routes: unless two route entries that stand for one number name
different venues. -/
theorem configuration_installed (cfg : Config) (r : OrderRouter) (hvenues : r.venues = [])
    (hroutes : r.routes = fun _ => none) (hsuccess : (r.configureRouter cfg).2 = none) :
    Installed cfg (r.configureRouter cfg).1 ↔ NoClash cfg := by
  rw [← hasRoutes_iff hvenues hroutes hsuccess]
  obtain ⟨hnames, hids, hstates, honly⟩ := configureRouter_tables hvenues hroutes hsuccess
  exact ⟨Installed.routes, fun h => ⟨hnames, hids, hstates, h, honly⟩⟩

/-- Two entries for one symbol that agree. -/
theorem configuration_installed_twice :
    let cfg := Config.fromString "venues: A,B\nvenue_state.B: up\nroute.05: B\nroute.5: B".toList
    Installed cfg ((new 1 32).configureRouter cfg).1 := by
  intro cfg
  have hclash : NoClash cfg := by decide
  exact (configuration_installed cfg (new 1 32) rfl rfl (by decide)).mpr hclash

/-- The file sends symbol 5 to `B` in one entry and to `A` in the other; the
configuration succeeds and the entry for `B` is lost. -/
theorem route_overridden :
    let cfg := Config.fromString "venues: A,B\nroute.05: B\nroute.5: A".toList
    let r := (new 1 32).configureRouter cfg
    r.2 = none ∧ r.1.venueFor 5 = 1 ∧ r.1.findVenue "B".toList = 2 ∧
      cfg.getStr "route.05".toList = "B".toList ∧ ¬ Installed cfg r.1 := by
  intro cfg r
  have hclash : ¬ NoClash cfg := by decide
  refine ⟨by decide, by decide, by decide, by decide, fun h => hclash ?_⟩
  exact (hasRoutes_iff rfl rfl (by decide)).mp h.routes

end Lloms.OrderRouter
