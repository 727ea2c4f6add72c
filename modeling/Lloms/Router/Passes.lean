import Lloms.Router.Tables

/-! What `configure_router` does to a router, pass by pass. Whether an entry of the
file can be carried out depends on the names of the venues only, and these stand
once the first pass is over; so each pass carries out its entries up to the first
bad one, and what that comes to can be written down: the new venues behind the old
ones, a state for each venue that has an entry, and for each symbol the venue of
its last entry. -/
namespace Lloms.OrderRouter
open Lib

/-! ## The entries of the file -/

section Entries

variable (cfg : Config)

/-- The venue names the file lists. -/
def listed : List Text := splitCsv (cfg.getStr "venues".toList)

def stateKeys : List Text := cfg.keys.filter fun key => kStatePrefix <+: key

def routeKeys : List Text := cfg.keys.filter fun key => kRoutePrefix <+: key

def symbolOf (key : Text) : Option Symbol := parseSymbol (key.drop kRoutePrefix.length)

/-- The name of the venue a route entry points to. -/
def routeTarget (key : Text) : Text := trim (cfg.getStr key)

/-- A venue state entry that can be carried out with these venues. -/
def StateOk (names : List Text) (key : Text) : Prop :=
  key.drop kStatePrefix.length ∈ names ∧ (parseState (cfg.getStr key)).isSome

/-- A route entry that can be carried out with these venues. -/
def RouteOk (names : List Text) (key : Text) : Prop :=
  (symbolOf key).isSome ∧ routeTarget cfg key ∈ names

instance (names : List Text) : DecidablePred (StateOk cfg names) := fun _ =>
  inferInstanceAs (Decidable (_ ∧ _))

instance (names : List Text) : DecidablePred (RouteOk cfg names) := fun _ =>
  inferInstanceAs (Decidable (_ ∧ _))

end Entries

theorem listed_ne_nil (cfg : Config) : ∀ name ∈ listed cfg, name ≠ [] := by
  intro name hname
  simpa using (List.mem_filter.mp hname).2

/-! ## Searching by name -/

section Find

variable {r r' : OrderRouter}

theorem findVenue_congr (h : r'.names = r.names) (name : Text) :
    r'.findVenue name = r.findVenue name := by
  have hidx : ∀ r : OrderRouter, (r.venues.findIdx? fun v => v.name = name) =
      r.names.findIdx? fun n => n = name := by
    intro r
    rw [names, List.findIdx?_map]
    rfl
  rw [findVenue, findVenue, hidx, hidx, h]

theorem findVenue_eq_none (hcount : r.venueCount ≤ 65534) (name : Text) :
    r.findVenue name = kNoVenue ↔ name ∉ r.names := by
  rcases findVenue_cases hcount name with ⟨hmem, hfind⟩ | ⟨i, hi, hfind⟩
  · simp [hmem, hfind]
  · have hne : r.findVenue name ≠ kNoVenue := by
      intro hzero
      rw [hzero] at hfind
      exact absurd hfind (by simp [kNoVenue])
    simp [hne, List.mem_of_getElem? hi]

/-- The pointer to the venue with a name of the table. -/
theorem TablesOk.venuePtr_findVenue (hok : r.TablesOk) {name : Text} (hname : name ∈ r.names) :
    ∃ v, r.venuePtr (r.findVenue name) = some v ∧ v.name = name := by
  rcases findVenue_cases hok.count name with ⟨hmem, -⟩ | ⟨i, hi, hfind⟩
  · exact absurd hname hmem
  · rw [names, List.getElem?_map] at hi
    obtain ⟨v, hv, hvname⟩ := Option.map_eq_some_iff.mp hi
    exact ⟨v, venuePtr_eq_some.mpr ⟨by omega, by rw [hfind]; exact hv⟩, hvname⟩

end Find

/-! ## The venues pass -/

section Venues

variable {r : OrderRouter} (hok : r.TablesOk)
include hok

/-- A name can be added if it is new and there is room. -/
theorem addVenue_eq {name : Text} (hname : name ≠ []) :
    r.addVenue name .down =
      if name ∉ r.names ∧ r.venueCount < 65534 then
        ({ r with venues := r.venues ++ [{ name }] }, UInt16.ofNat (r.venueCount + 1))
      else (r, kNoVenue) := by
  have hfind := findVenue_eq_none hok.count name
  unfold addVenue
  by_cases hnew : name ∉ r.names ∧ r.venueCount < 65534
  · have hgood : ¬ (name = [] ∨ r.venues.length ≥ 0xFFFE ∨ r.findVenue name ≠ kNoVenue) := by
      rw [not_or, not_or, not_not, hfind]
      exact ⟨hname, Nat.not_le.mpr hnew.2, hnew.1⟩
    rw [if_neg hgood, if_pos hnew]
    simp [venueCount]
  · rw [if_neg hnew, if_pos]
    rw [not_and_or, not_not, Nat.not_lt] at hnew
    rcases hnew with hold | hfull
    · exact .inr (.inr fun hzero => hfind.mp hzero hold)
    · exact .inr (.inl hfull)

theorem addVenue_ok {name : Text} (hname : name ≠ []) :
    (r.addVenue name .down).2 ≠ kNoVenue ↔ name ∉ r.names ∧ r.venueCount < 65534 := by
  rw [addVenue_eq hok hname]
  split_ifs with hnew
  · refine ⟨fun _ => hnew, fun _ hzero => ?_⟩
    have hval := congrArg UInt16.toNat hzero
    rw [UInt16.toNat_ofNat_of_lt' (by change _ < 65536; omega)] at hval
    exact absurd hval (by simp [kNoVenue])
  · simp [hnew]

end Venues

/-- The venues pass succeeds if all names are new and there is room for them; they
then stand behind the old ones, all of them down. -/
theorem addVenues_spec {r : OrderRouter} (hok : r.TablesOk) {pieces : List Text}
    (hne : ∀ name ∈ pieces, name ≠ []) :
    ((r.addVenues pieces).2 = none ↔
      (r.names ++ pieces).Nodup ∧ r.venueCount + pieces.length ≤ 65534) ∧
    ((r.addVenues pieces).2 = none → (r.addVenues pieces).1 =
      { r with venues := r.venues ++ pieces.map fun name => { name } }) := by
  induction pieces generalizing r with
  | nil => simp [addVenues, hok.distinct, hok.count]
  | cons name pieces ih =>
    obtain ⟨hname, hne⟩ := List.forall_mem_cons.mp hne
    have hadd := addVenue_eq hok hname
    have hadded := addVenue_ok hok hname
    rw [addVenues]
    by_cases hnew : name ∉ r.names ∧ r.venueCount < 65534
    · obtain ⟨hok', -⟩ := keeps_addVenue name .down hok
      rw [if_neg (hadded.mpr hnew)]
      rw [if_pos hnew] at hadd
      rw [hadd] at hok' ⊢
      dsimp only at hok' ⊢
      obtain ⟨hiff, heq⟩ := ih hok' hne
      refine ⟨hiff.trans ?_, fun hnone => ?_⟩
      · have hnames : ({ r with venues := r.venues ++ [{ name }] } : OrderRouter).names =
            r.names ++ [name] := List.map_append
        have hcount : ({ r with venues := r.venues ++ [{ name }] } : OrderRouter).venueCount =
            r.venueCount + 1 := List.length_append
        rw [hnames, hcount, List.append_assoc, List.singleton_append, List.length_cons,
          Nat.add_right_comm, Nat.add_assoc]
      · rw [heq hnone]
        simp
    · rw [if_pos (not_not.mp fun h => hnew (hadded.mp h))]
      refine ⟨⟨fun h => by simp at h, fun h => absurd ⟨?_, ?_⟩ hnew⟩, fun h => by simp at h⟩
      · obtain ⟨hnodup, -⟩ := h
        exact fun hmem => (List.nodup_append.mp hnodup).2.2 name hmem name List.mem_cons_self rfl
      · obtain ⟨-, hroom⟩ := h
        rw [List.length_cons] at hroom
        omega

/-! ## The states pass -/

/-- One entry: the venue with that name is put into the state of the entry. -/
def restate (cfg : Config) (v : Venue) (key : Text) : Venue :=
  if key.drop kStatePrefix.length = v.name then
    { v with state := (parseState (cfg.getStr key)).getD v.state }
  else v

@[simp] theorem restate_name (cfg : Config) (v : Venue) (key : Text) :
    (restate cfg v key).name = v.name := by
  unfold restate
  split_ifs <;> rfl

theorem foldl_restate_name (cfg : Config) (keys : List Text) (v : Venue) :
    (keys.foldl (restate cfg) v).name = v.name := by
  induction keys generalizing v with
  | nil => rfl
  | cons key keys ih => rw [List.foldl_cons, ih, restate_name]

/-- The router after one entry. -/
def restateAll (cfg : Config) (r : OrderRouter) (key : Text) : OrderRouter :=
  { r with venues := r.venues.map fun v => restate cfg v key }

theorem names_restateAll (cfg : Config) (r : OrderRouter) (key : Text) :
    (restateAll cfg r key).names = r.names := by
  simp [restateAll, names]

theorem foldl_restateAll (cfg : Config) (keys : List Text) (r : OrderRouter) :
    keys.foldl (restateAll cfg) r =
      { r with venues := r.venues.map fun v => keys.foldl (restate cfg) v } := by
  induction keys generalizing r with
  | nil => simp
  | cons key keys ih =>
    rw [List.foldl_cons, ih]
    simp [restateAll]

/-- A write to the one element of a list that passes a test. -/
theorem set_eq_map {α : Type} {l : List α} {p : α → Prop} [DecidablePred p] {f : α → α} {i : Nat}
    {a : α} (hi : l[i]? = some a) (hp : ∀ j b, l[j]? = some b → (p b ↔ j = i)) :
    l.set i (f a) = l.map fun b => if p b then f b else b := by
  refine List.ext_getElem? fun j => ?_
  rw [List.getElem?_set, List.getElem?_map]
  obtain ⟨hlt, rfl⟩ := List.getElem?_eq_some_iff.mp hi
  split_ifs with hij
  · subst hij
    rw [hi, Option.map_some, if_pos ((hp i _ hi).mpr rfl)]
  · cases hj : l[j]? with
    | none => rfl
    | some b =>
      rw [Option.map_some, if_neg fun hb => hij ((hp j b hj).mp hb).symm]

/-- An entry that can be carried out writes to one venue, as names are distinct. -/
theorem TablesOk.setVenueState_eq {cfg : Config} {r : OrderRouter} (hok : r.TablesOk) {key : Text}
    {state : VenueState} (hname : key.drop kStatePrefix.length ∈ r.names)
    (hstate : parseState (cfg.getStr key) = some state) :
    (r.setVenueState (r.findVenue (key.drop kStatePrefix.length)) state).1 =
      restateAll cfg r key := by
  obtain ⟨v, hv, hvname⟩ := hok.venuePtr_findVenue hname
  obtain ⟨-, hget⟩ := venuePtr_eq_some.mp hv
  have hnamed : ∀ j b, r.venues[j]? = some b → (key.drop kStatePrefix.length = b.name ↔
      j = (r.findVenue (key.drop kStatePrefix.length)).toNat - 1) := by
    intro j b hj
    have hjname : r.names[j]? = some b.name := by rw [names, List.getElem?_map, hj]; rfl
    have hvget : r.names[(r.findVenue (key.drop kStatePrefix.length)).toNat - 1]? =
        some (key.drop kStatePrefix.length) := by
      rw [names, List.getElem?_map, hget, Option.map_some, hvname]
    constructor
    · intro heq
      rw [← heq, ← hvget] at hjname
      exact (List.getElem?_inj (List.getElem?_eq_some_iff.mp (hjname.trans hvget)).1
        hok.distinct).mp hjname
    · rintro rfl
      rw [hvget] at hjname
      exact Option.some.inj hjname
  rw [setVenueState, hv]
  dsimp only
  rw [setVenue, restateAll, set_eq_map (f := fun v => { v with state }) hget hnamed]
  simp only [restate, hstate, Option.getD_some]

theorem setStates_spec (cfg : Config) {r : OrderRouter} (hok : r.TablesOk) :
    (r.setStates cfg cfg.keys).1 =
      ((stateKeys cfg).takeWhile fun key => StateOk cfg r.names key).foldl (restateAll cfg) r ∧
    ((r.setStates cfg cfg.keys).2 = none ↔
      ∀ key ∈ stateKeys cfg, StateOk cfg r.names key) := by
  refine loop_until (f := fun r keys => setStates cfg r keys) (M := (kStatePrefix <+: ·))
    (J := fun s => s.TablesOk ∧ s.names = r.names) (fun s => rfl) (fun s key keys hskip => ?_)
    (fun s key keys hs hmine hbad => ?_) (fun s key keys hs hmine hgood => ?_) r ⟨hok, rfl⟩ cfg.keys
  · simp only [setStates, hskip, not_false_eq_true, if_true]
  · obtain ⟨hsok, hnames⟩ := hs
    simp only [setStates, hmine, not_true_eq_false, if_false]
    split_ifs with hfind
    · exact ⟨_, rfl⟩
    · have hmem : key.drop kStatePrefix.length ∈ s.names :=
        not_not.mp fun h => hfind ((findVenue_eq_none hsok.count _).mpr h)
      cases hstate : parseState (cfg.getStr key) with
      | none => exact ⟨_, rfl⟩
      | some state => exact absurd ⟨hnames ▸ hmem, by rw [hstate]; rfl⟩ hbad
  · obtain ⟨hsok, hnames⟩ := hs
    obtain ⟨hmem, hsome⟩ := hgood
    obtain ⟨state, hstate⟩ := Option.isSome_iff_exists.mp hsome
    rw [← hnames] at hmem
    have hfind : s.findVenue (key.drop kStatePrefix.length) ≠ kNoVenue :=
      fun h => (findVenue_eq_none hsok.count _).mp h hmem
    have heq := hsok.setVenueState_eq hmem hstate
    refine ⟨⟨?_, (names_restateAll cfg s key).trans hnames⟩, ?_⟩
    · rw [← heq]
      exact (keeps_setVenueState _ state hsok).1
    · simp only [setStates, hmine, not_true_eq_false, if_false, hfind, hstate, heq]

/-- The entry a venue may have. -/
def stateKey (name : Text) : Text := kStatePrefix ++ name

/-- What several entries make of a venue: its own one counts. -/
theorem foldl_restate (cfg : Config) {keys : List Text} (hpre : ∀ key ∈ keys, kStatePrefix <+: key)
    (v : Venue) : keys.foldl (restate cfg) v =
      if stateKey v.name ∈ keys then
        { v with state := (parseState (cfg.getStr (stateKey v.name))).getD v.state }
      else v := by
  induction keys generalizing v with
  | nil => rfl
  | cons key keys ih =>
    obtain ⟨⟨name, rfl⟩, hrest⟩ := List.forall_mem_cons.mp hpre
    rw [List.foldl_cons, ih hrest, restate_name, restate, List.drop_left]
    by_cases hname : name = v.name
    · subst hname
      -- carried out once more, the entry changes nothing
      rw [if_pos rfl, if_pos (show stateKey v.name ∈ (kStatePrefix ++ v.name) :: keys from
        List.mem_cons_self)]
      by_cases hmem : stateKey v.name ∈ keys
      · rw [if_pos hmem]
        dsimp only [stateKey]
        cases parseState (cfg.getStr (kStatePrefix ++ v.name)) <;> rfl
      · rw [if_neg hmem]
        rfl
    · have hkey : stateKey v.name ∈ (kStatePrefix ++ name) :: keys ↔ stateKey v.name ∈ keys := by
        rw [List.mem_cons]
        exact or_iff_right fun h => hname (List.append_cancel_left h).symm
      rw [if_neg hname]
      simp only [hkey]

/-! ## The routes pass -/

/-- One entry: its symbol is mapped to the venue it names. -/
def remap (cfg : Config) (find : Text → VenueId) (routes : Symbol → Option VenueId) (key : Text) :
    Symbol → Option VenueId :=
  match symbolOf key with
  | none => routes
  | some symbol => Function.update routes symbol (some (find (routeTarget cfg key)))

/-- The router after one entry. -/
def remapAll (cfg : Config) (find : Text → VenueId) (r : OrderRouter) (key : Text) : OrderRouter :=
  { r with routes := remap cfg find r.routes key }

theorem foldl_remapAll (cfg : Config) (find : Text → VenueId) (keys : List Text) (r : OrderRouter) :
    keys.foldl (remapAll cfg find) r =
      { r with routes := keys.foldl (remap cfg find) r.routes } := by
  induction keys generalizing r with
  | nil => rfl
  | cons key keys ih =>
    rw [List.foldl_cons, ih]
    rfl

/-- The last entry for a symbol. -/
def lastRoute (keys : List Text) (symbol : Symbol) : Option Text :=
  (keys.filter fun key => symbolOf key = some symbol).getLast?

/-- What several entries make of the table: for each symbol the last one counts. -/
theorem foldl_remap (cfg : Config) (find : Text → VenueId) (keys : List Text)
    (routes : Symbol → Option VenueId) (symbol : Symbol) :
    keys.foldl (remap cfg find) routes symbol =
      (lastRoute keys symbol).elim (routes symbol) fun key => some (find (routeTarget cfg key)) := by
  induction keys using List.reverseRecOn with
  | nil => rfl
  | append_singleton keys key ih =>
    rw [List.foldl_append, List.foldl_cons, List.foldl_nil, lastRoute, List.filter_append, remap]
    by_cases hsymbol : symbolOf key = some symbol
    · rw [List.filter_cons_of_pos (by simpa using hsymbol), List.filter_nil, List.getLast?_concat,
        hsymbol]
      exact Function.update_self _ _ _
    · rw [List.filter_cons_of_neg (by simpa using hsymbol), List.filter_nil, List.append_nil]
      cases hother : symbolOf key with
      | none => exact ih
      | some other =>
        have hne : symbol ≠ other := fun h => hsymbol (h ▸ hother)
        dsimp only
        rw [Function.update_of_ne hne]
        exact ih

theorem mapRoutes_spec (cfg : Config) {r : OrderRouter} (hok : r.TablesOk) :
    (r.mapRoutes cfg cfg.keys).1 =
      ((routeKeys cfg).takeWhile fun key => RouteOk cfg r.names key).foldl
        (remapAll cfg r.findVenue) r ∧
    ((r.mapRoutes cfg cfg.keys).2 = none ↔
      ∀ key ∈ routeKeys cfg, RouteOk cfg r.names key) := by
  refine loop_until (f := fun r keys => mapRoutes cfg r keys) (M := (kRoutePrefix <+: ·))
    (J := fun s => s.TablesOk ∧ s.names = r.names) (fun s => rfl) (fun s key keys hskip => ?_)
    (fun s key keys hs hmine hbad => ?_) (fun s key keys hs hmine hgood => ?_) r ⟨hok, rfl⟩ cfg.keys
  · simp only [mapRoutes, hskip, not_false_eq_true, if_true]
  · obtain ⟨hsok, hnames⟩ := hs
    simp only [mapRoutes, hmine, not_true_eq_false, if_false]
    cases hsymbol : parseSymbol (key.drop kRoutePrefix.length) with
    | none => exact ⟨_, rfl⟩
    | some symbol =>
      dsimp only
      split_ifs with hfind
      · exact ⟨_, rfl⟩
      · have hmem : routeTarget cfg key ∈ s.names :=
          not_not.mp fun h => hfind ((findVenue_eq_none hsok.count _).mpr h)
        exact absurd ⟨by rw [symbolOf, hsymbol]; rfl, hnames ▸ hmem⟩ hbad
  · obtain ⟨hsok, hnames⟩ := hs
    obtain ⟨hsome, hmem⟩ := hgood
    obtain ⟨symbol, hsymbol⟩ := Option.isSome_iff_exists.mp hsome
    rw [← hnames] at hmem
    have hfind : s.findVenue (routeTarget cfg key) ≠ kNoVenue :=
      fun h => (findVenue_eq_none hsok.count _).mp h hmem
    obtain ⟨v, hv, -⟩ := hsok.venuePtr_findVenue hmem
    have heq : (s.mapSymbol symbol (s.findVenue (routeTarget cfg key))).1 =
        remapAll cfg r.findVenue s key := by
      rw [mapSymbol, hv, remapAll, remap, hsymbol, findVenue_congr hnames]
    refine ⟨⟨?_, hnames⟩, ?_⟩
    · rw [← heq]
      exact (keeps_mapSymbol symbol _ hsok).1
    · rw [symbolOf] at hsymbol
      rw [routeTarget] at hfind heq
      simp only [mapRoutes, hmine, not_true_eq_false, if_false, hfind, hsymbol, heq]

/-! ## The whole configuration -/

/-- `configure_router` can carry out all of the file on this router: the names it
lists are new and there is room for them, every state entry names a venue and a
state, every route entry a symbol and a venue. -/
structure Accepts (cfg : Config) (r : OrderRouter) : Prop where
  fresh : (r.names ++ listed cfg).Nodup
  room : r.venueCount + (listed cfg).length ≤ 65534
  states : ∀ key ∈ stateKeys cfg, StateOk cfg (r.names ++ listed cfg) key
  routes : ∀ key ∈ routeKeys cfg, RouteOk cfg (r.names ++ listed cfg) key

/-- The router with the listed venues behind its own. -/
def withListed (cfg : Config) (r : OrderRouter) : OrderRouter :=
  { r with venues := r.venues ++ (listed cfg).map fun name => { name } }

theorem names_withListed (cfg : Config) (r : OrderRouter) :
    (withListed cfg r).names = r.names ++ listed cfg := by
  rw [names, withListed, List.map_append, List.map_map]
  exact congrArg (r.names ++ ·) (List.map_id _)

section Configure

variable (cfg : Config) {r : OrderRouter} (hok : r.TablesOk)
include hok

/-- The names are those of the first pass, whatever comes after it. -/
theorem configureRouter_names :
    (r.addVenues (listed cfg)).1.names <+: (r.configureRouter cfg).1.names := by
  obtain ⟨hok₁, -⟩ := keeps_addVenues r (listed cfg) hok
  rw [listed] at hok₁ ⊢
  unfold configureRouter
  generalize r.addVenues (splitCsv (cfg.getStr "venues".toList)) = added at hok₁ ⊢
  obtain ⟨r₁, error₁⟩ := added
  cases error₁ with
  | some error => exact List.prefix_refl _
  | none =>
    obtain ⟨hok₂, hpre⟩ := keeps_setStates cfg r₁ cfg.keys hok₁
    dsimp only at hok₂ hpre ⊢
    generalize r₁.setStates cfg cfg.keys = stated at hok₂ hpre ⊢
    obtain ⟨r₂, error₂⟩ := stated
    cases error₂ with
    | some error => exact hpre
    | none => exact hpre.trans (keeps_mapRoutes cfg r₂ cfg.keys hok₂).2

/-- The outcome once the venues are there, by how far it goes: to a bad state
entry, or through all of them and then the routes. -/
theorem configureRouter_of_listed (hfresh : (r.names ++ listed cfg).Nodup)
    (hroom : r.venueCount + (listed cfg).length ≤ 65534) :
    let r₁ := withListed cfg r
    let r₂ := ((stateKeys cfg).takeWhile fun key => StateOk cfg r₁.names key).foldl
      (restateAll cfg) r₁
    let r₃ := ((routeKeys cfg).takeWhile fun key => RouteOk cfg r₁.names key).foldl
      (remapAll cfg r₁.findVenue) r₂
    r₁.TablesOk ∧ ((r.configureRouter cfg).2 = none ↔
      (∀ key ∈ stateKeys cfg, StateOk cfg r₁.names key) ∧
        ∀ key ∈ routeKeys cfg, RouteOk cfg r₁.names key) ∧
    (r.configureRouter cfg).1 =
      if ∀ key ∈ stateKeys cfg, StateOk cfg r₁.names key then r₃ else r₂ := by
  intro r₁ r₂ r₃
  obtain ⟨hiff, heq⟩ := addVenues_spec hok (listed_ne_nil cfg)
  have hnone := hiff.mpr ⟨hfresh, hroom⟩
  have hadded : r.addVenues (listed cfg) = (r₁, none) := Prod.ext (heq hnone) hnone
  have hok₁ : r₁.TablesOk := by
    have := (keeps_addVenues r (listed cfg) hok).1
    rwa [hadded] at this
  obtain ⟨hstates, hgood⟩ := setStates_spec cfg hok₁
  have hok₂ := (keeps_setStates cfg r₁ cfg.keys hok₁).1
  have hnames : r₂.names = r₁.names := by
    rw [show r₂ = _ from foldl_restateAll cfg _ r₁, names, List.map_map]
    exact List.map_congr_left fun v _ => foldl_restate_name cfg _ v
  refine ⟨hok₁, ?_⟩
  rw [listed] at hadded
  simp only [configureRouter, hadded]
  generalize r₁.setStates cfg cfg.keys = stated at hstates hgood hok₂ ⊢
  obtain ⟨r₂', error₂⟩ := stated
  dsimp only at hstates hgood hok₂
  subst hstates
  cases error₂ with
  | some error =>
    have hbad : ¬ ∀ key ∈ stateKeys cfg, StateOk cfg r₁.names key :=
      fun h => by simpa using hgood.mpr h
    rw [if_neg hbad]
    exact ⟨by simp [hbad], rfl⟩
  | none =>
    have hall := hgood.mp rfl
    obtain ⟨hroutes, hgood'⟩ := mapRoutes_spec cfg (r := r₂) hok₂
    rw [if_pos hall]
    rw [hnames] at hroutes hgood'
    have hfind : r₂.findVenue = r₁.findVenue := funext (findVenue_congr hnames)
    rw [hfind] at hroutes
    exact ⟨hgood'.trans ⟨fun h => ⟨hall, h⟩, And.right⟩, hroutes⟩

omit hok in
theorem configureRouter_of_refused (h : (r.addVenues (listed cfg)).2 ≠ none) :
    r.configureRouter cfg = r.addVenues (listed cfg) := by
  rw [listed] at h ⊢
  unfold configureRouter
  generalize r.addVenues (splitCsv (cfg.getStr "venues".toList)) = added at h ⊢
  obtain ⟨r₁, error₁⟩ := added
  cases error₁ with
  | some error => rfl
  | none => exact absurd rfl h

/-- It returns true exactly if it can carry out all of the file. -/
theorem configureRouter_ok : (r.configureRouter cfg).2 = none ↔ Accepts cfg r := by
  obtain ⟨hiff, -⟩ := addVenues_spec hok (listed_ne_nil cfg)
  by_cases hvenues : (r.addVenues (listed cfg)).2 = none
  · obtain ⟨hfresh, hroom⟩ := hiff.mp hvenues
    obtain ⟨-, hnone, -⟩ := configureRouter_of_listed cfg hok hfresh hroom
    rw [hnone, names_withListed]
    exact ⟨fun h => ⟨hfresh, hroom, h.1, h.2⟩, fun h => ⟨h.states, h.routes⟩⟩
  · rw [configureRouter_of_refused cfg hvenues]
    exact ⟨fun h => absurd h hvenues, fun h => hiff.mpr ⟨h.fresh, h.room⟩⟩

end Configure

end Lloms.OrderRouter
