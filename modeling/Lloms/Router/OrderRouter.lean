import Mathlib.Logic.Function.Basic
import Lloms.Config
import Lloms.Lib.Machine
import Lloms.Order

/-! The order router (`order_router.cpp`): venues and their sessions, the routing
table, and the client order IDs stamped on what is sent. -/
namespace Lloms
open Lib

abbrev VenueId := UInt16

/-- 0 is reserved, so that a zeroed struct is unrouted. -/
def kNoVenue : VenueId := 0

inductive VenueState where
  | down
  | up
  | drainOnly
  deriving DecidableEq, Repr

inductive RouteDecision where
  | routed
  | rejectRouterNotConfigured
  | rejectInvalidOrder
  | rejectUnknownSymbol
  | rejectVenueDown
  | rejectVenueDraining
  | rejectIdSpaceExhausted
  deriving DecidableEq, Repr

structure RouteRequest where
  order : Order := {}
  liquidating : Bool := false
  deriving DecidableEq, Repr

structure RouteResult where
  decision : RouteDecision := .rejectRouterNotConfigured
  venue : VenueId := kNoVenue
  clientOrderId : UInt64 := 0
  venueSeq : UInt64 := 0
  deriving DecidableEq, Repr

structure RouterStats where
  routed : UInt64 := 0
  rejectedNotConfigured : UInt64 := 0
  rejectedInvalid : UInt64 := 0
  rejectedUnknownSymbol : UInt64 := 0
  rejectedVenueDown : UInt64 := 0
  rejectedDraining : UInt64 := 0
  rejectedIdExhausted : UInt64 := 0
  deriving DecidableEq, Repr

structure Venue where
  name : Text
  state : VenueState := .down
  seq : UInt64 := 0
  routed : UInt64 := 0
  deriving DecidableEq, Repr

structure OrderRouter where
  epoch : UInt32
  counterBits : UInt32
  counterMax : UInt64
  counter : UInt64 := 1
  valid : Bool
  venues : List Venue := []
  routes : Symbol → Option VenueId := fun _ => none
  stats : RouterStats := {}

namespace OrderRouter

def new (sessionEpoch counterBits : UInt32) : OrderRouter :=
  if counterBits < 1 ∨ counterBits > 48 then
    { epoch := sessionEpoch, counterBits, counterMax := 0, valid := false }
  else
    let counterMax := (1 : UInt64) <<< counterBits.toUInt64 - 1
    let epochBits := 64 - counterBits
    let epochMax : UInt64 := if epochBits ≥ 64 then ~~~0 else 1 <<< epochBits.toUInt64 - 1
    { epoch := sessionEpoch, counterBits, counterMax, valid := sessionEpoch.toUInt64 ≤ epochMax }

/-! ## Venues -/

/-- The venue an id points to; `none` is the null pointer. -/
def venuePtr (r : OrderRouter) (venue : VenueId) : Option Venue :=
  if venue = kNoVenue ∨ venue.toNat > r.venues.length then none else r.venues[venue.toNat - 1]?

/-- Write through the pointer of a venue. -/
def setVenue (r : OrderRouter) (venue : VenueId) (v : Venue) : OrderRouter :=
  { r with venues := r.venues.set (venue.toNat - 1) v }

def findVenue (r : OrderRouter) (name : Text) : VenueId :=
  match r.venues.findIdx? fun v => v.name = name with
  | some i => UInt16.ofNat (i + 1)
  | none => kNoVenue

def addVenue (r : OrderRouter) (name : Text) (initial : VenueState) : OrderRouter × VenueId :=
  if name = [] ∨ r.venues.length ≥ 0xFFFE ∨ r.findVenue name ≠ kNoVenue then (r, kNoVenue)
  else
    let r := { r with venues := r.venues ++ [{ name, state := initial }] }
    (r, UInt16.ofNat r.venues.length)

def setVenueState (r : OrderRouter) (venue : VenueId) (state : VenueState) : OrderRouter × Bool :=
  match r.venuePtr venue with
  | none => (r, false)
  | some v => (r.setVenue venue { v with state }, true)

def onLogon (r : OrderRouter) (venue : VenueId) : OrderRouter :=
  match r.venuePtr venue with
  | none => r
  | some v => r.setVenue venue { v with seq := 0, state := .up }

def onDisconnect (r : OrderRouter) (venue : VenueId) : OrderRouter :=
  match r.venuePtr venue with
  | none => r
  | some v => r.setVenue venue { v with state := .down }

/-- A disconnect is a change of state, without the answer. -/
theorem onDisconnect_eq (r : OrderRouter) (venue : VenueId) :
    r.onDisconnect venue = (r.setVenueState venue .down).1 := by
  unfold onDisconnect setVenueState
  cases r.venuePtr venue <;> rfl

def venueCount (r : OrderRouter) : Nat := r.venues.length

def venueName (r : OrderRouter) (venue : VenueId) : Text := ((r.venuePtr venue).map Venue.name).getD []

def venueSeq (r : OrderRouter) (venue : VenueId) : UInt64 := ((r.venuePtr venue).map Venue.seq).getD 0

def venueRouted (r : OrderRouter) (venue : VenueId) : UInt64 :=
  ((r.venuePtr venue).map Venue.routed).getD 0

/-! ## Routing -/

def mapSymbol (r : OrderRouter) (symbol : Symbol) (venue : VenueId) : OrderRouter × Bool :=
  match r.venuePtr venue with
  | none => (r, false)
  | some _ => ({ r with routes := Function.update r.routes symbol (some venue) }, true)

def unmapSymbol (r : OrderRouter) (symbol : Symbol) : OrderRouter × Bool :=
  ({ r with routes := Function.update r.routes symbol none }, (r.routes symbol).isSome)

def venueFor (r : OrderRouter) (symbol : Symbol) : VenueId := (r.routes symbol).getD kNoVenue

/-- A reject: one counter moves and nothing else. -/
def refuse (r : OrderRouter) (f : RouterStats → RouterStats) (decision : RouteDecision)
    (venue : VenueId) : OrderRouter × RouteResult :=
  ({ r with stats := f r.stats }, { decision, venue })

/-- The id stamped on the next order. -/
def clientOrderId (r : OrderRouter) : UInt64 :=
  r.epoch.toUInt64 <<< r.counterBits.toUInt64 ||| r.counter

/-- The order is sent to `v`, the venue `venue` points to. -/
def send (r : OrderRouter) (venue : VenueId) (v : Venue) : OrderRouter × RouteResult :=
  let v := { v with seq := v.seq + 1, routed := v.routed + 1 }
  ({ r.setVenue venue v with
      counter := r.counter + 1
      stats := { r.stats with routed := r.stats.routed + 1 } },
    { decision := .routed, venue, clientOrderId := r.clientOrderId, venueSeq := v.seq })

def idsIssued (r : OrderRouter) : UInt64 := r.counter - 1

/-- `none` where the source would dereference a null venue. -/
def route (r : OrderRouter) (request : RouteRequest) : Option (OrderRouter × RouteResult) :=
  if !r.valid then
    some (r.refuse (fun st => { st with rejectedNotConfigured := st.rejectedNotConfigured + 1 })
      .rejectRouterNotConfigured kNoVenue)
  else if request.order.qty ≤ 0 then
    some (r.refuse (fun st => { st with rejectedInvalid := st.rejectedInvalid + 1 })
      .rejectInvalidOrder kNoVenue)
  else
    let venue := r.venueFor request.order.symbol
    if venue = kNoVenue then
      some (r.refuse (fun st => { st with rejectedUnknownSymbol := st.rejectedUnknownSymbol + 1 })
        .rejectUnknownSymbol kNoVenue)
    else
      match r.venuePtr venue with
      | none => none
      | some v =>
        if v.state = .down then
          some (r.refuse (fun st => { st with rejectedVenueDown := st.rejectedVenueDown + 1 })
            .rejectVenueDown venue)
        else if v.state = .drainOnly ∧ !request.liquidating then
          some (r.refuse (fun st => { st with rejectedDraining := st.rejectedDraining + 1 })
            .rejectVenueDraining venue)
        else if r.counter > r.counterMax then
          some (r.refuse (fun st => { st with rejectedIdExhausted := st.rejectedIdExhausted + 1 })
            .rejectIdSpaceExhausted venue)
        else some (r.send venue v)

/-! ## Runs -/

inductive Call where
  | addVenue (name : Text) (initial : VenueState)
  | setVenueState (venue : VenueId) (state : VenueState)
  | onLogon (venue : VenueId)
  | onDisconnect (venue : VenueId)
  | mapSymbol (symbol : Symbol) (venue : VenueId)
  | unmapSymbol (symbol : Symbol)
  | route (request : RouteRequest)
  deriving DecidableEq, Repr

/-- What a call hands back; `fault` stands for the null dereference. -/
inductive Reply where
  | unit
  | venue (id : VenueId)
  | bool (ok : Bool)
  | result (r : RouteResult)
  | fault
  deriving DecidableEq, Repr

def step (r : OrderRouter) : Call → OrderRouter × Reply
  | .addVenue name initial => ((r.addVenue name initial).1, .venue (r.addVenue name initial).2)
  | .setVenueState venue state =>
    ((r.setVenueState venue state).1, .bool (r.setVenueState venue state).2)
  | .onLogon venue => (r.onLogon venue, .unit)
  | .onDisconnect venue => (r.onDisconnect venue, .unit)
  | .mapSymbol symbol venue => ((r.mapSymbol symbol venue).1, .bool (r.mapSymbol symbol venue).2)
  | .unmapSymbol symbol => ((r.unmapSymbol symbol).1, .bool (r.unmapSymbol symbol).2)
  | .route request =>
    match r.route request with
    | some (r, result) => (r, .result result)
    | none => (r, .fault)

abbrev Event := Lib.Event OrderRouter Call Reply

end OrderRouter

end Lloms
