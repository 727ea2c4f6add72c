import Lloms.Router.OrderRouter

/-! Building a router's venues and routing table from flat config
(`configure_router`). Each of the three passes works on the router as it goes and
stops at its first error. -/
namespace Lloms
open Lib

/-- `split_csv`: trimmed pieces, the empty ones left out. -/
def splitCsv (s : Text) : List Text := ((s.splitOn ',').map trim).filter (· ≠ [])

/-- `std::tolower` in the C locale. -/
def toLower (c : Char) : Char := if 'A' ≤ c ∧ c ≤ 'Z' then Char.ofNat (c.toNat + 32) else c

def lower (s : Text) : Text := s.map toLower

/-- `std::isdigit` in the C locale. -/
def isDigit (c : Char) : Bool := '0' ≤ c ∧ c ≤ '9'

/-- The value of a string of decimal digits. -/
def decimal (s : Text) : Nat := s.foldl (fun v c => 10 * v + (c.toNat - '0'.toNat)) 0

/-- `std::strtoull` on digits: the value, or the largest 64-bit number if it is
past it. -/
def strtoull (s : Text) : UInt64 := UInt64.ofNat (min (decimal s) (2 ^ 64 - 1))

/-- `none` is a return of false; the output is then not written. -/
def parseSymbol (text : Text) : Option Symbol :=
  if text = [] then none
  else if ¬ text.all isDigit then none
  else
    let v := strtoull text
    if v > 0xFFFFFFFF then none else some v.toUInt32

def parseState (text : Text) : Option VenueState :=
  let t := lower (trim text)
  if t = "up".toList then some .up
  else if t = "down".toList then some .down
  else if t = "drain".toList ∨ t = "drainonly".toList ∨ t = "drain_only".toList then
    some .drainOnly
  else none

namespace OrderRouter

def kStatePrefix : Text := "venue_state.".toList
def kRoutePrefix : Text := "route.".toList

/-- The venues pass. The text is the error, if there is one. -/
def addVenues (r : OrderRouter) : List Text → OrderRouter × Option Text
  | [] => (r, none)
  | name :: names =>
    let a := r.addVenue name .down
    if a.2 = kNoVenue then (a.1, some ("duplicate or unusable venue name: ".toList ++ name))
    else a.1.addVenues names

/-- The venue states pass. -/
def setStates (cfg : Config) (r : OrderRouter) : List Text → OrderRouter × Option Text
  | [] => (r, none)
  | key :: keys =>
    if ¬ kStatePrefix <+: key then r.setStates cfg keys
    else
      let name := key.drop kStatePrefix.length
      let venue := r.findVenue name
      if venue = kNoVenue then (r, some ("venue_state for unknown venue: ".toList ++ name))
      else
        match parseState (cfg.getStr key) with
        | none =>
          (r, some ("unrecognised state for venue ".toList ++ name ++ ": ".toList ++
            cfg.getStr key))
        | some state => (r.setVenueState venue state).1.setStates cfg keys

/-- The routes pass. -/
def mapRoutes (cfg : Config) (r : OrderRouter) : List Text → OrderRouter × Option Text
  | [] => (r, none)
  | key :: keys =>
    if ¬ kRoutePrefix <+: key then r.mapRoutes cfg keys
    else
      match parseSymbol (key.drop kRoutePrefix.length) with
      | none => (r, some ("route key is not a numeric symbol: ".toList ++ key))
      | some symbol =>
        let venueName := trim (cfg.getStr key)
        let venue := r.findVenue venueName
        if venue = kNoVenue then
          (r, some ("route ".toList ++ key ++ " names an undeclared venue: ".toList ++ venueName))
        else (r.mapSymbol symbol venue).1.mapRoutes cfg keys

/-- `configure_router`: the router it leaves behind and, if it returns false, the
error. -/
def configureRouter (cfg : Config) (r : OrderRouter) : OrderRouter × Option Text :=
  match r.addVenues (splitCsv (cfg.getStr "venues".toList)) with
  | (r, some error) => (r, some error)
  | (r, none) =>
    match r.setStates cfg cfg.keys with
    | (r, some error) => (r, some error)
    | (r, none) => r.mapRoutes cfg cfg.keys

end OrderRouter

end Lloms
