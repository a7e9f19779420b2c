import Lookml.Event.Basic

/-!
Streams of events as a consumer meets them: every event stands in a scope that takes it,
and all scopes are closed in the end. Any list of events can be told as such a stream;
what finds no place is left out.
-/

namespace Lookml

/-- Tells deliveries inside the given open scopes. An event that the current scope does
not take is left out. Closing or leaving the document ends the stream, and scopes still
open at the end are closed. -/
def settle : OpenScopes → List Delivery → List Delivery
  | scopes, [] => List.replicate scopes.length (.event .close)
  | [], .abandon :: _ => []
  | _ :: scopes, .abandon :: deliveries => .abandon :: settle scopes deliveries
  | [], .event .close :: _ => []
  | scopes, .event event :: deliveries =>
      match event.fit? scopes.current with
      | none => settle scopes deliveries
      | some fitted => .event fitted :: settle (scopes.after fitted) deliveries

def Delivery.event? : Delivery → Option Event
  | .event told => some told
  | .abandon => none

def replay (events : List Event) : List Event :=
  (settle [] (events.map .event)).filterMap Delivery.event?

/-- The deliveries of a whole document: its events, and the closing of the document
itself. -/
def wholeDocument (events : List Event) : List Delivery :=
  events.map .event ++ [.event .close]

theorem wholeDocument_eq_map (events : List Event) :
    wholeDocument events = (events ++ [Event.close]).map .event := by
  rw [wholeDocument, List.map_append, List.map_singleton]

/-- The events of a stream inside so many open scopes, without the closing of the document
itself. -/
def recorded : Nat → List Delivery → List Event
  | _, [] => []
  | depth, .abandon :: deliveries => recorded (depth - 1) deliveries
  | 0, .event .close :: deliveries => recorded 0 deliveries
  | depth + 1, .event .close :: deliveries => .close :: recorded depth deliveries
  | depth, .event event :: deliveries =>
      event :: recorded (depth + event.opens?.toList.length) deliveries

end Lookml
