import Lookml.Number.Basic

/-!
A document as a sequence of events. An event that opens a scope is followed by the events
inside it and a closing event; the document itself is an object scope that nothing opens.
Events in an object carry the name of a property, events in a list do not.
-/

namespace Lookml

inductive Scope
  | object
  | list
deriving DecidableEq

inductive Event
  | number (name : Option String) (value : Number)
  | truth (name : Option String) (value : Bool)
  | string (name : Option String) (text : String)
  | identifier (name : Option String) (text : String)
  | code (name : String) (text : String)
  | pair (reference : String) (text : String)
  | list (name : Option String)
  | object (name : String)
  | named (name : String) (instanceName : String)
  | comment (text : String)
  | close
deriving DecidableEq

namespace Event

def isComment : Event → Bool
  | .comment _ => true
  | _ => false

def comments (texts : List String) : List Event := texts.map .comment

def opens? : Event → Option Scope
  | .list _ => some .list
  | .object _ | .named _ _ => some .object
  | _ => none

/-- An object takes every event that has a name, and comments. -/
def inObject? : Event → Option Event
  | .number none _ | .truth none _ | .string none _ | .identifier none _ | .list none => none
  | .pair _ _ => none
  | event => some event

/-- A list takes scalars, pairs, lists and comments, and drops their names. -/
def inList? : Event → Option Event
  | .number _ value => some (.number none value)
  | .truth _ value => some (.truth none value)
  | .string _ text => some (.string none text)
  | .identifier _ text => some (.identifier none text)
  | .pair reference text => some (.pair reference text)
  | .list _ => some (.list none)
  | .comment text => some (.comment text)
  | .close => some .close
  | .code _ _ | .object _ | .named _ _ => none

/-- An event as it can stand in a scope, if it can. -/
def fit? : Scope → Event → Option Event
  | .object, event => event.inObject?
  | .list, event => event.inList?

theorem eq_of_inObject? {event fitted : Event} (h : event.inObject? = some fitted) :
    fitted = event := by
  unfold inObject? at h
  split at h <;> simp_all

theorem fit?_opens? {scope : Scope} {event fitted : Event}
    (h : event.fit? scope = some fitted) : fitted.opens? = event.opens? := by
  cases scope with
  | object => rw [eq_of_inObject? h]
  | list =>
      cases event <;> simp only [fit?, inList?, Option.some.injEq, reduceCtorEq] at h <;>
        subst h <;> rfl

theorem fit?_fitted {scope : Scope} {event fitted : Event}
    (h : event.fit? scope = some fitted) : fitted.fit? scope = some fitted := by
  cases scope with
  | object =>
      have heq := eq_of_inObject? h
      subst heq
      exact h
  | list =>
      cases event <;> simp only [fit?, inList?, Option.some.injEq, reduceCtorEq] at h <;>
        subst h <;> rfl

end Event

/-- The scopes opened and not yet closed, the innermost first, and the document left
out. -/
abbrev OpenScopes := List Scope

namespace OpenScopes

def current : OpenScopes → Scope
  | [] => .object
  | scope :: _ => scope

def after (scopes : OpenScopes) (event : Event) : OpenScopes :=
  match event with
  | .close => scopes.tail
  | event => event.opens?.toList ++ scopes

end OpenScopes

/-- What a producer does next: it tells an event, or leaves the current scope without
closing it. -/
inductive Delivery
  | event (told : Event)
  | abandon
deriving DecidableEq

end Lookml
