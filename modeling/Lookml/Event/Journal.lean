import Lookml.Event.Basic
import Lookml.Text.Span

/-!
A journal notes what passes through a stream: one entry for each event, with the depth and
the kind of the scope that it stands in. A closing counts to the scope that it closes.
Leaving a scope without closing it makes no entry.
-/

namespace Lookml

inductive Datum
  | count (value : Nat)
  | text (value : String)
  | number (value : Number)
  | truth (value : Bool)
deriving DecidableEq

namespace Journal

structure Entry where
  depth : Nat
  scope : Scope
  event : Event
deriving DecidableEq

def Entry.message (entry : Entry) : String :=
  match entry.scope, entry.event with
  | .object, .number _ _ => "number"
  | .object, .truth _ _ => "bool"
  | .object, .string _ _ => "string"
  | .object, .identifier _ _ => "identifier"
  | .object, .list _ => "list open"
  | .object, .comment _ => "comment"
  | .object, .close => "close"
  | .list, .number _ _ => "list number"
  | .list, .truth _ _ => "list bool"
  | .list, .string _ _ => "list string"
  | .list, .identifier _ _ => "list identifier"
  | .list, .list _ => "nested list open"
  | .list, .comment _ => "list comment"
  | .list, .close => "list close"
  | _, .pair _ _ => "list pair"
  | _, .code _ _ => "code"
  | _, .object _ => "object open"
  | _, .named _ _ => "named object open"

def nameField (name : Option String) : List (String × Datum) :=
  (name.map fun text => ("name", .text text)).toList

/-- What was noted besides; of a code block only its length in bytes. -/
def Entry.fields (entry : Entry) : List (String × Datum) :=
  ("depth", .count entry.depth) ::
    match entry.event with
    | .number name value => nameField name ++ [("value", .number value)]
    | .truth name value => nameField name ++ [("value", .truth value)]
    | .string name text => nameField name ++ [("value", .text text)]
    | .identifier name text => nameField name ++ [("value", .text text)]
    | .code name text => [("name", .text name), ("len", .count (byteLength text.toList))]
    | .pair reference text => [("reference", .text reference), ("value", .text text)]
    | .list name => nameField name
    | .object name => [("name", .text name)]
    | .named name instanceName => [("name", .text name), ("instance", .text instanceName)]
    | .comment text => [("text", .text text)]
    | .close => []

/-- The entry that a delivery makes inside the given scopes, and the scopes open after
it. -/
def note (scopes : OpenScopes) : Delivery → Option Entry × OpenScopes
  | .abandon => (none, scopes.tail)
  | .event event => (some ⟨scopes.length, scopes.current, event⟩, scopes.after event)

def entries : OpenScopes → List Delivery → List Entry
  | _, [] => []
  | scopes, delivery :: deliveries =>
      let (entry, scopes) := note scopes delivery
      entry.toList ++ entries scopes deliveries

end Journal

end Lookml
