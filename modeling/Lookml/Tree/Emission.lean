import Lookml.Event.Stream
import Lookml.Tree.Basic

/-!
Trees told as events. A pair is no value of a property, and code and objects are no
elements of a list: where a tree holds one there it is left out, though the comments
before it are told.
-/

namespace Lookml

mutual
def Value.asProperty (name : String) : Value → List Event
  | .number value => [.number (some name) value]
  | .string text => [.string (some name) text]
  | .boolean value => [.truth (some name) value]
  | .identifier text => [.identifier (some name) text]
  | .code text => [.code name text]
  | .pair _ _ => []
  | .list elements => .list (some name) :: (elements.events ++ [.close])
  | .object members => .object name :: (members.events ++ [.close])
  | .named instanceName members => .named name instanceName :: (members.events ++ [.close])

def Value.asElement : Value → List Event
  | .number value => [.number none value]
  | .string text => [.string none text]
  | .boolean value => [.truth none value]
  | .identifier text => [.identifier none text]
  | .pair reference text => [.pair reference text]
  | .list elements => .list none :: (elements.events ++ [.close])
  | .code _ | .object _ | .named _ _ => []

def Members.events : Members → List Event
  | .ending comments => Event.comments comments
  | .member comments name value rest =>
      Event.comments comments ++ (value.asProperty name ++ rest.events)

def Elements.events : Elements → List Event
  | .ending comments => Event.comments comments
  | .element comments value rest =>
      Event.comments comments ++ (value.asElement ++ rest.events)
end

end Lookml
