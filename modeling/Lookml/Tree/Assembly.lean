import Lookml.Event.Reader
import Lookml.Tree.Emission

/-!
Building a tree from a stream. Every open scope has a frame with the items read so far and
the comments that wait for the next one; a closed scope becomes an item of the frame
around it, with the comments that stood before its opening. A scope left without closing
leaves nothing behind.
-/

namespace Lookml

def Event.scalar? : Event → Option (Option String × Value)
  | .number name value => some (name, .number value)
  | .truth name value => some (name, .boolean value)
  | .string name text => some (name, .string text)
  | .identifier name text => some (name, .identifier text)
  | .code name text => some (some name, .code text)
  | .pair reference text => some (none, .pair reference text)
  | .list _ | .object _ | .named _ _ | .comment _ | .close => none

namespace Assembly

/-- An item with the comments before it; the name is empty in a list. -/
structure Item where
  comments : List String
  name : String
  value : Value

inductive Shape
  | list
  | object
  | named (instanceName : String)
deriving DecidableEq

structure Frame where
  comments : List String
  name : String
  shape : Shape
  items : List Item
  waiting : List String

def membersOf (items : List Item) (ending : List String) : Members :=
  items.foldl (fun rest item => .member item.comments item.name item.value rest) (.ending ending)

def elementsOf (items : List Item) (ending : List String) : Elements :=
  items.foldl (fun rest item => .element item.comments item.value rest) (.ending ending)

namespace Frame

def root : Frame := ⟨[], "", .object, [], []⟩

/-- The members of an object's frame; items and comments are kept in reverse. -/
def members (frame : Frame) : Members := membersOf frame.items frame.waiting.reverse

def value (frame : Frame) : Value :=
  match frame.shape with
  | .list => .list (elementsOf frame.items frame.waiting.reverse)
  | .object => .object frame.members
  | .named instanceName => .named instanceName frame.members

def put (frame : Frame) (item : Item) : Frame :=
  { frame with items := item :: frame.items }

/-- A scalar takes the comments that wait. -/
def scalar (frame : Frame) (name : Option String) (value : Value) : Frame :=
  { frame with
    items := ⟨frame.waiting.reverse, name.getD "", value⟩ :: frame.items
    waiting := [] }

def comment (frame : Frame) (text : String) : Frame :=
  { frame with waiting := text :: frame.waiting }

/-- The frame of a scope that opens here, and this frame without the comments that go with
it. -/
def openScope (frame : Frame) (name : String) (shape : Shape) : List Frame :=
  [⟨frame.waiting.reverse, name, shape, [], []⟩, { frame with waiting := [] }]

def take (frame : Frame) (event : Event) : List Frame :=
  match event with
  | .comment text => [frame.comment text]
  | .list name => frame.openScope (name.getD "") .list
  | .object name => frame.openScope name .object
  | .named name instanceName => frame.openScope name (.named instanceName)
  | event =>
      match event.scalar? with
      | some (name, value) => [frame.scalar name value]
      | none => [frame]

def item (frame : Frame) : Item := ⟨frame.comments, frame.name, frame.value⟩

end Frame

end Assembly

/-- The frames of the open scopes, the innermost first and the document's last. Without
frames the document is complete, or has been left. -/
structure Assembly where
  frames : List Assembly.Frame
  document : Option Document

namespace Assembly

def start : Assembly := ⟨[.root], none⟩

def close (assembly : Assembly) : Assembly :=
  match assembly.frames with
  | [] => assembly
  | [frame] => ⟨[], some frame.members⟩
  | inner :: outer :: frames => ⟨outer.put inner.item :: frames, assembly.document⟩

def step (assembly : Assembly) : Delivery → Assembly
  | .abandon => { assembly with frames := assembly.frames.tail }
  | .event .close => assembly.close
  | .event event =>
      match assembly.frames with
      | [] => assembly
      | frame :: frames => { assembly with frames := frame.take event ++ frames }

def run (assembly : Assembly) (deliveries : List Delivery) : Assembly :=
  deliveries.foldl step assembly

end Assembly

/-- The document that a stream tells, if the stream closes it. -/
def Document.ofStream? (deliveries : List Delivery) : Option Document :=
  (Assembly.start.run deliveries).document

/-- The document of a list of events, with scopes still open closed. -/
def Document.ofEvents (events : List Event) : Document :=
  (Document.ofStream? (wholeDocument events)).getD .empty

def Document.read (code : Names) (source : List Char) : Except SyntaxError Document :=
  let reading := Reading.ofText code source
  match reading.failure with
  | some error => .error error
  | none => .ok (.ofEvents reading.events)

/-- Whether telling a document and building it again gives an equal one. -/
def Members.rebuilds (document : Document) : Bool :=
  (Document.ofEvents document.events).same document

end Lookml
