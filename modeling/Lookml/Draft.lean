import Lookml.Tree.Assembly
import Lookml.Writer

/-!
A draft is a document being written from a stream. It keeps the scopes that the stream is
in beside those of its writer; the two differ once a scope has been left without closing
it, and then the writer refuses calls. A refused call is remarked on, and the value after
it is written all the same.
-/

namespace Lookml

structure Draft where
  writer : Writer
  scopes : OpenScopes
deriving DecidableEq

namespace Draft

def new (layout : Layout) : Draft := ⟨(Writer.new layout).beginDocument, []⟩

/-- The writer after a call that may be refused, and the remark on a refusal. -/
def attempt (writer : Writer) : Except Writer.Misuse Writer → Writer × List Writer.Misuse
  | .ok next => (next, [])
  | .error misuse => (writer, [misuse])

/-- Announces an item: in an object by its name, in a list as an element. -/
def announce (draft : Draft) (name : Option String) : Writer × List Writer.Misuse :=
  attempt draft.writer
    (match draft.scopes.current with
    | .object => draft.writer.key (name.getD "")
    | .list => draft.writer.element)

/-- Writes the part of an event behind its announcement. -/
def write (writer : Writer) : Event → Writer
  | .number _ value => writer.number value
  | .truth _ value => writer.truth value
  | .string _ text => writer.string text
  | .identifier _ text => writer.identifier text
  | .code _ text => writer.code text
  | .pair reference text => writer.pair reference text
  | .list _ => writer.beginList
  | .object _ => writer.beginObject
  | .named _ instanceName => writer.beginNamed instanceName
  | .comment text => writer.comment text
  | .close => writer

/-- The name that an event is announced by; comments and closings are not announced. -/
def nameOf : Event → Option String
  | .number name _ | .truth name _ | .string name _ | .identifier name _ | .list name => name
  | .code name _ | .object name | .named name _ => some name
  | .pair _ _ | .comment _ | .close => none

def close (draft : Draft) : Writer × List Writer.Misuse :=
  attempt draft.writer
    (match draft.scopes.current with
    | .object => draft.writer.endObject
    | .list => draft.writer.endList)

/-- The draft after a delivery, and the calls that its writer refused. -/
def step (draft : Draft) : Delivery → Draft × List Writer.Misuse
  | .abandon => ({ draft with scopes := draft.scopes.tail }, [])
  | .event .close =>
      let (writer, refused) := draft.close
      (⟨writer, draft.scopes.after .close⟩, refused)
  | .event (.comment text) => ({ draft with writer := draft.writer.comment text }, [])
  | .event event =>
      let (writer, refused) := draft.announce (nameOf event)
      (⟨write writer event, draft.scopes.after event⟩, refused)

def run (draft : Draft) (deliveries : List Delivery) : Draft :=
  deliveries.foldl (fun draft delivery => (draft.step delivery).1) draft

end Draft

def textOfStream (layout : Layout) (deliveries : List Delivery) : String :=
  ((Draft.new layout).run deliveries).writer.output

def Members.format (layout : Layout) (document : Document) : String :=
  textOfStream layout (wholeDocument document.events)

/-- A text written anew in some layout. -/
def reformat (code : Names) (layout : Layout) (source : List Char) :
    Except SyntaxError String :=
  let reading := Reading.ofText code source
  match reading.failure with
  | some error => .error error
  | none => .ok (textOfStream layout (wholeDocument reading.events))

end Lookml
