import Lookml.Event.Basic
import Lookml.Layout

/-!
A writer takes a document call by call: a key or the announcement of an element, a value,
the begin and the end of scopes. It places separators and line breaks; a call that does
not fit the innermost open scope is refused and changes nothing.
-/

namespace Lookml

namespace Writer

/-- A scope being written. The document itself has no braces and does not indent. -/
structure Open where
  scope : Scope
  isRoot : Bool
  /-- No item has been written in it. -/
  isEmpty : Bool
  /-- Its last item needs to be set apart from the next. -/
  separate : Bool
deriving DecidableEq

inductive Misuse
  | keyOutsideObject
  | elementOutsideList
  | objectEndInList
  | objectEndUnopened
  | listEndInObject
  | listEndUnopened
deriving DecidableEq

def Misuse.message : Misuse → String
  | .keyOutsideObject => "key called outside of object"
  | .elementOutsideList => "element called outside of list"
  | .objectEndInList => "end_object called inside a list"
  | .objectEndUnopened => "end_object called without begin_object"
  | .listEndInObject => "end_list called inside an object"
  | .listEndUnopened => "end_list called without begin_list"

end Writer

structure Writer where
  layout : Layout
  output : String
  opened : List Writer.Open
deriving DecidableEq

namespace Writer

def new (layout : Layout) : Writer := ⟨layout, "", []⟩

/-- The number of open scopes, the document included. -/
def depth (writer : Writer) : Nat := writer.opened.length

def indentDepth (opened : List Open) : Nat :=
  (opened.filter fun inner => !inner.isRoot).length

def innermost? (writer : Writer) : Option Scope :=
  writer.opened.head?.map Open.scope

def put (writer : Writer) (text : String) : Writer :=
  { writer with output := writer.output ++ text }

/-- What stands between the last item of a scope, or its opening, and the next item. -/
def separator (writer : Writer) (inner : Open) : String :=
  if writer.layout.pretty then
    let comma := if inner.separate && inner.scope == .list then "," else ""
    if inner.isEmpty && inner.isRoot && writer.output.isEmpty then comma
    else comma ++ writer.layout.newLine (indentDepth writer.opened)
  else if inner.separate then ", " else ""

/-- Makes room for an item. Nothing needs to be set apart from a comment, since a comment
ends its line. -/
def item (writer : Writer) (isComment : Bool) : Writer :=
  match writer.opened with
  | [] => writer
  | inner :: outer =>
      { writer with
        output := writer.output ++ writer.separator inner
        opened := { inner with isEmpty := false, separate := !isComment } :: outer }

def beginScope (writer : Writer) (scope : Scope) (isRoot : Bool) : Writer :=
  { writer with opened := ⟨scope, isRoot, true, false⟩ :: writer.opened }

def beginDocument (writer : Writer) : Writer := writer.beginScope .object true

def beginObject (writer : Writer) : Writer := (writer.put "\x7b").beginScope .object false

def beginNamed (writer : Writer) (instanceName : String) : Writer :=
  (writer.put (instanceName ++ writer.layout.gap)).beginObject

def beginList (writer : Writer) : Writer := (writer.put "[").beginScope .list false

/-- Ends the innermost scope, which gives way to the ones around it. -/
def leave (writer : Writer) (inner : Open) (outer : List Open) (closer : String) : Writer :=
  let lineBreak :=
    if writer.layout.pretty && !inner.isEmpty then
      if inner.isRoot then "\n" else writer.layout.newLine (indentDepth outer)
    else ""
  { writer with
    output := writer.output ++ lineBreak ++ (if inner.isRoot then "" else closer)
    opened := outer }

def endObject (writer : Writer) : Except Misuse Writer :=
  match writer.opened with
  | [] => .error .objectEndUnopened
  | inner :: outer =>
      match inner.scope with
      | .object => .ok (writer.leave inner outer "\x7d")
      | .list => .error .objectEndInList

def endList (writer : Writer) : Except Misuse Writer :=
  match writer.opened with
  | [] => .error .listEndUnopened
  | inner :: outer =>
      match inner.scope with
      | .list => .ok (writer.leave inner outer "]")
      | .object => .error .listEndInObject

def key (writer : Writer) (name : String) : Except Misuse Writer :=
  if writer.innermost? = some .object then
    .ok ((writer.item false).put (Layout.spellName name ++ ":" ++ writer.layout.gap))
  else .error .keyOutsideObject

def element (writer : Writer) : Except Misuse Writer :=
  if writer.innermost? = some .list then .ok (writer.item false)
  else .error .elementOutsideList

def comment (writer : Writer) (text : String) : Writer :=
  (writer.item true).put
    (Layout.spellComment text ++ if writer.layout.pretty then "" else "\n")

def number (writer : Writer) (value : Number) : Writer := writer.put value.toText

def truth (writer : Writer) (value : Bool) : Writer := writer.put (wordOfTruth value)

def string (writer : Writer) (text : String) : Writer :=
  writer.put (writer.layout.spellString text)

def identifier (writer : Writer) (text : String) : Writer := writer.put text

def code (writer : Writer) (text : String) : Writer := writer.put (Layout.spellCode text)

def pair (writer : Writer) (reference text : String) : Writer :=
  writer.put (writer.layout.spellPair reference text)

end Writer

end Lookml
