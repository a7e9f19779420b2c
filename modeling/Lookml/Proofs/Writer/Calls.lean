import Lookml.Writer

/-!
The calls of a writer, carried out in place. An end takes the innermost scope off before
it looks at it and puts it back if it is of the other kind; an item sets the marks of its
scope anew before it writes what they were for. In a writer in which only objects are
roots, as calls leave it, each call comes to the same as the function of that name, which
gives no writer at all when it is refused.
-/

namespace Lookml

namespace Writer

inductive Call
  | beginDocument
  | beginObject
  | beginNamed (instanceName : String)
  | beginList
  | endObject
  | endList
  | key (name : String)
  | element
  | comment (text : String)
  | number (value : Number)
  | truth (value : Bool)
  | string (text : String)
  | identifier (text : String)
  | code (text : String)
  | pair (reference text : String)
deriving DecidableEq

/-- The writer that a call gives, unless it is refused. -/
def perform (writer : Writer) : Call → Except Misuse Writer
  | .beginDocument => .ok writer.beginDocument
  | .beginObject => .ok writer.beginObject
  | .beginNamed instanceName => .ok (writer.beginNamed instanceName)
  | .beginList => .ok writer.beginList
  | .endObject => writer.endObject
  | .endList => writer.endList
  | .key name => writer.key name
  | .element => writer.element
  | .comment text => .ok (writer.comment text)
  | .number value => .ok (writer.number value)
  | .truth value => .ok (writer.truth value)
  | .string text => .ok (writer.string text)
  | .identifier text => .ok (writer.identifier text)
  | .code text => .ok (writer.code text)
  | .pair reference text => .ok (writer.pair reference text)

/-! One step after the other, on a writer that is there also when the call is refused. -/

def pop (writer : Writer) : Writer × Option Open :=
  match writer.opened with
  | [] => (writer, none)
  | inner :: outer => ({ writer with opened := outer }, some inner)

def push (writer : Writer) (inner : Open) : Writer :=
  { writer with opened := inner :: writer.opened }

/-- The marks of the innermost scope are set anew; what they were says what stands before
the item. -/
def makeRoom (writer : Writer) (isComment : Bool) : Writer :=
  let depth := indentDepth writer.opened
  match writer.pop with
  | (_, none) => writer
  | (popped, some inner) =>
      let marked := popped.push { inner with isEmpty := false, separate := !isComment }
      if marked.layout.pretty then
        let listed := if inner.separate && inner.scope == .list then marked.put "," else marked
        if inner.isEmpty && inner.isRoot && listed.output.isEmpty then listed
        else listed.put (listed.layout.newLine depth)
      else if inner.separate then marked.put ", " else marked

/-- Closes a scope that has been taken off. -/
def closeScope (writer : Writer) (isEmpty : Bool) (closer : String) : Writer :=
  if isEmpty then writer.put closer
  else if writer.layout.pretty then
    (writer.put (writer.layout.newLine (indentDepth writer.opened))).put closer
  else writer.put closer

def endObjectInPlace (writer : Writer) : Writer × Option Misuse :=
  match writer.pop with
  | (popped, none) => (popped, some .objectEndUnopened)
  | (popped, some inner) =>
      match inner.scope with
      | .object =>
          if inner.isRoot then
            (if popped.layout.pretty && !inner.isEmpty then popped.put "\n" else popped, none)
          else (popped.closeScope inner.isEmpty "\x7d", none)
      | .list => (popped.push inner, some .objectEndInList)

def endListInPlace (writer : Writer) : Writer × Option Misuse :=
  match writer.pop with
  | (popped, none) => (popped, some .listEndUnopened)
  | (popped, some inner) =>
      match inner.scope with
      | .list => (popped.closeScope inner.isEmpty "]", none)
      | .object => (popped.push inner, some .listEndInObject)

/-- The writer after a call, and what was wrong with it. -/
def call (writer : Writer) : Call → Writer × Option Misuse
  | .beginDocument => (writer.beginDocument, none)
  | .beginObject => (writer.beginObject, none)
  | .beginNamed instanceName => (writer.beginNamed instanceName, none)
  | .beginList => (writer.beginList, none)
  | .endObject => writer.endObjectInPlace
  | .endList => writer.endListInPlace
  | .key name =>
      if writer.innermost? = some .object then
        ((((writer.makeRoom false).put (Layout.spellName name)).put ":").put writer.layout.gap,
          none)
      else (writer, some .keyOutsideObject)
  | .element =>
      if writer.innermost? = some .list then (writer.makeRoom false, none)
      else (writer, some .elementOutsideList)
  | .comment text =>
      let written := (writer.makeRoom true).put (Layout.spellComment text)
      (if written.layout.pretty then written else written.put "\n", none)
  | .number value => (writer.number value, none)
  | .truth value => (writer.truth value, none)
  | .string text => (writer.string text, none)
  | .identifier text => (writer.identifier text, none)
  | .code text => (writer.code text, none)
  | .pair reference text => (writer.pair reference text, none)

/-- A refused call leaves the writer that there was. -/
def settled (writer : Writer) : Except Misuse Writer → Writer × Option Misuse
  | .ok next => (next, none)
  | .error misuse => (writer, some misuse)

/-- Only a document is a root. -/
def RootsAreObjects (writer : Writer) : Prop :=
  ∀ inner ∈ writer.opened, inner.isRoot = true → inner.scope = .object

section InPlace
variable {writer : Writer}

theorem put_put (writer : Writer) (text text' : String) :
    (writer.put text).put text' = writer.put (text ++ text') := by
  simp only [put, String.append_assoc]

theorem makeRoom_eq_item (h : writer.RootsAreObjects) (isComment : Bool) :
    writer.makeRoom isComment = writer.item isComment := by
  obtain ⟨⟨pretty, indent, bareStrings⟩, output, opened⟩ := writer
  cases opened with
  | nil => rfl
  | cons inner outer =>
      obtain ⟨scope, isRoot, isEmpty, separate⟩ := inner
      simp only [makeRoom, item, pop, push, separator]
      cases pretty with
      | false => cases separate <;> simp [put]
      | true =>
          cases isRoot with
          | false => cases separate <;> cases scope <;> simp [put, String.append_assoc]
          | true =>
              -- The text is looked at behind the comma, but in an object there is none.
              obtain rfl : scope = .object := h _ List.mem_cons_self rfl
              cases isEmpty <;> cases houtput : output.isEmpty <;> simp [put, houtput]

theorem endObjectInPlace_eq (writer : Writer) :
    writer.endObjectInPlace = writer.settled writer.endObject := by
  obtain ⟨layout, output, opened⟩ := writer
  cases opened with
  | nil => rfl
  | cons inner outer =>
      cases hscope : inner.scope with
      | list => simp [endObjectInPlace, pop, push, endObject, settled, hscope]
      | object =>
          cases hroot : inner.isRoot <;> cases hempty : inner.isEmpty <;>
            cases hpretty : layout.pretty <;>
            simp [endObjectInPlace, pop, closeScope, endObject, settled, leave, put, hscope, hroot,
              hempty, hpretty]

theorem endListInPlace_eq (h : writer.RootsAreObjects) :
    writer.endListInPlace = writer.settled writer.endList := by
  obtain ⟨layout, output, opened⟩ := writer
  cases opened with
  | nil => rfl
  | cons inner outer =>
      cases hscope : inner.scope with
      | object => simp [endListInPlace, pop, push, endList, settled, hscope]
      | list =>
          have hroot : inner.isRoot = false := by
            cases hroot : inner.isRoot with
            | false => rfl
            | true => cases hscope.symm.trans (h inner List.mem_cons_self hroot)
          cases hempty : inner.isEmpty <;> cases hpretty : layout.pretty <;>
            simp [endListInPlace, pop, closeScope, endList, settled, leave, put, hscope, hroot,
              hempty, hpretty]

/-- In place, a call does what the function of that name says. -/
theorem call_eq_settled (h : writer.RootsAreObjects) (call : Call) :
    writer.call call = writer.settled (writer.perform call) := by
  cases call with
  | endObject => exact endObjectInPlace_eq writer
  | endList => exact endListInPlace_eq h
  | key name =>
      simp only [Writer.call, perform, key, makeRoom_eq_item h, put_put]
      split <;> simp [settled, String.append_assoc]
  | element =>
      simp only [Writer.call, perform, element, makeRoom_eq_item h]
      split <;> rfl
  | comment text =>
      have hlayout : (writer.item true).layout = writer.layout := by
        unfold item
        split <;> rfl
      simp only [Writer.call, perform, comment, makeRoom_eq_item h, settled, put, hlayout]
      split <;> simp [String.append_assoc]
  | _ => rfl

end InPlace

end Writer

end Lookml
