import Lookml.Event.Stream
import Lookml.Lexeme
import Lookml.Table

/-!
Reading a text as events. A reader knows the scopes that are open and what may come next;
each lexeme yields events and the next reader, or ends the reading. Properties whose names
are given as code names have a code block for a value, and its text is not looked at for
lexemes.

Whatever ends the reading, every open scope is closed.
-/

namespace Lookml

/-- A scope opened by a text, with the span that a complaint about it points to. -/
structure Opened where
  scope : Scope
  span : Span
deriving DecidableEq

namespace Reader

inductive Stage
  | member
  | colon (name : String) (span : Span)
  | code (name : String)
  | value (name : String) (span : Span)
  | afterWord (name : String) (word : String) (span : Span) (comments : List String)
  | element
  | afterElementWord (word : String) (comments : List String)
  | pairText (reference : String)
deriving DecidableEq

end Reader

structure Reader where
  opened : List Opened
  stage : Reader.Stage
deriving DecidableEq

inductive Progress
  | onward (events : List Event) (reader : Reader)
  | failed (events : List Event) (error : SyntaxError)
  | finished (events : List Event)
deriving DecidableEq

def Progress.before (events : List Event) : Progress → Progress
  | .onward more reader => .onward (events ++ more) reader
  | .failed more error => .failed (events ++ more) error
  | .finished more => .finished (events ++ more)

theorem Progress.before_ne_onward {progress : Progress}
    (h : ∀ events reader, progress ≠ .onward events reader) (front events : List Event)
    (reader : Reader) : progress.before front ≠ .onward events reader := by
  cases progress with
  | onward more next => exact absurd rfl (h more next)
  | failed more error => simp [Progress.before]
  | finished more => simp [Progress.before]

namespace Reader

def start : Reader := ⟨[], .member⟩

/-- What may come next inside the given scopes, between two of their items. -/
def between : List Opened → Stage
  | ⟨.list, _⟩ :: _ => .element
  | _ => .member

def wordEvent (name : Option String) (word : String) : Event :=
  match truthOfWord? word.toList with
  | some value => .truth name value
  | none => .identifier name word

def unexpected (lexeme : Lexeme) (expected : Expected) : Progress :=
  .failed [] ⟨.unexpected lexeme.kind.token expected, lexeme.span⟩

/-- Opens a scope, unless the limit of nesting is reached. -/
def enter (opened : List Opened) (events : List Event) (event : Event) (scope : Scope)
    (span : Span) : Progress :=
  if opened.length < maxDepth then
    .onward (events ++ [event]) ⟨⟨scope, span⟩ :: opened, between (⟨scope, span⟩ :: opened)⟩
  else .failed events ⟨.tooDeep, span⟩

def leave (opened : List Opened) : Progress :=
  .onward [.close] ⟨opened, between opened⟩

def onMember (opened : List Opened) (lexeme : Lexeme) : Progress :=
  match lexeme.kind with
  | .comment text => .onward [.comment text] ⟨opened, .member⟩
  | .comma => .onward [] ⟨opened, .member⟩
  | .word text => .onward [] ⟨opened, .colon text lexeme.span⟩
  | .quoted text => .onward [] ⟨opened, .colon text lexeme.span⟩
  | .closeBrace =>
      match opened with
      | [] => .failed [] ⟨.unmatchedBrace, lexeme.span⟩
      | _ :: outer => leave outer
  | .endOfInput =>
      match opened with
      | [] => .finished []
      | inner :: _ => .failed [] ⟨.unclosedObject, inner.span.cover lexeme.span⟩
  | .invalid fault => .failed [] ⟨fault, lexeme.span⟩
  | .closeBracket => .failed [] ⟨.unmatchedBracket, lexeme.span⟩
  | _ => unexpected lexeme .propertyName

def onColon (code : Names) (opened : List Opened) (name : String) (span : Span)
    (lexeme : Lexeme) : Progress :=
  match lexeme.kind with
  | .comment text => .onward [.comment text] ⟨opened, .colon name span⟩
  | .colon => .onward [] ⟨opened, if code.contains name then .code name else .value name span⟩
  | .invalid fault => .failed [] ⟨fault, lexeme.span⟩
  | _ => unexpected lexeme .colon

def onValue (opened : List Opened) (name : String) (span : Span) (lexeme : Lexeme) : Progress :=
  match lexeme.kind with
  | .comment text => .onward [.comment text] ⟨opened, .value name span⟩
  | .number value => .onward [.number (some name) value] ⟨opened, .member⟩
  | .quoted text => .onward [.string (some name) text] ⟨opened, .member⟩
  | .word word => .onward [] ⟨opened, .afterWord name word lexeme.span []⟩
  | .openBrace => enter opened [] (.object name) .object lexeme.span
  | .openBracket => enter opened [] (.list (some name)) .list lexeme.span
  | .invalid fault => .failed [] ⟨fault, lexeme.span⟩
  | .endOfInput => .failed [] ⟨.unexpected .endOfInput .value, span.cover lexeme.span⟩
  | _ => unexpected lexeme .value

def onElement (opened : List Opened) (lexeme : Lexeme) : Progress :=
  match lexeme.kind with
  | .comment text => .onward [.comment text] ⟨opened, .element⟩
  | .comma => .onward [] ⟨opened, .element⟩
  | .closeBracket => leave opened.tail
  | .number value => .onward [.number none value] ⟨opened, .element⟩
  | .quoted text => .onward [.string none text] ⟨opened, .element⟩
  | .word word => .onward [] ⟨opened, .afterElementWord word []⟩
  | .openBracket => enter opened [] (.list none) .list lexeme.span
  | .endOfInput =>
      .failed []
        ⟨.unclosedList, ((opened.head?.map Opened.span).getD lexeme.span).cover lexeme.span⟩
  | .invalid fault => .failed [] ⟨fault, lexeme.span⟩
  | _ => unexpected lexeme .element

def onPairText (opened : List Opened) (reference : String) (lexeme : Lexeme) : Progress :=
  match lexeme.kind with
  | .comment text => .onward [.comment text] ⟨opened, .pairText reference⟩
  | .quoted text => .onward [.pair reference text] ⟨opened, .element⟩
  | .invalid fault => .failed [] ⟨fault, lexeme.span⟩
  | _ => unexpected lexeme .quotedText

/-- A word is a value of its own unless a brace follows it, which makes it the name of an
instance. Comments in between are told behind the value, or before the object. -/
def onAfterWord (opened : List Opened) (name word : String) (span : Span)
    (comments : List String) (lexeme : Lexeme) : Progress :=
  match lexeme.kind with
  | .comment text => .onward [] ⟨opened, .afterWord name word span (comments ++ [text])⟩
  | .openBrace => enter opened (Event.comments comments) (.named name word) .object span
  | _ =>
      Progress.before (wordEvent (some name) word :: Event.comments comments)
        (onMember opened lexeme)

/-- A word is an element of its own unless a colon follows it, which makes it the
reference of a pair. -/
def onAfterElementWord (opened : List Opened) (word : String) (comments : List String)
    (lexeme : Lexeme) : Progress :=
  match lexeme.kind with
  | .comment text => .onward [] ⟨opened, .afterElementWord word (comments ++ [text])⟩
  | .colon => .onward (Event.comments comments) ⟨opened, .pairText word⟩
  | _ => Progress.before (wordEvent none word :: Event.comments comments) (onElement opened lexeme)

/-- One lexeme. A reader that waits for a code block takes none. -/
def step (code : Names) (reader : Reader) (lexeme : Lexeme) : Progress :=
  match reader.stage with
  | .member => onMember reader.opened lexeme
  | .colon name span => onColon code reader.opened name span lexeme
  | .code _ => unexpected lexeme .value
  | .value name span => onValue reader.opened name span lexeme
  | .afterWord name word span comments =>
      onAfterWord reader.opened name word span comments lexeme
  | .element => onElement reader.opened lexeme
  | .afterElementWord word comments => onAfterElementWord reader.opened word comments lexeme
  | .pairText reference => onPairText reader.opened reference lexeme

/-! The end of the input ends the reading. -/

private theorem onMember_endOfInput (opened : List Opened) {lexeme : Lexeme}
    (h : lexeme.kind = .endOfInput) (events : List Event) (reader : Reader) :
    onMember opened lexeme ≠ .onward events reader := by
  unfold onMember
  rw [h]
  cases opened <;> simp

private theorem onElement_endOfInput (opened : List Opened) {lexeme : Lexeme}
    (h : lexeme.kind = .endOfInput) (events : List Event) (reader : Reader) :
    onElement opened lexeme ≠ .onward events reader := by
  unfold onElement
  rw [h]
  simp

theorem step_endOfInput (code : Names) (reader : Reader) {lexeme : Lexeme}
    (h : lexeme.kind = .endOfInput) (events : List Event) (next : Reader) :
    reader.step code lexeme ≠ .onward events next := by
  unfold step
  cases reader.stage with
  | member => exact onMember_endOfInput _ h _ _
  | colon name span => simp [onColon, h, unexpected]
  | code name => simp [unexpected]
  | value name span => simp [onValue, h]
  | afterWord name word span comments =>
      simp only [onAfterWord, h]
      exact Progress.before_ne_onward (onMember_endOfInput _ h) _ _ _
  | element => exact onElement_endOfInput _ h _ _
  | afterElementWord word comments =>
      simp only [onAfterElementWord, h]
      exact Progress.before_ne_onward (onElement_endOfInput _ h) _ _ _
  | pairText reference => simp [onPairText, h, unexpected]

end Reader

/-- The events of a text, and the error that stopped the reading. -/
structure Reading where
  events : List Event
  failure : Option SyntaxError
deriving DecidableEq

def Reading.before (events : List Event) (later : Reading) : Reading :=
  ⟨events ++ later.events, later.failure⟩

@[simp] theorem Reading.before_nil (reading : Reading) : reading.before [] = reading := rfl

@[simp] theorem Reading.before_before (reading : Reading) (events more : List Event) :
    (reading.before more).before events = reading.before (events ++ more) := by
  simp only [Reading.before, List.append_assoc]

namespace Reader

/-- The scopes open at the end are closed, the innermost first. -/
def closings (opened : List Opened) : List Event :=
  List.replicate opened.length .close

/-- Reads to the end of the text or to the first error. -/
def run (code : Names) (reader : Reader) (cursor : Cursor) : Reading :=
  match reader.stage with
  | .code name =>
      match _hcode : cursor.codeBlock with
      | .ok (text, _, next) =>
          (run code ⟨reader.opened, .member⟩ next).before [.code name text]
      | .error error => ⟨closings reader.opened, some error⟩
  | _ =>
      match _hstep : reader.step code cursor.lexeme.1 with
      | .onward events next => (run code next cursor.lexeme.2).before events
      | .failed events error => ⟨events ++ closings reader.opened, some error⟩
      | .finished events => ⟨events, none⟩
termination_by cursor.rest.length
decreasing_by
  · exact Cursor.codeBlock_rest_length_lt _hcode
  · exact Cursor.lexeme_rest_length_lt fun hend => step_endOfInput code reader hend _ _ _hstep

/-! One step of a run, by what the step brings about. -/

section Steps
variable {code : Names} {reader : Reader} {cursor : Cursor}

theorem run_codeBlock {name text : String} {span : Span} {next : Cursor}
    (hstage : reader.stage = .code name) (h : cursor.codeBlock = .ok (text, span, next)) :
    reader.run code cursor =
      (run code ⟨reader.opened, .member⟩ next).before [.code name text] := by
  rw [run]
  simp only [hstage]
  split <;> simp_all

theorem run_unterminatedCode {name : String} {error : SyntaxError}
    (hstage : reader.stage = .code name) (h : cursor.codeBlock = .error error) :
    reader.run code cursor = ⟨closings reader.opened, some error⟩ := by
  rw [run]
  simp only [hstage]
  split <;> simp_all

theorem run_onward {events : List Event} {next : Reader}
    (hstage : ∀ name, reader.stage ≠ .code name)
    (h : reader.step code cursor.lexeme.1 = .onward events next) :
    reader.run code cursor = (run code next cursor.lexeme.2).before events := by
  rw [run]
  split
  · exact absurd ‹_› (hstage _)
  · split <;> simp_all

theorem run_failed {events : List Event} {error : SyntaxError}
    (hstage : ∀ name, reader.stage ≠ .code name)
    (h : reader.step code cursor.lexeme.1 = .failed events error) :
    reader.run code cursor = ⟨events ++ closings reader.opened, some error⟩ := by
  rw [run]
  split
  · exact absurd ‹_› (hstage _)
  · split <;> simp_all

theorem run_finished {events : List Event}
    (hstage : ∀ name, reader.stage ≠ .code name)
    (h : reader.step code cursor.lexeme.1 = .finished events) :
    reader.run code cursor = ⟨events, none⟩ := by
  rw [run]
  split
  · exact absurd ‹_› (hstage _)
  · split <;> simp_all

end Steps

end Reader

def Reading.ofText (code : Names) (source : List Char) : Reading :=
  Reader.start.run code (Cursor.ofText source)

end Lookml
