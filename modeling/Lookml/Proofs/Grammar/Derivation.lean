import Lookml.Event.Reader
import Lookml.Proofs.Lexeme.Next

/-!
The grammar of documents. Its terminals are the lexemes of a text, comments left out, and
blocks of code. What a derivation tells is the events of the items that it derives; how
many scopes may still be opened inside them is part of it.
-/

namespace Lookml

inductive Terminal
  | lexeme (kind : Lexeme.Kind)
  /-- All that stands between a colon and the first `;;` behind it. -/
  | code (text : List Char)

def Lexeme.Kind.isTerminal : Lexeme.Kind → Bool
  | .comment _ | .endOfInput => false
  | _ => true

/-- The terminals of a text, which may stand directly behind a colon. Only there a block
of code may be taken, and no comment is looked for in it. -/
inductive Lexed : Bool → List Char → List Terminal → Prop
  | endOfInput {behindColon : Bool} {cs rest : List Char}
      (hnext : Lexeme.next cs = (.endOfInput, rest)) : Lexed behindColon cs []
  | comment {behindColon : Bool} {cs rest : List Char} {text : String} {terminals : List Terminal}
      (hnext : Lexeme.next cs = (.comment text, rest)) (later : Lexed false rest terminals) :
      Lexed behindColon cs terminals
  | lexeme {behindColon : Bool} {cs rest : List Char} {kind : Lexeme.Kind}
      {terminals : List Terminal} (hnext : Lexeme.next cs = (kind, rest))
      (hkind : kind.isTerminal = true) (later : Lexed (kind == .colon) rest terminals) :
      Lexed behindColon cs (.lexeme kind :: terminals)
  | code {cs text rest : List Char} {terminals : List Terminal}
      (hsplit : Token.splitCode cs = some (text, rest)) (later : Lexed false rest terminals) :
      Lexed true cs (.code text :: terminals)

namespace Grammar

def nameOf? : Lexeme.Kind → Option String
  | .word text | .quoted text => some text
  | _ => none

inductive Nonterminal
  | members
  | member
  | value (name : String)
  | elements
  | element
deriving DecidableEq

/-- The terminals that a nonterminal derives and the events that they tell, where so many
scopes may be opened inside each other. -/
inductive Derives (code : Names) : Nonterminal → Nat → List Terminal → List Event → Prop
  | noMembers {room : Nat} : Derives code .members room [] []
  | memberComma {room : Nat} {ts : List Terminal} {es : List Event}
      (later : Derives code .members room ts es) :
      Derives code .members room (.lexeme .comma :: ts) es
  | moreMembers {room : Nat} {ts ts' : List Terminal} {es es' : List Event}
      (first : Derives code .member room ts es) (later : Derives code .members room ts' es') :
      Derives code .members room (ts ++ ts') (es ++ es')
  | property {room : Nat} {kind : Lexeme.Kind} {name : String} {ts : List Terminal}
      {es : List Event} (hname : nameOf? kind = some name) (hcode : code.contains name = false)
      (value : Derives code (.value name) room ts es) :
      Derives code .member room (.lexeme kind :: .lexeme .colon :: ts) es
  | codeBlock {room : Nat} {kind : Lexeme.Kind} {name : String} {text : List Char}
      (hname : nameOf? kind = some name) (hcode : code.contains name = true) :
      Derives code .member room [.lexeme kind, .lexeme .colon, .code text]
        [.code name (String.ofList (trimBlank text))]
  | number {room : Nat} {name : String} {value : Number} :
      Derives code (.value name) room [.lexeme (.number value)] [.number (some name) value]
  | string {room : Nat} {name text : String} :
      Derives code (.value name) room [.lexeme (.quoted text)] [.string (some name) text]
  | word {room : Nat} {name word : String} :
      Derives code (.value name) room [.lexeme (.word word)] [Reader.wordEvent (some name) word]
  | named {room : Nat} {name word : String} {ts : List Terminal} {es : List Event}
      (members : Derives code .members room ts es) :
      Derives code (.value name) (room + 1)
        (.lexeme (.word word) :: .lexeme .openBrace :: (ts ++ [.lexeme .closeBrace]))
        (.named name word :: (es ++ [.close]))
  | object {room : Nat} {name : String} {ts : List Terminal} {es : List Event}
      (members : Derives code .members room ts es) :
      Derives code (.value name) (room + 1) (.lexeme .openBrace :: (ts ++ [.lexeme .closeBrace]))
        (.object name :: (es ++ [.close]))
  | list {room : Nat} {name : String} {ts : List Terminal} {es : List Event}
      (elements : Derives code .elements room ts es) :
      Derives code (.value name) (room + 1)
        (.lexeme .openBracket :: (ts ++ [.lexeme .closeBracket]))
        (.list (some name) :: (es ++ [.close]))
  | noElements {room : Nat} : Derives code .elements room [] []
  | elementComma {room : Nat} {ts : List Terminal} {es : List Event}
      (later : Derives code .elements room ts es) :
      Derives code .elements room (.lexeme .comma :: ts) es
  | moreElements {room : Nat} {ts ts' : List Terminal} {es es' : List Event}
      (first : Derives code .element room ts es) (later : Derives code .elements room ts' es') :
      Derives code .elements room (ts ++ ts') (es ++ es')
  | elementNumber {room : Nat} {value : Number} :
      Derives code .element room [.lexeme (.number value)] [.number none value]
  | elementString {room : Nat} {text : String} :
      Derives code .element room [.lexeme (.quoted text)] [.string none text]
  | elementWord {room : Nat} {word : String} :
      Derives code .element room [.lexeme (.word word)] [Reader.wordEvent none word]
  | pair {room : Nat} {reference text : String} :
      Derives code .element room
        [.lexeme (.word reference), .lexeme .colon, .lexeme (.quoted text)] [.pair reference text]
  | nested {room : Nat} {ts : List Terminal} {es : List Event}
      (elements : Derives code .elements room ts es) :
      Derives code .element (room + 1) (.lexeme .openBracket :: (ts ++ [.lexeme .closeBracket]))
        (.list none :: (es ++ [.close]))

/-- A whole document: members up to the end of the text. -/
def IsDocument (code : Names) (terminals : List Terminal) (events : List Event) : Prop :=
  Derives code .members maxDepth terminals events

end Grammar

def withoutComments (events : List Event) : List Event :=
  events.filter fun event => !event.isComment

@[simp] theorem withoutComments_nil : withoutComments [] = [] := rfl

@[simp] theorem withoutComments_append (events events' : List Event) :
    withoutComments (events ++ events') = withoutComments events ++ withoutComments events' :=
  List.filter_append ..

@[simp] theorem withoutComments_comments (texts : List String) :
    withoutComments (Event.comments texts) = [] := by
  simp [withoutComments, Event.comments, Event.isComment]

theorem withoutComments_cons {event : Event} (h : event.isComment = false)
    (events : List Event) : withoutComments (event :: events) = event :: withoutComments events :=
  List.filter_cons_of_pos (by simp [h])

theorem isComment_wordEvent (name : Option String) (word : String) :
    (Reader.wordEvent name word).isComment = false := by
  unfold Reader.wordEvent
  split <;> rfl

end Lookml
