import Lookml.Proofs.Checked.Lexer
import Lookml.Proofs.Reader.Bounded
import Lookml.Proofs.Reader.Passes
import Lookml.Proofs.Reader.Reads

/-!
Parsing with every operation checked that could go wrong. A parser goes into a scope that
opens and comes back when it closes, where a reader keeps a list of the scopes that are
open; what it tells and the error it ends with are the same, and in a text whose offsets
fit into 32 bits nothing goes wrong.
-/

namespace Lookml.Checked

/-- How much is left to be read: each character, and a lexeme that was only looked at. -/
def Lexer.left (lexer : Lexer) : Nat :=
  lexer.scanner.rest.length +
    match lexer.pending with
    | some lexeme => if lexeme.kind = .endOfInput then 0 else 1
    | none => 0

/-- Looks at the next lexeme that is no comment. The comments on the way are taken, and
join those given. -/
def Lexer.peekPastComments (lexer : Lexer) (comments : List String) :
    Except Trap (Lexeme × List String × Lexer) := do
  let (lexeme, peeked) ← lexer.peek
  match lexeme.kind with
  | .comment text =>
      let (_, next) ← peeked.next
      if _h : next.left < lexer.left then next.peekPastComments (comments ++ [text])
      else throw .stalled
  | _ => return (lexeme, comments, peeked)
termination_by lexer.left

/-- What comes of an item: it is told, or opens a scope, or there is none. -/
inductive Turn
  | onward
  | nested (scope : Scope) (event : Event) (span : Span)
  | done (failure : Option SyntaxError)

structure Parser where
  lexer : Lexer
  depth : Nat
  told : List Event

namespace Parser

def ofText (source : List Char) : Parser := ⟨.ofText source, 0, []⟩

def tell (parser : Parser) (events : List Event) : Parser :=
  { parser with told := parser.told ++ events }

def fail (parser : Parser) (fault : Fault) (span : Span) : Turn × Parser :=
  (.done (some ⟨fault, span⟩), parser)

def unexpected (parser : Parser) (lexeme : Lexeme) (expected : Expected) : Turn × Parser :=
  parser.fail (.unexpected lexeme.kind.token expected) lexeme.span

def next (parser : Parser) : Except Trap (Lexeme × Parser) := do
  let (lexeme, lexer) ← parser.lexer.next
  return (lexeme, { parser with lexer })

def code (parser : Parser) : Except Trap (Except SyntaxError (String × Span) × Parser) := do
  let (block, lexer) ← parser.lexer.code
  return (block, { parser with lexer })

def peekPastComments (parser : Parser) : Except Trap (Lexeme × List String × Parser) := do
  let (lexeme, comments, lexer) ← parser.lexer.peekPastComments []
  return (lexeme, comments, { parser with lexer })

/-- The next lexeme that is no comment. The comments on the way are told. -/
def nextValue (parser : Parser) : Except Trap (Lexeme × Parser) := do
  let (lexeme, next) ← parser.next
  match lexeme.kind with
  | .comment text =>
      if _h : next.lexer.left < parser.lexer.left then (next.tell [.comment text]).nextValue
      else throw .stalled
  | _ => return (lexeme, next)
termination_by parser.lexer.left
decreasing_by exact _h

/-- Behind a word that is a value, or the name of an instance. -/
def afterWord (parser : Parser) (name word : String) (span : Span) :
    Except Trap (Turn × Parser) := do
  let (ahead, comments, peeked) ← parser.peekPastComments
  if ahead.kind = .openBrace then
    let (_, next) ← (peeked.tell (Event.comments comments)).next
    return (.nested .object (.named name word) span, next)
  else
    return (.onward, peeked.tell (Reader.wordEvent (some name) word :: Event.comments comments))

def onValue (parser : Parser) (name : String) (span : Span) (lexeme : Lexeme) :
    Except Trap (Turn × Parser) :=
  match lexeme.kind with
  | .number value => return (.onward, parser.tell [.number (some name) value])
  | .quoted text => return (.onward, parser.tell [.string (some name) text])
  | .word word => parser.afterWord name word lexeme.span
  | .openBrace => return (.nested .object (.object name) lexeme.span, parser)
  | .openBracket => return (.nested .list (.list (some name)) lexeme.span, parser)
  | .invalid fault => return parser.fail fault lexeme.span
  | .endOfInput => return parser.fail (.unexpected .endOfInput .value) (span.cover lexeme.span)
  | _ => return parser.unexpected lexeme .value

def codeBlock (parser : Parser) (name : String) : Except Trap (Turn × Parser) := do
  let (block, next) ← parser.code
  match block with
  | .ok (text, _) => return (.onward, next.tell [.code name text])
  | .error error => return (.done (some error), next)

def onColon (parser : Parser) (code : Names) (name : String) (span : Span) (lexeme : Lexeme) :
    Except Trap (Turn × Parser) :=
  match lexeme.kind with
  | .colon =>
      if code.contains name then parser.codeBlock name
      else do
        let (lexeme, next) ← parser.nextValue
        next.onValue name span lexeme
  | .invalid fault => return parser.fail fault lexeme.span
  | _ => return parser.unexpected lexeme .colon

def property (parser : Parser) (code : Names) (name : String) (span : Span) :
    Except Trap (Turn × Parser) := do
  let (_, comments, peeked) ← parser.peekPastComments
  let (lexeme, next) ← (peeked.tell (Event.comments comments)).next
  next.onColon code name span lexeme

/-- An item of an object, or of the document where no object is open. -/
def onMember (parser : Parser) (code : Names) (opened : Option Span) (lexeme : Lexeme) :
    Except Trap (Turn × Parser) :=
  match lexeme.kind with
  | .comment text => return (.onward, parser.tell [.comment text])
  | .comma => return (.onward, parser)
  | .word text => parser.property code text lexeme.span
  | .quoted text => parser.property code text lexeme.span
  | .closeBrace =>
      match opened with
      | some _ => return (.done none, parser)
      | none => return parser.fail .unmatchedBrace lexeme.span
  | .endOfInput =>
      match opened with
      | some span => return parser.fail .unclosedObject (span.cover lexeme.span)
      | none => return (.done none, parser)
  | .invalid fault => return parser.fail fault lexeme.span
  | .closeBracket => return parser.fail .unmatchedBracket lexeme.span
  | _ => return parser.unexpected lexeme .propertyName

def onPairText (parser : Parser) (reference : String) (lexeme : Lexeme) :
    Except Trap (Turn × Parser) :=
  match lexeme.kind with
  | .quoted text => return (.onward, parser.tell [.pair reference text])
  | .invalid fault => return parser.fail fault lexeme.span
  | _ => return parser.unexpected lexeme .quotedText

/-- Behind a word that is an element, or the reference of a pair. -/
def afterElementWord (parser : Parser) (word : String) : Except Trap (Turn × Parser) := do
  let (ahead, comments, peeked) ← parser.peekPastComments
  if ahead.kind = .colon then
    let (_, next) ← (peeked.tell (Event.comments comments)).next
    let (lexeme, next) ← next.nextValue
    next.onPairText word lexeme
  else return (.onward, peeked.tell (Reader.wordEvent none word :: Event.comments comments))

/-- An item of a list. -/
def onElement (parser : Parser) (opened : Span) (lexeme : Lexeme) : Except Trap (Turn × Parser) :=
  match lexeme.kind with
  | .comment text => return (.onward, parser.tell [.comment text])
  | .comma => return (.onward, parser)
  | .closeBracket => return (.done none, parser)
  | .number value => return (.onward, parser.tell [.number none value])
  | .quoted text => return (.onward, parser.tell [.string none text])
  | .word word => parser.afterElementWord word
  | .openBracket => return (.nested .list (.list none) lexeme.span, parser)
  | .endOfInput => return parser.fail .unclosedList (opened.cover lexeme.span)
  | .invalid fault => return parser.fail fault lexeme.span
  | _ => return parser.unexpected lexeme .element

/-- An item of the innermost scope. -/
def item (parser : Parser) (code : Names) (inner : Option Opened) :
    Except Trap (Turn × Parser) := do
  let (lexeme, next) ← parser.next
  match inner with
  | some ⟨.list, span⟩ => next.onElement span lexeme
  | inner => next.onMember code (inner.map Opened.span) lexeme

def enter (parser : Parser) (event : Event) : Parser :=
  { parser with depth := parser.depth + 1, told := parser.told ++ [event] }

def leave (parser : Parser) : Except Trap Parser :=
  if parser.depth = 0 then throw .depth
  else return { parser with depth := parser.depth - 1, told := parser.told ++ [.close] }

/-- The items of the innermost scope up to its end, and those of the scopes in it. Each
has to take something from the text. -/
def items (parser : Parser) (code : Names) (inner : Option Opened) :
    Except Trap (Option SyntaxError × Parser) := do
  let (turn, next) ← parser.item code inner
  match turn with
  | .done failure => return (failure, next)
  | .onward =>
      if _h : next.lexer.left < parser.lexer.left then next.items code inner else throw .stalled
  | .nested scope event span =>
      if next.depth < maxDepth then
        if _h : next.lexer.left < parser.lexer.left then
          let (failure, behind) ← (next.enter event).items code (some ⟨scope, span⟩)
          let last ← behind.leave
          match failure with
          | some error => return (some error, last)
          | none =>
              if _h : last.lexer.left < parser.lexer.left then last.items code inner
              else throw .stalled
        else throw .stalled
      else return (some ⟨.tooDeep, span⟩, next)
termination_by parser.lexer.left

end Parser

/-! Each lexeme that is taken leaves less than there was. -/

section Left
variable (source : List Char) (peeked : Bool) (cursor : Cursor)

theorem left_le : (Lexer.ofCursor source peeked cursor).left ≤ cursor.rest.length := by
  cases peeked with
  | false => exact Nat.le_refl _
  | true =>
      simp only [Lexer.left, Lexer.ofCursor, Scanner.ofCursor, if_true]
      split
      · exact cursor.lexeme_rest_length_le
      · exact Cursor.lexeme_rest_length_lt ‹_›

theorem le_left : cursor.lexeme.2.rest.length ≤ (Lexer.ofCursor source peeked cursor).left := by
  cases peeked with
  | false => exact cursor.lexeme_rest_length_le
  | true => exact Nat.le_add_right _ _

theorem lt_left (hend : cursor.lexeme.1.kind ≠ .endOfInput) :
    cursor.lexeme.2.rest.length < (Lexer.ofCursor source peeked cursor).left := by
  cases peeked with
  | false => exact Cursor.lexeme_rest_length_lt hend
  | true =>
      simp only [Lexer.left, Lexer.ofCursor, Scanner.ofCursor, if_true, if_neg hend]
      exact Nat.lt_succ_self _

end Left

/-! Comments in front of a lexeme. -/

section Comments
variable {source : List Char} {cursor last : Cursor} {texts : List String}

theorem Fits.passes (h : Fits source cursor) (hpasses : cursor.Passes texts last) :
    Fits source last := by
  induction hpasses with
  | here => exact h
  | comment _ _ ih => exact ih h.behindLexeme

theorem Fits.peekPastComments (h : Fits source cursor) (hpasses : cursor.Passes texts last)
    (peeked : Bool) (comments : List String) :
    (Lexer.ofCursor source peeked cursor).peekPastComments comments =
      .ok (last.lexeme.1, comments ++ texts, .ofCursor source true last) := by
  induction hpasses generalizing peeked comments with
  | here hother =>
      rw [Lexer.peekPastComments, List.append_nil]
      simp only [h.peek, ok_bind]
      rfl
  | @comment cursor last text texts hkind _ ih =>
      have hless : (Lexer.ofCursor source false cursor.lexeme.2).left <
          (Lexer.ofCursor source peeked cursor).left :=
        Nat.lt_of_le_of_lt (left_le _ _ _) (lt_left _ _ _ (by simp [hkind]))
      rw [Lexer.peekPastComments]
      simp only [h.peek, hkind, h.next, ok_bind]
      rw [dif_pos hless, ih h.behindLexeme, List.append_assoc]
      rfl

end Comments

namespace Parser

section Lexemes
variable {source : List Char} {cursor last : Cursor} {texts : List String} {depth : Nat}
  {told : List Event}

theorem next_eq (h : Fits source cursor) (peeked : Bool) :
    next ⟨.ofCursor source peeked cursor, depth, told⟩ =
      .ok (cursor.lexeme.1, ⟨.ofCursor source false cursor.lexeme.2, depth, told⟩) := by
  rw [next, h.next]
  rfl

theorem code_eq (h : Fits source cursor) :
    code ⟨.ofCursor source false cursor, depth, told⟩ =
      .ok (cursor.codeBlock.map fun (text, span, _) => (text, span),
        ⟨.ofCursor source false cursor.code.2, depth, told⟩) := by
  rw [code, h.code]
  rfl

theorem peekPastComments_eq (h : Fits source cursor) (hpasses : cursor.Passes texts last)
    (peeked : Bool) :
    peekPastComments ⟨.ofCursor source peeked cursor, depth, told⟩ =
      .ok (last.lexeme.1, texts, ⟨.ofCursor source true last, depth, told⟩) := by
  rw [peekPastComments, h.peekPastComments hpasses]
  rfl

theorem nextValue_eq (h : Fits source cursor) (hpasses : cursor.Passes texts last)
    (peeked : Bool) :
    nextValue ⟨.ofCursor source peeked cursor, depth, told⟩ =
      .ok (last.lexeme.1,
        ⟨.ofCursor source false last.lexeme.2, depth, told ++ Event.comments texts⟩) := by
  induction hpasses generalizing peeked told with
  | here hother =>
      rw [nextValue]
      simp only [next_eq h, ok_bind, Event.comments, List.map_nil, List.append_nil]
      rfl
  | @comment cursor last text texts hkind _ ih =>
      have hless : (Lexer.ofCursor source false cursor.lexeme.2).left <
          (Lexer.ofCursor source peeked cursor).left :=
        Nat.lt_of_le_of_lt (left_le _ _ _) (lt_left _ _ _ (by simp [hkind]))
      rw [nextValue]
      simp only [next_eq h, hkind, ok_bind]
      rw [dif_pos hless, tell, ih h.behindLexeme, List.append_assoc]
      rfl

end Lexemes

end Parser

/-! What a parser has told and what a reader is yet to tell there make up one whole. -/

/-- What a turn means to a reader in the given scopes. -/
def Turn.progress (opened : List Opened) : Turn → Progress
  | .onward => .onward [] ⟨opened, Reader.between opened⟩
  | .nested scope event span => Reader.enter opened [] event scope span
  | .done (some error) => .failed [] error
  | .done none =>
      match opened with
      | [] => .finished []
      | _ :: outer => Reader.leave outer

/-- A parser comes to a turn and nothing goes wrong. It has read something, unless there
is no item, and what a reader tells behind the turn makes a whole of what the parser has
told. -/
inductive Comes (code : Names) (source : List Char) (opened : List Opened) (limit : Nat)
    (whole : Reading) : Except Trap (Turn × Parser) → Prop
  | intro {turn : Turn} {peeked : Bool} {cursor : Cursor} {told : List Event}
      (hfits : Fits source cursor)
      (hless : (∀ failure, turn ≠ .done failure) → cursor.rest.length < limit)
      (hle : cursor.rest.length ≤ limit)
      (hwhole : ((turn.progress opened).reading code opened cursor).before told = whole) :
      Comes code source opened limit whole
        (.ok (turn, ⟨.ofCursor source peeked cursor, opened.length, told⟩))

/-- The items of the innermost scope come to its end or to an error, and nothing goes
wrong. What a reader tells there makes a whole of what the parser has told. -/
inductive Ends (code : Names) (source : List Char) (opened : List Opened) (limit : Nat)
    (whole : Reading) : Except Trap (Option SyntaxError × Parser) → Prop
  | intro {failure : Option SyntaxError} {peeked : Bool} {cursor : Cursor} {told : List Event}
      (hfits : Fits source cursor) (hle : cursor.rest.length ≤ limit)
      (hwhole : (((Turn.done failure).progress opened).reading code opened cursor).before told =
        whole) :
      Ends code source opened limit whole
        (.ok (failure, ⟨.ofCursor source peeked cursor, opened.length, told⟩))

section Turns
variable {code : Names} {source : List Char} {opened : List Opened} {limit : Nat}
  {whole : Reading} {cursor : Cursor} {told : List Event}

theorem Comes.item {turn : Turn} {peeked : Bool} (h : Fits source cursor)
    (hless : cursor.rest.length < limit)
    (hwhole : ((turn.progress opened).reading code opened cursor).before told = whole) :
    Comes code source opened limit whole
      (.ok (turn, ⟨.ofCursor source peeked cursor, opened.length, told⟩)) :=
  .intro h (fun _ => hless) (Nat.le_of_lt hless) hwhole

theorem Ends.mono {limit' : Nat} {result : Except Trap (Option SyntaxError × Parser)}
    (h : Ends code source opened limit whole result) (hle : limit ≤ limit') :
    Ends code source opened limit' whole result := by
  cases h with
  | intro hfits hle' hwhole => exact .intro hfits (Nat.le_trans hle' hle) hwhole

namespace Parser

theorem comes_afterWord {name word : String} {span : Span} (h : Fits source cursor)
    (hless : cursor.rest.length < limit) (hmember : Reader.between opened = .member)
    (hwhole : (Reader.run code ⟨opened, .afterWord name word span []⟩ cursor).before told =
      whole) :
    Comes code source opened limit whole
      (afterWord ⟨.ofCursor source false cursor, opened.length, told⟩ name word span) := by
  obtain ⟨texts, last, hpasses⟩ := cursor.exists_passes
  have hlast := h.passes hpasses
  have hnext : last.rest.length < limit := Nat.lt_of_le_of_lt hpasses.rest_length_le hless
  rw [Reader.run_afterWord_passes hpasses, List.nil_append] at hwhole
  simp only [afterWord, peekPastComments_eq h hpasses, ok_bind, tell]
  by_cases hbrace : last.lexeme.1.kind = .openBrace
  · simp only [hbrace, if_true, next_eq hlast, ok_bind]
    refine .item hlast.behindLexeme (Nat.lt_of_le_of_lt last.lexeme_rest_length_le hnext) ?_
    rw [Reader.run_eq_reading (by simp)] at hwhole
    simp only [Reader.step, Reader.onAfterWord, hbrace] at hwhole
    rwa [Reader.enter_eq_before, Progress.reading_before, Reading.before_before] at hwhole
  · simp only [hbrace, if_false]
    refine .item hlast hnext ?_
    rwa [Reader.run_afterWord_other hpasses.other hbrace, Reading.before_before,
      ← hmember] at hwhole

theorem comes_onValue {name : String} {span : Span} {lexeme : Lexeme} (h : Fits source cursor)
    (hless : cursor.rest.length < limit) (hmember : Reader.between opened = .member)
    (hother : ∀ text, lexeme.kind ≠ .comment text)
    (hwhole : ((Reader.onValue opened name span lexeme).reading code opened cursor).before told =
      whole) :
    Comes code source opened limit whole
      (onValue ⟨.ofCursor source false cursor, opened.length, told⟩ name span lexeme) := by
  obtain ⟨kind, place⟩ := lexeme
  cases kind with
  | word word => exact comes_afterWord h hless hmember hwhole
  | comment text => exact absurd rfl (hother text)
  | _ =>
      simp only [onValue, tell, fail, unexpected]
      refine .item h hless ?_
      simpa [Turn.progress, hmember, Reader.onValue, Reader.unexpected, Progress.reading] using
        hwhole

theorem comes_value {name : String} {span : Span} (h : Fits source cursor)
    (hless : cursor.rest.length < limit) (hmember : Reader.between opened = .member)
    (hwhole : (Reader.run code ⟨opened, .value name span⟩ cursor).before told = whole) :
    Comes code source opened limit whole (do
      let (lexeme, next) ← nextValue ⟨.ofCursor source false cursor, opened.length, told⟩
      next.onValue name span lexeme) := by
  obtain ⟨texts, last, hpasses⟩ := cursor.exists_passes
  have hnext : last.rest.length < limit := Nat.lt_of_le_of_lt hpasses.rest_length_le hless
  rw [Reader.run_told (by simp) (fun _ _ => rfl) hpasses, Reader.run_eq_reading (by simp),
    Reading.before_before] at hwhole
  rw [nextValue_eq h hpasses, ok_bind]
  exact comes_onValue (h.passes hpasses).behindLexeme
    (Nat.lt_of_le_of_lt last.lexeme_rest_length_le hnext) hmember hpasses.other hwhole

theorem comes_codeBlock {name : String} (h : Fits source cursor)
    (hless : cursor.rest.length < limit) (hmember : Reader.between opened = .member)
    (hwhole : (Reader.run code ⟨opened, .code name⟩ cursor).before told = whole) :
    Comes code source opened limit whole
      (codeBlock ⟨.ofCursor source false cursor, opened.length, told⟩ name) := by
  have hbehind := h.behindCode
  have hnext : cursor.code.2.rest.length < limit :=
    Nat.lt_of_le_of_lt (code_rest_length_le cursor) hless
  simp only [codeBlock, code_eq h, ok_bind]
  cases hcode : cursor.codeBlock with
  | error error =>
      rw [Reader.run_unterminatedCode rfl hcode] at hwhole
      exact .item hbehind hnext hwhole
  | ok block =>
      obtain ⟨text, span, next⟩ := block
      simp only [Except.map, tell]
      refine .item hbehind hnext ?_
      rwa [Reader.run_codeBlock rfl hcode, ← code_next hcode, Reading.before_before,
        ← hmember] at hwhole

theorem comes_onColon {name : String} {span : Span} {lexeme : Lexeme} (h : Fits source cursor)
    (hless : cursor.rest.length < limit) (hmember : Reader.between opened = .member)
    (hother : ∀ text, lexeme.kind ≠ .comment text)
    (hwhole : ((Reader.onColon code opened name span lexeme).reading code opened cursor).before
      told = whole) :
    Comes code source opened limit whole
      (onColon ⟨.ofCursor source false cursor, opened.length, told⟩ code name span lexeme) := by
  obtain ⟨kind, place⟩ := lexeme
  cases kind with
  | colon =>
      simp only [onColon, Reader.onColon, Progress.reading, Reading.before_nil] at hwhole ⊢
      by_cases hcode : code.contains name = true
      · simp only [hcode, if_true] at hwhole ⊢
        exact comes_codeBlock h hless hmember hwhole
      · simp only [hcode] at hwhole ⊢
        exact comes_value h hless hmember hwhole
  | comment text => exact absurd rfl (hother text)
  | _ =>
      simp only [onColon, fail, unexpected]
      exact .item h hless hwhole

theorem comes_property {name : String} {span : Span} (h : Fits source cursor)
    (hless : cursor.rest.length < limit) (hmember : Reader.between opened = .member)
    (hwhole : (Reader.run code ⟨opened, .colon name span⟩ cursor).before told = whole) :
    Comes code source opened limit whole
      (property ⟨.ofCursor source false cursor, opened.length, told⟩ code name span) := by
  obtain ⟨texts, last, hpasses⟩ := cursor.exists_passes
  have hlast := h.passes hpasses
  have hnext : last.rest.length < limit := Nat.lt_of_le_of_lt hpasses.rest_length_le hless
  rw [Reader.run_told (by simp) (fun _ _ => rfl) hpasses, Reader.run_eq_reading (by simp),
    Reading.before_before] at hwhole
  simp only [property, peekPastComments_eq h hpasses, tell, next_eq hlast, ok_bind]
  exact comes_onColon hlast.behindLexeme (Nat.lt_of_le_of_lt last.lexeme_rest_length_le hnext)
    hmember hpasses.other hwhole

/-- The end of the input takes nothing from the text, but behind it there is no item. -/
theorem comes_onMember {lexeme : Lexeme} (h : Fits source cursor)
    (hless : lexeme.kind ≠ .endOfInput → cursor.rest.length < limit)
    (hle : cursor.rest.length ≤ limit) (hmember : Reader.between opened = .member)
    (hwhole : ((Reader.onMember opened lexeme).reading code opened cursor).before told = whole) :
    Comes code source opened limit whole
      (onMember ⟨.ofCursor source false cursor, opened.length, told⟩ code
        (opened.head?.map Opened.span) lexeme) := by
  obtain ⟨kind, place⟩ := lexeme
  cases kind with
  | word text => exact comes_property h (hless (by simp)) hmember hwhole
  | quoted text => exact comes_property h (hless (by simp)) hmember hwhole
  | closeBrace => cases opened <;> exact .item h (hless (by simp)) hwhole
  | endOfInput => cases opened <;> exact .intro h (fun hgoes => absurd rfl (hgoes _)) hle hwhole
  | _ =>
      simp only [onMember, tell, fail, unexpected]
      refine .item h (hless (by simp)) ?_
      simpa [Turn.progress, hmember, Reader.onMember, Reader.unexpected, Progress.reading] using
        hwhole

theorem comes_onPairText {reference : String} {lexeme : Lexeme} (h : Fits source cursor)
    (hless : cursor.rest.length < limit) (helement : Reader.between opened = .element)
    (hother : ∀ text, lexeme.kind ≠ .comment text)
    (hwhole : ((Reader.onPairText opened reference lexeme).reading code opened cursor).before
      told = whole) :
    Comes code source opened limit whole
      (onPairText ⟨.ofCursor source false cursor, opened.length, told⟩ reference lexeme) := by
  obtain ⟨kind, place⟩ := lexeme
  cases kind with
  | comment text => exact absurd rfl (hother text)
  | _ =>
      simp only [onPairText, tell, fail, unexpected]
      refine .item h hless ?_
      simpa [Turn.progress, helement, Reader.onPairText, Reader.unexpected, Progress.reading]
        using hwhole

theorem comes_afterElementWord {word : String} (h : Fits source cursor)
    (hless : cursor.rest.length < limit) (helement : Reader.between opened = .element)
    (hwhole : (Reader.run code ⟨opened, .afterElementWord word []⟩ cursor).before told = whole) :
    Comes code source opened limit whole
      (afterElementWord ⟨.ofCursor source false cursor, opened.length, told⟩ word) := by
  obtain ⟨texts, last, hpasses⟩ := cursor.exists_passes
  have hlast := h.passes hpasses
  have hnext : last.rest.length < limit := Nat.lt_of_le_of_lt hpasses.rest_length_le hless
  rw [Reader.run_afterElementWord_passes hpasses, List.nil_append] at hwhole
  simp only [afterElementWord, peekPastComments_eq h hpasses, ok_bind, tell]
  by_cases hcolon : last.lexeme.1.kind = .colon
  · have hbehind := hlast.behindLexeme
    obtain ⟨more, close, hpast⟩ := last.lexeme.2.exists_passes
    have hclose : close.rest.length < limit := Nat.lt_of_le_of_lt
      (Nat.le_trans hpast.rest_length_le last.lexeme_rest_length_le) hnext
    simp only [hcolon, if_true, next_eq hlast, ok_bind, nextValue_eq hbehind hpast]
    refine comes_onPairText (hbehind.passes hpast).behindLexeme
      (Nat.lt_of_le_of_lt close.lexeme_rest_length_le hclose) helement hpast.other ?_
    have hstep : Reader.step code ⟨opened, .afterElementWord word texts⟩ last.lexeme.1 =
        .onward (Event.comments texts) ⟨opened, .pairText word⟩ := by
      simp only [Reader.step, Reader.onAfterElementWord, hcolon]
    rw [Reader.run_onward (by simp) hstep, Reader.run_told (by simp) (fun _ _ => rfl) hpast,
      Reader.run_eq_reading (by simp), Reading.before_before, Reading.before_before] at hwhole
    exact hwhole
  · simp only [hcolon, if_false]
    refine .item hlast hnext ?_
    rwa [Reader.run_afterElementWord_other hpasses.other hcolon, Reading.before_before,
      ← helement] at hwhole

theorem comes_onElement {span : Span} {outer : List Opened} {lexeme : Lexeme}
    (h : Fits source cursor) (hless : lexeme.kind ≠ .endOfInput → cursor.rest.length < limit)
    (hle : cursor.rest.length ≤ limit)
    (hwhole : ((Reader.onElement (⟨.list, span⟩ :: outer) lexeme).reading code
      (⟨.list, span⟩ :: outer) cursor).before told = whole) :
    Comes code source (⟨.list, span⟩ :: outer) limit whole
      (onElement ⟨.ofCursor source false cursor, outer.length + 1, told⟩ span lexeme) := by
  obtain ⟨kind, place⟩ := lexeme
  cases kind with
  | word word => exact comes_afterElementWord h (hless (by simp)) rfl hwhole
  | endOfInput => exact .intro h (fun hgoes => absurd rfl (hgoes _)) hle hwhole
  | _ =>
      simp only [onElement, tell, fail, unexpected]
      refine .item h (hless (by simp)) ?_
      simpa [Turn.progress, Reader.between, Reader.onElement, Reader.unexpected, Progress.reading]
        using hwhole

theorem comes_item (h : Fits source cursor) (peeked : Bool)
    (hwhole : (Reader.run code ⟨opened, Reader.between opened⟩ cursor).before told = whole) :
    Comes code source opened (Lexer.ofCursor source peeked cursor).left whole
      (item ⟨.ofCursor source peeked cursor, opened.length, told⟩ code opened.head?) := by
  have hless := lt_left source peeked cursor
  have hle := le_left source peeked cursor
  rw [Reader.run_eq_reading (Reader.between_ne_code opened)] at hwhole
  rw [item, next_eq h, ok_bind]
  match opened with
  | [] => exact comes_onMember h.behindLexeme hless hle rfl hwhole
  | ⟨.object, span⟩ :: outer => exact comes_onMember h.behindLexeme hless hle rfl hwhole
  | ⟨.list, span⟩ :: outer => exact comes_onElement h.behindLexeme hless hle hwhole

theorem opened_ahead {scope : Scope} {event : Event} {span : Span}
    (hroom : opened.length < maxDepth) :
    (((Turn.nested scope event span).progress opened).reading code opened cursor).before told =
      (Reader.run code ⟨⟨scope, span⟩ :: opened, Reader.between (⟨scope, span⟩ :: opened)⟩
        cursor).before (told ++ [event]) := by
  rw [Turn.progress, Reader.enter_of_lt hroom, ← Reading.before_before]
  rfl

theorem closed_behind (inner : Opened) :
    (((Turn.done none).progress (inner :: opened)).reading code (inner :: opened) cursor).before
        told =
      (Reader.run code ⟨opened, Reader.between opened⟩ cursor).before (told ++ [.close]) := by
  rw [← Reading.before_before]
  rfl

theorem failed_behind (inner : Opened) (error : SyntaxError) :
    (((Turn.done (some error)).progress (inner :: opened)).reading code (inner :: opened)
        cursor).before told =
      (((Turn.done (some error)).progress opened).reading code opened cursor).before
        (told ++ [.close]) := by
  rw [← Reading.before_before]
  rfl

/-- A scope that was entered is left, and the items of the scope around it go on unless
there was an error. -/
theorem ends_behind {inner : Opened} {start left : Nat}
    {result : Except Trap (Option SyntaxError × Parser)}
    (h : Ends code source (inner :: opened) left whole result) (hless : left < start)
    (hlater : ∀ {cursor : Cursor} {told : List Event}, Fits source cursor → ∀ peeked,
      (Lexer.ofCursor source peeked cursor).left < start →
      (Reader.run code ⟨opened, Reader.between opened⟩ cursor).before told = whole →
      Ends code source opened (Lexer.ofCursor source peeked cursor).left whole
        (items ⟨.ofCursor source peeked cursor, opened.length, told⟩ code opened.head?)) :
    Ends code source opened start whole (do
      let (failure, behind) ← result
      let last ← behind.leave
      match failure with
      | some error => return (some error, last)
      | none =>
          if _h : last.lexer.left < start then last.items code opened.head?
          else throw .stalled) := by
  cases h with
  | @intro failure peeked last told hlast hle hwhole =>
      have hleave : leave ⟨.ofCursor source peeked last, (inner :: opened).length, told⟩ =
          .ok ⟨.ofCursor source peeked last, opened.length, told ++ [.close]⟩ := rfl
      have hrest : last.rest.length < start := Nat.lt_of_le_of_lt hle hless
      simp only [ok_bind, hleave]
      cases failure with
      | some error =>
          rw [failed_behind] at hwhole
          exact .intro hlast (Nat.le_of_lt hrest) hwhole
      | none =>
          have hsmaller := Nat.lt_of_le_of_lt (left_le source peeked last) hrest
          rw [closed_behind] at hwhole
          simp only [hsmaller, dif_pos]
          exact (hlater hlast peeked hsmaller hwhole).mono (Nat.le_of_lt hsmaller)

/-- Nothing goes wrong with the items of a scope. -/
theorem ends_items (h : Fits source cursor) (peeked : Bool)
    (hwhole : (Reader.run code ⟨opened, Reader.between opened⟩ cursor).before told = whole) :
    Ends code source opened (Lexer.ofCursor source peeked cursor).left whole
      (items ⟨.ofCursor source peeked cursor, opened.length, told⟩ code opened.head?) := by
  -- Every item takes from what is left, and so do the items of a scope that opens.
  induction hleft : (Lexer.ofCursor source peeked cursor).left using Nat.strongRecOn
    generalizing opened cursor peeked told with
  | ind left ih =>
      subst hleft
      have hcomes := comes_item h peeked hwhole
      rw [items]
      generalize item ⟨.ofCursor source peeked cursor, opened.length, told⟩ code opened.head? =
        result at hcomes ⊢
      cases hcomes with
      | @intro turn peeked' next told' hnext hless hle hwhole' =>
          have hsmaller (hgoes : ∀ failure, turn ≠ .done failure) :=
            Nat.lt_of_le_of_lt (left_le source peeked' next) (hless hgoes)
          simp only [ok_bind]
          cases turn with
          | done failure => exact .intro hnext hle hwhole'
          | onward =>
              have hsmaller := hsmaller (by simp)
              simp only [hsmaller, dif_pos]
              exact (ih _ hsmaller hnext peeked' hwhole' rfl).mono (Nat.le_of_lt hsmaller)
          | nested scope event span =>
              have hsmaller := hsmaller (by simp)
              by_cases hroom : opened.length < maxDepth
              · rw [opened_ahead hroom] at hwhole'
                have hinside := ih _ hsmaller hnext peeked' hwhole' rfl
                simp only [hroom, if_true, hsmaller, dif_pos]
                exact ends_behind hinside hsmaller fun hlast peeked hsmaller hbehind =>
                  ih _ hsmaller hlast peeked hbehind rfl
              · simp only [hroom, if_false]
                refine .intro hnext hle ?_
                simpa [Turn.progress, Reader.enter, hroom, Progress.reading] using hwhole'

end Parser

end Turns

/-- Reads a text with every operation checked. -/
def parse (code : Names) (source : List Char) : Except Trap Reading := do
  let (failure, parser) ← (Parser.ofText source).items code none
  return ⟨parser.told, failure⟩

/-- In a text of less than 2³² bytes nothing goes wrong, and what is read is what a reader
reads. -/
theorem parse_eq_ofText (code : Names) {source : List Char} (h : byteLength source < 2 ^ 32) :
    parse code source = .ok (Reading.ofText code source) := by
  have hfits : Fits source (Cursor.ofText source) := ⟨Cursor.ofText_stands source, h⟩
  have hends : Ends code source [] _ (Reading.ofText code source)
      ((Parser.ofText source).items code none) :=
    Parser.ends_items hfits false (Reading.before_nil _)
  rw [parse]
  generalize (Parser.ofText source).items code none = result at hends ⊢
  cases hends with
  | @intro failure peeked last told _ _ hwhole =>
      have hdone : (⟨told, failure⟩ : Reading) = Reading.ofText code source := by
        rw [← hwhole]
        cases failure <;> exact congrArg (Reading.mk · _) (List.append_nil told).symm
      exact congrArg Except.ok hdone

/-- A list that a comment and the end of the text stand in, and a block of code. -/
theorem parse_eq_ofText_unclosed :
    byteLength "sql: x ;; a: [b, # c\n 1".toList < 2 ^ 32 ∧
      parse (Names.ofList ["sql"]) "sql: x ;; a: [b, # c\n 1".toList =
        .ok ⟨[.code "sql" "x", .list (some "a"), .identifier none "b", .comment " c",
          .number none (Number.ofText ['1']), .close], some ⟨.unclosedList, ⟨13, 23⟩⟩⟩ := by
  have hsize : byteLength "sql: x ;; a: [b, # c\n 1".toList < 2 ^ 32 := by decide
  refine ⟨hsize, ?_⟩
  rw [parse_eq_ofText _ hsize, Reading.ofText_eq_runFor]
  refine congrArg Except.ok ?_
  decide +kernel

end Lookml.Checked
