import Lookml.Fault
import Lookml.Text.Blank
import Lookml.Token.Cursor

/-!
Lexemes: tokens that matter, with their values resolved. Blanks are passed over; comments
are kept, since they belong to the document.
-/

namespace Lookml

namespace Lexeme

inductive Kind
  | openBrace
  | closeBrace
  | openBracket
  | closeBracket
  | colon
  | comma
  | word (text : String)
  | number (value : Number)
  | quoted (text : String)
  | comment (text : String)
  | endOfInput
  | invalid (fault : Fault)
deriving DecidableEq

def Kind.token : Kind → Token.Kind
  | .openBrace => .openBrace
  | .closeBrace => .closeBrace
  | .openBracket => .openBracket
  | .closeBracket => .closeBracket
  | .colon => .colon
  | .comma => .comma
  | .word _ => .word
  | .number _ => .numeral
  | .quoted _ => .quoted
  | .comment _ => .comment
  | .endOfInput => .endOfInput
  | .invalid _ => .invalid

/-- The fault of a token that is none, told by its first character. -/
def faultOf (text : List Char) : Fault :=
  match text with
  | '"' :: _ => .unterminatedText
  | c :: _ =>
      if c.isDigit || c == '-' || c == '.' then .badNumeral (String.ofList text)
      else .badCharacter (String.ofList text)
  | [] => .badCharacter ""

/-- The value of a quoted text, quotes included. -/
def resolve (text : List Char) : Kind :=
  match Quoted.decode (text.drop 1).dropLast with
  | .ok meant => .quoted (String.ofList meant)
  | .error escape => .invalid (.badEscape (String.ofList escape))

/-- What a token stands for. Blanks and code stand for nothing here: the first are passed
over before, the second are asked for by name. -/
def ofToken (kind : Token.Kind) (text : List Char) : Kind :=
  match kind with
  | .openBrace => .openBrace
  | .closeBrace => .closeBrace
  | .openBracket => .openBracket
  | .closeBracket => .closeBracket
  | .colon => .colon
  | .comma => .comma
  | .word => .word (String.ofList text)
  | .numeral => .number (Number.ofText text)
  | .quoted => resolve text
  | .comment => .comment (String.ofList (text.drop 1))
  | .endOfInput => .endOfInput
  | .code | .blank | .newline => .invalid (.unexpected kind .value)
  | .invalid => .invalid (faultOf text)

end Lexeme

structure Lexeme where
  kind : Lexeme.Kind
  span : Span
deriving DecidableEq

namespace Cursor

def lexeme (cursor : Cursor) : Lexeme × Cursor :=
  let (token, next) := cursor.skipBlank.token
  (⟨Lexeme.ofToken token.kind token.text, token.span⟩, next)

/-- A code block: its text without blanks at the ends, the span of the whole text, and the
cursor behind the closing `;;`. -/
def codeBlock (cursor : Cursor) : Except SyntaxError (String × Span × Cursor) :=
  let (token, next) := cursor.code
  if token.kind = .code then .ok (String.ofList (trimBlank token.text), token.span, next)
  else .error ⟨.unterminatedCode, token.span⟩

theorem lexeme_rest_length_lt {cursor : Cursor}
    (h : cursor.lexeme.1.kind ≠ .endOfInput) :
    cursor.lexeme.2.rest.length < cursor.rest.length := by
  have hle := cursor.skipBlank_length_le
  have hne : cursor.skipBlank.rest ≠ [] := by
    intro hnil
    apply h
    simp [lexeme, token, hnil, Token.cut, Lexeme.ofToken]
  have hlt := token_rest_length_lt hne
  simp only [lexeme]
  omega

theorem codeBlock_rest_length_lt {cursor next : Cursor} {text : String} {span : Span}
    (h : cursor.codeBlock = .ok (text, span, next)) :
    next.rest.length < cursor.rest.length := by
  unfold codeBlock at h
  cases hcode : Token.splitCode cursor.rest with
  | none => simp [code, hcode] at h
  | some found =>
      obtain ⟨front, back⟩ := found
      have happend := congrArg List.length (Token.splitCode_append hcode)
      simp only [code, hcode, if_true, Except.ok.injEq, Prod.mk.injEq] at h
      obtain ⟨-, -, rfl⟩ := h
      simp only [past, List.length_append, List.length_cons] at happend ⊢
      omega

end Cursor

end Lookml
