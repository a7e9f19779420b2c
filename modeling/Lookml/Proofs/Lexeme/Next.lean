import Lookml.Lexeme
import Lookml.Proofs.Number.Decimal

/-!
Lexemes without their places: what comes next in a text, and the text behind it, do not
depend on where the text stands. Each spelling is read as the lexeme that it spells.
-/

namespace Lookml

/-- The text behind the spaces, tabs and line ends at its front. -/
def pastBlanks : List Char → List Char
  | ' ' :: cs | '\t' :: cs | '\n' :: cs => pastBlanks cs
  | '\r' :: '\n' :: cs => pastBlanks cs
  | cs => cs

/-- The next lexeme of a text, and the text behind it. -/
def Lexeme.next (cs : List Char) : Lexeme.Kind × List Char :=
  let piece := Token.cut (pastBlanks cs)
  (Lexeme.ofToken piece.kind piece.text, piece.rest)

private theorem skipBlank_go_rest (offset : Nat) (cs : List Char) :
    (Cursor.skipBlank.go offset cs).rest = pastBlanks cs := by
  fun_induction Cursor.skipBlank.go offset cs <;> simp_all [pastBlanks]

namespace Cursor

theorem skipBlank_rest (cursor : Cursor) : cursor.skipBlank.rest = pastBlanks cursor.rest :=
  skipBlank_go_rest cursor.offset cursor.rest

theorem lexeme_kind (cursor : Cursor) : cursor.lexeme.1.kind = (Lexeme.next cursor.rest).1 := by
  simp [lexeme, token, Lexeme.next, skipBlank_rest]

theorem lexeme_rest (cursor : Cursor) : cursor.lexeme.2.rest = (Lexeme.next cursor.rest).2 := by
  simp [lexeme, token, Lexeme.next, skipBlank_rest, past]

end Cursor

/-- Whether a character may stand between lexemes wherever it is. -/
def isGap (c : Char) : Bool := Token.isSpace c || c == '\n'

theorem pastBlanks_cons {c : Char} (hgap : isGap c = false) (hreturn : c ≠ '\r')
    (cs : List Char) : pastBlanks (c :: cs) = c :: cs := by
  have hspace : c ≠ ' ' := by
    rintro rfl
    exact absurd hgap (by decide)
  have htab : c ≠ '\t' := by
    rintro rfl
    exact absurd hgap (by decide)
  have hline : c ≠ '\n' := by
    rintro rfl
    exact absurd hgap (by decide)
  unfold pastBlanks
  split <;> simp_all

namespace Lexeme

@[simp] theorem next_nil : next [] = (.endOfInput, []) := rfl

@[simp] theorem next_openBrace (cs : List Char) : next ('{' :: cs) = (.openBrace, cs) := rfl

@[simp] theorem next_closeBrace (cs : List Char) : next ('}' :: cs) = (.closeBrace, cs) := rfl

@[simp] theorem next_openBracket (cs : List Char) : next ('[' :: cs) = (.openBracket, cs) := rfl

@[simp] theorem next_closeBracket (cs : List Char) : next (']' :: cs) = (.closeBracket, cs) := rfl

@[simp] theorem next_colon (cs : List Char) : next (':' :: cs) = (.colon, cs) := rfl

@[simp] theorem next_comma (cs : List Char) : next (',' :: cs) = (.comma, cs) := rfl

end Lexeme

end Lookml
