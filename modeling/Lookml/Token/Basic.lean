import Lookml.Text.Quoted
import Lookml.Text.Span
import Lookml.Text.Word
import Lookml.Number.Numeral

/-!
Tokens: the pieces that a text falls into. Every character belongs to one token, and
blanks, comments and text that starts no token have tokens of their own.
-/

namespace Lookml

namespace Token

inductive Kind
  | openBrace
  | closeBrace
  | openBracket
  | closeBracket
  | colon
  | comma
  | word
  | numeral
  | quoted
  | code
  | comment
  | blank
  | newline
  | endOfInput
  | invalid
deriving DecidableEq

/-- What a reader is told about a token that stands in the wrong place. -/
def Kind.describe : Kind → String
  | .openBrace => "'\x7b'"
  | .closeBrace => "'\x7d'"
  | .openBracket => "'['"
  | .closeBracket => "']'"
  | .colon => "':'"
  | .comma => "','"
  | .word => "identifier"
  | .numeral => "number"
  | .quoted => "string"
  | .code => "code block"
  | .comment => "comment"
  | .blank => "whitespace"
  | .newline => "newline"
  | .endOfInput => "end of input"
  | .invalid => "invalid token"

/-- Blanks separate other tokens; comments do not count among them. -/
def Kind.isBlank : Kind → Bool
  | .blank | .newline => true
  | _ => false

structure Piece where
  kind : Kind
  text : List Char
  rest : List Char
deriving DecidableEq

def isSpace (c : Char) : Bool := c == ' ' || c == '\t'

def isLineEnd (c : Char) : Bool := c == '\n' || c == '\r'

/-- The longest run at the front whose characters all belong to a class. -/
def run (kind : Kind) (belongs : Char → Bool) (cs : List Char) : Piece :=
  ⟨kind, cs.takeWhile belongs, cs.dropWhile belongs⟩

/-- A numeral; one that runs into a word is invalid together with that word. -/
def numeral (cs : List Char) : Piece :=
  let (numeral, rest) := Numeral.split cs
  if (rest.takeWhile isWordPart).isEmpty then ⟨.numeral, numeral.text, rest⟩
  else ⟨.invalid, numeral.text ++ rest.takeWhile isWordPart, rest.dropWhile isWordPart⟩

/-- A quoted text, from behind its opening quote; without a closing one all that follows
is invalid. -/
def quoted (cs : List Char) : Piece :=
  match Quoted.split cs with
  | (text, some rest) => ⟨.quoted, '"' :: text, rest⟩
  | (text, none) => ⟨.invalid, '"' :: text, []⟩

/-- A numeral starts with a digit, or with a minus sign or a point and a digit. -/
def startsNumeral : List Char → Bool
  | [] => false
  | c :: cs =>
      c.isDigit || ((c == '-' || c == '.') && (cs.head?.map Char.isDigit).getD false)

/-- The brackets and separators, one character each. -/
def kindOfMark? : Char → Option Kind
  | '{' => some .openBrace
  | '}' => some .closeBrace
  | '[' => some .openBracket
  | ']' => some .closeBracket
  | ':' => some .colon
  | ',' => some .comma
  | '\n' => some .newline
  | _ => none

def cut : List Char → Piece
  | [] => ⟨.endOfInput, [], []⟩
  | '\r' :: '\n' :: cs => ⟨.newline, ['\r', '\n'], cs⟩
  | '"' :: cs => quoted cs
  | c :: cs =>
      match kindOfMark? c with
      | some kind => ⟨kind, [c], cs⟩
      | none =>
          if c == '#' then run .comment (fun d => !isLineEnd d) (c :: cs)
          else if isSpace c then run .blank isSpace (c :: cs)
          else if isWordStart c then run .word isWordPart (c :: cs)
          else if startsNumeral (c :: cs) then numeral (c :: cs)
          else ⟨.invalid, [c], cs⟩

/-- The text before the first `;;` and the text behind it. -/
def splitCode : List Char → Option (List Char × List Char)
  | [] => none
  | ';' :: ';' :: cs => some ([], cs)
  | c :: cs => (splitCode cs).map fun (text, rest) => (c :: text, rest)

end Token

structure Token where
  kind : Token.Kind
  span : Span
  text : List Char
deriving DecidableEq

/-! The pieces of a text lose nothing, and all but the last are not empty. -/

namespace Token

theorem run_append (kind : Kind) (belongs : Char → Bool) (cs : List Char) :
    (run kind belongs cs).text ++ (run kind belongs cs).rest = cs :=
  List.takeWhile_append_dropWhile

theorem numeral_append (cs : List Char) :
    (numeral cs).text ++ (numeral cs).rest = cs := by
  have h := Numeral.split_append cs
  simp only [numeral]
  split
  · exact h
  · rw [List.append_assoc, List.takeWhile_append_dropWhile, h]

theorem quoted_append (cs : List Char) :
    (quoted cs).text ++ (quoted cs).rest = '"' :: cs := by
  have h := Quoted.split_append cs
  unfold quoted
  split <;> rename_i heq <;> rw [heq] at h <;> simpa using h

theorem cut_append (cs : List Char) : (cut cs).text ++ (cut cs).rest = cs := by
  unfold cut
  split
  · rfl
  · rfl
  · exact quoted_append _
  · split
    · rfl
    · split
      · exact run_append ..
      · split
        · exact run_append ..
        · split
          · exact run_append ..
          · split
            · exact numeral_append _
            · rfl

theorem splitCode_append {cs text rest : List Char}
    (h : splitCode cs = some (text, rest)) : text ++ ';' :: ';' :: rest = cs := by
  fun_induction splitCode cs generalizing text with
  | case1 => cases h
  | case2 cs =>
      obtain ⟨rfl, rfl⟩ := Prod.mk.inj (Option.some.inj h)
      rfl
  | case3 c cs hne ih =>
      obtain ⟨⟨text', rest'⟩, hsplit, heq⟩ := Option.map_eq_some_iff.mp h
      obtain ⟨rfl, rfl⟩ := Prod.mk.inj heq
      rw [List.cons_append, ih hsplit]

private theorem split_text_ne_nil {cs : List Char} (h : startsNumeral cs = true) :
    (Numeral.split cs).1.text ≠ [] := by
  intro hnil
  obtain ⟨hsign, hwhole, hfraction⟩ := Numeral.split_text_eq_nil hnil
  match cs, h with
  | c :: cs, h =>
      by_cases hminus : c = '-'
      · subst hminus
        simp [Numeral.splitSign] at hsign
      · have hbody : Numeral.splitSign (c :: cs) = (false, c :: cs) := by
          unfold Numeral.splitSign
          split
          · simp_all
          · rfl
        rw [hbody] at hwhole hfraction
        by_cases hdigit : c.isDigit = true
        · simp [hdigit] at hwhole
        · simp only [List.dropWhile_cons, hdigit] at hfraction
          match cs with
          | [] => simp [startsNumeral, hdigit] at h
          | d :: cs =>
              simp only [startsNumeral, hdigit, Bool.false_or, Bool.and_eq_true,
                Bool.or_eq_true, beq_iff_eq, List.head?_cons, Option.map_some,
                Option.getD_some, hminus, false_or] at h
              obtain ⟨rfl, hd⟩ := h
              simp [Numeral.splitFraction, hd] at hfraction

theorem numeral_text_ne_nil {cs : List Char} (h : startsNumeral cs = true) :
    (numeral cs).text ≠ [] := by
  simp only [numeral]
  split
  · exact split_text_ne_nil h
  · simp [split_text_ne_nil h]

private theorem run_text_ne_nil {kind : Kind} {belongs : Char → Bool} {c : Char}
    {cs : List Char} (h : belongs c = true) :
    (run kind belongs (c :: cs)).text ≠ [] := by
  simp [run, h]

theorem cut_text_ne_nil {cs : List Char} (h : cs ≠ []) : (cut cs).text ≠ [] := by
  unfold cut
  split
  · exact absurd rfl h
  · simp
  · unfold quoted
    split <;> simp
  · split
    · simp
    · split
      · rename_i hhash
        exact run_text_ne_nil (by simp_all [isLineEnd])
      · split
        · rename_i hspace
          exact run_text_ne_nil hspace
        · split
          · rename_i hword
            exact run_text_ne_nil (isWordPart_of_isWordStart hword)
          · split
            · rename_i hnumeral
              exact numeral_text_ne_nil hnumeral
            · simp

theorem cut_rest_length_lt {cs : List Char} (h : cs ≠ []) :
    (cut cs).rest.length < cs.length := by
  have happend := congrArg List.length (cut_append cs)
  have hpos := List.length_pos_iff.mpr (cut_text_ne_nil h)
  rw [List.length_append] at happend
  omega

end Token

end Lookml
