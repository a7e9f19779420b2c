import Lookml.Token.Basic

/-!
A cursor stands between the text already read and the rest. Reading a token moves it over
that token; a code block is read only on request, since nothing marks its start.
-/

namespace Lookml

structure Cursor where
  offset : Nat
  rest : List Char
deriving DecidableEq

namespace Cursor

def ofText (source : List Char) : Cursor := ⟨0, source⟩

def atEnd (cursor : Cursor) : Bool := cursor.rest.isEmpty

def past (cursor : Cursor) (text rest : List Char) : Cursor :=
  ⟨cursor.offset + byteLength text, rest⟩

def spanTo (cursor later : Cursor) : Span := ⟨cursor.offset, later.offset⟩

/-- The next token; at the end of the text an empty one, however often it is asked for. -/
def token (cursor : Cursor) : Token × Cursor :=
  let piece := Token.cut cursor.rest
  let next := cursor.past piece.text piece.rest
  (⟨piece.kind, cursor.spanTo next, piece.text⟩, next)

/-- The text up to the next `;;`, which is passed over. Without one the rest of the text
is invalid. -/
def code (cursor : Cursor) : Token × Cursor :=
  match Token.splitCode cursor.rest with
  | some (text, rest) =>
      (⟨.code, cursor.spanTo (cursor.past text rest), text⟩, cursor.past (text ++ [';', ';']) rest)
  | none =>
      let next := cursor.past cursor.rest []
      (⟨.invalid, cursor.spanTo next, cursor.rest⟩, next)

@[simp] theorem token_rest (cursor : Cursor) :
    cursor.token.2.rest = (Token.cut cursor.rest).rest := rfl

theorem token_text_append (cursor : Cursor) :
    cursor.token.1.text ++ cursor.token.2.rest = cursor.rest :=
  Token.cut_append cursor.rest

theorem token_rest_length_lt {cursor : Cursor} (h : cursor.rest ≠ []) :
    cursor.token.2.rest.length < cursor.rest.length :=
  Token.cut_rest_length_lt h

def tokens (cursor : Cursor) : List Token :=
  if _h : cursor.rest = [] then []
  else cursor.token.1 :: cursor.token.2.tokens
termination_by cursor.rest.length
decreasing_by exact token_rest_length_lt _h

theorem tokens_of_rest_eq_nil {cursor : Cursor} (h : cursor.rest = []) : cursor.tokens = [] := by
  rw [tokens, dif_pos h]

theorem tokens_of_rest_ne_nil {cursor : Cursor} (h : cursor.rest ≠ []) :
    cursor.tokens = cursor.token.1 :: cursor.token.2.tokens := by
  rw [tokens, dif_neg h]

/-- The cursor at the next character that is neither a space or a tab nor part of a line
end. -/
def skipBlank (cursor : Cursor) : Cursor :=
  go cursor.offset cursor.rest
where
  go (offset : Nat) : List Char → Cursor
    | ' ' :: cs | '\t' :: cs | '\n' :: cs => go (offset + 1) cs
    | '\r' :: '\n' :: cs => go (offset + 2) cs
    | cs => ⟨offset, cs⟩

private theorem skipBlank_go_length_le (offset : Nat) (cs : List Char) :
    (skipBlank.go offset cs).rest.length ≤ cs.length := by
  fun_induction skipBlank.go offset cs <;> simp_all <;> omega

theorem skipBlank_length_le (cursor : Cursor) :
    cursor.skipBlank.rest.length ≤ cursor.rest.length :=
  skipBlank_go_length_le cursor.offset cursor.rest

end Cursor

def tokensOf (source : List Char) : List Token := (Cursor.ofText source).tokens

end Lookml
