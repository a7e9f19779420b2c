import Lookml.Proofs.Lexeme.Exchange
import Lookml.Proofs.Number.ReadBack

/-!
Numbers that are written and come back as lexemes. A finite number is one numeral, and
that is an equal number. A numeral may also stand for more than any finite number; what it
is read as is written as a word.
-/

namespace Lookml

namespace Cursor

/-- The lexemes up to the end of the input. -/
def lexemes (cursor : Cursor) : List Lexeme :=
  if _h : cursor.lexeme.1.kind = .endOfInput then []
  else cursor.lexeme.1 :: cursor.lexeme.2.lexemes
termination_by cursor.rest.length
decreasing_by exact lexeme_rest_length_lt _h

theorem lexemes_of_endOfInput {cursor : Cursor} (h : cursor.lexeme.1.kind = .endOfInput) :
    cursor.lexemes = [] := by
  rw [lexemes, dif_pos h]

theorem lexemes_of_ne_endOfInput {cursor : Cursor} (h : cursor.lexeme.1.kind ≠ .endOfInput) :
    cursor.lexemes = cursor.lexeme.1 :: cursor.lexeme.2.lexemes := by
  rw [lexemes, dif_neg h]

theorem lexeme_of_lexemes {cursor : Cursor} {lexeme : Lexeme} {later : List Lexeme}
    (h : cursor.lexemes = lexeme :: later) : cursor.lexeme.1 = lexeme := by
  by_cases hend : cursor.lexeme.1.kind = .endOfInput
  · rw [lexemes_of_endOfInput hend] at h
    cases h
  · rw [lexemes_of_ne_endOfInput hend] at h
    exact (List.cons.inj h).1

end Cursor

def lexemesOf (source : List Char) : List Lexeme := (Cursor.ofText source).lexemes

/-- A text that spells one token is one lexeme. -/
theorem lexemesOf_spelled {kind : Token.Kind} {text : List Char} (h : Token.Spells kind text)
    (hblank : kind.isBlank = false) (hend : kind.EndsBefore [])
    (hkind : Lexeme.ofToken kind text ≠ .endOfInput) :
    lexemesOf text = [⟨Lexeme.ofToken kind text, ⟨0, byteLength text⟩⟩] := by
  have hlexeme := Cursor.lexeme_of_spells .nil h hblank hend 0
  simp only [List.nil_append, List.append_nil, byteLength_nil, Nat.zero_add] at hlexeme
  have hrest : (⟨byteLength text, []⟩ : Cursor).lexemes = [] := Cursor.lexemes_of_endOfInput rfl
  rw [lexemesOf, Cursor.ofText, Cursor.lexemes_of_ne_endOfInput (by rwa [hlexeme]), hlexeme, hrest]

theorem lexemesOf_numeral {numeral : Numeral} (h : numeral.IsLiteral) :
    lexemesOf numeral.text = [⟨.number numeral.number, ⟨0, byteLength numeral.text⟩⟩] := by
  have hlexemes := lexemesOf_spelled (.numeral h) rfl isBreak_nil Lexeme.Kind.noConfusion
  rwa [Lexeme.ofToken, Numeral.ofText_text h] at hlexemes

theorem lexemesOf_word {word : List Char} (h : isWord word = true) :
    lexemesOf word = [⟨.word (String.ofList word), ⟨0, byteLength word⟩⟩] :=
  lexemesOf_spelled (.word h) rfl isBreak_nil Lexeme.Kind.noConfusion

namespace Number

/-- The text of a number is a single lexeme, and that is an equal number. -/
def Rereads (value : Number) : Prop :=
  ∃ reread span, lexemesOf value.text = [⟨.number reread, span⟩] ∧ reread.same value = true

theorem IsFinite.rereads {value : Number} (h : value.IsFinite) : value.Rereads := by
  obtain ⟨numeral, hdecimal, htext, hnumber⟩ := exists_text h
  refine ⟨value.readBack, ⟨0, byteLength numeral.text⟩, ?_, same_readBack h⟩
  rw [htext, lexemesOf_numeral hdecimal.isLiteral, hnumber]

/-- The text of an infinity starts with a word, or with a minus sign that no digit
follows. -/
theorem not_rereads_infinite (negative : Bool) : ¬ (infinite negative).Rereads := by
  rintro ⟨reread, span, hlexemes, -⟩
  have hkind := congrArg Lexeme.kind (Cursor.lexeme_of_lexemes hlexemes)
  rw [Cursor.lexeme_kind] at hkind
  cases negative with
  | false =>
      have hword : (Lexeme.next (infinite false).text).1 = .word "inf" := by decide
      cases hword.symm.trans hkind
  | true =>
      have hminus : (Lexeme.next (infinite true).text).1 = .invalid (.badNumeral "-") := by decide
      cases hminus.symm.trans hkind

/-- A number that is read anywhere in a text is written as one numeral for an equal
number, unless no finite number was great enough for it. -/
theorem rereads_iff_of_read {cursor : Cursor} {value : Number}
    (hread : cursor.lexeme.1.kind = .number value) :
    value.Rereads ↔ ∀ negative, value ≠ .infinite negative := by
  constructor
  · rintro hrereads negative rfl
    exact not_rereads_infinite negative hrereads
  · intro hbounded
    have hspelled := Lexeme.next_spelled cursor.rest
    rw [← Cursor.lexeme_kind, hread] at hspelled
    cases value with
    | nan => exact absurd rfl hspelled
    | infinite negative => exact absurd rfl (hbounded negative)
    | finite negative rank => exact IsFinite.rereads ⟨negative, rank, rfl⟩

theorem rereads_iff_of_read_zero :
    (Cursor.ofText " -0.2e-323".toList).lexeme.1.kind = .number (.finite true ⟨0, by decide⟩) ∧
      (Rereads (.finite true ⟨0, by decide⟩) ↔
        ∀ negative, finite true ⟨0, by decide⟩ ≠ .infinite negative) := by
  have hread : (Cursor.ofText " -0.2e-323".toList).lexeme.1.kind =
      .number (.finite true ⟨0, by decide⟩) := by decide +kernel
  exact ⟨hread, rereads_iff_of_read hread⟩

/-- A numeral can be too great, and then its number is written as a word. -/
theorem not_rereads_of_overflow :
    (Cursor.ofText "1e400".toList).lexeme.1.kind = .number (.infinite false) ∧
      lexemesOf (infinite false).text = [⟨.word "inf", ⟨0, 3⟩⟩] ∧
      ¬ (infinite false).Rereads := by
  have hword : isWord ['i', 'n', 'f'] = true := by decide
  exact ⟨by decide +kernel, lexemesOf_word hword, not_rereads_infinite false⟩

end Number

end Lookml
