import Lookml.Proofs.Lexeme.Next
import Lookml.Proofs.Token.Spelling

/-!
How lexemes are spelled. Each spelling is read as the lexeme that it spells, whatever
stands behind it that cannot go on it; and whatever is read as a word or a comment was
spelled as one.
-/

namespace Lookml

namespace Token

private theorem starts_of_isWordPart {c : Char} (h : isWordPart c = true) :
    isGap c = false ∧ c ≠ '\r' := by
  constructor
  · simp only [isGap, isSpace, Bool.or_eq_false_iff, beq_eq_false_iff_ne]
    refine ⟨⟨?_, ?_⟩, ?_⟩ <;> rintro rfl <;> exact absurd h (by decide)
  · rintro rfl
    exact absurd h (by decide)

/-- A spelling that is no blank starts with a character that none starts with. -/
theorem Spells.exists_head {kind : Kind} {text : List Char} (h : Spells kind text)
    (hblank : kind.isBlank = false) : ∃ c cs, text = c :: cs ∧ isGap c = false ∧ c ≠ '\r' := by
  cases h with
  | mark hmark =>
      refine ⟨_, _, rfl, ?_⟩
      unfold kindOfMark? at hmark
      split at hmark <;> cases hmark <;> first | decide | exact absurd hblank (by decide)
  | lineEnd => cases hblank
  | quoted => exact ⟨_, _, rfl, by decide⟩
  | comment => exact ⟨_, _, rfl, by decide⟩
  | blank => cases hblank
  | word hword =>
      obtain ⟨c, cs, rfl⟩ : ∃ c cs, text = c :: cs := by
        cases text with
        | nil => cases hword
        | cons c cs => exact ⟨c, cs, rfl⟩
      exact ⟨c, cs, rfl, starts_of_isWordPart (isWordPart_of_mem hword c List.mem_cons_self)⟩
  | numeral hliteral =>
      obtain ⟨c, cs, hc, hfront | hfront | hfront⟩ := exists_front hliteral
      · exact ⟨_, _, hfront, starts_of_isWordPart (isWordPart_of_isDigit hc)⟩
      · exact ⟨_, _, hfront, by decide⟩
      · exact ⟨_, _, hfront, by decide⟩

end Token

namespace Lexeme

theorem next_of_spells {kind : Token.Kind} {text rest : List Char} (h : Token.Spells kind text)
    (hblank : kind.isBlank = false) (hrest : kind.EndsBefore rest) :
    next (text ++ rest) = (ofToken kind text, rest) := by
  have hpast : pastBlanks (text ++ rest) = text ++ rest := by
    obtain ⟨c, cs, rfl, hgap, hreturn⟩ := h.exists_head hblank
    exact pastBlanks_cons hgap hreturn _
  rw [next, hpast, h.cut hrest]

theorem next_word {word rest : List Char} (h : isWord word = true) (hrest : IsBreak rest) :
    next (word ++ rest) = (.word (String.ofList word), rest) :=
  next_of_spells (.word h) rfl hrest

theorem next_quoted (text rest : List Char) :
    next ('"' :: (Quoted.encode text ++ '"' :: rest)) = (.quoted (String.ofList text), rest) := by
  have hspells : Token.Spells .quoted ('"' :: (Quoted.encode text ++ ['"'])) :=
    .quoted (Quoted.split_encode text [])
  have hrest : Token.Kind.EndsBefore .quoted rest := trivial
  have hnext := next_of_spells hspells rfl hrest
  simpa [ofToken, resolve, Quoted.decode_encode] using hnext

theorem next_comment {text rest : List Char} (h : IsLine text) (hrest : EndsLine rest) :
    next ('#' :: (text ++ rest)) = (.comment (String.ofList text), rest) :=
  next_of_spells (.comment h) rfl hrest

theorem next_numeral {decimal : Numeral} (h : decimal.IsLiteral) {rest : List Char}
    (hrest : IsBreak rest) : next (decimal.text ++ rest) = (.number decimal.number, rest) := by
  rw [next_of_spells (.numeral h) rfl hrest, ← Numeral.ofText_text h]
  rfl

/-! What is read as a word or a comment was spelled as one, and no numeral spells a
NaN. -/

def Kind.Spelled : Kind → Prop
  | .word text => isWord text.toList = true
  | .comment text => IsLine text.toList
  | .number value => value ≠ .nan
  | _ => True

private theorem ofToken_spelled {kind : Token.Kind} {text : List Char}
    (h : Token.Spells kind text) : (ofToken kind text).Spelled := by
  cases h with
  | mark hmark =>
      unfold Token.kindOfMark? at hmark
      split at hmark <;> cases hmark <;> trivial
  | lineEnd => trivial
  | quoted =>
      simp only [ofToken, resolve]
      split <;> trivial
  | comment hline => simpa [ofToken, Kind.Spelled] using hline
  | blank => trivial
  | word hword => simpa [ofToken, Kind.Spelled] using hword
  | numeral => exact Numeral.number_ne_nan _

theorem next_spelled (cs : List Char) : (next cs).1.Spelled := by
  simp only [next]
  by_cases hinvalid : (Token.cut (pastBlanks cs)).kind = .invalid
  · rw [hinvalid]
    trivial
  · by_cases hend : (Token.cut (pastBlanks cs)).kind = .endOfInput
    · rw [hend]
      trivial
    · exact ofToken_spelled (Token.cut_spells hinvalid hend).1

end Lexeme

end Lookml
