import Lookml.Layout
import Lookml.Proofs.Number.Reread

/-!
Quoted texts are read as what they were written for, whatever stands behind them.
Different texts are written differently, and a text in which nothing needs an escape
stands between its quotes as it is.
-/

namespace Lookml

namespace Quoted

theorem encode_injective : Function.Injective encode := by
  intro text text' h
  have hmeant := congrArg decode h
  rw [decode_encode, decode_encode] at hmeant
  exact Except.ok.inj hmeant

theorem length_le_length_encode (text : List Char) : text.length ≤ (encode text).length := by
  induction text with
  | nil => exact Nat.le_refl 0
  | cons c cs ih =>
      simp only [encode]
      split <;> simp only [List.length_cons] <;> omega

/-- Each escape makes the text longer, so only one without any is written as it is. -/
theorem encode_eq_self_iff {text : List Char} :
    encode text = text ↔ ∀ c ∈ text, escapeOf? c = none := by
  induction text with
  | nil => simp [encode]
  | cons c cs ih =>
      rw [List.forall_mem_cons, ← ih, encode]
      cases h : escapeOf? c with
      | none => simp
      | some e =>
          have hle := length_le_length_encode cs
          simp only [reduceCtorEq, false_and, iff_false]
          intro heq
          have hlength := congrArg List.length heq
          simp only [List.length_cons] at hlength
          omega

end Quoted

namespace Layout

theorem toList_quote (text : String) :
    (quote text).toList = '"' :: (Quoted.encode text.toList ++ ['"']) :=
  String.toList_ofList

theorem spells_quote (text : String) : Token.Spells .quoted (quote text).toList := by
  rw [toList_quote]
  exact .quoted (Quoted.split_encode text.toList [])

theorem resolve_quote (text : String) : Lexeme.resolve (quote text).toList = .quoted text := by
  simp [toList_quote, Lexeme.resolve, Quoted.decode_encode]

/-- Reading undoes quoting: a text between its quotes is one token and one lexeme in front
of anything, no two texts are written alike, and what any quoted token of a source stands
for is read again as it is written. -/
theorem quote_undone :
    (∀ (text : String) (offset : Nat) (rest : List Char),
      let span : Span := ⟨offset, offset + byteLength (quote text).toList⟩
      (⟨offset, (quote text).toList ++ rest⟩ : Cursor).token =
          (⟨.quoted, span, (quote text).toList⟩, ⟨span.stop, rest⟩) ∧
        (⟨offset, (quote text).toList ++ rest⟩ : Cursor).lexeme =
          (⟨.quoted text, span⟩, ⟨span.stop, rest⟩)) ∧
    Function.Injective Quoted.encode ∧
    (∀ text : List Char, Quoted.encode text = text ↔ ∀ c ∈ text, Quoted.escapeOf? c = none) ∧
    ∀ (source : List Char) (requests : List Request),
      ∀ token ∈ (Cursor.ofText source).served requests, token.kind = .quoted →
        ∀ meant, Lexeme.ofToken token.kind token.text = .quoted meant →
          lexemesOf (quote meant).toList =
            [⟨Lexeme.ofToken token.kind token.text, ⟨0, byteLength (quote meant).toList⟩⟩] := by
  refine ⟨fun text offset rest => ⟨?_, ?_⟩, Quoted.encode_injective,
    fun _ => Quoted.encode_eq_self_iff, fun source requests token _ _ meant hmeant => ?_⟩
  · rw [Cursor.token, (spells_quote text).cut trivial]
    rfl
  · have hlexeme := Cursor.lexeme_of_spells .nil (spells_quote text) rfl
      (show Token.Kind.EndsBefore .quoted rest from trivial) offset
    simp only [List.nil_append, byteLength_nil, Nat.add_zero] at hlexeme
    rw [hlexeme, Lexeme.ofToken, resolve_quote]
  · have hkind : Lexeme.ofToken .quoted (quote meant).toList = .quoted meant := resolve_quote meant
    rw [lexemesOf_spelled (spells_quote meant) rfl trivial (by rw [hkind]; simp), hkind, hmeant]

/-- A tab that is escaped and one that is not: both are escaped when they are written
again. -/
theorem quote_undone_tabs :
    (∃ token ∈ (Cursor.ofText "x:\"\\t\t\"# y".toList).served [.token, .token, .token],
      token.kind = .quoted ∧ Lexeme.ofToken token.kind token.text = .quoted "\t\t") ∧
    lexemesOf "\"\\t\\t\"".toList = [⟨.quoted "\t\t", ⟨0, 6⟩⟩] := by
  have hserved : (⟨.quoted, ⟨2, 7⟩, "\"\\t\t\"".toList⟩ : Token) ∈
      (Cursor.ofText "x:\"\\t\t\"# y".toList).served [.token, .token, .token] := by
    decide +kernel
  have hmeant : Lexeme.ofToken .quoted "\"\\t\t\"".toList = .quoted "\t\t" := by decide +kernel
  refine ⟨⟨_, hserved, rfl, hmeant⟩, ?_⟩
  have hlexemes := quote_undone.2.2.2 _ _ _ hserved rfl "\t\t" hmeant
  rwa [hmeant] at hlexemes

end Layout

end Lookml
