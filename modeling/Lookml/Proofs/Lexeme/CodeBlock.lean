import Lookml.Lexeme

/-!
Code blocks: a text without blanks at its ends and without `;;` inside is read back from
between a colon and the next `;;`, and whatever is read there is such a text.
-/

namespace Lookml

/-- A text that can stand as code: no blanks at its ends, and nothing in it that ends
code. -/
def IsCode (text : List Char) : Prop :=
  trimBlank text = text ∧ ¬[';', ';'] <:+: text

namespace Token

theorem splitCode_eq_none {cs : List Char} : splitCode cs = none ↔ ¬[';', ';'] <:+: cs := by
  fun_induction splitCode cs with
  | case1 => simp
  | case2 cs =>
      simp only [reduceCtorEq, false_iff, Classical.not_not]
      exact ⟨[], cs, rfl⟩
  | case3 c cs hne ih =>
      rw [Option.map_eq_none_iff, ih]
      apply not_congr
      rw [List.infix_cons_iff]
      constructor
      · exact .inr
      · rintro (⟨back, hback⟩ | h)
        · obtain ⟨rfl, hcs⟩ := List.cons.inj hback
          exact absurd hcs.symm (hne back rfl)
        · exact h

theorem splitCode_text_eq_none {cs text rest : List Char}
    (h : splitCode cs = some (text, rest)) : splitCode text = none := by
  fun_induction splitCode cs generalizing text with
  | case1 => cases h
  | case2 cs =>
      obtain ⟨rfl, -⟩ := Prod.mk.inj (Option.some.inj h)
      rfl
  | case3 c cs hne ih =>
      obtain ⟨⟨text', rest'⟩, hsplit, heq⟩ := Option.map_eq_some_iff.mp h
      obtain ⟨rfl, rfl⟩ := Prod.mk.inj heq
      have happend := splitCode_append hsplit
      rw [splitCode, ih hsplit]
      · rfl
      · rintro back rfl hback
        rw [hback] at happend
        exact hne _ rfl happend.symm

/-- What stands behind the `;;` does not matter to what is in front. -/
theorem splitCode_exchange {cs text rest : List Char} (h : splitCode cs = some (text, rest))
    (rest' : List Char) : splitCode (text ++ ';' :: ';' :: rest') = some (text, rest') := by
  fun_induction splitCode cs generalizing text with
  | case1 => cases h
  | case2 cs =>
      obtain ⟨rfl, -⟩ := Prod.mk.inj (Option.some.inj h)
      rfl
  | case3 c cs hne ih =>
      obtain ⟨⟨front, back⟩, hsplit, heq⟩ := Option.map_eq_some_iff.mp h
      obtain ⟨rfl, rfl⟩ := Prod.mk.inj heq
      rw [List.cons_append, splitCode, ih hsplit]
      · rfl
      · intro later hc hlater
        rw [← splitCode_append hsplit] at hne
        cases front with
        | nil => exact hne _ hc rfl
        | cons d ds => exact hne _ hc (by rw [List.cons_append, (List.cons.inj hlater).1])

/-- A blank keeps the end of a text apart from the `;;` behind it. -/
theorem splitCode_append_mark {text : List Char} (h : splitCode text = none) (rest : List Char) :
    splitCode (text ++ ' ' :: ';' :: ';' :: rest) = some (text ++ [' '], rest) := by
  fun_induction splitCode text with
  | case1 => simp [splitCode]
  | case2 cs => cases h
  | case3 c cs hne ih =>
      have ih := ih (Option.map_eq_none_iff.mp h)
      rw [List.cons_append, splitCode, ih]
      · rfl
      · intro back hc hback
        cases cs with
        | nil => cases hback
        | cons d ds => exact hne ds hc (by rw [(List.cons.inj hback).1])

end Token

theorem trimBlank_cons {c : Char} (h : isBlank c = true) (cs : List Char) :
    trimBlank (c :: cs) = trimBlank cs := by
  rw [trimBlank, List.dropWhile_cons_of_pos h, trimBlank]

theorem trimBlank_concat {c : Char} (h : isBlank c = true) (cs : List Char) :
    trimBlank (cs ++ [c]) = trimBlank cs := by
  induction cs with
  | nil => simp [trimBlank, h]
  | cons d cs ih =>
      cases hd : isBlank d with
      | true => rw [List.cons_append, trimBlank_cons hd, ih, trimBlank_cons hd]
      | false =>
          rw [List.cons_append, trimBlank, trimBlank, List.dropWhile_cons_of_neg (by simp [hd]),
            List.dropWhile_cons_of_neg (by simp [hd]), ← List.cons_append, List.reverse_append,
            List.reverse_singleton, List.singleton_append, List.dropWhile_cons_of_pos h]

private theorem dropWhile_dropWhile (p : Char → Bool) (cs : List Char) :
    (cs.dropWhile p).dropWhile p = cs.dropWhile p := by
  induction cs with
  | nil => rfl
  | cons c cs ih =>
      cases hc : p c with
      | true => rw [List.dropWhile_cons_of_pos hc, ih]
      | false =>
          have hneg : ¬p c = true := by simp [hc]
          rw [List.dropWhile_cons_of_neg hneg, List.dropWhile_cons_of_neg hneg]

private theorem dropWhile_of_prefix {p : Char → Bool} {front cs : List Char}
    (hfront : front <+: cs) (h : cs.dropWhile p = cs) : front.dropWhile p = front := by
  obtain ⟨back, rfl⟩ := hfront
  cases front with
  | nil => rfl
  | cons c front =>
      cases hc : p c with
      | false => exact List.dropWhile_cons_of_neg (by simp [hc])
      | true =>
          have hlength := congrArg List.length h
          have hle := (List.dropWhile_suffix p (l := front ++ back)).length_le
          rw [List.cons_append, List.dropWhile_cons_of_pos hc, List.length_cons] at hlength
          omega

private theorem trimBlank_before (cs : List Char) : trimBlank cs <+: cs.dropWhile isBlank := by
  rw [← List.reverse_suffix, trimBlank, List.reverse_reverse]
  exact List.dropWhile_suffix isBlank

theorem trimBlank_within (cs : List Char) : trimBlank cs <:+: cs :=
  (trimBlank_before cs).isInfix.trans (List.dropWhile_suffix isBlank).isInfix

theorem trimBlank_trimBlank (cs : List Char) : trimBlank (trimBlank cs) = trimBlank cs := by
  have hfront := dropWhile_of_prefix (trimBlank_before cs) (dropWhile_dropWhile isBlank cs)
  have hback := dropWhile_dropWhile isBlank (cs.dropWhile isBlank).reverse
  rw [trimBlank, hfront]
  conv => lhs; rw [trimBlank, List.reverse_reverse, hback]
  rfl

theorem isCode_trimBlank {cs text rest : List Char}
    (h : Token.splitCode cs = some (text, rest)) : IsCode (trimBlank text) := by
  refine ⟨trimBlank_trimBlank text, fun hmark => ?_⟩
  exact Token.splitCode_eq_none.mp (Token.splitCode_text_eq_none h)
    (hmark.trans (trimBlank_within text))

namespace Cursor

theorem codeBlock_of_splitCode {cursor : Cursor} {text rest : List Char}
    (h : Token.splitCode cursor.rest = some (text, rest)) :
    ∃ span next, cursor.codeBlock = .ok (String.ofList (trimBlank text), span, next) ∧
      next.rest = rest := by
  simp only [codeBlock, code, h, if_true]
  exact ⟨_, _, rfl, rfl⟩

theorem splitCode_of_codeBlock {cursor next : Cursor} {text : String} {span : Span}
    (h : cursor.codeBlock = .ok (text, span, next)) :
    ∃ front, Token.splitCode cursor.rest = some (front, next.rest) ∧
      text = String.ofList (trimBlank front) := by
  unfold codeBlock at h
  cases hcode : Token.splitCode cursor.rest with
  | none => simp [code, hcode] at h
  | some found =>
      obtain ⟨front, back⟩ := found
      simp only [code, hcode, if_true, Except.ok.injEq, Prod.mk.injEq] at h
      obtain ⟨rfl, -, rfl⟩ := h
      exact ⟨front, rfl, rfl⟩

/-- A block of code that does not end is at fault to the end of the text. -/
theorem codeBlock_failed {cursor : Cursor} {error : SyntaxError}
    (h : cursor.codeBlock = .error error) :
    error = ⟨.unterminatedCode, cursor.offset, cursor.offset + byteLength cursor.rest⟩ := by
  unfold codeBlock at h
  cases hsplit : Token.splitCode cursor.rest with
  | some found => simp [code, hsplit] at h
  | none =>
      simp only [code, hsplit, reduceCtorEq, if_false, Except.error.injEq] at h
      exact h.symm

end Cursor

end Lookml
