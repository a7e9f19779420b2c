import Lookml.Number.Shortest
import Lookml.Text.Word

/-!
Numerals as they are read from a text: digits before or behind a point, and an exponent or
none. The text of one is taken whole, and whatever follows it makes no difference as long
as it cannot go on a word. Decimal numerals are those without an exponent.
-/

namespace Lookml

/-- Text before which a word or a numeral ends. -/
def IsBreak (rest : List Char) : Prop :=
  ∀ c, rest.head? = some c → isWordPart c = false

theorem isBreak_nil : IsBreak [] := by
  intro c h
  cases h

theorem isBreak_cons {c : Char} {cs : List Char} (h : isWordPart c = false) :
    IsBreak (c :: cs) := by
  intro d hd
  obtain rfl := Option.some.inj hd
  exact h

/-- A run of one class of characters ends where the text behind it does not start with
another one. -/
theorem takeWhile_append_of_head {p : Char → Bool} {front rest : List Char}
    (hfront : ∀ c ∈ front, p c = true)
    (hrest : ∀ c, rest.head? = some c → p c = false) :
    (front ++ rest).takeWhile p = front ∧ (front ++ rest).dropWhile p = rest := by
  rw [List.takeWhile_append_of_pos hfront, List.dropWhile_append_of_pos hfront]
  cases rest with
  | nil => simp
  | cons c cs => simp [hrest c rfl]

theorem isWordPart_of_isDigit {c : Char} (h : c.isDigit = true) : isWordPart c = true := by
  simp [isWordPart, Char.isAlphanum, h]

theorem IsBreak.not_isDigit {rest : List Char} (h : IsBreak rest) (c : Char)
    (hc : rest.head? = some c) : c.isDigit = false := by
  cases hdigit : c.isDigit with
  | false => rfl
  | true => exact absurd (h c hc) (by simp [isWordPart_of_isDigit hdigit])

private theorem isDigit_of_mem_takeWhile {cs : List Char} :
    ∀ c ∈ cs.takeWhile Char.isDigit, c.isDigit = true :=
  List.all_eq_true.mp List.all_takeWhile

namespace Exponent

structure IsLiteral (exponent : Exponent) : Prop where
  mark : exponent.mark = 'e' ∨ exponent.mark = 'E'
  sign : ∀ c ∈ exponent.sign, c = '+' ∨ c = '-'
  digits_ne_nil : exponent.digits ≠ []
  digits : ∀ c ∈ exponent.digits, c.isDigit = true

theorem split?_of_isBreak {rest : List Char} (h : IsBreak rest) : split? rest = none := by
  cases rest with
  | nil => rfl
  | cons c cs =>
      have hc := h c rfl
      have hne : (c == 'e' || c == 'E') = false := by
        rw [Bool.or_eq_false_iff, beq_eq_false_iff_ne, beq_eq_false_iff_ne]
        constructor <;> rintro rfl <;> exact absurd hc (by decide)
      simp [split?, hne]

/-- Digits that follow an exponent go on it. -/
theorem split?_text_append {exponent : Exponent} (h : exponent.IsLiteral) (rest : List Char) :
    split? (exponent.text ++ rest) =
      some (⟨exponent.mark, exponent.sign, (exponent.digits ++ rest).takeWhile Char.isDigit⟩,
        (exponent.digits ++ rest).dropWhile Char.isDigit) := by
  obtain ⟨mark, sign, digits⟩ := exponent
  obtain ⟨hmark, hsign, hne, hdigits⟩ := h
  simp only at hmark hsign hne hdigits
  obtain ⟨c, cs, rfl⟩ := List.exists_cons_of_ne_nil hne
  have hc : c.isDigit = true := hdigits c List.mem_cons_self
  have hmark : (mark == 'e' || mark == 'E') = true := by
    rcases hmark with rfl | rfl <;> rfl
  cases sign with
  | none =>
      have hplus : c ≠ '+' := by
        rintro rfl
        exact absurd hc (by decide)
      have hminus : c ≠ '-' := by
        rintro rfl
        exact absurd hc (by decide)
      simp [text, split?, hmark, hc, hplus, hminus]
  | some sign => rcases hsign sign rfl with rfl | rfl <;> simp [text, split?, hmark, hc]

theorem split?_text {exponent : Exponent} (h : exponent.IsLiteral) {rest : List Char}
    (hrest : IsBreak rest) : split? (exponent.text ++ rest) = some (exponent, rest) := by
  obtain ⟨htake, hdrop⟩ := takeWhile_append_of_head h.digits hrest.not_isDigit
  rw [split?_text_append h, htake, hdrop]

theorem isLiteral_of_split? {cs rest : List Char} {exponent : Exponent}
    (h : split? cs = some (exponent, rest)) : exponent.IsLiteral := by
  unfold split? at h
  split at h
  · rename_i mark cs
    split at h
    · rename_i hmark
      split at h
      rename_i sign after hsign
      split at h
      · rename_i c cs'
        split at h
        · rename_i hdigit
          obtain ⟨rfl, -⟩ := Prod.mk.inj (Option.some.inj h)
          refine ⟨by simpa using hmark, ?_, by simp [hdigit], isDigit_of_mem_takeWhile⟩
          split at hsign <;> obtain ⟨rfl, -⟩ := Prod.mk.inj hsign <;> simp
        · cases h
      · cases h
    · cases h
  · cases h

end Exponent

namespace Numeral

theorem number_ne_nan (numeral : Numeral) : numeral.number ≠ .nan := by
  unfold number scaled Number.ofRatio Number.ofRank
  repeat' split
  all_goals exact Number.noConfusion

/-- A numeral with a digit right behind the sign, or a point and a digit without a
sign. -/
structure IsLiteral (numeral : Numeral) : Prop where
  ne_nil : numeral.whole ≠ [] ∨ numeral.negative = false ∧ numeral.fraction ≠ []
  whole : ∀ c ∈ numeral.whole, c.isDigit = true
  fraction : ∀ c ∈ numeral.fraction, c.isDigit = true
  exponent : ∀ exponent ∈ numeral.exponent, exponent.IsLiteral

structure IsDecimal (numeral : Numeral) : Prop where
  whole_ne_nil : numeral.whole ≠ []
  whole_digits : ∀ c ∈ numeral.whole, c.isDigit = true
  fraction_digits : ∀ c ∈ numeral.fraction, c.isDigit = true
  exponent_none : numeral.exponent = none

theorem IsDecimal.isLiteral {numeral : Numeral} (h : numeral.IsDecimal) : numeral.IsLiteral where
  ne_nil := .inl h.whole_ne_nil
  whole := h.whole_digits
  fraction := h.fraction_digits
  exponent := by simp [h.exponent_none]

/-- What follows the digits before a point. -/
def tail (numeral : Numeral) : List Char :=
  (if numeral.fraction.isEmpty then [] else '.' :: numeral.fraction) ++
    (numeral.exponent.map Exponent.text).getD []

theorem text_eq (numeral : Numeral) :
    numeral.text = (if numeral.negative then ['-'] else []) ++ (numeral.whole ++ numeral.tail) := by
  simp only [text, tail, List.append_assoc]

theorem tail_head {numeral : Numeral} (h : numeral.IsLiteral) {rest : List Char}
    (hrest : IsBreak rest) (c : Char) (hc : (numeral.tail ++ rest).head? = some c) :
    c.isDigit = false := by
  obtain ⟨negative, whole, fraction, exponent⟩ := numeral
  cases fraction with
  | cons d ds =>
      obtain rfl := Option.some.inj hc
      rfl
  | nil =>
      cases exponent with
      | none => exact hrest.not_isDigit c hc
      | some exponent =>
          obtain rfl := Option.some.inj hc
          rcases (h.exponent exponent rfl).mark with hmark | hmark <;> rw [hmark] <;> rfl

theorem splitSign_signed {body : List Char} (h : body.head? ≠ some '-') (negative : Bool) :
    splitSign ((if negative then ['-'] else []) ++ body) = (negative, body) := by
  cases negative with
  | true => rfl
  | false =>
      simp only [Bool.false_eq_true, if_false, List.nil_append]
      unfold splitSign
      split
      · exact absurd rfl h
      · rfl

theorem splitFraction_of_digits {fraction rest : List Char}
    (hdigits : ∀ c ∈ fraction, c.isDigit = true)
    (hrest : ∀ c, rest.head? = some c → c.isDigit = false ∧ c ≠ '.') :
    splitFraction ((if fraction.isEmpty then [] else '.' :: fraction) ++ rest) =
      (fraction, rest) := by
  cases fraction with
  | nil =>
      simp only [List.isEmpty_nil, if_true, List.nil_append]
      unfold splitFraction
      split
      · exact absurd rfl (hrest '.' rfl).2
      · rfl
  | cons c cs =>
      have hc := hdigits c List.mem_cons_self
      obtain ⟨htake, hdrop⟩ := takeWhile_append_of_head hdigits fun c hc => (hrest c hc).1
      simp only [List.cons_append] at htake hdrop
      simp only [List.isEmpty_cons, Bool.false_eq_true, if_false, List.cons_append, splitFraction,
        hc, if_true, htake, hdrop]

theorem splitSign_text {numeral : Numeral} (h : numeral.IsLiteral) (rest : List Char) :
    splitSign (numeral.text ++ rest) =
      (numeral.negative, numeral.whole ++ (numeral.tail ++ rest)) := by
  have hsign : (numeral.whole ++ (numeral.tail ++ rest)).head? ≠ some '-' := by
    intro hminus
    cases hwhole : numeral.whole with
    | cons c cs =>
        rw [hwhole] at hminus
        obtain rfl := Option.some.inj hminus
        exact absurd (h.whole '-' (by simp [hwhole])) (by decide)
    | nil =>
        obtain ⟨-, hne⟩ := h.ne_nil.resolve_left (fun hne => hne hwhole)
        simp [hwhole, tail, hne] at hminus
  rw [text_eq, List.append_assoc, List.append_assoc, splitSign_signed hsign]

theorem split_text {numeral : Numeral} (h : numeral.IsLiteral) {rest : List Char}
    (hrest : IsBreak rest) : split (numeral.text ++ rest) = (numeral, rest) := by
  obtain ⟨htake, hdrop⟩ := takeWhile_append_of_head h.whole (tail_head h hrest)
  have hexponent : ∀ c, ((numeral.exponent.map Exponent.text).getD [] ++ rest).head? = some c →
      c.isDigit = false ∧ c ≠ '.' := by
    intro c hc
    cases hexponent : numeral.exponent with
    | none =>
        rw [hexponent] at hc
        refine ⟨hrest.not_isDigit c hc, ?_⟩
        rintro rfl
        exact absurd (hrest '.' hc) (by decide)
    | some exponent =>
        rw [hexponent] at hc
        obtain rfl := Option.some.inj hc
        rcases (h.exponent exponent hexponent).mark with hmark | hmark <;> rw [hmark] <;> decide
  simp only [split, splitSign_text h, htake, hdrop]
  rw [tail, List.append_assoc, splitFraction_of_digits h.fraction hexponent]
  obtain ⟨negative, whole, fraction, exponent⟩ := numeral
  cases exponent with
  | none => simp [Exponent.split?_of_isBreak hrest]
  | some exponent => simp [Exponent.split?_text (h.exponent exponent rfl) hrest]

/-- What is split from a text that starts a numeral is one. -/
theorem isLiteral_split {cs : List Char}
    (hne : (splitSign cs).2.takeWhile Char.isDigit ≠ [] ∨
      (splitSign cs).1 = false ∧
        (splitFraction ((splitSign cs).2.dropWhile Char.isDigit)).1 ≠ []) :
    (split cs).1.IsLiteral := by
  have hfraction : ∀ c ∈ (splitFraction ((splitSign cs).2.dropWhile Char.isDigit)).1,
      c.isDigit = true := by
    unfold splitFraction
    split
    · split
      · exact isDigit_of_mem_takeWhile
      · simp
    · simp
  cases hexponent : Exponent.split?
      (splitFraction ((splitSign cs).2.dropWhile Char.isDigit)).2 with
  | none =>
      simp only [split, hexponent]
      exact ⟨hne, isDigit_of_mem_takeWhile, hfraction, by simp⟩
  | some found =>
      simp only [split, hexponent]
      refine ⟨hne, isDigit_of_mem_takeWhile, hfraction, ?_⟩
      intro exponent hmem
      obtain rfl := Option.some.inj hmem
      exact Exponent.isLiteral_of_split? hexponent

theorem ofText_text {numeral : Numeral} (h : numeral.IsLiteral) :
    Number.ofText numeral.text = numeral.number := by
  have hsplit := split_text h isBreak_nil
  rw [List.append_nil] at hsplit
  rw [Number.ofText, hsplit]

end Numeral

/-! The value of digits. -/

theorem digitsValue_eq_ofDigitChars (digits : List Char) :
    digitsValue digits = Nat.ofDigitChars 10 digits 0 :=
  Nat.ofDigitChars_eq_foldl.symm

theorem digitsValue_toDigits (n : Nat) : digitsValue (Nat.toDigits 10 n) = n := by
  rw [digitsValue_eq_ofDigitChars, Nat.ofDigitChars_ten_toDigits]

theorem digitsValue_append (left right : List Char) :
    digitsValue (left ++ right) = 10 ^ right.length * digitsValue left + digitsValue right := by
  simp only [digitsValue_eq_ofDigitChars, Nat.ofDigitChars_append]
  rw [Nat.ofDigitChars_eq_ofDigitChars_zero]

theorem digitsValue_replicate_zero (count : Nat) :
    digitsValue (List.replicate count '0') = 0 := by
  rw [digitsValue_eq_ofDigitChars, Nat.ofDigitChars_replicate_zero, Nat.mul_zero]

end Lookml
