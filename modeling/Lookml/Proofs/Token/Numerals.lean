import Lookml.Proofs.Token.Spelling
import Lookml.Token.Cursor

/-!
Numerals among the tokens. The form of a numeral is an optional minus sign, digits,
optionally a point with digits behind it, and optionally an exponent. A token takes it as
far as it goes, and is invalid together with a word that goes on behind it. In one thing
more is taken for a numeral: digits behind a point need no digits in front of it.
-/

namespace Lookml

theorem length_le_length_takeWhile {p : Char → Bool} {front : List Char}
    (hfront : ∀ c ∈ front, p c = true) (back : List Char) :
    front.length ≤ ((front ++ back).takeWhile p).length := by
  rw [List.takeWhile_append_of_pos hfront, List.length_append]
  exact Nat.le_add_right _ _

namespace Numeral

/-! The parts of the numeral at the front of a text. -/

section Parts
variable (cs : List Char)

private theorem split_negative : (split cs).1.negative = (splitSign cs).1 := by
  simp only [split]
  split <;> rfl

private theorem split_whole :
    (split cs).1.whole = (splitSign cs).2.takeWhile Char.isDigit := by
  simp only [split]
  split <;> rfl

private theorem split_fraction :
    (split cs).1.fraction = (splitFraction ((splitSign cs).2.dropWhile Char.isDigit)).1 := by
  simp only [split]
  split <;> rfl

private theorem split_exponent : (split cs).1.exponent =
    (Exponent.split? (splitFraction ((splitSign cs).2.dropWhile Char.isDigit)).2).map
      Prod.fst := by
  simp only [split]
  split <;> rename_i hsplit <;> rw [hsplit] <;> rfl

end Parts

theorem length_text (numeral : Numeral) : numeral.text.length =
    (if numeral.negative then 1 else 0) + (numeral.whole.length + numeral.tail.length) := by
  rw [text_eq, List.length_append, List.length_append]
  split <;> rfl

private theorem length_tail (numeral : Numeral) : numeral.tail.length =
    (if numeral.fraction.isEmpty then 0 else numeral.fraction.length + 1) +
      ((numeral.exponent.map Exponent.text).getD []).length := by
  rw [tail, List.length_append]
  split <;> rfl

/-- The fraction and the exponent that are cut from a text take no less than any there. -/
private theorem length_tail_le_split {numeral : Numeral} (h : numeral.IsLiteral)
    (hne : numeral.tail ≠ []) {cs back : List Char}
    (hafter : (splitSign cs).2.dropWhile Char.isDigit = numeral.tail ++ back) :
    numeral.tail.length ≤ (split cs).1.tail.length := by
  rw [length_tail, length_tail, split_fraction, split_exponent, hafter, tail, List.append_assoc]
  cases hexponent : numeral.exponent with
  | some exponent =>
      have hliteral := h.exponent exponent hexponent
      have hhead : ∀ c, (exponent.text ++ back).head? = some c → c.isDigit = false ∧ c ≠ '.' := by
        intro c hc
        obtain rfl := Option.some.inj hc
        rcases hliteral.mark with hmark | hmark <;> rw [hmark] <;> decide
      have hdigits := length_le_length_takeWhile hliteral.digits back
      rw [Option.map_some, Option.getD_some, splitFraction_of_digits h.fraction hhead,
        Exponent.split?_text_append hliteral]
      simp only [Option.map_some, Option.getD_some, Exponent.text, List.length_cons,
        List.length_append]
      omega
  | none =>
      cases hfraction : numeral.fraction with
      | nil => exact absurd (by simp [tail, hfraction, hexponent]) hne
      | cons c ds =>
          have hc : c.isDigit = true := h.fraction c (by simp [hfraction])
          have hdigits := length_le_length_takeWhile (hfraction ▸ h.fraction) back
          rw [List.cons_append, List.takeWhile_cons_of_pos hc] at hdigits
          simp only [List.isEmpty_cons, Bool.false_eq_true, if_false, Option.map_none,
            Option.getD_none, List.nil_append, List.cons_append, splitFraction, hc, if_true,
            List.takeWhile_cons_of_pos, List.length_nil]
          omega

/-- No numeral at the front of a text is longer than the one that is cut from it. -/
theorem length_text_le_split {numeral : Numeral} (h : numeral.IsLiteral) (back : List Char) :
    numeral.text.length ≤ (split (numeral.text ++ back)).1.text.length := by
  have hsign := splitSign_text h back
  rw [length_text, length_text, split_negative, split_whole, hsign]
  by_cases htail : numeral.tail = []
  · have hdigits := length_le_length_takeWhile h.whole back
    simp only [htail, List.nil_append, List.length_nil]
    omega
  · have hhead : ∀ c, (numeral.tail ++ back).head? = some c → c.isDigit = false := by
      intro c hc
      obtain ⟨d, ds, hcons⟩ := List.exists_cons_of_ne_nil htail
      apply tail_head h isBreak_nil c
      rw [hcons, List.cons_append] at hc ⊢
      exact hc
    obtain ⟨htake, hdrop⟩ := takeWhile_append_of_head h.whole hhead
    have hle := length_tail_le_split h htail (by rw [hsign, hdrop])
    simp only [htake]
    omega

end Numeral

/-! The documented form, and how much of it stands at the front of a text. -/

/-- One digit or more. -/
structure IsDigits (text : List Char) : Prop where
  ne_nil : text ≠ []
  digits : ∀ c ∈ text, c.isDigit = true

/-- `(e|E)[+-]digits` or nothing. -/
def HasExponentForm (text : List Char) : Prop :=
  text = [] ∨ ∃ mark sign digits, text = mark :: (sign ++ digits) ∧ (mark = 'e' ∨ mark = 'E') ∧
    (sign = [] ∨ sign = ['+'] ∨ sign = ['-']) ∧ IsDigits digits

/-- `-?digits[.digits][(e|E)[+-]digits]` -/
def HasNumeralForm (text : List Char) : Prop :=
  ∃ sign whole fraction exponent, text = sign ++ (whole ++ (fraction ++ exponent)) ∧
    (sign = [] ∨ sign = ['-']) ∧ IsDigits whole ∧
    (fraction = [] ∨ ∃ digits, fraction = '.' :: digits ∧ IsDigits digits) ∧
    HasExponentForm exponent

/-- `.digits[(e|E)[+-]digits]` -/
def HasPointForm (text : List Char) : Prop :=
  ∃ digits exponent, text = '.' :: (digits ++ exponent) ∧ IsDigits digits ∧
    HasExponentForm exponent

/-- The front of a text that has a form, as far as it goes, and what is behind it. -/
structure Longest (form : List Char → Prop) (cs text rest : List Char) : Prop where
  append : text ++ rest = cs
  formed : form text
  longest : ∀ other, other <+: cs → form other → other.length ≤ text.length

/-- A numeral is a token that takes a form as far as it goes and has no word behind it.
Text of the form with a word behind it is invalid together with the word. -/
structure Cursor.FollowsForm (form : List Char → Prop) (cursor : Cursor) : Prop where
  of_numeral : cursor.token.1.kind = .numeral →
    ∃ text rest, Longest form cursor.rest text rest ∧ IsBreak rest
  numeral : ∀ text rest, Longest form cursor.rest text rest → IsBreak rest →
    cursor.token = (⟨.numeral, ⟨cursor.offset, cursor.offset + byteLength text⟩, text⟩,
      ⟨cursor.offset + byteLength text, rest⟩)
  invalid : ∀ text rest, Longest form cursor.rest text rest → ¬IsBreak rest →
    let whole := text ++ rest.takeWhile isWordPart
    cursor.token = (⟨.invalid, ⟨cursor.offset, cursor.offset + byteLength whole⟩, whole⟩,
      ⟨cursor.offset + byteLength whole, rest.dropWhile isWordPart⟩)

/-! Both forms together are those of the numerals that are cut. -/

private theorem hasExponentForm_iff {text : List Char} : HasExponentForm text ↔
    ∃ exponent : Option Exponent, (∀ found ∈ exponent, found.IsLiteral) ∧
      (exponent.map Exponent.text).getD [] = text := by
  constructor
  · rintro (rfl | ⟨mark, sign, digits, rfl, hmark, hsign, hdigits⟩)
    · exact ⟨none, by simp, rfl⟩
    · have hliteral : ∀ found, (∀ c ∈ found, c = '+' ∨ c = '-') →
          ∀ exponent ∈ some (⟨mark, found, digits⟩ : Exponent), exponent.IsLiteral := by
        intro found hfound exponent hmem
        obtain rfl := Option.some.inj hmem
        exact ⟨hmark, hfound, hdigits.ne_nil, hdigits.digits⟩
      rcases hsign with rfl | rfl | rfl
      · exact ⟨some ⟨mark, none, digits⟩, hliteral none (by simp), rfl⟩
      · exact ⟨some ⟨mark, some '+', digits⟩, hliteral (some '+') (by simp), rfl⟩
      · exact ⟨some ⟨mark, some '-', digits⟩, hliteral (some '-') (by simp), rfl⟩
  · rintro ⟨exponent, hliteral, rfl⟩
    cases exponent with
    | none => exact .inl rfl
    | some exponent =>
        obtain ⟨hmark, hsign, hne, hdigits⟩ := hliteral exponent rfl
        refine .inr ⟨exponent.mark, exponent.sign.toList, exponent.digits, rfl, hmark, ?_,
          hne, hdigits⟩
        cases hfound : exponent.sign with
        | none => exact .inl rfl
        | some c => rcases hsign c hfound with rfl | rfl <;> simp

theorem hasForm_iff {text : List Char} : HasNumeralForm text ∨ HasPointForm text ↔
    ∃ numeral : Numeral, numeral.IsLiteral ∧ numeral.text = text := by
  constructor
  · rintro (⟨sign, whole, fraction, exponent, rfl, hsign, hwhole, hfraction, hexponent⟩ |
      ⟨digits, exponent, rfl, hdigits, hexponent⟩)
    · obtain ⟨exponent, hliterals, rfl⟩ := hasExponentForm_iff.mp hexponent
      obtain ⟨digits, hdigits, rfl⟩ : ∃ digits : List Char, (∀ c ∈ digits, c.isDigit = true) ∧
          fraction = if digits.isEmpty then [] else '.' :: digits := by
        rcases hfraction with rfl | ⟨digits, rfl, hdigits⟩
        · exact ⟨[], by simp, rfl⟩
        · exact ⟨digits, hdigits.digits, by simp [hdigits.ne_nil]⟩
      have hliteral (negative : Bool) :
          (⟨negative, whole, digits, exponent⟩ : Numeral).IsLiteral :=
        ⟨.inl hwhole.ne_nil, hwhole.digits, hdigits, hliterals⟩
      rcases hsign with rfl | rfl
      · exact ⟨_, hliteral false, by simp [Numeral.text]⟩
      · exact ⟨_, hliteral true, by simp [Numeral.text]⟩
    · obtain ⟨exponent, hliterals, rfl⟩ := hasExponentForm_iff.mp hexponent
      exact ⟨⟨false, [], digits, exponent⟩,
        ⟨.inr ⟨rfl, hdigits.ne_nil⟩, by simp, hdigits.digits, hliterals⟩,
        by simp [Numeral.text, hdigits.ne_nil]⟩
  · rintro ⟨⟨negative, whole, fraction, exponent⟩, hliteral, rfl⟩
    have hexponent := hasExponentForm_iff.mpr ⟨exponent, hliteral.exponent, rfl⟩
    by_cases hwhole : whole = []
    · obtain ⟨hpositive, hfraction⟩ := hliteral.ne_nil.resolve_left fun hne => hne hwhole
      obtain rfl : negative = false := hpositive
      refine .inr ⟨fraction, _, ?_, ⟨hfraction, hliteral.fraction⟩, hexponent⟩
      subst hwhole
      simp [Numeral.text, show fraction ≠ [] from hfraction]
    · refine .inl ⟨if negative then ['-'] else [], whole,
        if fraction.isEmpty then [] else '.' :: fraction, _, ?_, ?_, ⟨hwhole, hliteral.whole⟩, ?_,
        hexponent⟩
      · rw [Numeral.text, List.append_assoc, List.append_assoc]
      · cases negative <;> simp
      · cases hfraction : fraction with
        | nil => exact .inl rfl
        | cons c cs => exact .inr ⟨c :: cs, rfl, by simp, hfraction ▸ hliteral.fraction⟩

/-! What is cut from a text is the longest numeral at its front. -/

namespace Longest

variable {form form' : List Char → Prop} {cs text rest text' rest' : List Char}

theorem unique (h : Longest form cs text rest) (h' : Longest form cs text' rest') :
    text' = text ∧ rest' = rest := by
  have hlength : text'.length = text.length :=
    Nat.le_antisymm (h.longest text' ⟨rest', h'.append⟩ h'.formed)
      (h'.longest text ⟨rest, h.append⟩ h.formed)
  exact List.append_inj (h'.append.trans h.append.symm) hlength

theorem congr (hform : ∀ other, other <+: cs → (form other ↔ form' other))
    (h : Longest form cs text rest) : Longest form' cs text rest :=
  ⟨h.append, (hform text ⟨rest, h.append⟩).mp h.formed,
    fun other hother hformed => h.longest other hother ((hform other hother).mpr hformed)⟩

end Longest

/-- The forms of the numerals that are cut. -/
def HasCutForm (text : List Char) : Prop := HasNumeralForm text ∨ HasPointForm text

/-- What is cut from a text that starts a numeral is the longest one at its front. -/
theorem longest_split {cs : List Char} (h : Token.startsNumeral cs = true) :
    Longest HasCutForm cs (Numeral.split cs).1.text (Numeral.split cs).2 := by
  refine ⟨Numeral.split_append cs, hasForm_iff.mpr ⟨_, Token.isLiteral_split h, rfl⟩, ?_⟩
  rintro _ ⟨back, rfl⟩ hformed
  obtain ⟨numeral, hliteral, rfl⟩ := hasForm_iff.mp hformed
  exact Numeral.length_text_le_split hliteral back

theorem Longest.startsNumeral {cs text rest : List Char} (h : Longest HasCutForm cs text rest) :
    Token.startsNumeral cs = true := by
  obtain ⟨numeral, hliteral, rfl⟩ := hasForm_iff.mp h.formed
  rw [← h.append]
  exact Token.startsNumeral_text hliteral rest

theorem isBreak_iff_takeWhile {rest : List Char} :
    IsBreak rest ↔ rest.takeWhile isWordPart = [] := by
  cases rest with
  | nil => simp [isBreak_nil]
  | cons c cs => cases hc : isWordPart c <;> simp [IsBreak, hc]

namespace Token

theorem startsNumeral_of_cut {cs : List Char} (h : (cut cs).kind = .numeral) :
    startsNumeral cs = true := by
  obtain ⟨hspells, -⟩ := cut_spells (show (cut cs).kind ≠ .invalid by simp [h])
    (show (cut cs).kind ≠ .endOfInput by simp [h])
  have happend := cut_append cs
  rw [h] at hspells
  generalize (cut cs).text = text at hspells happend
  cases hspells with
  | mark hmark =>
      unfold kindOfMark? at hmark
      split at hmark <;> cases hmark
  | numeral hliteral =>
      rw [← happend]
      exact startsNumeral_text hliteral _

theorem cut_of_longest {cs text rest : List Char} (h : Longest HasCutForm cs text rest) :
    cut cs = if rest.takeWhile isWordPart = [] then ⟨.numeral, text, rest⟩
      else ⟨.invalid, text ++ rest.takeWhile isWordPart, rest.dropWhile isWordPart⟩ := by
  obtain ⟨rfl, rfl⟩ := (longest_split h.startsNumeral).unique h
  simp only [cut_of_startsNumeral h.startsNumeral, numeral, List.isEmpty_iff]

end Token

namespace Cursor

/-- A token is a numeral of the one form or of the other. -/
theorem followsForm_cut (cursor : Cursor) : cursor.FollowsForm HasCutForm where
  of_numeral hkind := by
    have hlongest := longest_split (Token.startsNumeral_of_cut hkind)
    refine ⟨_, _, hlongest, ?_⟩
    have hcut := Token.cut_of_longest hlongest
    split at hcut
    · exact isBreak_iff_takeWhile.mpr ‹_›
    · have hinvalid := congrArg Token.Piece.kind hcut
      cases hkind.symm.trans hinvalid
  numeral text rest h hbreak := by
    rw [isBreak_iff_takeWhile] at hbreak
    rw [token, Token.cut_of_longest h, if_pos hbreak]
    rfl
  invalid text rest h hword := by
    rw [isBreak_iff_takeWhile] at hword
    rw [token, Token.cut_of_longest h, if_neg hword]
    rfl

theorem FollowsForm.congr {form form' : List Char → Prop} {cursor : Cursor}
    (hform : ∀ other, other <+: cursor.rest → (form other ↔ form' other))
    (h : cursor.FollowsForm form) : cursor.FollowsForm form' where
  of_numeral hkind := by
    obtain ⟨text, rest, hlongest, hbreak⟩ := h.of_numeral hkind
    exact ⟨text, rest, hlongest.congr hform, hbreak⟩
  numeral text rest hlongest :=
    h.numeral text rest (hlongest.congr fun other hother => (hform other hother).symm)
  invalid text rest hlongest :=
    h.invalid text rest (hlongest.congr fun other hother => (hform other hother).symm)

/-- The documented form starts with a digit, or with a minus sign. -/
theorem head_ne_point {cs text rest : List Char} (h : Longest HasNumeralForm cs text rest) :
    cs.head? ≠ some '.' := by
  obtain ⟨sign, whole, fraction, exponent, rfl, hsign, hwhole, -⟩ := h.formed
  rw [← h.append]
  rcases hsign with rfl | rfl
  · obtain ⟨c, cs, rfl⟩ := List.exists_cons_of_ne_nil hwhole.ne_nil
    have hc := hwhole.digits c List.mem_cons_self
    rintro hhead
    obtain rfl := Option.some.inj hhead
    exact absurd hc (by decide)
  · simp

/-- Tokens are numerals as documented, but for those that start with a point: the digits
behind it need no others in front. -/
theorem followsForm_iff (cursor : Cursor) :
    cursor.FollowsForm (fun text => HasNumeralForm text ∨ HasPointForm text) ∧
    (cursor.FollowsForm HasNumeralForm ↔
      ¬(cursor.token.1.kind = .numeral ∧ cursor.rest.head? = some '.')) := by
  refine ⟨cursor.followsForm_cut, ?_, fun hother => ?_⟩
  · rintro hfollows ⟨hkind, hhead⟩
    obtain ⟨text, rest, hlongest, -⟩ := hfollows.of_numeral hkind
    exact head_ne_point hlongest hhead
  · by_cases hhead : cursor.rest.head? = some '.'
    · exact ⟨fun hkind => absurd ⟨hkind, hhead⟩ hother,
        fun _ _ hlongest => absurd hhead (head_ne_point hlongest),
        fun _ _ hlongest => absurd hhead (head_ne_point hlongest)⟩
    · refine cursor.followsForm_cut.congr fun text hfront => ⟨fun hform => ?_, .inl⟩
      refine hform.resolve_right ?_
      rintro ⟨digits, exponent, rfl, -⟩
      obtain ⟨rest, hrest⟩ := hfront
      exact hhead (by rw [← hrest]; rfl)

/-- A point and a digit are a numeral, and no text of the documented form stands there. -/
theorem not_followsForm_of_point :
    (ofText ".5".toList).token.1 = ⟨.numeral, ⟨0, 2⟩, ".5".toList⟩ ∧
      (∀ text rest, ¬Longest HasNumeralForm ".5".toList text rest) ∧
      ¬(ofText ".5".toList).FollowsForm HasNumeralForm := by
  have htoken : (ofText ".5".toList).token.1 = ⟨.numeral, ⟨0, 2⟩, ".5".toList⟩ := by
    decide +kernel
  have hnone (text rest : List Char) : ¬Longest HasNumeralForm ".5".toList text rest :=
    fun hlongest => head_ne_point hlongest rfl
  refine ⟨htoken, hnone, fun hfollows => ?_⟩
  obtain ⟨text, rest, hlongest, -⟩ := hfollows.of_numeral (by rw [htoken])
  exact hnone text rest hlongest

end Cursor

end Lookml
