import Lookml.Proofs.Number.Decimal
import Lookml.Token.Basic

/-!
How tokens are spelled. A token that is not invalid is cut from a text exactly if it is
spelled at the front and what follows cannot go on it.
-/

namespace Lookml

/-- A text without a line end, as a comment has it. -/
def IsLine (text : List Char) : Prop := ∀ c ∈ text, Token.isLineEnd c = false

/-- Text before which a comment ends. -/
def EndsLine (rest : List Char) : Prop := ∀ c, rest.head? = some c → Token.isLineEnd c = true

namespace Token

/-- A character that starts neither a line end nor a quoted text, and is no mark, starts a
run, a numeral or nothing. -/
private theorem cut_cons {c : Char} (hreturn : c ≠ '\r') (hquote : c ≠ '"')
    (hmark : kindOfMark? c = none) (cs : List Char) :
    cut (c :: cs) =
      if c == '#' then run .comment (fun d => !isLineEnd d) (c :: cs)
      else if isSpace c then run .blank isSpace (c :: cs)
      else if isWordStart c then run .word isWordPart (c :: cs)
      else if startsNumeral (c :: cs) then numeral (c :: cs)
      else ⟨.invalid, [c], cs⟩ := by
  unfold cut
  split
  · simp_all
  · simp_all
  · simp_all
  · simp_all

private theorem kindOfMark?_of_ne {c : Char}
    (h : ∀ mark ∈ ['{', '}', '[', ']', ':', ',', '\n'], c ≠ mark) : kindOfMark? c = none := by
  unfold kindOfMark?
  split <;> first | rfl | exact absurd rfl (h _ (by decide))

private theorem isWordPart_of_mark {mark : Char}
    (h : mark ∈ ['{', '}', '[', ']', ':', ',', '\n']) : isWordPart mark = false := by
  simp only [List.mem_cons, List.not_mem_nil, or_false] at h
  rcases h with rfl | rfl | rfl | rfl | rfl | rfl | rfl <;> rfl

private theorem ne_of_isWordPart {c mark : Char} (h : isWordPart c = true)
    (hmark : isWordPart mark = false) : c ≠ mark := by
  rintro rfl
  rw [h] at hmark
  cases hmark

theorem cut_word {c : Char} (h : isWordStart c = true) (cs : List Char) :
    cut (c :: cs) = run .word isWordPart (c :: cs) := by
  have hne : ∀ mark, isWordPart mark = false → c ≠ mark :=
    fun mark => ne_of_isWordPart (isWordPart_of_isWordStart h)
  have hmark : kindOfMark? c = none :=
    kindOfMark?_of_ne fun mark hmark => hne mark (isWordPart_of_mark hmark)
  have hspace : isSpace c = false := by
    simp [isSpace, hne ' ' (by decide), hne '\t' (by decide)]
  rw [cut_cons (hne _ (by decide)) (hne _ (by decide)) hmark]
  simp [hne '#' (by decide), hspace, h]

theorem cut_comment (cs : List Char) :
    cut ('#' :: cs) = run .comment (fun d => !isLineEnd d) ('#' :: cs) := rfl

theorem cut_quoted (cs : List Char) : cut ('"' :: cs) = quoted cs := rfl

private theorem isWordStart_of_isDigit {c : Char} (h : c.isDigit = true) :
    isWordStart c = false := by
  have hunderscore : c ≠ '_' := by
    rintro rfl
    exact absurd h (by decide)
  simp only [Char.isDigit, Bool.and_eq_true, decide_eq_true_eq, UInt32.le_iff_toNat_le,
    ge_iff_le] at h
  have hnine : '9'.val.toNat = 57 := rfl
  have hupper : 'A'.val.toNat = 65 := rfl
  have hlower : 'a'.val.toNat = 97 := rfl
  have halpha : c.isAlpha =
      (decide (c.val ≥ 'A'.val ∧ c.val ≤ 'Z'.val) || (c.val ≥ 'a'.val && c.val ≤ 'z'.val)) := rfl
  simp only [isWordStart, halpha, Bool.or_eq_false_iff, beq_eq_false_iff_ne, Bool.and_eq_false_iff,
    decide_eq_false_iff_not, UInt32.le_iff_toNat_le, ge_iff_le]
  refine ⟨⟨?_, ?_⟩, hunderscore⟩ <;> omega

private theorem cut_digit {c : Char} (h : c.isDigit = true) (cs : List Char) :
    cut (c :: cs) = numeral (c :: cs) := by
  have hne : ∀ mark, isWordPart mark = false → c ≠ mark :=
    fun mark => ne_of_isWordPart (isWordPart_of_isDigit h)
  have hmark : kindOfMark? c = none :=
    kindOfMark?_of_ne fun mark hmark => hne mark (isWordPart_of_mark hmark)
  have hspace : isSpace c = false := by
    simp [isSpace, hne ' ' (by decide), hne '\t' (by decide)]
  have hword := isWordStart_of_isDigit h
  rw [cut_cons (hne _ (by decide)) (hne _ (by decide)) hmark]
  simp [hne '#' (by decide), hspace, hword, startsNumeral, h]

private theorem cut_minus {c : Char} (h : c.isDigit = true) (cs : List Char) :
    cut ('-' :: c :: cs) = numeral ('-' :: c :: cs) := by
  rw [cut_cons (by decide) (by decide) (by decide)]
  simp [isSpace, isWordStart, startsNumeral, h]

private theorem cut_point {c : Char} (h : c.isDigit = true) (cs : List Char) :
    cut ('.' :: c :: cs) = numeral ('.' :: c :: cs) := by
  rw [cut_cons (by decide) (by decide) (by decide)]
  simp [isSpace, isWordStart, startsNumeral, h]

/-- The front of a numeral: a digit, or a minus sign or a point and a digit. -/
theorem exists_front {decimal : Numeral} (h : decimal.IsLiteral) :
    ∃ c cs, c.isDigit = true ∧
      (decimal.text = c :: cs ∨ decimal.text = '-' :: c :: cs ∨ decimal.text = '.' :: c :: cs) := by
  obtain ⟨negative, whole, fraction, exponent⟩ := decimal
  cases whole with
  | cons c cs =>
      have hc := h.whole c List.mem_cons_self
      cases negative with
      | false => exact ⟨c, _, hc, .inl rfl⟩
      | true => exact ⟨c, _, hc, .inr (.inl rfl)⟩
  | nil =>
      obtain ⟨rfl, hne⟩ := h.ne_nil.resolve_left fun hne => hne rfl
      cases fraction with
      | nil => exact absurd rfl hne
      | cons c cs => exact ⟨c, _, h.fraction c List.mem_cons_self, .inr (.inr rfl)⟩

theorem startsNumeral_iff {cs : List Char} : startsNumeral cs = true ↔
    ∃ c later, c.isDigit = true ∧
      (cs = c :: later ∨ cs = '-' :: c :: later ∨ cs = '.' :: c :: later) := by
  constructor
  · intro h
    match cs, h with
    | [c], h => exact ⟨c, [], by simpa [startsNumeral] using h, .inl rfl⟩
    | c :: d :: cs, h =>
        simp only [startsNumeral, List.head?_cons, Option.map_some, Option.getD_some,
          Bool.or_eq_true, Bool.and_eq_true, beq_iff_eq] at h
        rcases h with hc | ⟨rfl | rfl, hd⟩
        · exact ⟨c, _, hc, .inl rfl⟩
        · exact ⟨d, cs, hd, .inr (.inl rfl)⟩
        · exact ⟨d, cs, hd, .inr (.inr rfl)⟩
  · rintro ⟨c, later, hc, rfl | rfl | rfl⟩ <;> simp [startsNumeral, hc]

theorem startsNumeral_text {decimal : Numeral} (h : decimal.IsLiteral) (rest : List Char) :
    startsNumeral (decimal.text ++ rest) = true := by
  obtain ⟨c, cs, hc, hfront⟩ := exists_front h
  refine startsNumeral_iff.mpr ⟨c, cs ++ rest, hc, ?_⟩
  rcases hfront with hfront | hfront | hfront <;> simp [hfront]

theorem cut_of_startsNumeral {cs : List Char} (h : startsNumeral cs = true) :
    cut cs = numeral cs := by
  obtain ⟨c, later, hc, rfl | rfl | rfl⟩ := startsNumeral_iff.mp h
  · exact cut_digit hc later
  · exact cut_minus hc later
  · exact cut_point hc later

theorem cut_numeral {decimal : Numeral} (h : decimal.IsLiteral) {rest : List Char}
    (hrest : IsBreak rest) :
    cut (decimal.text ++ rest) = ⟨.numeral, decimal.text, rest⟩ := by
  have hbreak : rest.takeWhile isWordPart = [] := by
    cases rest with
    | nil => rfl
    | cons c cs => simp [hrest c rfl]
  rw [cut_of_startsNumeral (startsNumeral_text h rest)]
  simp [numeral, Numeral.split_text h hrest, hbreak]

/-- Text before which a token of the kind ends. -/
def Kind.EndsBefore : Kind → List Char → Prop
  | .word, rest | .numeral, rest => IsBreak rest
  | .comment, rest => EndsLine rest
  | .blank, rest => ∀ c, rest.head? = some c → isSpace c = false
  | _, _ => True

/-- The spellings of the tokens that are neither invalid nor asked for by name. -/
inductive Spells : Kind → List Char → Prop
  | mark {kind : Kind} {c : Char} (h : kindOfMark? c = some kind) : Spells kind [c]
  | lineEnd : Spells .newline ['\r', '\n']
  | quoted {text : List Char} (h : Quoted.split text = (text, some [])) :
      Spells .quoted ('"' :: text)
  | comment {text : List Char} (h : IsLine text) : Spells .comment ('#' :: text)
  | blank {text : List Char} (hne : text ≠ []) (h : ∀ c ∈ text, isSpace c = true) :
      Spells .blank text
  | word {text : List Char} (h : isWord text = true) : Spells .word text
  | numeral {decimal : Numeral} (h : decimal.IsLiteral) : Spells .numeral decimal.text

theorem isWordPart_of_mem {word : List Char} (h : isWord word = true) :
    ∀ c ∈ word, isWordPart c = true := by
  cases word with
  | nil => cases h
  | cons c cs =>
      rw [isWord, Bool.and_eq_true, List.all_eq_true] at h
      rintro d (_ | ⟨_, hmem⟩)
      · exact isWordPart_of_isWordStart h.1
      · exact h.2 d hmem

private theorem isWord_run {c : Char} (h : isWordStart c = true) (cs : List Char) :
    isWord ((c :: cs).takeWhile isWordPart) = true := by
  rw [List.takeWhile_cons_of_pos (isWordPart_of_isWordStart h), isWord, h, Bool.true_and]
  exact List.all_takeWhile

private theorem head_dropWhile {p : Char → Bool} {cs : List Char} (c : Char)
    (h : (cs.dropWhile p).head? = some c) : p c = false := by
  have hhead := List.head?_dropWhile_not p cs
  rw [h] at hhead
  simpa using hhead

private theorem isBreak_dropWhile (cs : List Char) : IsBreak (cs.dropWhile isWordPart) :=
  head_dropWhile

private theorem split_quoted {cs text rest : List Char}
    (h : Quoted.split cs = (text, some rest)) (rest' : List Char) :
    Quoted.split (text ++ rest') = (text, some rest') := by
  fun_induction Quoted.split cs generalizing text with
  | case1 => simp at h
  | case2 cs =>
      obtain ⟨rfl, -⟩ := Prod.mk.inj h
      rfl
  | case3 c cs front back hsplit ih =>
      obtain ⟨rfl, rfl⟩ := Prod.mk.inj h
      simp [Quoted.split, ih hsplit]
  | case4 c cs hquote hescape front back hsplit ih =>
      obtain ⟨rfl, rfl⟩ := Prod.mk.inj h
      rw [List.cons_append, Quoted.split, ih hsplit]
      · exact hquote
      · -- A backslash is only left alone where nothing follows it, and then nothing closes
        -- the text.
        rintro d ds rfl -
        cases cs with
        | nil => simp [Quoted.split] at hsplit
        | cons e es => exact hescape e es rfl rfl

private theorem isLine_takeWhile (cs : List Char) :
    IsLine (cs.takeWhile fun d => !isLineEnd d) := by
  intro c hc
  simpa using List.all_eq_true.mp List.all_takeWhile c hc

private theorem endsLine_dropWhile (cs : List Char) :
    EndsLine (cs.dropWhile fun d => !isLineEnd d) := by
  intro c hc
  simpa using head_dropWhile c hc

private theorem endsBefore_mark {c : Char} {kind : Kind} (h : kindOfMark? c = some kind)
    (rest : List Char) : kind.EndsBefore rest := by
  unfold kindOfMark? at h
  split at h <;> cases h <;> trivial

theorem isLiteral_split {cs : List Char} (h : startsNumeral cs = true) :
    (Numeral.split cs).1.IsLiteral := by
  apply Numeral.isLiteral_split
  obtain ⟨c, later, hc, rfl | rfl | rfl⟩ := startsNumeral_iff.mp h
  · have hminus : c ≠ '-' := by
      rintro rfl
      exact absurd hc (by decide)
    simp [Numeral.splitSign, hminus, hc]
  · simp [Numeral.splitSign, hc]
  · right
    simp [Numeral.splitSign, Numeral.splitFraction, hc]

private theorem spells_numeral {cs : List Char} (hstart : startsNumeral cs = true)
    (hinvalid : (numeral cs).kind ≠ .invalid) :
    Spells (numeral cs).kind (numeral cs).text ∧
      (numeral cs).kind.EndsBefore (numeral cs).rest := by
  revert hinvalid
  simp only [numeral]
  split
  · rename_i hbreak
    refine fun _ => ⟨.numeral (isLiteral_split hstart), ?_⟩
    intro c hc
    cases hrest : (Numeral.split cs).2 with
    | nil => simp [hrest] at hc
    | cons d ds =>
        rw [hrest] at hbreak hc
        obtain rfl := Option.some.inj hc
        cases hd : isWordPart d with
        | false => rfl
        | true => simp [hd] at hbreak
  · exact fun hinvalid => absurd rfl hinvalid

/-- A token that is cut from a text is spelled at its front, and ends before what is
left. -/
theorem cut_spells {cs : List Char} (hinvalid : (cut cs).kind ≠ .invalid)
    (hend : (cut cs).kind ≠ .endOfInput) :
    Spells (cut cs).kind (cut cs).text ∧ (cut cs).kind.EndsBefore (cut cs).rest := by
  revert hinvalid hend
  unfold cut
  split
  · exact fun _ hend => absurd rfl hend
  · exact fun _ _ => ⟨.lineEnd, trivial⟩
  · unfold quoted
    split
    · rename_i text rest hsplit
      refine fun _ _ => ⟨.quoted ?_, trivial⟩
      simpa using split_quoted hsplit []
    · exact fun hinvalid _ => absurd rfl hinvalid
  · rename_i c cs hreturn hquote
    split
    · exact fun _ _ => ⟨.mark ‹_›, endsBefore_mark ‹_› cs⟩
    · split
      · rename_i hhash
        obtain rfl := eq_of_beq hhash
        rw [run, List.takeWhile_cons_of_pos (by decide), List.dropWhile_cons_of_pos (by decide)]
        exact fun _ _ => ⟨.comment (isLine_takeWhile cs), endsLine_dropWhile cs⟩
      · split
        · rename_i hspace
          refine fun _ _ => ⟨.blank ?_ (List.all_eq_true.mp List.all_takeWhile), head_dropWhile⟩
          simp [run, hspace]
        · split
          · rename_i hword
            exact fun _ _ => ⟨.word (isWord_run hword cs), isBreak_dropWhile _⟩
          · split
            · exact fun hinvalid _ => spells_numeral ‹_› hinvalid
            · exact fun hinvalid _ => absurd rfl hinvalid

private theorem cut_blank {c : Char} (h : isSpace c = true) (cs : List Char) :
    cut (c :: cs) = run .blank isSpace (c :: cs) := by
  simp only [isSpace, Bool.or_eq_true, beq_iff_eq] at h
  rcases h with rfl | rfl <;> rfl

theorem Spells.cut {kind : Kind} {text rest : List Char} (h : Spells kind text)
    (hrest : kind.EndsBefore rest) : Token.cut (text ++ rest) = ⟨kind, text, rest⟩ := by
  cases h with
  | mark hmark =>
      unfold kindOfMark? at hmark
      split at hmark <;> cases hmark <;> rfl
  | lineEnd => rfl
  | quoted hsplit => rw [List.cons_append, cut_quoted, Token.quoted, split_quoted hsplit]
  | @comment line hline =>
      have hfront : ∀ c ∈ '#' :: line, (!isLineEnd c) = true := by
        rintro c (_ | ⟨_, hmem⟩)
        · rfl
        · simp [hline c hmem]
      have hback : ∀ c, rest.head? = some c → (!isLineEnd c) = false :=
        fun c hc => by simp [hrest c hc]
      obtain ⟨htake, hdrop⟩ := takeWhile_append_of_head hfront hback
      rw [List.cons_append] at htake hdrop ⊢
      rw [cut_comment, run, htake, hdrop]
  | blank hne hblank =>
      obtain ⟨c, cs, rfl⟩ := List.exists_cons_of_ne_nil hne
      obtain ⟨htake, hdrop⟩ := takeWhile_append_of_head hblank hrest
      rw [List.cons_append] at htake hdrop ⊢
      rw [cut_blank (hblank c List.mem_cons_self), run, htake, hdrop]
  | word hword =>
      obtain ⟨htake, hdrop⟩ := takeWhile_append_of_head (isWordPart_of_mem hword) hrest
      cases text with
      | nil => cases hword
      | cons c cs =>
          rw [List.cons_append] at htake hdrop ⊢
          rw [cut_word (Bool.and_eq_true_iff.mp hword).1, run, htake, hdrop]
  | numeral hliteral => exact cut_numeral hliteral hrest

end Token

end Lookml
