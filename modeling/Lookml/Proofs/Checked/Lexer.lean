import Lookml.Proofs.Checked.Scanner
import Lookml.Proofs.Lexeme.Exchange

/-!
Lexemes with every operation checked that could go wrong: the quotes and the `#` are
sliced off, numerals are parsed as numbers, and one lexeme may be looked at before it is
taken.
-/

namespace Lookml.Checked

/-! Numbers by the grammar of floating-point literals, which has more of them than there
are numerals. -/

namespace Literal

def splitSign : List Char → Bool × List Char
  | '+' :: cs => (false, cs)
  | cs => Numeral.splitSign cs

/-- The digits behind a point, of which there need not be any. -/
def splitFraction : List Char → List Char × List Char
  | '.' :: cs => (cs.takeWhile Char.isDigit, cs.dropWhile Char.isDigit)
  | cs => ([], cs)

def exponent? : List Char → Option (Option Exponent)
  | [] => some none
  | cs =>
      match Exponent.split? cs with
      | some (exponent, []) => some (some exponent)
      | _ => none

/-- The number of a literal behind its sign: a name, in letters of either case, or
digits. -/
def unsigned? (negative : Bool) (cs : List Char) : Option Number :=
  if cs.map Char.toLower ∈ ["inf".toList, "infinity".toList] then some (.infinite negative)
  else if cs.map Char.toLower = "nan".toList then some .nan
  else
    let whole := cs.takeWhile Char.isDigit
    let (fraction, after) := splitFraction (cs.dropWhile Char.isDigit)
    if whole.isEmpty && fraction.isEmpty then none
    else (exponent? after).map fun exponent => Numeral.number ⟨negative, whole, fraction, exponent⟩

def number? (cs : List Char) : Option Number :=
  unsigned? (splitSign cs).1 (splitSign cs).2

private theorem toLower_of_isDigit {c : Char} (h : c.isDigit = true) : c.toLower = c := by
  simp only [Char.isDigit, Bool.and_eq_true, decide_eq_true_eq, ge_iff_le,
    UInt32.le_iff_toNat_le] at h
  have hnine : '9'.val.toNat = 57 := rfl
  have hupper : 'A'.val.toNat = 65 := rfl
  unfold Char.toLower
  split
  · rename_i hbetween
    simp only [ge_iff_le, UInt32.le_iff_toNat_le] at hbetween
    omega
  · rfl

/-- A name starts with a letter, digits do not. -/
private theorem unsigned?_of_head {negative : Bool} {c : Char} {cs : List Char}
    (hc : c.isDigit = true ∨ c = '.') :
    unsigned? negative (c :: cs) =
      (let whole := (c :: cs).takeWhile Char.isDigit
      let (fraction, after) := splitFraction ((c :: cs).dropWhile Char.isDigit)
      if whole.isEmpty && fraction.isEmpty then none
      else (exponent? after).map fun exponent =>
        Numeral.number ⟨negative, whole, fraction, exponent⟩) := by
  have hlower : c.toLower = c := by
    rcases hc with hc | rfl
    · exact toLower_of_isDigit hc
    · rfl
  have hname : ∀ letter, letter.isDigit = false → letter ≠ '.' → c.toLower ≠ letter := by
    rintro letter hdigit hpoint rfl
    rw [hlower] at hdigit hpoint
    rcases hc with hc | hc
    · rw [hc] at hdigit
      cases hdigit
    · exact hpoint hc
  have hi := hname 'i' (by decide) (by decide)
  have hn := hname 'n' (by decide) (by decide)
  rw [unsigned?, if_neg (by simp [hi]), if_neg (by simp [hn])]

private theorem splitFraction_of_split {cs fraction after : List Char}
    (h : Numeral.splitFraction cs = (fraction, after)) (hafter : after.head? ≠ some '.') :
    splitFraction cs = (fraction, after) := by
  have hother (hhead : cs.head? ≠ some '.') : splitFraction cs = ([], cs) := by
    unfold splitFraction
    split
    · exact absurd rfl hhead
    · rfl
  unfold Numeral.splitFraction at h
  split at h
  · split at h
    · exact h
    · obtain ⟨-, rfl⟩ := Prod.mk.inj h
      exact absurd rfl hafter
  · obtain ⟨rfl, rfl⟩ := Prod.mk.inj h
    exact hother hafter

private theorem exponent?_of_split {cs : List Char} {exponent : Exponent}
    (h : Exponent.split? cs = some (exponent, [])) : exponent? cs = some (some exponent) := by
  cases cs with
  | nil => cases h
  | cons c cs => simp only [exponent?, h]

private theorem splitSign_of_head {cs : List Char} (h : cs.head? ≠ some '+') :
    splitSign cs = Numeral.splitSign cs := by
  unfold splitSign
  split
  · exact absurd rfl h
  · rfl

private theorem head_of_digits {cs fraction after : List Char}
    (h : Numeral.splitFraction (cs.dropWhile Char.isDigit) = (fraction, after))
    (hdigits : cs.takeWhile Char.isDigit ≠ [] ∨ fraction ≠ []) :
    ∃ c body, cs = c :: body ∧ (c.isDigit = true ∨ c = '.') := by
  cases cs with
  | nil =>
      obtain ⟨rfl, -⟩ := Prod.mk.inj h
      simp at hdigits
  | cons c cs =>
      refine ⟨c, cs, rfl, ?_⟩
      by_cases hc : c.isDigit = true
      · exact .inl hc
      · rw [List.dropWhile_cons_of_neg hc] at h
        rw [List.takeWhile_cons_of_neg hc] at hdigits
        have hfraction := hdigits.resolve_left fun hne => hne rfl
        unfold Numeral.splitFraction at h
        split at h
        · rename_i heq
          exact .inr (List.cons.inj heq).1
        · exact absurd (Prod.mk.inj h).1.symm hfraction

/-- A text that is a numeral as a whole is a literal of its number. -/
theorem number?_of_split {cs : List Char} {numeral : Numeral}
    (h : Numeral.split cs = (numeral, [])) (hdigits : numeral.whole ≠ [] ∨ numeral.fraction ≠ []) :
    number? cs = some numeral.number := by
  obtain ⟨fraction, after, hfraction⟩ : ∃ fraction after, Numeral.splitFraction
      ((Numeral.splitSign cs).2.dropWhile Char.isDigit) = (fraction, after) := ⟨_, _, rfl⟩
  -- What follows the fraction is an exponent and nothing else, or nothing at all.
  obtain ⟨exponent, hexponent, hpoint, rfl⟩ : ∃ exponent, exponent? after = some exponent ∧
      after.head? ≠ some '.' ∧ numeral = ⟨(Numeral.splitSign cs).1,
        (Numeral.splitSign cs).2.takeWhile Char.isDigit, fraction, exponent⟩ := by
    simp only [Numeral.split, hfraction] at h
    split at h
    · rename_i exponent rest hsplit
      obtain ⟨rfl, rfl⟩ := Prod.mk.inj h
      refine ⟨some exponent, exponent?_of_split hsplit, ?_, rfl⟩
      intro hhead
      obtain ⟨cs, rfl⟩ := List.head?_eq_some_iff.mp hhead
      cases hsplit
    · obtain ⟨rfl, rfl⟩ := Prod.mk.inj h
      exact ⟨none, rfl, by simp, rfl⟩
  have hplus : cs.head? ≠ some '+' := by
    intro hhead
    obtain ⟨cs, rfl⟩ := List.head?_eq_some_iff.mp hhead
    obtain ⟨rfl, -⟩ := Prod.mk.inj hfraction
    exact hdigits.elim (fun hwhole => hwhole rfl) fun hfraction => hfraction rfl
  obtain ⟨c, body, hbody, hc⟩ := head_of_digits hfraction hdigits
  rw [hbody] at hfraction hdigits ⊢
  have hsome : (((c :: body).takeWhile Char.isDigit).isEmpty && fraction.isEmpty) = false := by
    rw [Bool.and_eq_false_iff, List.isEmpty_eq_false_iff, List.isEmpty_eq_false_iff]
    exact hdigits
  rw [number?, splitSign_of_head hplus, hbody, unsigned?_of_head hc]
  simp only [splitFraction_of_split hfraction hpoint, hexponent, hsome]
  rfl

end Literal

/-! The text between quotes. -/

/-- The text meant by what stands between quotes. A backslash with nothing behind it is
not expected. -/
def resolveEscapes : List Char → Except Trap (Except (List Char) (List Char))
  | [] => return .ok []
  | ['\\'] => throw .escape
  | '\\' :: e :: cs =>
      match Quoted.meaningOf? e with
      | some c => do
          let later ← resolveEscapes cs
          return later.map (c :: ·)
      | none => return .error ['\\', e]
  | c :: cs => do
      let later ← resolveEscapes cs
      return later.map (c :: ·)

def unescape (cs : List Char) : Except Trap (Except (List Char) (List Char)) :=
  if '\\' ∈ cs then resolveEscapes cs else return .ok cs

private theorem resolveEscapes_cons {c : Char} (h : c ≠ '\\') (cs : List Char) :
    resolveEscapes (c :: cs) = (do
      let later ← resolveEscapes cs
      return later.map (c :: ·)) := by
  rw [resolveEscapes]
  · exact fun hc _ => h hc
  · exact fun _ _ hc _ => h hc

private theorem decode_cons {c : Char} (h : c ≠ '\\') (cs : List Char) :
    Quoted.decode (c :: cs) = (Quoted.decode cs).map (c :: ·) := by
  rw [Quoted.decode]
  · exact fun hc _ => h hc
  · exact fun _ _ hc _ => h hc

theorem decode_of_not_mem {cs : List Char} (h : '\\' ∉ cs) : Quoted.decode cs = .ok cs := by
  induction cs with
  | nil => rfl
  | cons c cs ih =>
      rw [List.mem_cons, not_or] at h
      obtain ⟨hc, hcs⟩ := h
      rw [decode_cons (Ne.symm hc), ih hcs]
      rfl

/-- A quote closes a text that does not end in the middle of an escape. -/
theorem resolveEscapes_of_split {cs text rest : List Char}
    (h : Quoted.split cs = (text, some rest)) :
    ∃ inner, text = inner ++ ['"'] ∧ resolveEscapes inner = .ok (Quoted.decode inner) := by
  fun_induction Quoted.split cs generalizing text with
  | case1 => cases h
  | case2 cs =>
      obtain ⟨rfl, -⟩ := Prod.mk.inj h
      exact ⟨[], rfl, rfl⟩
  | case3 c cs front after hsplit ih =>
      obtain ⟨rfl, rfl⟩ := Prod.mk.inj h
      obtain ⟨inner, rfl, hresolved⟩ := ih hsplit
      refine ⟨'\\' :: c :: inner, rfl, ?_⟩
      rw [resolveEscapes, Quoted.decode]
      cases Quoted.meaningOf? c with
      | none => rfl
      | some meant => simp only [hresolved, ok_bind]; rfl
  | case4 c cs hquote hescape front after hsplit ih =>
      obtain ⟨rfl, rfl⟩ := Prod.mk.inj h
      obtain ⟨inner, rfl, hresolved⟩ := ih hsplit
      have hback : c ≠ '\\' := by
        rintro rfl
        cases cs with
        | nil => cases (Prod.mk.inj hsplit).2
        | cons d ds => exact hescape d ds rfl rfl
      refine ⟨c :: inner, rfl, ?_⟩
      rw [resolveEscapes_cons hback, decode_cons hback, hresolved]
      rfl

theorem unescape_of_split {cs text rest : List Char}
    (h : Quoted.split cs = (text, some rest)) :
    ∃ inner, text = inner ++ ['"'] ∧ unescape inner = .ok (Quoted.decode inner) := by
  obtain ⟨inner, htext, hresolved⟩ := resolveEscapes_of_split h
  refine ⟨inner, htext, ?_⟩
  unfold unescape
  split
  · exact hresolved
  · rw [decode_of_not_mem ‹_›]
    rfl

/-- What a token stands for. -/
def meaning (token : Token) : Except Trap Lexeme.Kind :=
  match token.kind with
  | .numeral =>
      match Literal.number? token.text with
      | some value => return .number value
      | none => throw .numeral
  | .quoted => do
      let inner ← slice token.text 1 (byteLength token.text - 1)
      match ← unescape inner with
      | .ok meant => return .quoted (String.ofList meant)
      | .error escape => return .invalid (.badEscape (String.ofList escape))
  | .comment => do
      let text ← sliceFrom token.text 1
      return .comment (String.ofList text)
  | kind => return Lexeme.ofToken kind token.text

theorem meaning_of_spells {kind : Token.Kind} {text : List Char} (h : Token.Spells kind text)
    (span : Span) : meaning ⟨kind, span, text⟩ = .ok (Lexeme.ofToken kind text) := by
  cases h with
  | mark hmark =>
      unfold Token.kindOfMark? at hmark
      split at hmark <;> cases hmark <;> rfl
  | lineEnd => rfl
  | @quoted body hsplit =>
      obtain ⟨inner, rfl, hescapes⟩ := unescape_of_split hsplit
      have hslice : slice ('"' :: (inner ++ ['"'])) 1 (byteLength ('"' :: (inner ++ ['"'])) - 1) =
          .ok inner := by
        have hquotes := slice_append ['"'] inner ['"']
        have hlength : byteLength ('"' :: (inner ++ ['"'])) - 1 =
            byteLength ['"'] + byteLength inner := by
          have hquote : '"'.utf8Size = 1 := rfl
          simp only [byteLength_cons, byteLength_append, byteLength_nil, hquote]
          omega
        rwa [hlength]
      simp only [meaning, hslice, hescapes, ok_bind, Lexeme.ofToken, Lexeme.resolve, List.drop_one,
        List.tail_cons, List.dropLast_concat]
      cases Quoted.decode inner <;> rfl
  | @comment body hline =>
      have hslice : sliceFrom ('#' :: body) 1 = .ok body := sliceFrom_append ['#'] body
      simp only [meaning, hslice, ok_bind]
      rfl
  | blank => rfl
  | word => rfl
  | numeral hliteral =>
      have hsplit := Numeral.split_text hliteral isBreak_nil
      rw [List.append_nil] at hsplit
      have hdigits := hliteral.ne_nil.imp_right And.right
      simp only [meaning, Literal.number?_of_split hsplit hdigits]
      rw [Lexeme.ofToken, Numeral.ofText_text hliteral]
      rfl

/-! Lexemes, passing over blanks. -/

def Scanner.lex (scanner : Scanner) : Except Trap (Lexeme × Scanner) := do
  let (token, next) ← scanner.nextToken
  if token.kind.isBlank then
    if _h : next.rest.length < scanner.rest.length then next.lex else throw .stalled
  else
    let kind ← meaning token
    return (⟨kind, token.span⟩, next)
termination_by scanner.rest.length

/-- A scanner, and the lexeme in front of it that was looked at, if one was. -/
structure Lexer where
  scanner : Scanner
  pending : Option Lexeme
deriving DecidableEq

namespace Lexer

def ofText (source : List Char) : Lexer := ⟨.ofText source, none⟩

def next (lexer : Lexer) : Except Trap (Lexeme × Lexer) :=
  match lexer.pending with
  | some lexeme => return (lexeme, ⟨lexer.scanner, none⟩)
  | none => do
      let (lexeme, scanner) ← lexer.scanner.lex
      return (lexeme, ⟨scanner, none⟩)

def peek (lexer : Lexer) : Except Trap (Lexeme × Lexer) := do
  let (lexeme, later) ← lexer.next
  return (lexeme, ⟨later.scanner, some lexeme⟩)

/-- A block of code, which starts where the scanner is. -/
def code (lexer : Lexer) : Except Trap (Except SyntaxError (String × Span) × Lexer) :=
  if lexer.pending.isSome then throw .pending
  else do
    let (token, scanner) ← lexer.scanner.nextCode
    if token.kind = .code then
      return (.ok (String.ofList (trimBlank token.text), token.span), ⟨scanner, none⟩)
    else return (.error ⟨.unterminatedCode, token.span⟩, ⟨scanner, none⟩)

/-- A lexer where a cursor stands, with the next lexeme looked at or not. -/
def ofCursor (source : List Char) (peeked : Bool) (cursor : Cursor) : Lexer :=
  if peeked then ⟨.ofCursor source cursor.lexeme.2, some cursor.lexeme.1⟩
  else ⟨.ofCursor source cursor, none⟩

end Lexer

section Lexemes
variable {source : List Char} {cursor : Cursor}

theorem Fits.skipBlank (h : Fits source cursor) : Fits source cursor.skipBlank := by
  obtain ⟨gap, -, hrest, hoffset⟩ := cursor.exists_blanks
  have hskip : cursor.skipBlank = cursor.past gap cursor.skipBlank.rest :=
    congr (congrArg Cursor.mk hoffset) rfl
  rw [hskip]
  exact h.past hrest.symm

theorem Fits.behindLexeme (h : Fits source cursor) : Fits source cursor.lexeme.2 :=
  h.skipBlank.past cursor.skipBlank.token_text_append

theorem Fits.behindCode (h : Fits source cursor) : Fits source cursor.code.2 := by
  unfold Cursor.code
  split
  · rename_i text rest hsplit
    have happend := Token.splitCode_append hsplit
    exact h.past (by rw [List.append_assoc]; exact happend)
  · exact h.past (List.append_nil _)

theorem code_rest_length_le (cursor : Cursor) :
    cursor.code.2.rest.length ≤ cursor.rest.length := by
  unfold Cursor.code
  split
  · rename_i text rest hsplit
    have happend := congrArg List.length (Token.splitCode_append hsplit)
    simp only [Cursor.past, List.length_append, List.length_cons] at happend ⊢
    omega
  · exact Nat.zero_le _

theorem meaning_token (cursor : Cursor) :
    meaning cursor.token.1 = .ok (Lexeme.ofToken cursor.token.1.kind cursor.token.1.text) := by
  by_cases hinvalid : cursor.token.1.kind = .invalid
  · rw [meaning, hinvalid]
    rfl
  · by_cases hend : cursor.token.1.kind = .endOfInput
    · rw [meaning, hend]
      rfl
    · exact meaning_of_spells (Token.cut_spells hinvalid hend).1 _

theorem Fits.lex (h : Fits source cursor) :
    (Scanner.ofCursor source cursor).lex =
      .ok (cursor.lexeme.1, .ofCursor source cursor.lexeme.2) := by
  induction hlength : cursor.rest.length using Nat.strongRecOn generalizing cursor with
  | ind length ih =>
      rw [Scanner.lex, h.nextToken, ok_bind]
      cases hblank : (Token.cut cursor.rest).kind.isBlank with
      | true =>
          have hrest : cursor.rest ≠ [] := fun hnil => by rw [hnil] at hblank; cases hblank
          have hshorter : (Scanner.ofCursor source cursor.token.2).rest.length <
              (Scanner.ofCursor source cursor).rest.length := Cursor.token_rest_length_lt hrest
          have hfits : Fits source cursor.token.2 := h.past cursor.token_text_append
          have hlater := ih _ (hlength ▸ hshorter) hfits rfl
          have hlexeme : cursor.token.2.lexeme = cursor.lexeme := by
            rw [Cursor.lexeme, Cursor.skipBlank_token hblank, Cursor.lexeme]
          rw [hlexeme] at hlater
          simp only [show cursor.token.1.kind.isBlank = true from hblank, if_true]
          rw [dif_pos hshorter]
          exact hlater
      | false =>
          simp only [show cursor.token.1.kind.isBlank = false from hblank, meaning_token, ok_bind]
          rw [Cursor.lexeme, Cursor.skipBlank_eq_self hblank]
          rfl

theorem Fits.next (h : Fits source cursor) (peeked : Bool) :
    (Lexer.ofCursor source peeked cursor).next =
      .ok (cursor.lexeme.1, .ofCursor source false cursor.lexeme.2) := by
  cases peeked with
  | true => rfl
  | false =>
      have hlex : (Lexer.ofCursor source false cursor).scanner.lex = _ := h.lex
      rw [Lexer.next]
      simp only [hlex]
      rfl

theorem Fits.peek (h : Fits source cursor) (peeked : Bool) :
    (Lexer.ofCursor source peeked cursor).peek =
      .ok (cursor.lexeme.1, .ofCursor source true cursor) := by
  rw [Lexer.peek, h.next, ok_bind]
  rfl

theorem Fits.code (h : Fits source cursor) :
    (Lexer.ofCursor source false cursor).code =
      .ok (cursor.codeBlock.map fun (text, span, _) => (text, span),
        .ofCursor source false cursor.code.2) := by
  have hread : (Lexer.ofCursor source false cursor).scanner.nextCode = _ := h.nextCode
  have hpending : ¬(Lexer.ofCursor source false cursor).pending.isSome = true := Bool.false_ne_true
  rw [Lexer.code, if_neg hpending, hread, ok_bind, Cursor.codeBlock]
  by_cases hkind : cursor.code.1.kind = .code
  · simp only [hkind, if_true]
    rfl
  · simp only [hkind, if_false]
    rfl

/-- A block of code leaves the lexer where it leaves the cursor. -/
theorem code_next {text : String} {span : Span} {next : Cursor}
    (hcode : cursor.codeBlock = .ok (text, span, next)) : cursor.code.2 = next := by
  rw [Cursor.codeBlock] at hcode
  by_cases hkind : cursor.code.1.kind = .code
  · simp only [hkind, if_true, Except.ok.injEq, Prod.mk.injEq] at hcode
    exact hcode.2.2
  · simp only [hkind, if_false] at hcode
    cases hcode

end Lexemes

end Lookml.Checked
