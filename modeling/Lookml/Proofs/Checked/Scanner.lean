import Lookml.Proofs.Token.Lossless
import Lookml.Proofs.Token.Spelling

/-!
Scanning with every operation checked that could go wrong. A scanner counts its position
in 32 bits and cuts its texts at offsets of bytes, of which not all lie between two
characters. In a text whose offsets fit into 32 bits nothing goes wrong, and the scanner
gives what a cursor gives.
-/

namespace Lookml.Checked

/-- What could go wrong in a reading besides the text. -/
inductive Trap
  /-- A slice reaches out of its text, or splits a character. -/
  | slice
  /-- A position does not fit into 32 bits. -/
  | overflow
  /-- A span ends in front of its start. -/
  | reversed
  /-- A block of code is asked for behind a lexeme that was only looked at. -/
  | pending
  /-- A numeral stands for no number. -/
  | numeral
  /-- A quoted text ends with a backslash. -/
  | escape
  /-- A scope is left that was not entered. -/
  | depth
  /-- A loop goes round without reading anything. -/
  | stalled
deriving DecidableEq

/-- Nothing is checked behind what goes right. -/
@[simp] theorem ok_bind {α β : Type} (a : α) (f : α → Except Trap β) :
    ((Except.ok a : Except Trap α) >>= f) = f a := rfl

/-! Slices of a text, from and to offsets that have to lie between two of its
characters. -/

def Splits (source : List Char) (offset : Nat) : Prop :=
  byteLength (takeBytes offset source) = offset

instance (source : List Char) (offset : Nat) : Decidable (Splits source offset) :=
  inferInstanceAs (Decidable (_ = _))

def sliceFrom (source : List Char) (start : Nat) : Except Trap (List Char) :=
  if Splits source start then .ok (dropBytes start source) else .error .slice

def slice (source : List Char) (start stop : Nat) : Except Trap (List Char) :=
  if start ≤ stop ∧ Splits source start ∧ Splits source stop then
    .ok ((⟨start, stop⟩ : Span).slice source)
  else .error .slice

def span (start stop : Nat) : Except Trap Span :=
  if start ≤ stop then .ok ⟨start, stop⟩ else .error .reversed

theorem splits_append (front back : List Char) : Splits (front ++ back) (byteLength front) :=
  congrArg byteLength (takeBytes_byteLength front back)

theorem sliceFrom_append (front back : List Char) :
    sliceFrom (front ++ back) (byteLength front) = .ok back := by
  rw [sliceFrom, if_pos (splits_append front back), dropBytes_byteLength]

theorem slice_append (front text back : List Char) :
    slice (front ++ (text ++ back)) (byteLength front) (byteLength front + byteLength text) =
      .ok text := by
  have hstop := splits_append (front ++ text) back
  rw [List.append_assoc, byteLength_append] at hstop
  rw [slice, if_pos ⟨Nat.le_add_right _ _, splits_append _ _, hstop⟩, Span.slice_append]

example : slice ['a', 'é'] 1 2 = .error .slice := rfl

/-- What is not yet scanned of a text, and where it starts. -/
structure Scanner where
  source : List Char
  rest : List Char
  position : Nat
deriving DecidableEq

namespace Scanner

def ofText (source : List Char) : Scanner := ⟨source, source, 0⟩

def peek (scanner : Scanner) : Option Char := scanner.rest.head?

def peekNth (scanner : Scanner) (index : Nat) : Option Char := scanner.rest[index]?

/-- Moves by so many bytes. The number is cut to 32 bits before it is added, the sum is
not. -/
def advanceBy (scanner : Scanner) (bytes : Nat) : Except Trap Scanner := do
  let position := scanner.position + bytes % 2 ^ 32
  if position < 2 ^ 32 then
    let rest ← sliceFrom scanner.rest bytes
    return ⟨scanner.source, rest, position⟩
  else throw .overflow

/-- Moves by a character, if there is one. -/
def advance (scanner : Scanner) : Except Trap (Option Char × Scanner) :=
  match scanner.peek with
  | none => return (none, scanner)
  | some c => do
      let next ← scanner.advanceBy c.utf8Size
      return (some c, next)

def advanceWhile (belongs : Char → Bool) (scanner : Scanner) : Except Trap Scanner :=
  match scanner.peek with
  | none => return scanner
  | some c =>
      if belongs c then do
        let (_, next) ← scanner.advance
        if _h : next.rest.length < scanner.rest.length then advanceWhile belongs next
        else throw .stalled
      else return scanner
termination_by scanner.rest.length

/-- The token from a start up to the scanner. -/
def token (scanner : Scanner) (kind : Token.Kind) (start : Nat) :
    Except Trap (Token × Scanner) := do
  let span ← span start scanner.position
  let text ← slice scanner.source span.start span.stop
  return (⟨kind, span, text⟩, scanner)

/-- A token of one character. -/
def single (scanner : Scanner) (kind : Token.Kind) : Except Trap (Token × Scanner) := do
  let (_, next) ← scanner.advance
  next.token kind scanner.position

/-- A token of the characters at the front that belong to it. -/
def run (scanner : Scanner) (kind : Token.Kind) (belongs : Char → Bool) :
    Except Trap (Token × Scanner) := do
  let next ← scanner.advanceWhile belongs
  next.token kind scanner.position

def isDigitAt (scanner : Scanner) (index : Nat) : Bool :=
  ((scanner.peekNth index).map Char.isDigit).getD false

def sign (scanner : Scanner) : Except Trap Scanner :=
  if scanner.peek = some '-' then do
    let (_, next) ← scanner.advance
    return next
  else return scanner

/-- Moves behind so many characters and the digits that follow, if any do. -/
def digitsBehind (scanner : Scanner) (front : Nat) : Except Trap Scanner :=
  if scanner.isDigitAt front then do
    let next ← scanner.advanceBy front
    next.advanceWhile Char.isDigit
  else return scanner

def fraction (scanner : Scanner) : Except Trap Scanner :=
  if scanner.peek = some '.' then scanner.digitsBehind 1 else return scanner

def exponent (scanner : Scanner) : Except Trap Scanner :=
  if scanner.peek = some 'e' ∨ scanner.peek = some 'E' then
    scanner.digitsBehind
      (if scanner.peekNth 1 = some '+' ∨ scanner.peekNth 1 = some '-' then 2 else 1)
  else return scanner

/-- Moves behind a numeral. -/
def passNumeral (scanner : Scanner) : Except Trap Scanner := do
  let signed ← scanner.sign
  let whole ← signed.advanceWhile Char.isDigit
  let fractional ← whole.fraction
  fractional.exponent

/-- A numeral, or a word that starts like one. -/
def numeral (scanner : Scanner) : Except Trap (Token × Scanner) := do
  let last ← scanner.passNumeral
  if (last.peek.map isWordPart).getD false then
    let next ← last.advanceWhile isWordPart
    next.token .invalid scanner.position
  else last.token .numeral scanner.position

/-- Moves behind the closing quote, if there is one, and to the end of the text
otherwise. -/
def closeQuote (scanner : Scanner) : Except Trap (Bool × Scanner) := do
  let (read, next) ← scanner.advance
  match read with
  | none => return (false, next)
  | some '"' => return (true, next)
  | some '\\' =>
      let (_, next) ← next.advance
      if _h : next.rest.length < scanner.rest.length then next.closeQuote else throw .stalled
  | some _ =>
      if _h : next.rest.length < scanner.rest.length then next.closeQuote else throw .stalled
termination_by scanner.rest.length

def quoted (scanner : Scanner) : Except Trap (Token × Scanner) := do
  let (_, next) ← scanner.advance
  let (closed, last) ← next.closeQuote
  last.token (if closed then .quoted else .invalid) scanner.position

/-- The token that starts with a character. -/
def tokenFrom (scanner : Scanner) (c : Char) : Except Trap (Token × Scanner) :=
  if c = '"' then scanner.quoted
  else if c = '\r' ∧ scanner.peekNth 1 = some '\n' then do
    let next ← scanner.advanceBy 2
    next.token .newline scanner.position
  else
    match Token.kindOfMark? c with
    | some kind => scanner.single kind
    | none =>
        if c = '#' then scanner.run .comment fun d => !Token.isLineEnd d
        else if Token.isSpace c then scanner.run .blank Token.isSpace
        else if isWordStart c then scanner.run .word isWordPart
        else if c.isDigit ∨ (c = '-' ∨ c = '.') ∧ scanner.isDigitAt 1 then scanner.numeral
        else scanner.single .invalid

def nextToken (scanner : Scanner) : Except Trap (Token × Scanner) :=
  match scanner.peek with
  | none => scanner.token .endOfInput scanner.position
  | some c => scanner.tokenFrom c

/-- The offset of the first `;;` in what is left. -/
def findCodeEnd (scanner : Scanner) : Option Nat :=
  (Token.splitCode scanner.rest).map fun (text, _) => byteLength text

def nextCode (scanner : Scanner) : Except Trap (Token × Scanner) :=
  match scanner.findCodeEnd with
  | some length => do
      let last ← scanner.advanceBy length
      let (token, _) ← last.token .code scanner.position
      let next ← last.advanceBy (byteLength [';', ';'])
      return (token, next)
  | none => do
      let last ← scanner.advanceBy (byteLength scanner.rest)
      last.token .invalid scanner.position

/-! What a scanner does where a cursor stands. -/

/-- A scanner at a place where a cursor stands. -/
def ofCursor (source : List Char) (cursor : Cursor) : Scanner :=
  ⟨source, cursor.rest, cursor.offset⟩

end Scanner

/-- A cursor stands in a text whose offsets fit into 32 bits. -/
structure Fits (source : List Char) (cursor : Cursor) : Prop where
  stands : cursor.Stands source
  size : byteLength source < 2 ^ 32

/-- What a scanner gives where a cursor takes a piece of the text. -/
def took (source : List Char) (cursor : Cursor) (piece : Token.Piece) : Token × Scanner :=
  (⟨piece.kind, cursor.spanTo (cursor.past piece.text piece.rest), piece.text⟩,
    .ofCursor source (cursor.past piece.text piece.rest))

section Moves
variable {source text rest : List Char} {cursor : Cursor}

theorem Fits.past (h : Fits source cursor) (hrest : text ++ rest = cursor.rest) :
    Fits source (cursor.past text rest) :=
  ⟨(h.stands.past hrest).1, h.size⟩

theorem Fits.advanceBy (h : Fits source cursor) (hrest : text ++ rest = cursor.rest) :
    (Scanner.ofCursor source cursor).advanceBy (byteLength text) =
      .ok (.ofCursor source (cursor.past text rest)) := by
  have hle : cursor.offset + byteLength text ≤ byteLength source := (h.past hrest).stands.offset_le
  have hsize := h.size
  have hfits : byteLength text % 2 ^ 32 = byteLength text := Nat.mod_eq_of_lt (by omega)
  have hroom : cursor.offset + byteLength text < 2 ^ 32 := by omega
  simp only [Scanner.advanceBy, Scanner.ofCursor, hfits, hroom, if_true, ← hrest,
    sliceFrom_append, ok_bind]
  rfl

/-- Behind a text too long to fit, the position does not either. -/
example : (⟨[], ['a'], 2 ^ 32 - 1⟩ : Scanner).advanceBy 1 = .error .overflow := rfl

theorem Fits.advance {c : Char} (h : Fits source cursor) (hrest : c :: rest = cursor.rest) :
    (Scanner.ofCursor source cursor).advance =
      .ok (some c, .ofCursor source (cursor.past [c] rest)) := by
  have hpeek : (Scanner.ofCursor source cursor).peek = some c := congrArg List.head? hrest.symm
  have hone : [c] ++ rest = cursor.rest := hrest
  have hmove : (Scanner.ofCursor source cursor).advanceBy c.utf8Size = _ := h.advanceBy hone
  simp only [Scanner.advance, hpeek, hmove, ok_bind]
  rfl

theorem advance_end (h : cursor.rest = []) : (Scanner.ofCursor source cursor).advance =
    .ok (none, .ofCursor source cursor) := by
  have hpeek : (Scanner.ofCursor source cursor).peek = none := congrArg List.head? h
  rw [Scanner.advance, hpeek]
  rfl

theorem Fits.token (h : Fits source cursor) (hrest : text ++ rest = cursor.rest)
    (kind : Token.Kind) :
    (Scanner.ofCursor source (cursor.past text rest)).token kind
        (Scanner.ofCursor source cursor).position =
      .ok (took source cursor ⟨kind, text, rest⟩) := by
  obtain ⟨front, hsource, hoffset⟩ := Cursor.stands_iff.mp h.stands
  have hslice : slice source cursor.offset (cursor.offset + byteLength text) = .ok text := by
    rw [hsource, hoffset, ← hrest]
    exact slice_append front text rest
  simp only [Scanner.token, span, Scanner.ofCursor, Cursor.past, Nat.le_add_right, if_true, ok_bind,
    hslice]
  rfl

theorem past_past (cursor : Cursor) (text more rest between : List Char) :
    (cursor.past text between).past more rest = cursor.past (text ++ more) rest := by
  simp only [Cursor.past, byteLength_append, Nat.add_assoc]

theorem past_nil (h : cursor.rest = rest) : cursor.past [] rest = cursor := h ▸ rfl

theorem Fits.advanceWhile (h : Fits source cursor) (belongs : Char → Bool) :
    (Scanner.ofCursor source cursor).advanceWhile belongs =
      .ok (.ofCursor source
        (cursor.past (cursor.rest.takeWhile belongs) (cursor.rest.dropWhile belongs))) := by
  induction hcs : cursor.rest generalizing cursor with
  | nil =>
      have hpeek : (Scanner.ofCursor source cursor).peek = none := congrArg List.head? hcs
      rw [Scanner.advanceWhile, hpeek, List.takeWhile_nil, List.dropWhile_nil, past_nil hcs]
      rfl
  | cons c cs ih =>
      have hpeek : (Scanner.ofCursor source cursor).peek = some c := congrArg List.head? hcs
      rw [Scanner.advanceWhile, hpeek]
      cases hc : belongs c with
      | false =>
          have hneg : ¬belongs c = true := by simp [hc]
          rw [List.takeWhile_cons_of_neg hneg, List.dropWhile_cons_of_neg hneg, past_nil hcs]
          exact if_neg hneg
      | true =>
          have hone : [c] ++ cs = cursor.rest := hcs.symm
          have hshorter : (Scanner.ofCursor source (cursor.past [c] cs)).rest.length <
              (Scanner.ofCursor source cursor).rest.length := by
            simp [Scanner.ofCursor, Cursor.past, hcs]
          rw [List.takeWhile_cons_of_pos hc, List.dropWhile_cons_of_pos hc]
          simp only [h.advance hcs.symm, ok_bind]
          rw [if_pos hc, dif_pos hshorter, ih (h.past hone) rfl, past_past]
          rfl

end Moves

/-! Tokens. -/

section Tokens
variable {source : List Char} {cursor : Cursor}

theorem Fits.single {c : Char} {cs : List Char} (h : Fits source cursor)
    (hrest : c :: cs = cursor.rest) (kind : Token.Kind) :
    (Scanner.ofCursor source cursor).single kind = .ok (took source cursor ⟨kind, [c], cs⟩) := by
  have hone : [c] ++ cs = cursor.rest := hrest
  rw [Scanner.single, h.advance hrest, ok_bind]
  exact h.token hone kind

theorem Fits.run (h : Fits source cursor) (kind : Token.Kind) (belongs : Char → Bool) :
    (Scanner.ofCursor source cursor).run kind belongs =
      .ok (took source cursor (Token.run kind belongs cursor.rest)) := by
  rw [Scanner.run, h.advanceWhile, ok_bind]
  exact h.token List.takeWhile_append_dropWhile kind

theorem peek_eq_some_iff {c : Char} :
    (Scanner.ofCursor source cursor).peek = some c ↔ ∃ cs, c :: cs = cursor.rest := by
  constructor
  · intro hhead
    obtain ⟨cs, hcs⟩ := List.head?_eq_some_iff.mp hhead
    exact ⟨cs, hcs.symm⟩
  · rintro ⟨cs, hcs⟩
    exact congrArg List.head? hcs.symm

theorem Fits.sign (h : Fits source cursor) :
    (Scanner.ofCursor source cursor).sign =
      .ok (.ofCursor source (cursor.past
        (if (Numeral.splitSign cursor.rest).1 then ['-'] else [])
        (Numeral.splitSign cursor.rest).2)) := by
  by_cases hpeek : (Scanner.ofCursor source cursor).peek = some '-'
  · obtain ⟨cs, hcs⟩ := peek_eq_some_iff.mp hpeek
    simp only [Scanner.sign, hpeek, if_true, h.advance hcs, ok_bind]
    rw [← hcs]
    rfl
  · have hsplit : Numeral.splitSign cursor.rest = (false, cursor.rest) := by
      unfold Numeral.splitSign
      split
      · exact absurd (peek_eq_some_iff.mpr ⟨_, Eq.symm ‹_›⟩) hpeek
      · rfl
    rw [hsplit]
    exact if_neg hpeek

theorem Fits.digitsBehind {front after : List Char} (h : Fits source cursor)
    (hrest : front ++ after = cursor.rest) (hfront : byteLength front = front.length) :
    (Scanner.ofCursor source cursor).digitsBehind front.length =
      .ok (.ofCursor source
        (if (after.head?.map Char.isDigit).getD false then
          cursor.past (front ++ after.takeWhile Char.isDigit) (after.dropWhile Char.isDigit)
        else cursor)) := by
  have hdigit : (Scanner.ofCursor source cursor).isDigitAt front.length =
      (after.head?.map Char.isDigit).getD false := by
    simp only [Scanner.isDigitAt, Scanner.peekNth, Scanner.ofCursor, ← hrest,
      List.getElem?_append_right (Nat.le_refl _), Nat.sub_self, List.head?_eq_getElem?]
  have hmove := h.advanceBy hrest
  rw [hfront] at hmove
  simp only [Scanner.digitsBehind, hdigit, hmove, ok_bind, (h.past hrest).advanceWhile]
  split
  · rw [past_past]
    rfl
  · rfl

private theorem splitFraction_point (after : List Char) :
    Numeral.splitFraction (['.'] ++ after) =
      if (after.head?.map Char.isDigit).getD false then
        (after.takeWhile Char.isDigit, after.dropWhile Char.isDigit)
      else ([], ['.'] ++ after) := by
  cases after <;> rfl

theorem Fits.fraction (h : Fits source cursor) :
    (Scanner.ofCursor source cursor).fraction =
      .ok (.ofCursor source (cursor.past
        (if (Numeral.splitFraction cursor.rest).1.isEmpty then []
          else '.' :: (Numeral.splitFraction cursor.rest).1)
        (Numeral.splitFraction cursor.rest).2)) := by
  by_cases hpeek : (Scanner.ofCursor source cursor).peek = some '.'
  · obtain ⟨after, hcs⟩ := peek_eq_some_iff.mp hpeek
    have hpoint : ['.'] ++ after = cursor.rest := hcs
    have hmove : (Scanner.ofCursor source cursor).digitsBehind 1 = _ := h.digitsBehind hpoint rfl
    rw [Scanner.fraction, if_pos hpeek, hmove, ← hpoint, splitFraction_point]
    by_cases hdigit : (after.head?.map Char.isDigit).getD false = true
    · have hsome : (after.takeWhile Char.isDigit).isEmpty = false := by
        cases after with
        | nil => cases hdigit
        | cons c after =>
            have hc : c.isDigit = true := hdigit
            simp [hc]
      rw [if_pos hdigit, if_pos hdigit, hsome]
      rfl
    · rw [if_neg hdigit, if_neg hdigit]
      exact congrArg (Except.ok ∘ Scanner.ofCursor source) (past_nil hcs.symm).symm
  · have hsplit : Numeral.splitFraction cursor.rest = ([], cursor.rest) := by
      unfold Numeral.splitFraction
      split
      · exact absurd (peek_eq_some_iff.mpr ⟨_, Eq.symm ‹_›⟩) hpeek
      · rfl
    rw [hsplit]
    exact if_neg hpeek

private theorem split?_signed {mark sign : Char} (hmark : mark = 'e' ∨ mark = 'E')
    (hsign : sign = '+' ∨ sign = '-') (after : List Char) :
    Exponent.split? ([mark, sign] ++ after) =
      if (after.head?.map Char.isDigit).getD false then
        some (⟨mark, some sign, after.takeWhile Char.isDigit⟩, after.dropWhile Char.isDigit)
      else none := by
  rcases hmark with rfl | rfl <;> rcases hsign with rfl | rfl <;> cases after <;> rfl

private theorem split?_unsigned {mark : Char} {cs : List Char} (hmark : mark = 'e' ∨ mark = 'E')
    (hsign : ∀ sign after, sign :: after = cs → sign ≠ '+' ∧ sign ≠ '-') :
    Exponent.split? ([mark] ++ cs) =
      if (cs.head?.map Char.isDigit).getD false then
        some (⟨mark, none, cs.takeWhile Char.isDigit⟩, cs.dropWhile Char.isDigit)
      else none := by
  cases cs with
  | nil => rcases hmark with rfl | rfl <;> rfl
  | cons c cs =>
      obtain ⟨hplus, hminus⟩ := hsign c cs rfl
      rcases hmark with rfl | rfl <;> simp [Exponent.split?, hplus, hminus] <;> rfl

theorem Fits.exponent (h : Fits source cursor) :
    (Scanner.ofCursor source cursor).exponent =
      .ok (.ofCursor source
        (match Exponent.split? cursor.rest with
        | some (exponent, rest) => cursor.past exponent.text rest
        | none => cursor)) := by
  by_cases hexponent : ∃ mark, (mark = 'e' ∨ mark = 'E') ∧
      (Scanner.ofCursor source cursor).peek = some mark
  · obtain ⟨mark, hmark, hpeek⟩ := hexponent
    obtain ⟨cs, hcs⟩ := peek_eq_some_iff.mp hpeek
    have hnext : (Scanner.ofCursor source cursor).peekNth 1 = cs.head? := by
      rw [List.head?_eq_getElem?]
      exact congrArg (·[1]?) hcs.symm
    have hcond : some mark = some 'e' ∨ some mark = some 'E' := by simpa using hmark
    rw [Scanner.exponent, hpeek, if_pos hcond, hnext]
    by_cases hsigned : ∃ sign after, (sign = '+' ∨ sign = '-') ∧ sign :: after = cs
    · obtain ⟨sign, after, hsign, rfl⟩ := hsigned
      have hascii : byteLength [mark, sign] = 2 := by
        rcases hmark with rfl | rfl <;> rcases hsign with rfl | rfl <;> rfl
      have hrest : [mark, sign] ++ after = cursor.rest := hcs
      have hmove : (Scanner.ofCursor source cursor).digitsBehind 2 = _ :=
        h.digitsBehind hrest hascii
      rw [if_pos (by simpa using hsign), hmove, ← hrest, split?_signed hmark hsign]
      split <;> rfl
    · have hsign : ∀ sign after, sign :: after = cs → sign ≠ '+' ∧ sign ≠ '-' := by
        rintro sign after heq
        exact not_or.mp fun hsign => hsigned ⟨sign, after, hsign, heq⟩
      have hascii : byteLength [mark] = 1 := by rcases hmark with rfl | rfl <;> rfl
      have hrest : [mark] ++ cs = cursor.rest := hcs
      have hmove : (Scanner.ofCursor source cursor).digitsBehind 1 = _ :=
        h.digitsBehind hrest hascii
      have hone : ¬(cs.head? = some '+' ∨ cs.head? = some '-') := by
        rintro (hhead | hhead) <;> obtain ⟨after, hafter⟩ := List.head?_eq_some_iff.mp hhead
        · exact (hsign _ after hafter.symm).1 rfl
        · exact (hsign _ after hafter.symm).2 rfl
      rw [if_neg hone, hmove, ← hrest, split?_unsigned hmark hsign]
      split <;> rfl
  · have hsplit : Exponent.split? cursor.rest = none := by
      cases hcs : cursor.rest with
      | nil => rfl
      | cons mark cs =>
          have hmark : ¬(mark == 'e' || mark == 'E') = true := fun hmark =>
            hexponent ⟨mark, by simpa using hmark, peek_eq_some_iff.mpr ⟨cs, hcs.symm⟩⟩
          exact if_neg hmark
    rw [hsplit]
    exact if_neg fun hpeek => hexponent (hpeek.elim (fun hpeek => ⟨_, .inl rfl, hpeek⟩)
      fun hpeek => ⟨_, .inr rfl, hpeek⟩)

theorem Fits.passNumeral (h : Fits source cursor) :
    (Scanner.ofCursor source cursor).passNumeral =
      .ok (.ofCursor source
        (cursor.past (Numeral.split cursor.rest).1.text (Numeral.split cursor.rest).2)) := by
  have hsigned := h.past (Numeral.splitSign_append cursor.rest)
  have hwhole := hsigned.past (List.takeWhile_append_dropWhile (p := Char.isDigit))
  have hfractional := hwhole.past (Numeral.splitFraction_append _)
  rw [Scanner.passNumeral, h.sign, ok_bind, hsigned.advanceWhile, ok_bind, hwhole.fraction, ok_bind,
    hfractional.exponent]
  congr 2
  cases hexponent : Exponent.split? (Numeral.splitFraction
      ((Numeral.splitSign cursor.rest).2.dropWhile Char.isDigit)).2 with
  | none =>
      simp only [Cursor.past, hexponent, Numeral.split, Numeral.text, byteLength_append,
        Option.map_none, Option.getD_none, byteLength_nil, Nat.add_assoc, Nat.add_zero]
  | some found =>
      simp only [Cursor.past, hexponent, Numeral.split, Numeral.text, byteLength_append,
        Option.map_some, Option.getD_some, Nat.add_assoc]

theorem Fits.numeral (h : Fits source cursor) :
    (Scanner.ofCursor source cursor).numeral =
      .ok (took source cursor (Token.numeral cursor.rest)) := by
  have happend := Numeral.split_append cursor.rest
  have hlast := h.past happend
  have hword : ((Scanner.ofCursor source (cursor.past (Numeral.split cursor.rest).1.text
      (Numeral.split cursor.rest).2)).peek.map isWordPart).getD false =
        !((Numeral.split cursor.rest).2.takeWhile isWordPart).isEmpty := by
    simp only [Scanner.ofCursor, Scanner.peek, Cursor.past]
    cases (Numeral.split cursor.rest).2 with
    | nil => rfl
    | cons c cs => cases hc : isWordPart c <;> simp [hc]
  rw [Scanner.numeral, h.passNumeral, ok_bind, hword]
  cases hbreak : ((Numeral.split cursor.rest).2.takeWhile isWordPart).isEmpty with
  | true =>
      simp only [Token.numeral, hbreak, if_true]
      exact h.token happend .numeral
  | false =>
      have hall : ((Numeral.split cursor.rest).1.text ++
          (Numeral.split cursor.rest).2.takeWhile isWordPart) ++
            (Numeral.split cursor.rest).2.dropWhile isWordPart = cursor.rest := by
        rw [List.append_assoc, List.takeWhile_append_dropWhile, happend]
      simp only [Token.numeral, hbreak, Bool.not_false, if_true, Bool.false_eq_true, if_false]
      rw [hlast.advanceWhile, ok_bind, past_past]
      exact h.token hall .invalid

theorem Fits.closeQuote (h : Fits source cursor) :
    (Scanner.ofCursor source cursor).closeQuote =
      .ok ((Quoted.split cursor.rest).2.isSome,
        .ofCursor source (cursor.past (Quoted.split cursor.rest).1
          ((Quoted.split cursor.rest).2.getD []))) := by
  induction hcs : cursor.rest using Quoted.split.induct generalizing cursor with
  | case1 =>
      rw [Scanner.closeQuote, advance_end hcs, ok_bind, Quoted.split,
        Option.getD_none, past_nil hcs]
      rfl
  | case2 cs =>
      rw [Scanner.closeQuote, h.advance hcs.symm, ok_bind]
      rfl
  | case3 c cs front after hsplit ih =>
      have hback : ['\\'] ++ c :: cs = cursor.rest := hcs.symm
      have hescaped : [c] ++ cs = (cursor.past ['\\'] (c :: cs)).rest := rfl
      have hlater := ih ((h.past hback).past hescaped) rfl
      have hshorter : (Scanner.ofCursor source
          ((cursor.past ['\\'] (c :: cs)).past [c] cs)).rest.length <
            (Scanner.ofCursor source cursor).rest.length := by
        simp only [Scanner.ofCursor, Cursor.past, hcs, List.length_cons]
        omega
      rw [Scanner.closeQuote, h.advance hcs.symm, ok_bind]
      simp only [(h.past hback).advance rfl, ok_bind]
      rw [dif_pos hshorter, hlater, past_past, past_past]
      rfl
  | case4 c cs hquote hescape front after hsplit ih =>
      have hone : [c] ++ cs = cursor.rest := hcs.symm
      have hlater := ih (h.past hone) rfl
      have hshorter : (Scanner.ofCursor source (cursor.past [c] cs)).rest.length <
          (Scanner.ofCursor source cursor).rest.length := by
        simp [Scanner.ofCursor, Cursor.past, hcs]
      have hwhole : Quoted.split (c :: cs) = (c :: (Quoted.split cs).1, (Quoted.split cs).2) :=
        Quoted.split.eq_4 c cs hquote hescape
      rw [Scanner.closeQuote, h.advance hcs.symm, ok_bind, hwhole]
      by_cases hback : c = '\\'
      · -- Behind a backslash at the end nothing is left to be passed over.
        subst hback
        have hnil : (cursor.past ['\\'] cs).rest = [] := by
          cases cs with
          | nil => rfl
          | cons d ds => exact (hescape d ds rfl rfl).elim
        simp only [advance_end hnil, ok_bind]
        rw [dif_pos hshorter, hlater, past_past]
        rfl
      · simp only
        rw [dif_pos hshorter, hlater, past_past]
        rfl

theorem Fits.quoted {cs : List Char} (h : Fits source cursor) (hrest : '"' :: cs = cursor.rest) :
    (Scanner.ofCursor source cursor).quoted = .ok (took source cursor (Token.quoted cs)) := by
  have hone : ['"'] ++ cs = cursor.rest := hrest
  have happend := Quoted.split_append cs
  have hclose : (Scanner.ofCursor source (cursor.past ['"'] cs)).closeQuote =
      .ok ((Quoted.split cs).2.isSome, .ofCursor source
        ((cursor.past ['"'] cs).past (Quoted.split cs).1 ((Quoted.split cs).2.getD []))) :=
    (h.past hone).closeQuote
  have hall : ('"' :: (Quoted.split cs).1) ++ (Quoted.split cs).2.getD [] = cursor.rest := by
    rw [List.cons_append, happend]
    exact hrest
  have hpiece : Token.quoted cs =
      ⟨if (Quoted.split cs).2.isSome then .quoted else .invalid, '"' :: (Quoted.split cs).1,
        (Quoted.split cs).2.getD []⟩ := by
    unfold Token.quoted
    split <;> rename_i hsplit <;> rw [hsplit] <;> rfl
  rw [Scanner.quoted, h.advance hrest, ok_bind, hpiece]
  simp only [hclose, ok_bind, past_past]
  exact h.token hall _

theorem Fits.tokenFrom {c : Char} {cs : List Char} (h : Fits source cursor)
    (hrest : c :: cs = cursor.rest) :
    (Scanner.ofCursor source cursor).tokenFrom c =
      .ok (took source cursor (Token.cut (c :: cs))) := by
  have hnext : (Scanner.ofCursor source cursor).peekNth 1 = cs.head? := by
    rw [List.head?_eq_getElem?]
    exact congrArg (·[1]?) hrest.symm
  have hdigit : (Scanner.ofCursor source cursor).isDigitAt 1 =
      (cs.head?.map Char.isDigit).getD false := by
    rw [Scanner.isDigitAt, hnext]
  unfold Token.cut
  split
  · rename_i heq
    cases heq
  · rename_i cs' heq
    obtain ⟨rfl, rfl⟩ := List.cons.inj heq
    have hline : ['\r', '\n'] ++ cs' = cursor.rest := hrest
    have hmove : (Scanner.ofCursor source cursor).advanceBy 2 = _ := h.advanceBy hline
    rw [Scanner.tokenFrom, if_neg (by decide), if_pos ⟨rfl, hnext⟩, hmove, ok_bind]
    exact h.token hline .newline
  · rename_i cs' heq
    obtain ⟨rfl, rfl⟩ := List.cons.inj heq
    exact h.quoted hrest
  · rename_i c' cs' hreturn hquote heq
    obtain ⟨rfl, rfl⟩ := List.cons.inj heq
    have hnotQuote : ¬c = '"' := by
      rintro rfl
      exact hquote rfl
    have hnotLine : ¬(c = '\r' ∧ (Scanner.ofCursor source cursor).peekNth 1 = some '\n') := by
      rintro ⟨rfl, hline⟩
      obtain ⟨cs', rfl⟩ := List.head?_eq_some_iff.mp (hnext.symm.trans hline)
      exact hreturn _ rfl rfl
    have hnumeral : (c.isDigit = true ∨ (c = '-' ∨ c = '.') ∧
        (Scanner.ofCursor source cursor).isDigitAt 1 = true) ↔
          Token.startsNumeral (c :: cs) = true := by
      simp [hdigit, Token.startsNumeral]
    have hrun (kind : Token.Kind) (belongs : Char → Bool) := h.run kind belongs
    rw [← hrest] at hrun
    have hword := h.numeral
    rw [← hrest] at hword
    rw [Scanner.tokenFrom, if_neg hnotQuote, if_neg hnotLine]
    cases Token.kindOfMark? c with
    | some kind => exact h.single hrest kind
    | none =>
        simp only [beq_iff_eq, hnumeral]
        split
        · exact hrun _ _
        · split
          · exact hrun _ _
          · split
            · exact hrun _ _
            · split
              · exact hword
              · exact h.single hrest .invalid

theorem Fits.nextToken (h : Fits source cursor) :
    (Scanner.ofCursor source cursor).nextToken =
      .ok (cursor.token.1, .ofCursor source cursor.token.2) := by
  have htook : (cursor.token.1, Scanner.ofCursor source cursor.token.2) =
      took source cursor (Token.cut cursor.rest) := rfl
  rw [htook]
  cases hcs : cursor.rest with
  | nil =>
      have hpeek : (Scanner.ofCursor source cursor).peek = none := congrArg List.head? hcs
      have hempty : [] ++ [] = cursor.rest := hcs.symm
      have htoken := h.token hempty .endOfInput
      rw [past_nil hcs] at htoken
      rw [Scanner.nextToken, hpeek]
      exact htoken
  | cons c cs =>
      rw [Scanner.nextToken, peek_eq_some_iff.mpr ⟨cs, hcs.symm⟩]
      exact h.tokenFrom hcs.symm

theorem Fits.nextCode (h : Fits source cursor) :
    (Scanner.ofCursor source cursor).nextCode =
      .ok (cursor.code.1, .ofCursor source cursor.code.2) := by
  cases hsplit : Token.splitCode cursor.rest with
  | none =>
      have hfind : (Scanner.ofCursor source cursor).findCodeEnd = none := by
        simp [Scanner.findCodeEnd, Scanner.ofCursor, hsplit]
      have hall : cursor.rest ++ [] = cursor.rest := List.append_nil _
      have hmove : (Scanner.ofCursor source cursor).advanceBy
          (byteLength (Scanner.ofCursor source cursor).rest) = _ := h.advanceBy hall
      simp only [Scanner.nextCode, hfind, hmove, ok_bind, Cursor.code, hsplit]
      exact h.token hall .invalid
  | some found =>
      obtain ⟨text, rest⟩ := found
      have hfind : (Scanner.ofCursor source cursor).findCodeEnd = some (byteLength text) := by
        simp [Scanner.findCodeEnd, Scanner.ofCursor, hsplit]
      have hall : text ++ ([';', ';'] ++ rest) = cursor.rest := Token.splitCode_append hsplit
      have hmark : [';', ';'] ++ rest = (cursor.past text ([';', ';'] ++ rest)).rest := rfl
      simp only [Scanner.nextCode, hfind, h.advanceBy hall, ok_bind, Cursor.code, hsplit,
        h.token hall, (h.past hall).advanceBy hmark, past_past]
      rfl

end Tokens

end Lookml.Checked
