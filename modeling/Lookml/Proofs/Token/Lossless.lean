import Lookml.Proofs.Lexeme.CodeBlock

/-!
Cutting a text into tokens loses nothing. Whatever is asked of a cursor, and in whatever
order, it stands between two characters of the text, in front of all that is not yet read;
a token is the part of the text that its span covers, and starts where the one before left
off.
-/

namespace Lookml

/-- What a cursor can be asked for. -/
inductive Request
  | token
  | code
deriving DecidableEq

namespace Token

/-- The text that a token takes from the source. The end of a code block is passed over
with it. -/
def taken (token : Token) : List Char :=
  if token.kind = .code then token.text ++ [';', ';'] else token.text

theorem taken_of_code {token : Token} (h : token.kind = .code) :
    token.taken = token.text ++ [';', ';'] :=
  if_pos h

theorem taken_of_ne_code {token : Token} (h : token.kind ≠ .code) : token.taken = token.text :=
  if_neg h

private theorem kindOfMark?_spec {c : Char} {kind : Kind} (h : kindOfMark? c = some kind) :
    kind ≠ .code ∧ kind ≠ .endOfInput := by
  unfold kindOfMark? at h
  split at h <;> cases h <;> decide

/-- A code block is never cut unasked, and the end of the input only where nothing is
left. -/
theorem cut_kind {cs : List Char} (h : cs ≠ []) :
    (cut cs).kind ≠ .code ∧ (cut cs).kind ≠ .endOfInput := by
  unfold cut
  split
  · exact absurd rfl h
  · simp
  · unfold quoted
    split <;> simp
  · split
    · exact kindOfMark?_spec ‹_›
    · split
      · simp [run]
      · split
        · simp [run]
        · split
          · simp [run]
          · split
            · simp only [numeral]
              split <;> simp
            · simp

theorem cut_kind_ne_code (cs : List Char) : (cut cs).kind ≠ .code := by
  cases cs with
  | nil => decide
  | cons c cs => exact (cut_kind (List.cons_ne_nil c cs)).1

theorem cut_kind_eq_endOfInput {cs : List Char} : (cut cs).kind = .endOfInput ↔ cs = [] := by
  constructor
  · intro hkind
    cases cs with
    | nil => rfl
    | cons c cs => exact absurd hkind (cut_kind (List.cons_ne_nil c cs)).2
  · rintro rfl
    rfl

end Token

namespace Cursor

def serve (cursor : Cursor) : Request → Token × Cursor
  | .token => cursor.token
  | .code => cursor.code

/-- The tokens that a cursor gives, request after request. -/
def served (cursor : Cursor) : List Request → List Token
  | [] => []
  | request :: requests => (cursor.serve request).1 :: (cursor.serve request).2.served requests

def afterAll (cursor : Cursor) : List Request → Cursor
  | [] => cursor
  | request :: requests => (cursor.serve request).2.afterAll requests

/-- The offset lies between two characters of the source, and the rest is what follows
there. -/
structure Stands (source : List Char) (cursor : Cursor) : Prop where
  boundary : byteLength (takeBytes cursor.offset source) = cursor.offset
  rest : dropBytes cursor.offset source = cursor.rest

theorem stands_iff {source : List Char} {cursor : Cursor} :
    cursor.Stands source ↔
      ∃ front, source = front ++ cursor.rest ∧ cursor.offset = byteLength front := by
  constructor
  · rintro ⟨hboundary, hrest⟩
    refine ⟨takeBytes cursor.offset source, ?_, hboundary.symm⟩
    rw [← hrest, takeBytes_append_dropBytes]
  · rintro ⟨front, rfl, hoffset⟩
    constructor
    · rw [hoffset, takeBytes_byteLength]
    · rw [hoffset, dropBytes_byteLength]

theorem ofText_stands (source : List Char) : (ofText source).Stands source :=
  stands_iff.mpr ⟨[], rfl, rfl⟩

theorem Stands.append {source : List Char} {cursor : Cursor} (h : cursor.Stands source) :
    takeBytes cursor.offset source ++ cursor.rest = source := by
  rw [← h.rest, takeBytes_append_dropBytes]

theorem Stands.offset_le {source : List Char} {cursor : Cursor} (h : cursor.Stands source) :
    cursor.offset ≤ byteLength source := by
  have hlength := congrArg byteLength h.append
  rw [byteLength_append, h.boundary] at hlength
  omega

/-- Past some of the rest a cursor stands again, and the span of what it passed covers
that. -/
theorem Stands.past {source : List Char} {cursor : Cursor} (h : cursor.Stands source)
    {text rest : List Char} (hrest : text ++ rest = cursor.rest) :
    (cursor.past text rest).Stands source ∧
      takeBytes (cursor.past text rest).offset source = takeBytes cursor.offset source ++ text ∧
        (⟨cursor.offset, cursor.offset + byteLength text⟩ : Span).slice source = text := by
  obtain ⟨front, hsource, hoffset⟩ := stands_iff.mp h
  rw [← hrest] at hsource
  have hpast : (cursor.past text rest).offset = byteLength (front ++ text) := by
    rw [Cursor.past, hoffset, byteLength_append]
  refine ⟨stands_iff.mpr ⟨front ++ text, ?_, hpast⟩, ?_, ?_⟩
  · rw [hsource, List.append_assoc]
    rfl
  · rw [hpast, hoffset, hsource, takeBytes_byteLength, ← List.append_assoc, takeBytes_byteLength]
  · rw [hoffset, hsource]
    exact Span.slice_append front text rest

/-- A request moves a cursor past what it takes from the rest. -/
theorem serve_past (cursor : Cursor) (request : Request) :
    (cursor.serve request).2 =
        cursor.past (cursor.serve request).1.taken (cursor.serve request).2.rest ∧
      (cursor.serve request).1.taken ++ (cursor.serve request).2.rest = cursor.rest ∧
        (cursor.serve request).1.span =
          ⟨cursor.offset, cursor.offset + byteLength (cursor.serve request).1.text⟩ := by
  cases request with
  | token =>
      have htaken : cursor.token.1.taken = cursor.token.1.text :=
        Token.taken_of_ne_code (Token.cut_kind_ne_code cursor.rest)
      refine ⟨?_, ?_, rfl⟩
      · rw [serve, htaken]
        rfl
      · rw [serve, htaken]
        exact cursor.token_text_append
  | code =>
      cases hsplit : Token.splitCode cursor.rest with
      | none =>
          simp only [serve, code, hsplit]
          exact ⟨rfl, List.append_nil _, rfl⟩
      | some found =>
          obtain ⟨text, rest⟩ := found
          simp only [serve, code, hsplit]
          refine ⟨rfl, ?_, rfl⟩
          rw [← Token.splitCode_append hsplit]
          exact List.append_assoc ..

theorem serve_kind_eq_endOfInput (cursor : Cursor) (request : Request) :
    (cursor.serve request).1.kind = .endOfInput ↔ request = .token ∧ cursor.rest = [] := by
  cases request with
  | token =>
      simp only [serve, true_and]
      exact Token.cut_kind_eq_endOfInput
  | code => cases hsplit : Token.splitCode cursor.rest <;> simp [serve, code, hsplit]

theorem not_infix_of_serve_code {cursor : Cursor} {request : Request}
    (h : (cursor.serve request).1.kind = .code) :
    ¬[';', ';'] <:+: (cursor.serve request).1.text := by
  cases request with
  | token => exact absurd h (Token.cut_kind_ne_code cursor.rest)
  | code =>
      cases hsplit : Token.splitCode cursor.rest with
      | none => simp [serve, code, hsplit] at h
      | some found =>
          simp only [serve, code, hsplit]
          exact Token.splitCode_eq_none.mp (Token.splitCode_text_eq_none hsplit)

/-- What a request brings: a part of the source from the cursor on, and the cursor behind
it. -/
structure Serves (source : List Char) (cursor : Cursor) (request : Request) (token : Token)
    (next : Cursor) : Prop where
  starts : token.span.start = cursor.offset
  slice : token.span.slice source = token.text
  nonempty : request = .token → token.kind ≠ .endOfInput → token.text ≠ []
  endOfInput : token.kind = .endOfInput ↔ request = .token ∧ cursor.rest = []
  code : token.kind = .code → ¬[';', ';'] <:+: token.text ∧
    next.offset = token.span.stop + 2 ∧
      (⟨token.span.stop, token.span.stop + 2⟩ : Span).slice source = [';', ';']
  next : token.kind ≠ .code → next.offset = token.span.stop

theorem Stands.serves {source : List Char} {cursor : Cursor} (h : cursor.Stands source)
    (request : Request) :
    Serves source cursor request (cursor.serve request).1 (cursor.serve request).2 := by
  obtain ⟨hnext, hrest, hspan⟩ := cursor.serve_past request
  have hoffset : (cursor.serve request).2.offset =
      cursor.offset + byteLength (cursor.serve request).1.taken :=
    congrArg Cursor.offset hnext
  refine ⟨?_, ?_, ?_, cursor.serve_kind_eq_endOfInput request, ?_, ?_⟩
  · rw [hspan]
  · -- What is taken starts with the text of the token, whether or not `;;` is taken with it.
    rw [hspan]
    by_cases hkind : (cursor.serve request).1.kind = .code
    · rw [Token.taken_of_code hkind, List.append_assoc] at hrest
      exact (h.past hrest).2.2
    · rw [Token.taken_of_ne_code hkind] at hrest
      exact (h.past hrest).2.2
  · rintro rfl hkind
    exact Token.cut_text_ne_nil fun hnil => hkind (Token.cut_kind_eq_endOfInput.mpr hnil)
  · intro hkind
    rw [Token.taken_of_code hkind] at hrest hoffset
    rw [List.append_assoc] at hrest
    have hmark : [';', ';'] ++ (cursor.serve request).2.rest =
        (cursor.past (cursor.serve request).1.text
          ([';', ';'] ++ (cursor.serve request).2.rest)).rest := rfl
    refine ⟨not_infix_of_serve_code hkind, ?_, ?_⟩
    · rw [hoffset, hspan, byteLength_append]
      rfl
    · rw [hspan]
      exact ((h.past hrest).1.past hmark).2.2
  · intro hkind
    rw [hoffset, Token.taken_of_ne_code hkind, hspan]

/-- After any requests a cursor stands in the source, and what was taken on the way is all
that is in front of it. -/
theorem Stands.afterAll {source : List Char} {cursor : Cursor} (h : cursor.Stands source)
    (requests : List Request) :
    (cursor.afterAll requests).Stands source ∧
      takeBytes (cursor.afterAll requests).offset source =
        takeBytes cursor.offset source ++ (cursor.served requests).flatMap Token.taken := by
  induction requests generalizing cursor with
  | nil => exact ⟨h, (List.append_nil _).symm⟩
  | cons request requests ih =>
      obtain ⟨hnext, hrest, -⟩ := cursor.serve_past request
      have hpast := h.past hrest
      rw [← hnext] at hpast
      obtain ⟨hstands, htaken⟩ := ih hpast.1
      refine ⟨hstands, ?_⟩
      rw [Cursor.afterAll, htaken, hpast.2.1, served, List.flatMap_cons, List.append_assoc]

/-! The tokens of a text are what it gives when nothing but tokens is asked for, up to its
end. -/

theorem tokens_eq_served (cursor : Cursor) :
    cursor.tokens = cursor.served (List.replicate cursor.tokens.length .token) ∧
      (cursor.afterAll (List.replicate cursor.tokens.length .token)).rest = [] := by
  induction hlength : cursor.rest.length using Nat.strongRecOn generalizing cursor with
  | ind length ih =>
      by_cases hrest : cursor.rest = []
      · rw [tokens_of_rest_eq_nil hrest]
        exact ⟨rfl, hrest⟩
      · obtain ⟨htokens, hend⟩ := ih _ (hlength ▸ token_rest_length_lt hrest) cursor.token.2 rfl
        rw [tokens_of_rest_ne_nil hrest]
        exact ⟨congrArg (cursor.token.1 :: ·) htokens, hend⟩

theorem tokens_text (cursor : Cursor) : cursor.tokens.flatMap Token.text = cursor.rest := by
  induction hlength : cursor.rest.length using Nat.strongRecOn generalizing cursor with
  | ind length ih =>
      by_cases hrest : cursor.rest = []
      · rw [tokens_of_rest_eq_nil hrest, hrest, List.flatMap_nil]
      · have hlater := ih _ (hlength ▸ token_rest_length_lt hrest) cursor.token.2 rfl
        rw [tokens_of_rest_ne_nil hrest, List.flatMap_cons, hlater]
        exact cursor.token_text_append

theorem length_tokens_le (cursor : Cursor) : cursor.tokens.length ≤ cursor.rest.length := by
  induction hlength : cursor.rest.length using Nat.strongRecOn generalizing cursor with
  | ind length ih =>
      by_cases hrest : cursor.rest = []
      · rw [tokens_of_rest_eq_nil hrest]
        exact Nat.zero_le _
      · have hlt := token_rest_length_lt hrest
        have hlater := ih _ (hlength ▸ hlt) cursor.token.2 rfl
        rw [tokens_of_rest_ne_nil hrest, List.length_cons]
        omega

end Cursor

theorem length_le_byteLength (cs : List Char) : cs.length ≤ byteLength cs := by
  induction cs with
  | nil => exact Nat.le_refl 0
  | cons c cs ih =>
      have := Char.utf8Size_pos c
      rw [List.length_cons, byteLength_cons]
      omega

/-- Nothing of a text is lost, whatever is asked of a cursor in it, and every token moves
on. -/
theorem tokenization_lossless (source : List Char) (hsize : byteLength source < 2 ^ 32) :
    (∀ requests : List Request,
      ((Cursor.ofText source).afterAll requests).Stands source ∧
      ((Cursor.ofText source).afterAll requests).offset < 2 ^ 32 ∧
      ((Cursor.ofText source).served requests).flatMap Token.taken =
        takeBytes ((Cursor.ofText source).afterAll requests).offset source ∧
      ∀ request, Cursor.Serves source ((Cursor.ofText source).afterAll requests) request
        (((Cursor.ofText source).afterAll requests).serve request).1
        (((Cursor.ofText source).afterAll requests).serve request).2) ∧
    (tokensOf source).length ≤ byteLength source ∧
    (tokensOf source).flatMap Token.text = source ∧
    tokensOf source =
      (Cursor.ofText source).served (List.replicate (tokensOf source).length .token) ∧
    ((Cursor.ofText source).afterAll (List.replicate (tokensOf source).length .token)).rest =
      [] := by
  refine ⟨fun requests => ?_, ?_, ?_, ?_⟩
  · obtain ⟨hstands, htaken⟩ := (Cursor.ofText_stands source).afterAll requests
    refine ⟨hstands, Nat.lt_of_le_of_lt hstands.offset_le hsize, ?_, hstands.serves⟩
    have hfront : takeBytes (Cursor.ofText source).offset source = [] :=
      takeBytes_byteLength [] source
    rw [htaken, hfront, List.nil_append]
  · exact Nat.le_trans (Cursor.length_tokens_le _) (length_le_byteLength source)
  · exact Cursor.tokens_text _
  · exact Cursor.tokens_eq_served _

/-- A block of code is taken with its end, though it is asked for in the middle of a
text. -/
theorem tokenization_lossless_code :
    byteLength "sql:é;;\r\n".toList < 2 ^ 32 ∧
      ((Cursor.ofText "sql:é;;\r\n".toList).served [.token, .token, .code]).flatMap Token.taken =
        "sql:é;;".toList := by
  have hsize : byteLength "sql:é;;\r\n".toList < 2 ^ 32 := by decide
  refine ⟨hsize, ?_⟩
  rw [((tokenization_lossless _ hsize).1 [.token, .token, .code]).2.2.1]
  decide +kernel

end Lookml
