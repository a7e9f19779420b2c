import Lookml.Proofs.Lexeme.Spelling
import Lookml.Proofs.Token.Lossless

/-!
What stands behind a lexeme or a block of code can be exchanged for any text before which
it ends as well: the cursor reads the same there, with the same span.
-/

namespace Lookml

/-- Spaces, tabs and line ends, which are passed over wherever they stand. -/
inductive IsBlanks : List Char → Prop
  | nil : IsBlanks []
  | gap {c : Char} {cs : List Char} (hc : isGap c = true) (h : IsBlanks cs) : IsBlanks (c :: cs)
  | lineEnd {cs : List Char} (h : IsBlanks cs) : IsBlanks ('\r' :: '\n' :: cs)

namespace IsBlanks

theorem of_gaps {text : List Char} (h : ∀ c ∈ text, isGap c = true) : IsBlanks text := by
  induction text with
  | nil => exact .nil
  | cons c cs ih =>
      exact .gap (h c List.mem_cons_self) (ih fun d hd => h d (List.mem_cons_of_mem c hd))

theorem append {text text' : List Char} (h : IsBlanks text) (h' : IsBlanks text') :
    IsBlanks (text ++ text') := by
  induction h with
  | nil => exact h'
  | gap hc _ ih => exact .gap hc ih
  | lineEnd _ ih => exact .lineEnd ih

end IsBlanks

/-- Text before which a lexeme ends. -/
def Lexeme.Kind.EndsBefore (kind : Lexeme.Kind) (rest : List Char) : Prop :=
  kind.token.EndsBefore rest

private theorem byteLength_lineEnd (cs : List Char) :
    byteLength ('\r' :: '\n' :: cs) = 2 + byteLength cs := by
  have hreturn : '\r'.utf8Size = 1 := rfl
  have hline : '\n'.utf8Size = 1 := rfl
  rw [byteLength_cons, byteLength_cons, hreturn, hline]
  omega

namespace Cursor

theorem skipBlank_append {gap : List Char} (h : IsBlanks gap) (offset : Nat)
    (rest : List Char) :
    (⟨offset, gap ++ rest⟩ : Cursor).skipBlank =
      (⟨offset + byteLength gap, rest⟩ : Cursor).skipBlank := by
  induction h generalizing offset with
  | nil => rfl
  | @gap c cs hc h ih =>
      have hskip : (⟨offset, c :: (cs ++ rest)⟩ : Cursor).skipBlank =
          (⟨offset + c.utf8Size, cs ++ rest⟩ : Cursor).skipBlank := by
        simp only [isGap, Token.isSpace, Bool.or_eq_true, beq_iff_eq] at hc
        rcases hc with (rfl | rfl) | rfl <;> rfl
      rw [List.cons_append, hskip, ih, byteLength_cons, Nat.add_assoc]
  | @lineEnd cs h ih =>
      have hskip : (⟨offset, '\r' :: '\n' :: (cs ++ rest)⟩ : Cursor).skipBlank =
          (⟨offset + 2, cs ++ rest⟩ : Cursor).skipBlank := rfl
      rw [List.cons_append, List.cons_append, hskip, ih, byteLength_lineEnd, Nat.add_assoc]

private theorem exists_blanks_cons {c : Char} (hc : isGap c = true) (hsize : c.utf8Size = 1)
    {cs rest : List Char} {offset last : Nat}
    (h : ∃ gap, IsBlanks gap ∧ cs = gap ++ rest ∧ last = offset + 1 + byteLength gap) :
    ∃ gap, IsBlanks gap ∧ c :: cs = gap ++ rest ∧ last = offset + byteLength gap := by
  obtain ⟨gap, hgap, rfl, rfl⟩ := h
  refine ⟨c :: gap, .gap hc hgap, rfl, ?_⟩
  rw [byteLength_cons, hsize, Nat.add_assoc]

theorem exists_blanks (cursor : Cursor) :
    ∃ gap, IsBlanks gap ∧ cursor.rest = gap ++ cursor.skipBlank.rest ∧
      cursor.skipBlank.offset = cursor.offset + byteLength gap := by
  obtain ⟨offset, cs⟩ := cursor
  simp only [skipBlank]
  fun_induction skipBlank.go offset cs with
  | case1 offset cs ih => exact exists_blanks_cons rfl rfl ih
  | case2 offset cs ih => exact exists_blanks_cons rfl rfl ih
  | case3 offset cs ih => exact exists_blanks_cons rfl rfl ih
  | case4 offset cs ih =>
      obtain ⟨gap, hgap, hrest, hoffset⟩ := ih
      refine ⟨'\r' :: '\n' :: gap, .lineEnd hgap, congrArg _ (congrArg _ hrest), ?_⟩
      rw [hoffset, byteLength_lineEnd, Nat.add_assoc]
  | case5 offset cs => exact ⟨[], .nil, rfl, rfl⟩

theorem skipBlank_of_head {c : Char} (hgap : isGap c = false) (hreturn : c ≠ '\r')
    (offset : Nat) (cs : List Char) :
    (⟨offset, c :: cs⟩ : Cursor).skipBlank = ⟨offset, c :: cs⟩ := by
  simp only [isGap, Token.isSpace, Bool.or_eq_false_iff, beq_eq_false_iff_ne] at hgap
  obtain ⟨⟨hspace, htab⟩, hline⟩ := hgap
  simp only [skipBlank]
  unfold skipBlank.go
  split <;> simp_all

theorem cut_skipBlank_isBlank (cursor : Cursor) :
    (Token.cut cursor.skipBlank.rest).kind.isBlank = false := by
  obtain ⟨offset, cs⟩ := cursor
  simp only [skipBlank]
  fun_induction skipBlank.go offset cs with
  | case1 offset cs ih => exact ih
  | case2 offset cs ih => exact ih
  | case3 offset cs ih => exact ih
  | case4 offset cs ih => exact ih
  | case5 offset cs hspace htab hline hreturn =>
      show (Token.cut cs).kind.isBlank = false
      unfold Token.cut
      split
      · rfl
      · exact (hreturn _ rfl).elim
      · unfold Token.quoted
        split <;> rfl
      · rename_i c cs _ _
        split
        · rename_i kind hmark
          unfold Token.kindOfMark? at hmark
          split at hmark <;> cases hmark <;> first | rfl | exact (hline _ rfl).elim
        · split
          · rfl
          · split
            · rename_i hblank
              simp only [Token.isSpace, Bool.or_eq_true, beq_iff_eq] at hblank
              rcases hblank with rfl | rfl
              · exact (hspace _ rfl).elim
              · exact (htab _ rfl).elim
            · split
              · rfl
              · split
                · simp only [Token.numeral]
                  split <;> rfl
                · rfl

/-- Nothing is passed over in front of a token that is no blank. -/
theorem skipBlank_eq_self {cursor : Cursor} (h : (Token.cut cursor.rest).kind.isBlank = false) :
    cursor.skipBlank = cursor := by
  obtain ⟨gap, hgap, hrest, hoffset⟩ := cursor.exists_blanks
  cases hgap with
  | nil =>
      obtain ⟨offset, cs⟩ := cursor
      exact congr (congrArg Cursor.mk hoffset) hrest.symm
  | @gap c cs hc =>
      rw [hrest] at h
      simp only [isGap, Token.isSpace, Bool.or_eq_true, beq_iff_eq] at hc
      rcases hc with (rfl | rfl) | rfl <;> cases h
  | lineEnd =>
      rw [hrest] at h
      cases h

private theorem isBlanks_of_spells {kind : Token.Kind} {text : List Char}
    (h : Token.Spells kind text) (hblank : kind.isBlank = true) : IsBlanks text := by
  cases h with
  | mark hmark =>
      unfold Token.kindOfMark? at hmark
      split at hmark <;> cases hmark <;> first | exact .gap rfl .nil | cases hblank
  | lineEnd => exact .lineEnd .nil
  | blank _ hspaces => exact .of_gaps fun c hc => by rw [isGap, hspaces c hc, Bool.true_or]
  | quoted => cases hblank
  | comment => cases hblank
  | word => cases hblank
  | numeral => cases hblank

/-- A blank token is passed over. -/
theorem skipBlank_token {cursor : Cursor} (h : (Token.cut cursor.rest).kind.isBlank = true) :
    cursor.token.2.skipBlank = cursor.skipBlank := by
  have hspells := (Token.cut_spells (fun hcut => by rw [hcut] at h; cases h)
    fun hcut => by rw [hcut] at h; cases h).1
  have happend := Token.cut_append cursor.rest
  have hskip := skipBlank_append (isBlanks_of_spells hspells h) cursor.offset
    (Token.cut cursor.rest).rest
  rw [happend] at hskip
  exact hskip.symm

/-- A token that is spelled behind blanks, and ends there, is read as the lexeme that it
stands for. -/
theorem lexeme_of_spells {gap text rest : List Char} {kind : Token.Kind} (hgap : IsBlanks gap)
    (h : Token.Spells kind text) (hblank : kind.isBlank = false) (hrest : kind.EndsBefore rest)
    (offset : Nat) :
    (⟨offset, gap ++ (text ++ rest)⟩ : Cursor).lexeme =
      (⟨Lexeme.ofToken kind text,
          ⟨offset + byteLength gap, offset + byteLength gap + byteLength text⟩⟩,
        ⟨offset + byteLength gap + byteLength text, rest⟩) := by
  have hskip : (⟨offset, gap ++ (text ++ rest)⟩ : Cursor).skipBlank =
      ⟨offset + byteLength gap, text ++ rest⟩ := by
    rw [skipBlank_append hgap]
    obtain ⟨c, cs, rfl, hc, hreturn⟩ := h.exists_head hblank
    exact skipBlank_of_head hc hreturn _ _
  simp only [lexeme, hskip, token, h.cut hrest]
  rfl

private theorem ofToken_token {kind : Token.Kind} (text : List Char)
    (hblank : kind.isBlank = false) (h : ∀ fault, Lexeme.ofToken kind text ≠ .invalid fault) :
    (Lexeme.ofToken kind text).token = kind := by
  cases kind with
  | quoted =>
      simp only [Lexeme.ofToken, Lexeme.resolve] at h ⊢
      split at h
      · rfl
      · exact absurd rfl (h _)
  | code => exact absurd rfl (h _)
  | blank => cases hblank
  | newline => cases hblank
  | _ => rfl

/-- Every other lexeme than the end of the input and what is invalid is spelled in the
text, behind blanks. -/
theorem exists_spells {cursor next : Cursor} {lexeme : Lexeme}
    (h : cursor.lexeme = (lexeme, next)) (hinvalid : ∀ fault, lexeme.kind ≠ .invalid fault)
    (hend : lexeme.kind ≠ .endOfInput) :
    ∃ gap text, IsBlanks gap ∧ Token.Spells lexeme.kind.token text ∧
      lexeme.kind.token.isBlank = false ∧ lexeme.kind.EndsBefore next.rest ∧
      cursor.rest = gap ++ (text ++ next.rest) ∧
      lexeme = ⟨Lexeme.ofToken lexeme.kind.token text,
        ⟨cursor.offset + byteLength gap, next.offset⟩⟩ ∧
      next.offset = cursor.offset + byteLength gap + byteLength text := by
  obtain ⟨gap, hgap, hrest, hoffset⟩ := cursor.exists_blanks
  obtain ⟨rfl, rfl⟩ := Prod.mk.inj h
  have hblank := cursor.cut_skipBlank_isBlank
  have htext := Token.cut_append cursor.skipBlank.rest
  have hkind := ofToken_token _ hblank hinvalid
  simp only [past, spanTo] at hkind hinvalid hend ⊢
  rw [hkind]
  have hcut : (Token.cut cursor.skipBlank.rest).kind ≠ .invalid :=
    fun hcut => hinvalid _ (by rw [hcut]; rfl)
  obtain ⟨hspells, hends⟩ := Token.cut_spells hcut fun hcut => hend (by rw [hcut]; rfl)
  refine ⟨gap, _, hgap, hspells, hblank, ?_, ?_, ?_, ?_⟩
  · rw [Lexeme.Kind.EndsBefore, hkind]
    exact hends
  · rw [htext, hrest]
  · rw [hoffset]
  · rw [hoffset]

/-- A lexeme is read as the same, at the same place, in front of any text before which it
ends. -/
theorem lexeme_exchange {cursor next : Cursor} {lexeme : Lexeme}
    (h : cursor.lexeme = (lexeme, next)) (hinvalid : ∀ fault, lexeme.kind ≠ .invalid fault)
    (hend : lexeme.kind ≠ .endOfInput) :
    lexeme.kind.EndsBefore next.rest ∧ ∃ taken, cursor.rest = taken ++ next.rest ∧
      next.offset = cursor.offset + byteLength taken ∧
      ∀ rest', lexeme.kind.EndsBefore rest' →
        (⟨cursor.offset, taken ++ rest'⟩ : Cursor).lexeme = (lexeme, ⟨next.offset, rest'⟩) := by
  obtain ⟨gap, text, hgap, hspells, hblank, hends, hrest, hlexeme, hoffset⟩ :=
    exists_spells h hinvalid hend
  refine ⟨hends, gap ++ text, ?_, ?_, fun rest' hrest' => ?_⟩
  · rw [hrest, List.append_assoc]
  · rw [hoffset, byteLength_append, Nat.add_assoc]
  · rw [List.append_assoc, lexeme_of_spells hgap hspells hblank hrest', ← hoffset]
    exact Prod.ext hlexeme.symm rfl

/-- A block of code is read as the same, at the same place, in front of any text. -/
theorem codeBlock_exchange {cursor next : Cursor} {text : String} {span : Span}
    (h : cursor.codeBlock = .ok (text, span, next)) :
    ∃ taken, cursor.rest = taken ++ next.rest ∧
      next.offset = cursor.offset + byteLength taken ∧
      ∀ rest', (⟨cursor.offset, taken ++ rest'⟩ : Cursor).codeBlock =
        .ok (text, span, ⟨next.offset, rest'⟩) := by
  unfold codeBlock at h
  cases hsplit : Token.splitCode cursor.rest with
  | none => simp [code, hsplit] at h
  | some found =>
      obtain ⟨front, back⟩ := found
      simp only [code, hsplit, if_true, Except.ok.injEq, Prod.mk.injEq] at h
      obtain ⟨rfl, rfl, rfl⟩ := h
      refine ⟨front ++ [';', ';'], ?_, rfl, fun rest' => ?_⟩
      · rw [← Token.splitCode_append hsplit, List.append_assoc]
        rfl
      · have hsplit' : Token.splitCode (front ++ [';', ';'] ++ rest') = some (front, rest') := by
          rw [List.append_assoc]
          exact Token.splitCode_exchange hsplit rest'
        simp only [codeBlock, code, hsplit', if_true]
        rfl

theorem skipBlank_rest_of_endOfInput {cursor : Cursor} (h : cursor.lexeme.1.kind = .endOfInput) :
    cursor.skipBlank.rest = [] := by
  have hkind := ofToken_token cursor.skipBlank.token.1.text cursor.cut_skipBlank_isBlank
    fun fault hfault => by
      have h' := h
      simp only [lexeme, token] at h' hfault
      rw [hfault] at h'
      cases h'
  apply Token.cut_kind_eq_endOfInput.mp
  rw [← hkind]
  exact congrArg Lexeme.Kind.token h

/-- At the end of the input only blanks are left. -/
theorem isBlanks_of_endOfInput {cursor : Cursor} (h : cursor.lexeme.1.kind = .endOfInput) :
    IsBlanks cursor.rest ∧ cursor.lexeme.2.rest = [] := by
  have hnil := skipBlank_rest_of_endOfInput h
  obtain ⟨gap, hgap, hrest, -⟩ := cursor.exists_blanks
  rw [hnil, List.append_nil] at hrest
  refine ⟨hrest ▸ hgap, ?_⟩
  show (Token.cut cursor.skipBlank.rest).rest = []
  rw [hnil]
  rfl

end Cursor

end Lookml
