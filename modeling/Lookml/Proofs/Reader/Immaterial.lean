import Lookml.Proofs.Reader.Bounded
import Lookml.Proofs.Reader.Comments
import Lookml.Proofs.Reader.Reads

/-!
Comments and commas are immaterial to the rest of a document. A comment can be taken out
of a text, up to the end of its line, and nothing that is told besides comments changes;
and a comma of a document can be made a blank.
-/

namespace Lookml

/-- A text with another in the place of a span. -/
def Span.exchange (span : Span) (source text : List Char) : List Char :=
  takeBytes span.start source ++ (text ++ dropBytes span.stop source)

theorem Span.exchange_append (front old new back : List Char) :
    (⟨byteLength front, byteLength front + byteLength old⟩ : Span).exchange
      (front ++ (old ++ back)) new = front ++ (new ++ back) := by
  have hdrop : dropBytes (byteLength front + byteLength old) (front ++ (old ++ back)) = back := by
    rw [← byteLength_append, ← List.append_assoc, dropBytes_byteLength]
  rw [exchange, takeBytes_byteLength, hdrop]

namespace Reader

/-- A run over a text meets a lexeme: what was read in front of it and what was told by
then, the blanks that are passed over, how it is spelled and what stands behind it. -/
structure Meets (code : Names) (source : List Char) (lexeme : Lexeme)
    (taken gap text rest : List Char) (told : List Event) (last : Reader) : Prop where
  whole : source = taken ++ (gap ++ (text ++ rest))
  blanks : IsBlanks gap
  spells : Token.Spells lexeme.kind.token text
  kind : lexeme.kind = Lexeme.ofToken lexeme.kind.token text
  ends : lexeme.kind.EndsBefore rest
  place : lexeme.span =
    ⟨byteLength (taken ++ gap), byteLength (taken ++ gap) + byteLength text⟩
  stage : ∀ name, last.stage ≠ .code name
  path : ∀ rest', EndsLike (gap ++ (text ++ rest)) rest' →
    Path code start (Cursor.ofText (taken ++ rest')) told last ⟨byteLength taken, rest'⟩

theorem exists_meets {code : Names} {source : List Char} {lexeme : Lexeme}
    (h : lexeme ∈ Reading.lexed code source) (hinvalid : ∀ fault, lexeme.kind ≠ .invalid fault)
    (hend : lexeme.kind ≠ .endOfInput) :
    ∃ taken gap text rest told last, Meets code source lexeme taken gap text rest told last := by
  obtain ⟨told, last, cursor, hpath, hstage, rfl⟩ := exists_path_of_mem_lexed h
  obtain ⟨taken, hsource, hoffset, hsame⟩ := hpath.exchange
  have hread : cursor.lexeme = (cursor.lexeme.1, cursor.lexeme.2) := rfl
  obtain ⟨gap, text, hgap, hspells, hblank, hends, hrest, hlexeme, hnext⟩ :=
    Cursor.exists_spells hread hinvalid hend
  replace hoffset : cursor.offset = byteLength taken := hoffset.trans (Nat.zero_add _)
  refine ⟨taken, gap, text, cursor.lexeme.2.rest, told, last, ?_, hgap, hspells,
    congrArg Lexeme.kind hlexeme, hends, ?_, hstage, ?_⟩
  · rw [← hrest]
    exact hsource
  · rw [congrArg Lexeme.span hlexeme, hnext, hoffset, byteLength_append]
  · intro rest' hlike
    have hpath' := hsame rest' (hrest ▸ hlike)
    rwa [hoffset] at hpath'

section Met
variable {code : Names} {source taken gap text rest : List Char} {lexeme : Lexeme}
  {told : List Event} {last : Reader}

theorem Meets.exchange (h : Meets code source lexeme taken gap text rest told last)
    (new : List Char) : lexeme.span.exchange source new = taken ++ (gap ++ (new ++ rest)) := by
  rw [h.place, h.whole, ← List.append_assoc, Span.exchange_append, List.append_assoc]

theorem Meets.slice (h : Meets code source lexeme taken gap text rest told last) :
    lexeme.span.slice source = text := by
  rw [h.place, h.whole, ← List.append_assoc, Span.slice_append]

theorem Meets.behind (h : Meets code source lexeme taken gap text rest told last) :
    dropBytes lexeme.span.stop source = rest := by
  rw [h.place, h.whole, ← byteLength_append, ← List.append_assoc, ← List.append_assoc,
    dropBytes_byteLength]

/-- In front of what is read of a text with something else in the place of the lexeme, the
run is the same. -/
theorem Meets.run (h : Meets code source lexeme taken gap text rest told last) {new : List Char}
    (hlike : EndsLike (text ++ rest) (new ++ rest)) :
    Reading.ofText code (lexeme.span.exchange source new) =
      (last.run code ⟨byteLength (taken ++ gap), new ++ rest⟩).before told := by
  have hpath := h.path _ (hlike.append gap)
  rw [h.exchange, Reading.ofText, hpath.run, run_blanks h.stage h.blanks, byteLength_append]

theorem Meets.run_source (h : Meets code source lexeme taken gap text rest told last) :
    Reading.ofText code source =
      (last.run code ⟨byteLength (taken ++ gap), text ++ rest⟩).before told := by
  have hself : lexeme.span.exchange source text = source := (h.exchange text).trans h.whole.symm
  have hlike : EndsLike (text ++ rest) (text ++ rest) := fun _ hends => hends
  have hrun := h.run hlike
  rwa [hself] at hrun

/-- There the lexeme is read. -/
theorem Meets.reads (h : Meets code source lexeme taken gap text rest told last) :
    (⟨byteLength (taken ++ gap), text ++ rest⟩ : Cursor).lexeme =
      (lexeme, ⟨lexeme.span.stop, rest⟩) := by
  have hblank : lexeme.kind.token.isBlank = false := by cases lexeme.kind <;> rfl
  have hread := Cursor.lexeme_of_spells .nil h.spells hblank h.ends (byteLength (taken ++ gap))
  have hstop : lexeme.span.stop = byteLength (taken ++ gap) + byteLength text := by rw [h.place]
  rwa [← h.kind, byteLength_nil, Nat.add_zero, ← h.place, ← hstop] at hread

end Met

/-- A comment is told at once or kept, and changes nothing else. -/
theorem step_comment {code : Names} {reader : Reader} {lexeme : Lexeme} {text : String}
    (hstage : ∀ name, reader.stage ≠ .code name) (hkind : lexeme.kind = .comment text) :
    ∃ events next, reader.step code lexeme = .onward events next ∧ withoutComments events = [] ∧
      next.unplaced false = reader.unplaced false := by
  obtain ⟨opened, stage⟩ := reader
  obtain ⟨kind, span⟩ := lexeme
  obtain rfl : kind = .comment text := hkind
  cases stage <;> first
    | exact ⟨_, _, rfl, rfl, rfl⟩
    | exact absurd rfl (hstage _)

/-- A run from behind a comment tells the same besides comments as one from in front of
it. -/
theorem run_past_comment {code : Names} {reader : Reader} {cursor cursor' : Cursor} {text : String}
    (hstage : ∀ name, reader.stage ≠ .code name)
    (hkind : cursor.lexeme.1.kind = .comment text) (hrest : cursor'.rest = cursor.lexeme.2.rest) :
    (reader.run code cursor').unplaced false = (reader.run code cursor).unplaced false := by
  obtain ⟨events, next, hstep, hevents, hnext⟩ := step_comment hstage hkind
  have hcounted : Event.counted false events = [] := hevents
  rw [run_onward hstage hstep, Reading.unplaced_before, hcounted,
    run_unplaced code hnext.symm hrest]
  rfl

/-- A comma fails, or is passed over: then the reader behind it goes on as the one in
front of it does without. -/
theorem step_comma {code : Names} {reader : Reader} {lexeme : Lexeme}
    (hstage : ∀ name, reader.stage ≠ .code name) (hkind : lexeme.kind = .comma) :
    (∃ told error, reader.step code lexeme = .failed told error) ∨
    ∃ told next, reader.step code lexeme = .onward told next ∧
      ∀ cursor events, next.run code cursor = ⟨events, none⟩ →
        reader.run code cursor = ⟨told ++ events, none⟩ := by
  obtain ⟨opened, stage⟩ := reader
  obtain ⟨kind, span⟩ := lexeme
  obtain rfl : kind = .comma := hkind
  cases stage with
  | member => exact .inr ⟨[], _, rfl, fun _ _ h => h⟩
  | element => exact .inr ⟨[], _, rfl, fun _ _ h => h⟩
  | afterWord name word span comments =>
      exact .inr ⟨_, _, rfl, fun _ _ h => by rw [List.append_nil]; exact run_afterWord h⟩
  | afterElementWord word comments =>
      exact .inr ⟨_, _, rfl, fun _ _ h => by rw [List.append_nil]; exact run_afterElementWord h⟩
  | code name => exact absurd rfl (hstage name)
  | colon name span => exact .inl ⟨_, _, rfl⟩
  | value name span => exact .inl ⟨_, _, rfl⟩
  | pairText reference => exact .inl ⟨_, _, rfl⟩

theorem run_blank_for_comma {code : Names} {reader : Reader} {offset : Nat} {rest : List Char}
    {events : List Event} (hstage : ∀ name, reader.stage ≠ .code name)
    (h : reader.run code ⟨offset, ',' :: rest⟩ = ⟨events, none⟩) :
    reader.run code ⟨offset, ' ' :: rest⟩ = ⟨events, none⟩ := by
  have hblank : reader.run code ⟨offset, ' ' :: rest⟩ = reader.run code ⟨offset + 1, rest⟩ :=
    run_blanks hstage (.gap rfl .nil) offset rest
  have hcomma : (⟨offset, ',' :: rest⟩ : Cursor).lexeme =
      (⟨.comma, ⟨offset, offset + 1⟩⟩, ⟨offset + 1, rest⟩) := rfl
  have hkind : (⟨offset, ',' :: rest⟩ : Cursor).lexeme.1.kind = .comma := rfl
  rcases step_comma hstage hkind with ⟨told, error, hfailed⟩ | ⟨told, next, honward, hsame⟩
  · rw [run_failed hstage hfailed] at h
    cases (Reading.mk.inj h).2
  · rw [run_onward hstage honward, hcomma, Reading.before] at h
    obtain ⟨rfl, hfailure⟩ := Reading.mk.inj h
    rw [hblank, hsame _ _ (congrArg (Reading.mk _) hfailure)]

end Reader

theorem Token.spells_comment {spelled : List Char} {text : String}
    (h : Token.Spells .comment spelled)
    (hmeant : Lexeme.Kind.comment text = Lexeme.ofToken .comment spelled) :
    spelled = '#' :: text.toList := by
  cases h with
  | mark hmark =>
      unfold Token.kindOfMark? at hmark
      split at hmark <;> cases hmark
  | comment hline =>
      obtain rfl := Lexeme.Kind.comment.inj hmeant
      rw [List.drop_one, List.tail_cons, String.toList_ofList]

theorem Token.spells_comma {spelled : List Char} (h : Token.Spells .comma spelled) :
    spelled = [','] := by
  cases h with
  | mark hmark =>
      unfold Token.kindOfMark? at hmark
      split at hmark <;> cases hmark
      rfl

/-- What ends before a comment ends before what follows the comment, since that is a line
end or nothing. -/
theorem endsLike_comment {text rest : List Char} (h : EndsLine rest) :
    EndsLike ('#' :: (text ++ rest)) rest := by
  have hbreak : IsBreak rest := by
    intro c hc
    have hline := h c hc
    simp only [Token.isLineEnd, Bool.or_eq_true, beq_iff_eq] at hline
    rcases hline with rfl | rfl <;> rfl
  intro kind _
  cases kind <;> first | exact True.intro | exact hbreak | exact h

private theorem endsLike_comma (rest : List Char) : EndsLike (',' :: rest) (' ' :: rest) := by
  intro kind hold
  cases kind <;> first
    | trivial
    | (rintro c (_ | _)
       rfl)
    | cases hold ',' rfl

/-- Without one of its comments a text tells the same besides comments, and is wrong in
the same way if it is. -/
theorem Reading.ofText_without_comment (code : Names) (source : List Char) {lexeme : Lexeme}
    {text : String} (hmem : lexeme ∈ Reading.lexed code source)
    (hkind : lexeme.kind = .comment text) :
    lexeme.span.slice source = '#' :: text.toList ∧
      EndsLine (dropBytes lexeme.span.stop source) ∧
      withoutComments (Reading.ofText code (lexeme.span.exchange source [])).events =
        withoutComments (Reading.ofText code source).events ∧
      (Reading.ofText code (lexeme.span.exchange source [])).failure.map SyntaxError.fault =
        (Reading.ofText code source).failure.map SyntaxError.fault := by
  obtain ⟨taken, gap, spelled, rest, told, last, hmeets⟩ := Reader.exists_meets hmem
    (fun fault hfault => by rw [hkind] at hfault; cases hfault)
    (fun hend => by rw [hkind] at hend; cases hend)
  have hends : EndsLine rest := by
    have hends := hmeets.ends
    rwa [hkind] at hends
  obtain rfl : spelled = '#' :: text.toList := by
    have hspells := hmeets.spells
    have hmeant := hmeets.kind
    rw [hkind] at hspells hmeant
    exact Token.spells_comment hspells hmeant
  refine ⟨hmeets.slice, hmeets.behind ▸ hends, ?_⟩
  have hlike : EndsLike ('#' :: text.toList ++ rest) ([] ++ rest) := endsLike_comment hends
  have hpast : (last.run code ⟨byteLength (taken ++ gap), [] ++ rest⟩).unplaced false =
      (last.run code ⟨byteLength (taken ++ gap), '#' :: text.toList ++ rest⟩).unplaced false :=
    Reader.run_past_comment hmeets.stage (by rw [hmeets.reads, hkind]) (by rw [hmeets.reads]; rfl)
  have hsame : (Reading.ofText code (lexeme.span.exchange source [])).unplaced false =
      (Reading.ofText code source).unplaced false := by
    rw [hmeets.run hlike, hmeets.run_source, Reading.unplaced_before, hpast,
      ← Reading.unplaced_before]
  have hfailure := congrArg (Option.map SyntaxError.fault ∘ Reading.failure) hsame
  simp only [Function.comp_apply, Reading.unplaced, Option.map_map] at hfailure
  exact ⟨congrArg Reading.events hsame, hfailure⟩

/-- In a document a comma can as well be a blank. -/
theorem Reading.ofText_blank_for_comma (code : Names) (source : List Char) {lexeme : Lexeme}
    (hsuccess : (Reading.ofText code source).failure = none)
    (hmem : lexeme ∈ Reading.lexed code source) (hkind : lexeme.kind = .comma) :
    lexeme.span.slice source = [','] ∧
      Reading.ofText code (lexeme.span.exchange source [' ']) = Reading.ofText code source := by
  obtain ⟨taken, gap, spelled, rest, told, last, hmeets⟩ := Reader.exists_meets hmem
    (fun fault hfault => by rw [hkind] at hfault; cases hfault)
    (fun hend => by rw [hkind] at hend; cases hend)
  obtain rfl : spelled = [','] := by
    have hspells := hmeets.spells
    rw [hkind] at hspells
    exact Token.spells_comma hspells
  have hlike : EndsLike ([','] ++ rest) ([' '] ++ rest) := endsLike_comma rest
  refine ⟨hmeets.slice, ?_⟩
  rw [hmeets.run hlike, hmeets.run_source]
  rw [hmeets.run_source] at hsuccess
  have hcomma : last.run code ⟨byteLength (taken ++ gap), ',' :: rest⟩ = ⟨_, none⟩ :=
    congrArg (Reading.mk _) hsuccess
  exact congrArg (Reading.before told)
    ((Reader.run_blank_for_comma hmeets.stage hcomma).trans hcomma.symm)

/-- Comments are told where they stand, and neither they nor commas matter to what else a
text tells. -/
theorem Reading.comments_and_commas (code : Names) (source : List Char) :
    ((Reading.lexed code source).Pairwise fun lexeme later =>
      lexeme.span.stop ≤ later.span.start) ∧
    (Reading.ofText code source).comments = Lexeme.comments (Reading.lexed code source) ∧
    (∀ lexeme ∈ Reading.lexed code source, ∀ text, lexeme.kind = .comment text →
      lexeme.span.slice source = '#' :: text.toList ∧
      EndsLine (dropBytes lexeme.span.stop source) ∧
      withoutComments (Reading.ofText code (lexeme.span.exchange source [])).events =
        withoutComments (Reading.ofText code source).events ∧
      (Reading.ofText code (lexeme.span.exchange source [])).failure.map SyntaxError.fault =
        (Reading.ofText code source).failure.map SyntaxError.fault) ∧
    ((Reading.ofText code source).failure = none →
      ∀ lexeme ∈ Reading.lexed code source, lexeme.kind = .comma →
        lexeme.span.slice source = [','] ∧
        Reading.ofText code (lexeme.span.exchange source [' ']) = Reading.ofText code source) :=
  ⟨Reader.lexed_ordered code _ _, Reading.comments_ofText code source,
    fun _ hmem _ hkind => Reading.ofText_without_comment code source hmem hkind,
    fun hsuccess _ hmem hkind => Reading.ofText_blank_for_comma code source hsuccess hmem hkind⟩

/-- A comma, and a comment behind it that ends with the text. -/
theorem Reading.comments_and_commas_word :
    Reading.ofText (Names.ofList []) "a: b  # c".toList =
        Reading.ofText (Names.ofList []) "a: b, # c".toList ∧
      withoutComments (Reading.ofText (Names.ofList []) "a: b, ".toList).events =
        withoutComments (Reading.ofText (Names.ofList []) "a: b, # c".toList).events := by
  have hsuccess : (Reading.ofText (Names.ofList []) "a: b, # c".toList).failure = none := by
    rw [Reading.ofText_eq_runFor]
    decide +kernel
  have hlexed : Reading.lexed (Names.ofList []) "a: b, # c".toList =
      [⟨.word "a", ⟨0, 1⟩⟩, ⟨.colon, ⟨1, 2⟩⟩, ⟨.word "b", ⟨3, 4⟩⟩, ⟨.comma, ⟨4, 5⟩⟩,
        ⟨.comment " c", ⟨6, 9⟩⟩, ⟨.endOfInput, ⟨9, 9⟩⟩] := by
    decide +kernel
  obtain ⟨-, -, hcomment, hcomma⟩ :=
    Reading.comments_and_commas (Names.ofList []) "a: b, # c".toList
  rw [hlexed] at hcomment hcomma
  constructor
  · exact (hcomma hsuccess ⟨.comma, ⟨4, 5⟩⟩ (by decide) rfl).2
  · exact (hcomment ⟨.comment " c", ⟨6, 9⟩⟩ (by decide) " c" rfl).2.2.1

end Lookml
