import Lookml.Proofs.Writer.Items

/-!
A written document is read back. The text that a draft still has to write is followed from
its end: in front of each event stands a rest that is read as the events behind it, and
that ends the text of the event.
-/

namespace Lookml

/-- What is asked of an event inside some open scopes so that it can be read back. -/
structure Writable (code : Names) (scopes : OpenScopes) (event : Event) : Prop where
  takes : scopes.Takes event
  depth : (scopes.after event).length ≤ maxDepth
  spelled : event.Spelled code
  finite : event.IsFinite

/-- Behind an item stands what ends words and numerals, and behind a comment in a pretty
layout a line end. -/
structure Follows (layout : Layout) (inner : Writer.Open) (rest : List Char) : Prop where
  item : inner.isEmpty = false → inner.separate = true → IsBreak rest
  comment : inner.isEmpty = false → inner.separate = false → layout.pretty = true → EndsLine rest

section Separator
variable {layout : Layout} {output : String} {inner : Writer.Open} {opened : List Writer.Open}

theorem reads_separator (hplain : layout.IsPlain) {code : Names} {readers : List Opened}
    {rest : List Char} {events : List Event}
    (h : Reader.Reads code ⟨readers, Reader.between readers⟩ rest events) :
    Reader.Reads code ⟨readers, Reader.between readers⟩
      ((Writer.separator ⟨layout, output, opened⟩ inner).toList ++ rest) events := by
  have hstage := Reader.between_ne_code readers
  have hnewLine (depth : Nat) : Reader.Reads code ⟨readers, Reader.between readers⟩
      ((layout.newLine depth).toList ++ rest) events :=
    h.blanks hstage (hplain.isBlanks_newLine depth)
  unfold Writer.separator
  dsimp only
  split
  · split
    · split
      · exact h.comma
      · exact h
    · rw [String.toList_append, List.append_assoc]
      split
      · exact (hnewLine _).comma
      · exact hnewLine _
  · split
    · have hspace : Reader.Reads code ⟨readers, Reader.between readers⟩ ([' '] ++ rest) events :=
        h.blanks hstage (.gap rfl .nil)
      exact hspace.comma
    · exact h

private theorem isBreak_comma (text : String) (rest : List Char) :
    IsBreak (("," ++ text).toList ++ rest) := by
  intro c hc
  simp only [String.toList_append, String.reduceToList, List.cons_append, List.nil_append,
    List.head?_cons, Option.some.injEq] at hc
  subst hc
  rfl

theorem follows_separator (rest : List Char) :
    Follows layout inner ((Writer.separator ⟨layout, output, opened⟩ inner).toList ++ rest) := by
  constructor
  · intro hempty hseparate
    have hseparator : Writer.separator ⟨layout, output, opened⟩ inner =
        if layout.pretty then
          (if inner.scope == .list then "," else "") ++
            layout.newLine (Writer.indentDepth opened)
        else ", " := by
      simp [Writer.separator, hempty, hseparate]
    rw [hseparator]
    split
    · split
      · exact isBreak_comma _ rest
      · rw [String.empty_append]
        exact (layout.endsLine_newLine _ rest).isBreak
    · exact isBreak_comma " " rest
  · intro hempty hseparate hpretty
    have hseparator : Writer.separator ⟨layout, output, opened⟩ inner =
        layout.newLine (Writer.indentDepth opened) := by
      simp [Writer.separator, hempty, hseparate, hpretty]
    rw [hseparator]
    exact layout.endsLine_newLine _ rest

end Separator

section Items
variable {code : Names} {layout : Layout} {scopes : OpenScopes} {event : Event}
  {inner : Writer.Open} {readers : List Opened} {rest : List Char} {events : List Event}

private theorem reads_comment {text : String}
    (hfollows : Follows layout (Draft.afterItem inner (.comment text)) rest)
    (hlater : Reader.Reads code ⟨readers, Reader.between readers⟩ rest events) :
    Reader.Reads code ⟨readers, Reader.between readers⟩
      ((layout.spell (.comment text)).toList ++ rest)
      (Event.readBack (.comment text) :: events) := by
  have hcomment (rest' : List Char) (hline : EndsLine rest')
      (hread : Reader.Reads code ⟨readers, Reader.between readers⟩ rest' events) :
      Reader.Reads code ⟨readers, Reader.between readers⟩
        ((Layout.spellComment text).toList ++ rest')
        (Event.readBack (.comment text) :: events) := by
    have hread := hread.comment (isLine_onOneLine text) hline
    rwa [String.ofList_toList, ← List.cons_append, ← toList_spellComment] at hread
  rw [Layout.spell]
  cases hpretty : layout.pretty with
  | true =>
      rw [if_pos rfl, String.append_empty]
      exact hcomment rest (hfollows.comment rfl rfl hpretty) hlater
  | false =>
      rw [if_neg (by simp), String.toList_append, List.append_assoc]
      have hline : EndsLine ("\n".toList ++ rest) := by
        intro c hc
        simp only [String.reduceToList, List.cons_append, List.nil_append, List.head?_cons,
          Option.some.injEq] at hc
        subst hc
        rfl
      have hblanks : IsBlanks "\n".toList := .gap rfl .nil
      exact hcomment _ hline (hlater.blanks (Reader.between_ne_code readers) hblanks)

private theorem exists_name (layout : Layout) (hcurrent : scopes.current = .object)
    (htakes : scopes.Takes event) (hclose : event ≠ .close) (hcomment : event.isComment = false) :
    ∃ name, Draft.nameOf event = some name ∧
      layout.announce .object event = Layout.spellName name ++ ":" ++ layout.gap := by
  have hfit := htakes.2
  rw [hcurrent] at hfit
  cases event with
  | comment text => cases hcomment
  | close => exact absurd rfl hclose
  | pair reference text => cases hfit
  | code name text => exact ⟨name, rfl, rfl⟩
  | object name => exact ⟨name, rfl, rfl⟩
  | named name instanceName => exact ⟨name, rfl, rfl⟩
  | number name _ | truth name _ | string name _ | identifier name _ | list name =>
      cases name with
      | none => cases hfit
      | some name => exact ⟨name, rfl, rfl⟩

/-- Only code stands under a name of code. -/
private theorem eq_code {name : String} (hname : Draft.nameOf event = some name)
    (hcode : code.contains name = true) (hspelled : event.Spelled code) :
    ∃ text, event = .code name text ∧ IsCode text.toList := by
  have hother (h : code.contains name = false) : False := by
    rw [hcode] at h
    cases h
  cases event with
  | code name' text =>
      obtain rfl := Option.some.inj hname
      exact ⟨text, rfl, hspelled.2⟩
  | number name' value => exact (hother (hspelled name hname)).elim
  | truth name' value => exact (hother (hspelled name hname)).elim
  | string name' text => exact (hother (hspelled name hname)).elim
  | identifier name' text => exact (hother (hspelled.1 name hname)).elim
  | list name' => exact (hother (hspelled name hname)).elim
  | object name' =>
      obtain rfl := Option.some.inj hname
      exact (hother hspelled).elim
  | named name' instanceName =>
      obtain rfl := Option.some.inj hname
      exact (hother hspelled.1).elim
  | pair reference text => cases hname
  | comment text => cases hname
  | close => cases hname

private theorem reads_announced (hplain : layout.IsPlain)
    (hwritable : Writable code (scopesOf readers) event) (hclose : event ≠ .close)
    (hcomment : event.isComment = false)
    (hfollows : event.opens? = none → Follows layout (Draft.afterItem inner event) rest)
    (hlater : ∀ readers', scopesOf readers' = (scopesOf readers).after event →
      Reader.Reads code ⟨readers', Reader.between readers'⟩ rest events) :
    Reader.Reads code ⟨readers, Reader.between readers⟩
      ((layout.announce (scopesOf readers).current event ++ layout.spell event).toList ++ rest)
      (event.readBack :: events) := by
  have hbreak (hopens : event.opens? = none) : IsBreak rest :=
    (hfollows hopens).item rfl (by simp [Draft.afterItem, hcomment])
  have hroom (scope : Scope) (hopens : event.opens? = some scope) : readers.length < maxDepth := by
    have hdepth := hwritable.depth
    rw [OpenScopes.after_eq_cons hopens, List.length_cons, length_scopesOf] at hdepth
    exact hdepth
  cases hcurrent : (scopesOf readers).current with
  | list =>
      rw [Reader.between_of_list hcurrent]
      have hannounce : layout.announce .list event = "" := by
        cases event <;> rfl
      rw [hannounce, String.empty_append]
      exact .element hwritable.finite hplain hbreak hroom hlater hcurrent hwritable.takes hclose
        hcomment hwritable.spelled
  | object =>
      rw [Reader.between_of_object hcurrent]
      obtain ⟨name, hname, hannounce⟩ :=
        exists_name layout hcurrent hwritable.takes hclose hcomment
      have htext : (layout.announce .object event ++ layout.spell event).toList ++ rest =
          (Layout.spellName name).toList ++
            ':' :: (layout.gap.toList ++ ((layout.spell event).toList ++ rest)) := by
        simp [hannounce]
      rw [htext]
      refine .key fun span => ?_
      cases hcode : code.contains name with
      | true =>
          obtain ⟨text, rfl, hisCode⟩ := eq_code hname hcode hwritable.spelled
          have hrest := hlater readers rfl
          rw [Reader.between_of_object hcurrent] at hrest
          exact hrest.spelledCode layout hisCode
      | false =>
          have hvalue := Reader.Reads.value hwritable.finite hplain hbreak hroom hlater hcurrent
            hname hcode hwritable.spelled span
          exact hvalue.blanks (by simp) layout.isBlanks_gap

theorem reads_item (hplain : layout.IsPlain) (hwritable : Writable code (scopesOf readers) event)
    (hclose : event ≠ .close)
    (hfollows : event.opens? = none → Follows layout (Draft.afterItem inner event) rest)
    (hlater : ∀ readers', scopesOf readers' = (scopesOf readers).after event →
      Reader.Reads code ⟨readers', Reader.between readers'⟩ rest events) :
    Reader.Reads code ⟨readers, Reader.between readers⟩
      ((layout.announce (scopesOf readers).current event ++ layout.spell event).toList ++ rest)
      (event.readBack :: events) := by
  cases hcomment : event.isComment with
  | false => exact reads_announced hplain hwritable hclose hcomment hfollows hlater
  | true =>
      cases event with
      | comment text =>
          have hannounce : layout.announce (scopesOf readers).current (.comment text) = "" := by
            cases (scopesOf readers).current <;> rfl
          rw [hannounce, String.empty_append]
          exact reads_comment (hfollows rfl) (hlater readers rfl)
      | _ => cases hcomment

end Items

section Endings
variable {code : Names} {layout : Layout} {inner : Writer.Open} {outer : List Writer.Open}
  {rest : List Char} {events : List Event}

theorem reads_ending (hplain : layout.IsPlain) (hroot : inner.isRoot = false) {reader : Opened}
    {readers : List Opened} (hscope : reader.scope = inner.scope)
    (h : Reader.Reads code ⟨readers, Reader.between readers⟩ rest events) :
    Reader.Reads code ⟨reader :: readers, Reader.between (reader :: readers)⟩
      ((Draft.ending layout inner outer).toList ++ rest) (.close :: events) := by
  have hcloser : Reader.Reads code ⟨reader :: readers, Reader.between (reader :: readers)⟩
      ((Layout.closer inner.scope).toList ++ rest) (.close :: events) := by
    obtain ⟨scope, span⟩ := reader
    obtain rfl := hscope
    rw [Layout.toList_closer]
    cases inner.scope with
    | object =>
        exact .onward (Reader.between_ne_code (⟨.object, span⟩ :: readers))
          (Lexeme.next_closeBrace rest) fun _ => ⟨_, _, _, rfl, h, rfl⟩
    | list =>
        exact .onward (Reader.between_ne_code (⟨.list, span⟩ :: readers))
          (Lexeme.next_closeBracket rest) fun _ => ⟨_, _, _, rfl, h, rfl⟩
  rw [Draft.ending, hroot, String.toList_append, List.append_assoc]
  split
  · exact hcloser.blanks (Reader.between_ne_code _) (hplain.isBlanks_newLine _)
  · exact hcloser

theorem follows_ending (hroot : inner.isRoot = false) (rest : List Char) :
    Follows layout inner ((Draft.ending layout inner outer).toList ++ rest) := by
  have hpretty (hempty : inner.isEmpty = false) (hpretty : layout.pretty = true) :
      EndsLine ((Draft.ending layout inner outer).toList ++ rest) := by
    rw [Draft.ending, hempty, hpretty, hroot, String.toList_append, List.append_assoc]
    exact layout.endsLine_newLine _ _
  constructor
  · intro hempty hseparate
    cases hlayout : layout.pretty with
    | true => exact (hpretty hempty hlayout).isBreak
    | false =>
        rw [Draft.ending, hlayout, hroot, String.toList_append, List.append_assoc, if_neg (by simp),
          if_neg (by simp), Layout.toList_closer]
        cases inner.scope <;> exact isBreak_cons (by decide)
  · exact fun hempty hseparate => hpretty hempty

theorem reads_rootEnding (hroot : inner.isRoot = true) :
    Reader.Reads code ⟨[], .member⟩ (Draft.ending layout inner outer).toList [] := by
  have hend : Reader.Reads code ⟨[], .member⟩ [] [] := Reader.Reads.finished Lexeme.next_nil
  rw [Draft.ending, hroot, if_pos rfl, if_pos rfl, String.append_empty]
  split
  · have hblanks : IsBlanks ['\n'] := .gap rfl .nil
    exact hend.blanks (by simp) hblanks
  · exact hend

theorem follows_rootEnding (hroot : inner.isRoot = true) :
    Follows layout inner (Draft.ending layout inner outer).toList := by
  have hline : EndsLine (Draft.ending layout inner outer).toList := by
    rw [Draft.ending, hroot, if_pos rfl, if_pos rfl, String.append_empty]
    intro c hc
    split at hc
    · simp only [String.reduceToList, List.head?_cons, Option.some.injEq] at hc
      subst hc
      rfl
    · cases hc
  exact ⟨fun _ _ => hline.isBreak, fun _ _ _ => hline⟩

end Endings

theorem Draft.InStep.item {inner : Writer.Open} {outer : List Writer.Open} {scopes : OpenScopes}
    {event : Event} (hclose : event ≠ .close)
    (h : ∀ next : Writer.Open, next.isRoot = inner.isRoot → next.scope = inner.scope →
      Draft.InStep (next :: outer) scopes) :
    Draft.InStep ((event.opens?.map fun scope => ⟨scope, false, true, false⟩).toList ++
      afterItem inner event :: outer) (scopes.after event) := by
  have hitem : Draft.InStep (afterItem inner event :: outer) scopes := h _ rfl rfl
  cases hopens : event.opens? with
  | none =>
      rw [OpenScopes.after_eq_self hopens hclose]
      exact hitem
  | some scope =>
      rw [OpenScopes.after_eq_cons hopens]
      exact .inner rfl hitem

/-- What a draft still writes of the events to come is read back as these events, and ends
the text before it. -/
def Draft.ReadsBack (code : Names) (draft : Draft) (events : List Event) : Prop :=
  ∃ rest,
    (draft.run (wholeDocument events)).writer.output.toList = draft.writer.output.toList ++ rest ∧
    (∀ inner outer, draft.writer.opened = inner :: outer →
      Follows draft.writer.layout inner rest) ∧
    ∀ readers, scopesOf readers = draft.scopes →
      Reader.Reads code ⟨readers, Reader.between readers⟩ rest (events.map Event.readBack)

namespace Draft.ReadsBack

variable {code : Names} {layout : Layout} {output : String} {inner : Writer.Open}
  {outer : List Writer.Open} {scopes : OpenScopes} {event : Event} {events : List Event}

theorem document (hroot : inner.isRoot = true) (hscope : inner.scope = .object) :
    ReadsBack code ⟨⟨layout, output, [inner]⟩, []⟩ [] := by
  have hend : ((⟨⟨layout, output, [inner]⟩, []⟩ : Draft).step (.event .close)).1 =
      ⟨⟨layout, output ++ Draft.ending layout inner [], []⟩, []⟩ := Draft.step_close hscope
  refine ⟨(Draft.ending layout inner []).toList, ?_, ?_, ?_⟩
  · rw [← String.toList_append]
    exact congrArg (fun draft => draft.writer.output.toList) hend
  · rintro first later ⟨⟩
    exact follows_rootEnding hroot
  · intro readers hreaders
    obtain rfl := List.map_eq_nil_iff.mp hreaders
    exact reads_rootEnding hroot

theorem close (hplain : layout.IsPlain) (hinner : inner.isRoot = false)
    (hlater : ReadsBack code ⟨⟨layout, output ++ Draft.ending layout inner outer, outer⟩, scopes⟩
      events) :
    ReadsBack code ⟨⟨layout, output, inner :: outer⟩, inner.scope :: scopes⟩
      (.close :: events) := by
  have hrun : (⟨⟨layout, output, inner :: outer⟩, inner.scope :: scopes⟩ : Draft).run
      (wholeDocument (.close :: events)) =
      (⟨⟨layout, output ++ Draft.ending layout inner outer, outer⟩, scopes⟩ : Draft).run
        (wholeDocument events) :=
    congrArg (fun draft : Draft => draft.run (wholeDocument events)) (Draft.step_close rfl)
  obtain ⟨rest, hrest, -, hreads⟩ := hlater
  refine ⟨(Draft.ending layout inner outer).toList ++ rest, ?_, ?_, ?_⟩
  · rw [hrun, hrest, String.toList_append, List.append_assoc]
  · rintro first later ⟨⟩
    exact follows_ending hinner rest
  · rintro (_ | ⟨reader, readers⟩) hreaders
    · cases hreaders
    · obtain ⟨hreader, hreaders⟩ := List.cons.inj hreaders
      exact reads_ending hplain hinner hreader (hreads readers hreaders)

theorem item (hplain : layout.IsPlain) (hwritable : Writable code scopes event)
    (hclose : event ≠ .close) (hscope : inner.scope = scopes.current)
    (hlater : ReadsBack code
      ((⟨⟨layout, output, inner :: outer⟩, scopes⟩ : Draft).step (.event event)).1 events) :
    ReadsBack code ⟨⟨layout, output, inner :: outer⟩, scopes⟩ (event :: events) := by
  have hrun (draft : Draft) : draft.run (wholeDocument (event :: events)) =
      (draft.step (.event event)).1.run (wholeDocument events) := rfl
  rw [Draft.step_item hscope hclose] at hlater
  obtain ⟨rest, hrest, hfollows, hreads⟩ := hlater
  refine ⟨(Writer.separator ⟨layout, output, inner :: outer⟩ inner ++
    (layout.announce scopes.current event ++ layout.spell event)).toList ++ rest, ?_, ?_, ?_⟩
  · rw [hrun, Draft.step_item hscope hclose, hrest, String.toList_append, List.append_assoc]
  · rintro first later ⟨⟩
    rw [String.toList_append, List.append_assoc]
    exact follows_separator _
  · rintro readers rfl
    have hitem (hopens : event.opens? = none) :
        Follows layout (Draft.afterItem inner event) rest :=
      hfollows _ _ (by rw [hopens]; rfl)
    rw [String.toList_append, List.append_assoc]
    exact reads_separator hplain (reads_item hplain hwritable hclose hitem hreads)

end Draft.ReadsBack

/-- A draft that is in step with its writer writes what is read back. -/
theorem Draft.InStep.readsBack {code : Names} {layout : Layout} (hplain : layout.IsPlain)
    {events : List Event} {output : String} {opened : List Writer.Open} {scopes : OpenScopes}
    (hstep : Draft.InStep opened scopes) (hevents : Leads (Writable code) scopes events []) :
    Draft.ReadsBack code ⟨⟨layout, output, opened⟩, scopes⟩ events := by
  induction events generalizing output opened scopes with
  | nil =>
      obtain rfl := hevents
      cases hstep with
      | document hroot hscope => exact .document hroot hscope
  | cons event events ih =>
      obtain ⟨hwritable, hlater⟩ := hevents
      by_cases hclose : event = .close
      · subst hclose
        cases hstep with
        | document hroot hscope => exact absurd rfl (hwritable.takes.1 rfl)
        | inner hinner houter => exact .close hplain hinner (ih houter hlater)
      · obtain ⟨inner, outer, rfl, hscope, hkeeps⟩ := hstep.exists_cons
        refine .item hplain hwritable hclose hscope ?_
        rw [Draft.step_item hscope hclose]
        exact ih (Draft.InStep.item hclose hkeeps) hlater

/-- The text of a balanced stream is read back as the stream. -/
theorem read_textOfStream {code : Names} {layout : Layout} (hplain : layout.IsPlain)
    {events : List Event} (hevents : Leads (Writable code) [] events []) :
    Reading.ofText code (textOfStream layout (wholeDocument events)).toList =
      ⟨events.map Event.readBack, none⟩ := by
  have hstep : Draft.InStep (Draft.new layout).writer.opened [] := .document rfl rfl
  have hreadsBack : Draft.ReadsBack code (Draft.new layout) events := hstep.readsBack hplain hevents
  obtain ⟨rest, hrest, -, hreads⟩ := hreadsBack
  have htext : (textOfStream layout (wholeDocument events)).toList = rest := hrest
  rw [htext]
  exact hreads [] rfl ⟨0, rest⟩ rfl

/-- Unless a number was too great for any finite one, what is told of a text can be
written. -/
theorem Told.writable {code : Names} {scopes : OpenScopes} {event : Event}
    (h : Told code scopes event)
    (hnumber : event.isInfinite = false) :
    Writable code scopes event := by
  refine ⟨h.takes, h.depth, h.spelled, ?_⟩
  cases event with
  | number name value =>
      cases value with
      | nan => exact absurd rfl h.readable
      | infinite negative => cases hnumber
      | finite negative rank => exact ⟨negative, rank, rfl⟩
  | _ => trivial

theorem reformat_of_read {code : Names} {source : List Char} {events : List Event}
    (h : Reading.ofText code source = ⟨events, none⟩) (layout : Layout) :
    reformat code layout source = .ok (textOfStream layout (wholeDocument events)) := by
  simp only [reformat, h]

/-- A text that is written anew keeps its events, comments included, up to the sign of
zeros, and is not changed by being written anew once more. -/
theorem reformat_stable {code : Names} {layout : Layout} {source : List Char}
    (hbare : layout.bareStrings = false)
    (hindent : ∀ c ∈ layout.indent.toList, c = ' ' ∨ c = '\t')
    (hread : (Reading.ofText code source).failure = none)
    (hnumbers : ∀ event ∈ (Reading.ofText code source).events, event.isInfinite = false) :
    ∃ text, reformat code layout source = .ok text ∧
      (Reading.ofText code text.toList).failure = none ∧
      (Reading.ofText code text.toList).events.isEqv (Reading.ofText code source).events
        Event.same = true ∧
      reformat code layout text.toList = .ok text := by
  have hplain : layout.IsPlain := .of_blanks hbare hindent
  obtain ⟨events, hevents⟩ : ∃ events, Reading.ofText code source = ⟨events, none⟩ :=
    ⟨_, congrArg (Reading.mk _) hread⟩
  have htold := Reading.told code source
  rw [hevents] at htold hnumbers ⊢
  have hwritable : Leads (Writable code) [] events [] :=
    (htold.and_mem hnumbers).mono fun scopes event h => h.1.writable h.2
  have hfinite : ∀ event ∈ events, event.IsFinite := hwritable.forall_mem fun _ _ h => h.finite
  have hreadable : ∀ event ∈ events, event.Readable := htold.forall_mem fun _ _ h => h.readable
  have hagain := read_textOfStream hplain hwritable
  refine ⟨_, reformat_of_read hevents layout, ?_, ?_, ?_⟩
  · rw [hagain]
  · rw [hagain]
    exact isEqv_map_readBack hreadable hfinite
  · rw [reformat_of_read hagain layout, textOfStream_readBack hfinite]

theorem reformat_stable_negativeZero :
    let source := "sql: a ;; b: [-0, # c\n no] \"d\" # e\n : f\x7b\x7d".toList
    ∃ text, reformat (Names.ofList ["sql"]) Layout.standard source = .ok text ∧
      (Reading.ofText (Names.ofList ["sql"]) text.toList).failure = none ∧
      (Reading.ofText (Names.ofList ["sql"]) text.toList).events.isEqv
        (Reading.ofText (Names.ofList ["sql"]) source).events Event.same = true ∧
      reformat (Names.ofList ["sql"]) Layout.standard text.toList = .ok text := by
  exact reformat_stable rfl (by simp [Layout.standard]) (by decide +kernel) (by decide +kernel)

end Lookml
