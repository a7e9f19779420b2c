import Lookml.Proofs.Reader.Bounded
import Lookml.Proofs.Reader.Reads
import Lookml.Proofs.Reader.Unplaced

/-!
Two documents, one behind the other on a line of its own, are a document that tells what
the one tells and then what the other tells.
-/

namespace Lookml

namespace Reader

/-- What a reader that comes to the end of a document has not told until then: a word that
might have been the name of an instance, and the comments behind it. -/
inductive Finishes : Stage → List Event → Prop
  | member : Finishes .member []
  | afterWord {name word : String} {span : Span} {comments : List String} :
      Finishes (.afterWord name word span comments)
        (wordEvent (some name) word :: Event.comments comments)

private theorem onMember_finished {opened : List Opened} {lexeme : Lexeme} {events : List Event}
    (h : onMember opened lexeme = .finished events) :
    lexeme.kind = .endOfInput ∧ opened = [] ∧ events = [] := by
  unfold onMember at h
  split at h <;> try cases h
  · split at h <;> cases h
  · split at h <;> cases h
    exact ⟨‹_›, rfl, rfl⟩

private theorem onElement_ne_finished (opened : List Opened) (lexeme : Lexeme)
    (events : List Event) : onElement opened lexeme ≠ .finished events := by
  unfold onElement enter
  split <;> (try split) <;> simp [leave, unexpected]

private theorem onAfterWord_finished {opened : List Opened} {name word : String} {span : Span}
    {comments : List String} {lexeme : Lexeme} {events : List Event}
    (h : onAfterWord opened name word span comments lexeme = .finished events) :
    lexeme.kind = .endOfInput ∧ opened = [] ∧
      events = wordEvent (some name) word :: Event.comments comments := by
  unfold onAfterWord at h
  split at h
  · cases h
  · unfold enter at h
    split at h <;> cases h
  · cases hmember : onMember opened lexeme with
    | finished told =>
        rw [hmember] at h
        obtain ⟨hkind, hopened, rfl⟩ := onMember_finished hmember
        exact ⟨hkind, hopened, by rw [← Progress.finished.inj h, List.append_nil]⟩
    | _ => rw [hmember] at h; cases h

/-- A document ends where no scope is open, at the end of the input. -/
theorem step_finished {code : Names} {reader : Reader} {lexeme : Lexeme} {events : List Event}
    (h : reader.step code lexeme = .finished events) :
    lexeme.kind = .endOfInput ∧ reader.opened = [] ∧ Finishes reader.stage events := by
  obtain ⟨opened, stage⟩ := reader
  cases stage with
  | member =>
      obtain ⟨hkind, hopened, rfl⟩ := onMember_finished h
      exact ⟨hkind, hopened, .member⟩
  | colon name span =>
      simp only [step, onColon] at h
      split at h <;> cases h
  | code name => cases h
  | value name span =>
      simp only [step, onValue, enter] at h
      split at h <;> first | cases h | split at h <;> cases h
  | afterWord name word span comments =>
      obtain ⟨hkind, hopened, rfl⟩ := onAfterWord_finished h
      exact ⟨hkind, hopened, .afterWord⟩
  | element => exact absurd h (onElement_ne_finished _ _ _)
  | afterElementWord word comments =>
      simp only [step, onAfterElementWord] at h
      split at h
      · cases h
      · cases h
      · cases helement : onElement opened lexeme with
        | finished told => exact absurd helement (onElement_ne_finished _ _ _)
        | _ => rw [helement] at h; cases h
  | pairText reference =>
      simp only [step, onPairText] at h
      split at h <;> cases h

/-- What a reader has not told where a document may end it tells in front of whatever
follows there. -/
theorem Finishes.run {code : Names} {opened : List Opened} {stage : Stage}
    {left events : List Event} {cursor : Cursor} (h : Finishes stage left)
    (hlater : Reader.run code ⟨opened, .member⟩ cursor = ⟨events, none⟩) :
    Reader.run code ⟨opened, stage⟩ cursor = ⟨left ++ events, none⟩ := by
  cases h with
  | member => exact hlater
  | afterWord => exact run_afterWord hlater

/-- A run without an error is the same wherever the text stands. -/
theorem run_moved {code : Names} {reader : Reader} {cursor cursor' : Cursor} {events : List Event}
    (hrest : cursor'.rest = cursor.rest) (h : reader.run code cursor = ⟨events, none⟩) :
    reader.run code cursor' = ⟨events, none⟩ := by
  have hreader : reader.unplaced true = reader.unplaced true := rfl
  have hsame := run_unplaced code hreader hrest
  rw [h] at hsame
  obtain ⟨hevents, hfailure⟩ := Reading.mk.inj hsame
  rw [Event.counted_of_all, Event.counted_of_all] at hevents
  cases hrun : reader.run code cursor' with
  | mk told failure =>
      rw [hrun] at hevents hfailure
      cases failure with
      | none => exact congrArg (Reading.mk · none) hevents
      | some error => cases hfailure

end Reader

/-- Documents on lines of their own tell what each of them tells, one after the other. -/
theorem Reading.ofText_concatenated (code : Names) (first second : List Char)
    (hfirst : (Reading.ofText code first).failure = none)
    (hsecond : (Reading.ofText code second).failure = none) :
    Reading.ofText code (first ++ '\n' :: second) =
      ⟨(Reading.ofText code first).events ++ (Reading.ofText code second).events, none⟩ := by
  obtain ⟨told, last, cursor, left, hpath, hstage, hstep, hrun⟩ :=
    Reader.exists_path_of_success hfirst
  obtain ⟨hkind, hopened, hfinishes⟩ := Reader.step_finished hstep
  obtain ⟨taken, hrest, hoffset, hsame⟩ := hpath.exchange
  obtain ⟨hblanks, -⟩ := Cursor.isBlanks_of_endOfInput hkind
  obtain ⟨opened, stage⟩ := last
  obtain rfl : opened = [] := hopened
  have hsource : first = taken ++ cursor.rest := hrest
  -- The blanks behind the last lexeme of the first document go on with the line end.
  have hlike : EndsLike cursor.rest (cursor.rest ++ '\n' :: second) := by
    simpa using (endsLike_lineEnd [] second).append cursor.rest
  have hlater : Reader.run code ⟨[], stage⟩ ⟨cursor.offset, cursor.rest ++ '\n' :: second⟩ =
      ⟨left ++ (Reading.ofText code second).events, none⟩ := by
    have hline : IsBlanks ['\n'] := .gap rfl .nil
    rw [Reader.run_blanks hstage hblanks, ← List.singleton_append, Reader.run_blanks hstage hline]
    have hbehind : Reader.start.run code (Cursor.ofText second) =
        ⟨(Reading.ofText code second).events, none⟩ := congrArg (Reading.mk _) hsecond
    refine hfinishes.run (Reader.run_moved ?_ hbehind)
    rfl
  have hevents : (Reading.ofText code first).events = told ++ left := congrArg Reading.events hrun
  have hwhole : Reading.ofText code (taken ++ (cursor.rest ++ '\n' :: second)) =
      (Reader.run code ⟨[], stage⟩ ⟨cursor.offset, cursor.rest ++ '\n' :: second⟩).before told :=
    (hsame _ hlike).run
  rw [hevents, hsource, List.append_assoc, hwhole, hlater, Reading.before, List.append_assoc]

/-- A word at the end of a document, which might have been the name of an instance, and a
comment behind it. -/
theorem Reading.ofText_concatenated_word :
    (Reading.ofText (Names.ofList []) "a: b # c".toList).failure = none ∧
      (Reading.ofText (Names.ofList []) "# d\ne: 1".toList).failure = none ∧
        (Reading.ofText (Names.ofList [])
            ("a: b # c".toList ++ '\n' :: "# d\ne: 1".toList)).events =
          [.identifier (some "a") "b", .comment " c", .comment " d",
            .number (some "e") (Number.ofText ['1'])] := by
  have hfirst : (Reading.ofText (Names.ofList []) "a: b # c".toList).failure = none := by
    rw [Reading.ofText_eq_runFor]
    decide +kernel
  have hsecond : (Reading.ofText (Names.ofList []) "# d\ne: 1".toList).failure = none := by
    rw [Reading.ofText_eq_runFor]
    decide +kernel
  refine ⟨hfirst, hsecond, ?_⟩
  rw [Reading.ofText_concatenated (Names.ofList []) _ _ hfirst hsecond]
  simp only [Reading.ofText_eq_runFor]
  decide +kernel

end Lookml
