import Lookml.Proofs.Reader.Path

/-!
Comments in front of a lexeme. A reader tells them one after the other, or keeps them all
until it comes to the lexeme, so a run can go on from there at once.
-/

namespace Lookml

theorem Event.comments_append (texts more : List String) :
    Event.comments (texts ++ more) = Event.comments texts ++ Event.comments more :=
  List.map_append

/-- What a step in the given scopes makes of a reading, from a cursor behind the
lexeme. -/
def Progress.reading (code : Names) (opened : List Opened) (cursor : Cursor) : Progress → Reading
  | .onward events next => (next.run code cursor).before events
  | .failed events error => ⟨events ++ Reader.closings opened, some error⟩
  | .finished events => ⟨events, none⟩

theorem Progress.reading_before (code : Names) (opened : List Opened) (cursor : Cursor)
    (front : List Event) (progress : Progress) :
    (progress.before front).reading code opened cursor =
      (progress.reading code opened cursor).before front := by
  cases progress <;> simp [Progress.before, Progress.reading, Reading.before]

theorem Reader.run_eq_reading {code : Names} {reader : Reader}
    (hstage : ∀ name, reader.stage ≠ .code name) (cursor : Cursor) :
    reader.run code cursor =
      (reader.step code cursor.lexeme.1).reading code reader.opened cursor.lexeme.2 := by
  cases hstep : reader.step code cursor.lexeme.1 with
  | onward events next => exact run_onward hstage hstep
  | failed events error => exact run_failed hstage hstep
  | finished events => exact run_finished hstage hstep

namespace Cursor

theorem lexeme_rest_length_le (cursor : Cursor) :
    cursor.lexeme.2.rest.length ≤ cursor.rest.length := by
  by_cases hend : cursor.lexeme.1.kind = .endOfInput
  · rw [(isBlanks_of_endOfInput hend).2]
    exact Nat.zero_le _
  · exact Nat.le_of_lt (lexeme_rest_length_lt hend)

/-- Comments stand between a cursor and the next lexeme that is none. -/
inductive Passes : Cursor → List String → Cursor → Prop
  | here {cursor : Cursor} (hother : ∀ text, cursor.lexeme.1.kind ≠ .comment text) :
      Passes cursor [] cursor
  | comment {cursor last : Cursor} {text : String} {texts : List String}
      (hkind : cursor.lexeme.1.kind = .comment text) (hlater : Passes cursor.lexeme.2 texts last) :
      Passes cursor (text :: texts) last

theorem exists_passes (cursor : Cursor) : ∃ texts last, cursor.Passes texts last := by
  induction hlength : cursor.rest.length using Nat.strongRecOn generalizing cursor with
  | ind length ih =>
      by_cases hcomment : ∃ text, cursor.lexeme.1.kind = .comment text
      · obtain ⟨text, hkind⟩ := hcomment
        have hshorter : cursor.lexeme.2.rest.length < length := by
          rw [← hlength]
          exact lexeme_rest_length_lt (by simp [hkind])
        obtain ⟨texts, last, hpasses⟩ := ih _ hshorter _ rfl
        exact ⟨text :: texts, last, .comment hkind hpasses⟩
      · exact ⟨[], cursor, .here fun text hkind => hcomment ⟨text, hkind⟩⟩

section Passes
variable {cursor last : Cursor} {texts : List String}

theorem Passes.other (h : Passes cursor texts last) (text : String) :
    last.lexeme.1.kind ≠ .comment text := by
  induction h with
  | here hother => exact hother text
  | comment _ _ ih => exact ih

theorem Passes.rest_length_le (h : Passes cursor texts last) :
    last.rest.length ≤ cursor.rest.length := by
  induction h with
  | here => exact Nat.le_refl _
  | comment _ _ ih => exact Nat.le_trans ih (lexeme_rest_length_le _)

end Passes

end Cursor

namespace Reader

section Passes
variable {code : Names} {opened : List Opened} {cursor last : Cursor} {texts : List String}

/-- Comments are told on the way by a reader that stays as it is. -/
theorem run_told {reader : Reader} (hstage : ∀ name, reader.stage ≠ .code name)
    (htell : ∀ text span, reader.step code ⟨.comment text, span⟩ = .onward [.comment text] reader)
    (h : cursor.Passes texts last) :
    reader.run code cursor = (reader.run code last).before (Event.comments texts) := by
  induction h with
  | here => rfl
  | @comment cursor last text texts hkind _ ih =>
      have hstep := htell text cursor.lexeme.1.span
      rw [← hkind] at hstep
      rw [run_onward hstage hstep, ih, Reading.before_before]
      rfl

/-- Comments are kept on the way by a reader that adds them to those it has. -/
theorem run_kept (keeping : List String → Reader)
    (hstage : ∀ comments name, (keeping comments).stage ≠ .code name)
    (hkeep : ∀ comments text span, (keeping comments).step code ⟨.comment text, span⟩ =
      .onward [] (keeping (comments ++ [text])))
    (h : cursor.Passes texts last) (comments : List String) :
    (keeping comments).run code cursor = (keeping (comments ++ texts)).run code last := by
  induction h generalizing comments with
  | here => rw [List.append_nil]
  | @comment cursor last text texts hkind _ ih =>
      have hstep := hkeep comments text cursor.lexeme.1.span
      rw [← hkind] at hstep
      rw [run_onward (hstage comments) hstep, ih, Reading.before_nil, List.append_assoc]
      rfl

theorem run_afterWord_passes {name word : String} {span : Span} (h : cursor.Passes texts last)
    (comments : List String) :
    run code ⟨opened, .afterWord name word span comments⟩ cursor =
      run code ⟨opened, .afterWord name word span (comments ++ texts)⟩ last :=
  run_kept (fun comments => ⟨opened, .afterWord name word span comments⟩) (by simp)
    (fun _ _ _ => rfl) h comments

theorem run_afterElementWord_passes {word : String} (h : cursor.Passes texts last)
    (comments : List String) :
    run code ⟨opened, .afterElementWord word comments⟩ cursor =
      run code ⟨opened, .afterElementWord word (comments ++ texts)⟩ last :=
  run_kept (fun comments => ⟨opened, .afterElementWord word comments⟩) (by simp)
    (fun _ _ _ => rfl) h comments

/-- What is told when a scope opens is told in front of it. -/
theorem enter_eq_before (opened : List Opened) (events : List Event) (event : Event)
    (scope : Scope) (span : Span) :
    enter opened events event scope span = (enter opened [] event scope span).before events := by
  unfold enter
  split <;> simp [Progress.before]

/-- Two readers that differ at a lexeme in what is told before differ in that for good. -/
theorem run_of_step_before {reader reader' : Reader} {front : List Event}
    (hstage : ∀ name, reader.stage ≠ .code name) (hstage' : ∀ name, reader'.stage ≠ .code name)
    (hopened : reader'.opened = reader.opened)
    (hstep : reader'.step code cursor.lexeme.1 = (reader.step code cursor.lexeme.1).before front) :
    reader'.run code cursor = (reader.run code cursor).before front := by
  rw [run_eq_reading hstage', hstep, Progress.reading_before, hopened, ← run_eq_reading hstage]

/-- Behind a word that no brace makes the name of an instance, the word is told. -/
theorem run_afterWord_other {name word : String} {span : Span} {comments : List String}
    (hcomment : ∀ text, cursor.lexeme.1.kind ≠ .comment text)
    (hbrace : cursor.lexeme.1.kind ≠ .openBrace) :
    run code ⟨opened, .afterWord name word span comments⟩ cursor =
      (run code ⟨opened, .member⟩ cursor).before
        (wordEvent (some name) word :: Event.comments comments) := by
  refine run_of_step_before (by simp) (by simp) rfl ?_
  simp only [step, onAfterWord]

/-- Behind a word that no colon makes the reference of a pair, the word is told. -/
theorem run_afterElementWord_other {word : String} {comments : List String}
    (hcomment : ∀ text, cursor.lexeme.1.kind ≠ .comment text)
    (hcolon : cursor.lexeme.1.kind ≠ .colon) :
    run code ⟨opened, .afterElementWord word comments⟩ cursor =
      (run code ⟨opened, .element⟩ cursor).before
        (wordEvent none word :: Event.comments comments) := by
  refine run_of_step_before (by simp) (by simp) rfl ?_
  simp only [step, onAfterElementWord]

end Passes

end Reader

end Lookml
