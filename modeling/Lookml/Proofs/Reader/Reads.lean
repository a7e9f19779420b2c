import Lookml.Proofs.Lexeme.CodeBlock
import Lookml.Proofs.Reader.Passes

/-!
Runs that come to the end of the text. What they tell depends on the text that is left,
not on where it stands, and a word behind which no brace and no colon stands is told as if
the reader had not waited for one.
-/

namespace Lookml.Reader

/-- On the rest of a text that is left here, the reader comes to the end and tells these
events. -/
def Reads (code : Names) (reader : Reader) (cs : List Char) (events : List Event) : Prop :=
  ∀ cursor : Cursor, cursor.rest = cs → reader.run code cursor = ⟨events, none⟩

theorem between_ne_code (opened : List Opened) (name : String) :
    between opened ≠ .code name := by
  unfold between
  split <;> simp

theorem enter_of_lt {opened : List Opened} {events : List Event} {event : Event} {scope : Scope}
    {span : Span} (hroom : opened.length < maxDepth) :
    enter opened events event scope span =
      .onward (events ++ [event]) ⟨⟨scope, span⟩ :: opened, between (⟨scope, span⟩ :: opened)⟩ :=
  if_pos hroom

section Runs
variable {code : Names} {reader : Reader} {cursor : Cursor} {events : List Event}

theorem lexeme_of_next {kind : Lexeme.Kind} {rest : List Char}
    (h : Lexeme.next cursor.rest = (kind, rest)) :
    cursor.lexeme.1 = ⟨kind, cursor.lexeme.1.span⟩ ∧ cursor.lexeme.2.rest = rest := by
  have hkind := cursor.lexeme_kind
  have hrest := cursor.lexeme_rest
  rw [h] at hkind hrest
  refine ⟨?_, hrest⟩
  rw [← show cursor.lexeme.1.kind = kind from hkind]

/-- A run without an error either goes on after its first step or ends there. -/
theorem run_success (hstage : ∀ name, reader.stage ≠ .code name)
    (h : reader.run code cursor = ⟨events, none⟩) :
    (∃ told next later, reader.step code cursor.lexeme.1 = .onward told next ∧
      next.run code cursor.lexeme.2 = ⟨later, none⟩ ∧ told ++ later = events) ∨
    reader.step code cursor.lexeme.1 = .finished events := by
  cases hstep : reader.step code cursor.lexeme.1 with
  | onward told next =>
      rw [run_onward hstage hstep, Reading.before] at h
      obtain ⟨hevents, hfailure⟩ := Reading.mk.inj h
      exact .inl ⟨told, next, _, rfl, congrArg (Reading.mk _) hfailure, hevents⟩
  | failed told error =>
      rw [run_failed hstage hstep] at h
      cases (Reading.mk.inj h).2
  | finished told =>
      rw [run_finished hstage hstep] at h
      exact .inr (by rw [(Reading.mk.inj h).1])

theorem run_codeBlock_success {name : String} (hstage : reader.stage = .code name)
    (h : reader.run code cursor = ⟨events, none⟩) :
    ∃ text next later, Token.splitCode cursor.rest = some (text, next.rest) ∧
      run code ⟨reader.opened, .member⟩ next = ⟨later, none⟩ ∧
      .code name (String.ofList (trimBlank text)) :: later = events := by
  cases hcode : cursor.codeBlock with
  | error error =>
      rw [run_unterminatedCode hstage hcode] at h
      cases (Reading.mk.inj h).2
  | ok block =>
      obtain ⟨text, span, next⟩ := block
      rw [run_codeBlock hstage hcode, Reading.before] at h
      obtain ⟨hevents, hfailure⟩ := Reading.mk.inj h
      obtain ⟨front, hsplit, rfl⟩ := Cursor.splitCode_of_codeBlock hcode
      exact ⟨front, next, _, hsplit, congrArg (Reading.mk _) hfailure, hevents⟩

end Runs

section Rules
variable {code : Names} {opened : List Opened} {cs rest : List Char} {kind : Lexeme.Kind}
  {events : List Event}

theorem Reads.onward {reader : Reader} (hstage : ∀ name, reader.stage ≠ .code name)
    (hnext : Lexeme.next cs = (kind, rest))
    (hstep : ∀ span, ∃ told next later, reader.step code ⟨kind, span⟩ = .onward told next ∧
      next.Reads code rest later ∧ told ++ later = events) :
    reader.Reads code cs events := by
  rintro cursor rfl
  obtain ⟨hlexeme, hrest⟩ := lexeme_of_next hnext
  obtain ⟨told, next, later, honward, hlater, rfl⟩ := hstep cursor.lexeme.1.span
  rw [← hlexeme] at honward
  rw [run_onward hstage honward, hlater _ hrest, Reading.before]

theorem Reads.finished (hnext : Lexeme.next cs = (.endOfInput, rest)) :
    Reads code ⟨[], .member⟩ cs [] := by
  rintro cursor rfl
  obtain ⟨hlexeme, -⟩ := lexeme_of_next hnext
  apply run_finished (by simp)
  rw [hlexeme]
  rfl

theorem Reads.codeBlock {name : String} {text : List Char}
    (hsplit : Token.splitCode cs = some (text, rest))
    (hrest : Reads code ⟨opened, .member⟩ rest events) :
    Reads code ⟨opened, .code name⟩ cs
      (.code name (String.ofList (trimBlank text)) :: events) := by
  rintro cursor rfl
  obtain ⟨span, next, hcode, hnext⟩ := Cursor.codeBlock_of_splitCode hsplit
  rw [run_codeBlock rfl hcode, hrest next hnext, Reading.before]
  rfl

theorem Reads.blanks {reader : Reader} {gap : List Char}
    (hstage : ∀ name, reader.stage ≠ .code name) (hgap : IsBlanks gap)
    (h : reader.Reads code cs events) : reader.Reads code (gap ++ cs) events := by
  rintro ⟨offset, cs'⟩ rfl
  rw [run_blanks hstage hgap]
  exact h _ rfl

end Rules

/-! Words that are values. -/

section Words
variable {code : Names} {opened : List Opened} {cursor : Cursor} {events : List Event}

/-- A reader that looks at what follows a word, and keeps the comments on the way, tells
the word and the comments before all that another would tell there, unless that one fails
at the next lexeme. -/
theorem run_afterWord {name word : String} {span : Span} {comments : List String}
    (h : run code ⟨opened, .member⟩ cursor = ⟨events, none⟩) :
    run code ⟨opened, .afterWord name word span comments⟩ cursor =
      ⟨wordEvent (some name) word :: Event.comments comments ++ events, none⟩ := by
  obtain ⟨texts, last, hpasses⟩ := cursor.exists_passes
  rw [run_told (by simp) (fun _ _ => rfl) hpasses, Reading.before] at h
  obtain ⟨rfl, hfailure⟩ := Reading.mk.inj h
  have hbrace : last.lexeme.1.kind ≠ .openBrace := by
    intro hbrace
    have hfailed : step code ⟨opened, .member⟩ last.lexeme.1 =
        unexpected last.lexeme.1 .propertyName := by
      simp only [step, onMember, hbrace]
    rw [run_failed (by simp) hfailed] at hfailure
    cases hfailure
  rw [run_afterWord_passes hpasses, run_afterWord_other hpasses.other hbrace, Reading.before,
    hfailure, Event.comments_append, ← List.cons_append, List.append_assoc]

theorem run_afterElementWord {word : String} {comments : List String}
    (h : run code ⟨opened, .element⟩ cursor = ⟨events, none⟩) :
    run code ⟨opened, .afterElementWord word comments⟩ cursor =
      ⟨wordEvent none word :: Event.comments comments ++ events, none⟩ := by
  obtain ⟨texts, last, hpasses⟩ := cursor.exists_passes
  rw [run_told (by simp) (fun _ _ => rfl) hpasses, Reading.before] at h
  obtain ⟨rfl, hfailure⟩ := Reading.mk.inj h
  have hcolon : last.lexeme.1.kind ≠ .colon := by
    intro hcolon
    have hfailed : step code ⟨opened, .element⟩ last.lexeme.1 =
        unexpected last.lexeme.1 .element := by
      simp only [step, onElement, hcolon]
    rw [run_failed (by simp) hfailed] at hfailure
    cases hfailure
  rw [run_afterElementWord_passes hpasses, run_afterElementWord_other hpasses.other hcolon,
    Reading.before, hfailure, Event.comments_append, ← List.cons_append, List.append_assoc]

theorem Reads.afterWord {cs : List Char} {name word : String} {span : Span}
    (h : Reads code ⟨opened, .member⟩ cs events) :
    Reads code ⟨opened, .afterWord name word span []⟩ cs
      (wordEvent (some name) word :: events) :=
  fun cursor hcursor => run_afterWord (h cursor hcursor)

theorem Reads.afterElementWord {cs : List Char} {word : String}
    (h : Reads code ⟨opened, .element⟩ cs events) :
    Reads code ⟨opened, .afterElementWord word []⟩ cs (wordEvent none word :: events) :=
  fun cursor hcursor => run_afterElementWord (h cursor hcursor)

end Words

end Lookml.Reader
