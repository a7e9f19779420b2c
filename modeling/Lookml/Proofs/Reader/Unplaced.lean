import Lookml.Proofs.Grammar.Derivation
import Lookml.Proofs.Reader.Path

/-!
What a reader tells does not depend on where a text stands, since spans come up in errors
only. The comments that it keeps matter to the comments that it tells, and to nothing
else.
-/

namespace Lookml

/-- The events that count: comments may be left out. -/
def Event.counted (comments : Bool) (events : List Event) : List Event :=
  events.filter fun event => comments || !event.isComment

@[simp] theorem Event.counted_nil (comments : Bool) : Event.counted comments [] = [] := rfl

@[simp] theorem Event.counted_append (comments : Bool) (events events' : List Event) :
    Event.counted comments (events ++ events') =
      Event.counted comments events ++ Event.counted comments events' :=
  List.filter_append ..

theorem Event.counted_of_all (events : List Event) : Event.counted true events = events :=
  List.filter_eq_self.mpr fun _ _ => rfl

def Opened.unplaced (inner : Opened) : Opened := ⟨inner.scope, Span.empty 0⟩

def Lexeme.unplaced (lexeme : Lexeme) : Lexeme := ⟨lexeme.kind, Span.empty 0⟩

def SyntaxError.unplaced (error : SyntaxError) : SyntaxError := ⟨error.fault, Span.empty 0⟩

namespace Reader

def Stage.unplaced (comments : Bool) : Stage → Stage
  | .colon name _ => .colon name (Span.empty 0)
  | .value name _ => .value name (Span.empty 0)
  | .afterWord name word _ kept =>
      .afterWord name word (Span.empty 0) (if comments then kept else [])
  | .afterElementWord word kept => .afterElementWord word (if comments then kept else [])
  | stage => stage

def unplaced (comments : Bool) (reader : Reader) : Reader :=
  ⟨reader.opened.map Opened.unplaced, reader.stage.unplaced comments⟩

end Reader

def Progress.unplaced (comments : Bool) : Progress → Progress
  | .onward events reader => .onward (Event.counted comments events) (reader.unplaced comments)
  | .failed events error => .failed (Event.counted comments events) error.unplaced
  | .finished events => .finished (Event.counted comments events)

def Reading.unplaced (comments : Bool) (reading : Reading) : Reading :=
  ⟨Event.counted comments reading.events, reading.failure.map SyntaxError.unplaced⟩

theorem Progress.unplaced_before (comments : Bool) (front : List Event) (progress : Progress) :
    (progress.before front).unplaced comments =
      (progress.unplaced comments).before (Event.counted comments front) := by
  cases progress <;> simp [Progress.before, Progress.unplaced]

theorem Reading.unplaced_before (comments : Bool) (front : List Event) (reading : Reading) :
    (reading.before front).unplaced comments =
      (reading.unplaced comments).before (Event.counted comments front) := by
  simp [Reading.before, Reading.unplaced]

namespace Reader

/-! A step on what is left without spans. -/

section Step
variable (comments : Bool) (code : Names) (opened : List Opened) (lexeme : Lexeme)

@[simp] private theorem between_unplaced :
    between (opened.map Opened.unplaced) = between opened := by
  cases opened with
  | nil => rfl
  | cons inner outer =>
      obtain ⟨scope, span⟩ := inner
      cases scope <;> rfl

@[simp] private theorem unplaced_between : (between opened).unplaced comments = between opened := by
  unfold between
  split <;> rfl

private theorem unexpected_unplaced (expected : Expected) :
    (unexpected lexeme.unplaced expected).unplaced comments =
      (unexpected lexeme expected).unplaced comments := rfl

private theorem leave_unplaced :
    (leave (opened.map Opened.unplaced)).unplaced comments = (leave opened).unplaced comments := by
  simp [leave, Progress.unplaced, Reader.unplaced, Opened.unplaced]

private theorem enter_unplaced {events events' : List Event} (event : Event) (scope : Scope)
    (span span' : Span) (h : Event.counted comments events' = Event.counted comments events) :
    (enter (opened.map Opened.unplaced) events' event scope span').unplaced comments =
      (enter opened events event scope span).unplaced comments := by
  unfold enter
  rw [List.length_map]
  split
  · cases scope <;> simp [h, Progress.unplaced, Reader.unplaced, Opened.unplaced, between,
      Stage.unplaced]
  · simp [h, Progress.unplaced, SyntaxError.unplaced]

private theorem onMember_unplaced :
    (onMember (opened.map Opened.unplaced) lexeme.unplaced).unplaced comments =
      (onMember opened lexeme).unplaced comments := by
  obtain ⟨kind, span⟩ := lexeme
  cases kind with
  | closeBrace =>
      cases opened with
      | nil => rfl
      | cons inner outer => exact leave_unplaced comments outer
  | endOfInput => cases opened <;> rfl
  | _ => simp [onMember, Lexeme.unplaced, Progress.unplaced, Reader.unplaced, Opened.unplaced,
      Stage.unplaced, SyntaxError.unplaced, unexpected]

private theorem onColon_unplaced (name : String) (span : Span) :
    (onColon code (opened.map Opened.unplaced) name (Span.empty 0) lexeme.unplaced).unplaced
        comments = (onColon code opened name span lexeme).unplaced comments := by
  obtain ⟨kind, place⟩ := lexeme
  cases kind with
  | colon =>
      by_cases hcode : code.contains name = true <;>
        simp [onColon, hcode, Lexeme.unplaced, Progress.unplaced, Reader.unplaced, Opened.unplaced,
          Stage.unplaced]
  | _ => simp [onColon, Lexeme.unplaced, Progress.unplaced, Reader.unplaced, Opened.unplaced,
      Stage.unplaced, SyntaxError.unplaced, unexpected]

private theorem onValue_unplaced (name : String) (span : Span) :
    (onValue (opened.map Opened.unplaced) name (Span.empty 0) lexeme.unplaced).unplaced comments =
      (onValue opened name span lexeme).unplaced comments := by
  obtain ⟨kind, place⟩ := lexeme
  cases kind with
  | openBrace => exact enter_unplaced comments opened _ _ _ _ rfl
  | openBracket => exact enter_unplaced comments opened _ _ _ _ rfl
  | _ => simp [onValue, Lexeme.unplaced, Progress.unplaced, Reader.unplaced, Opened.unplaced,
      Stage.unplaced, SyntaxError.unplaced, unexpected]

private theorem onElement_unplaced :
    (onElement (opened.map Opened.unplaced) lexeme.unplaced).unplaced comments =
      (onElement opened lexeme).unplaced comments := by
  obtain ⟨kind, span⟩ := lexeme
  cases kind with
  | closeBracket =>
      simp only [onElement, Lexeme.unplaced, ← List.map_tail]
      exact leave_unplaced comments opened.tail
  | openBracket => exact enter_unplaced comments opened _ _ _ _ rfl
  | _ => simp [onElement, Lexeme.unplaced, Progress.unplaced, Reader.unplaced, Opened.unplaced,
      Stage.unplaced, SyntaxError.unplaced, unexpected]

private theorem onPairText_unplaced (reference : String) :
    (onPairText (opened.map Opened.unplaced) reference lexeme.unplaced).unplaced comments =
      (onPairText opened reference lexeme).unplaced comments := by
  obtain ⟨kind, span⟩ := lexeme
  cases kind <;> simp [onPairText, Lexeme.unplaced, Progress.unplaced, Reader.unplaced,
    Opened.unplaced, Stage.unplaced, SyntaxError.unplaced, unexpected]

private theorem counted_comments (kept : List String) :
    Event.counted comments (Event.comments (if comments then kept else [])) =
      Event.counted comments (Event.comments kept) := by
  cases comments with
  | true => rfl
  | false => exact (withoutComments_comments kept).symm

private theorem counted_cons_comments (event : Event) (kept : List String) :
    Event.counted comments (event :: Event.comments (if comments then kept else [])) =
      Event.counted comments (event :: Event.comments kept) := by
  have hcons (texts : List String) : Event.counted comments (event :: Event.comments texts) =
      Event.counted comments [event] ++ Event.counted comments (Event.comments texts) :=
    Event.counted_append comments [event] _
  rw [hcons, counted_comments, hcons]

private theorem onAfterWord_unplaced (name word : String) (span : Span) (kept : List String) :
    (onAfterWord (opened.map Opened.unplaced) name word (Span.empty 0)
        (if comments then kept else []) lexeme.unplaced).unplaced comments =
      (onAfterWord opened name word span kept lexeme).unplaced comments := by
  have hother := onMember_unplaced comments opened lexeme
  obtain ⟨kind, place⟩ := lexeme
  cases kind with
  | comment text =>
      cases comments <;> simp [onAfterWord, Lexeme.unplaced, Progress.unplaced, Reader.unplaced,
        Opened.unplaced, Stage.unplaced]
  | openBrace => exact enter_unplaced comments opened _ _ _ _ (counted_comments comments kept)
  | _ =>
      simp only [onAfterWord, Lexeme.unplaced, Progress.unplaced_before,
        counted_cons_comments] at hother ⊢
      rw [hother]

private theorem onAfterElementWord_unplaced (word : String) (kept : List String) :
    (onAfterElementWord (opened.map Opened.unplaced) word (if comments then kept else [])
        lexeme.unplaced).unplaced comments =
      (onAfterElementWord opened word kept lexeme).unplaced comments := by
  have hother := onElement_unplaced comments opened lexeme
  obtain ⟨kind, place⟩ := lexeme
  cases kind with
  | comment text =>
      cases comments <;> simp [onAfterElementWord, Lexeme.unplaced, Progress.unplaced,
        Reader.unplaced, Opened.unplaced, Stage.unplaced]
  | colon =>
      simp [onAfterElementWord, Lexeme.unplaced, Progress.unplaced, Reader.unplaced,
        Opened.unplaced, Stage.unplaced, counted_comments]
  | _ =>
      simp only [onAfterElementWord, Lexeme.unplaced, Progress.unplaced_before,
        counted_cons_comments] at hother ⊢
      rw [hother]

theorem step_unplaced (reader : Reader) :
    ((reader.unplaced comments).step code lexeme.unplaced).unplaced comments =
      (reader.step code lexeme).unplaced comments := by
  obtain ⟨opened, stage⟩ := reader
  cases stage with
  | member => exact onMember_unplaced comments opened lexeme
  | colon name span => exact onColon_unplaced comments code opened lexeme name span
  | code name => exact unexpected_unplaced comments lexeme .value
  | value name span => exact onValue_unplaced comments opened lexeme name span
  | afterWord name word span kept =>
      exact onAfterWord_unplaced comments opened lexeme name word span kept
  | element => exact onElement_unplaced comments opened lexeme
  | afterElementWord word kept => exact onAfterElementWord_unplaced comments opened lexeme word kept
  | pairText reference => exact onPairText_unplaced comments opened lexeme reference

end Step

end Reader

namespace Cursor

theorem lexeme_kind_congr {cursor cursor' : Cursor} (h : cursor'.rest = cursor.rest) :
    cursor'.lexeme.1.kind = cursor.lexeme.1.kind := by
  rw [lexeme_kind, h, lexeme_kind]

theorem lexeme_rest_congr {cursor cursor' : Cursor} (h : cursor'.rest = cursor.rest) :
    cursor'.lexeme.2.rest = cursor.lexeme.2.rest := by
  rw [lexeme_rest, h, lexeme_rest]

theorem codeBlock_of_rest_eq {cursor cursor' next : Cursor} {text : String} {span : Span}
    (hrest : cursor'.rest = cursor.rest) (h : cursor.codeBlock = .ok (text, span, next)) :
    ∃ span' next', cursor'.codeBlock = .ok (text, span', next') ∧ next'.rest = next.rest := by
  obtain ⟨front, hsplit, rfl⟩ := splitCode_of_codeBlock h
  exact codeBlock_of_splitCode (hrest ▸ hsplit)

theorem codeBlock_fault_of_rest_eq {cursor cursor' : Cursor} {error : SyntaxError}
    (hrest : cursor'.rest = cursor.rest) (h : cursor.codeBlock = .error error) :
    ∃ error', cursor'.codeBlock = .error error' ∧ error'.unplaced = error.unplaced := by
  cases hsplit : Token.splitCode cursor.rest with
  | none =>
      simp only [codeBlock, code, hsplit, hrest, reduceCtorEq, if_false, Except.error.injEq] at h ⊢
      exact ⟨_, rfl, h ▸ rfl⟩
  | some found => simp [codeBlock, code, hsplit] at h

end Cursor

namespace Reader

section Run
variable {comments : Bool} {reader reader' : Reader}

private theorem unplaced_stage_eq_code (comments : Bool) {reader : Reader} {name : String} :
    (reader.unplaced comments).stage = .code name ↔ reader.stage = .code name := by
  obtain ⟨opened, stage⟩ := reader
  cases stage <;> simp [unplaced, Stage.unplaced]

private theorem stage_eq_code_congr (h : reader'.unplaced comments = reader.unplaced comments)
    (name : String) : reader'.stage = .code name ↔ reader.stage = .code name := by
  rw [← unplaced_stage_eq_code comments, h, unplaced_stage_eq_code]

private theorem stage_ne_code_congr (h : reader'.unplaced comments = reader.unplaced comments)
    (hstage : ∀ name, reader.stage ≠ .code name) (name : String) : reader'.stage ≠ .code name :=
  fun hcode => hstage name ((stage_eq_code_congr h name).mp hcode)

private theorem opened_unplaced_congr (h : reader'.unplaced comments = reader.unplaced comments)
    (stage : Stage) : Reader.unplaced comments ⟨reader'.opened, stage⟩ =
      Reader.unplaced comments ⟨reader.opened, stage⟩ := by
  have hopened : reader'.opened.map Opened.unplaced = reader.opened.map Opened.unplaced :=
    congrArg Reader.opened h
  rw [unplaced, unplaced, hopened]

private theorem closings_congr (h : reader'.unplaced comments = reader.unplaced comments) :
    closings reader'.opened = closings reader.opened := by
  have hlength := congrArg List.length (congrArg Reader.opened h)
  simp only [unplaced, List.length_map] at hlength
  rw [closings, hlength, closings]

private theorem step_congr (code : Names) {lexeme lexeme' : Lexeme}
    (hreader : reader'.unplaced comments = reader.unplaced comments)
    (hkind : lexeme'.kind = lexeme.kind) :
    (reader'.step code lexeme').unplaced comments =
      (reader.step code lexeme).unplaced comments := by
  have hlexeme : lexeme'.unplaced = lexeme.unplaced := congrArg (Lexeme.mk · _) hkind
  rw [← step_unplaced, hreader, hlexeme, step_unplaced]

/-- Where a text stands matters only to the spans of what is wrong with it. -/
theorem run_unplaced (code : Names) {comments : Bool} {reader reader' : Reader}
    {cursor cursor' : Cursor}
    (hreader : reader'.unplaced comments = reader.unplaced comments)
    (hrest : cursor'.rest = cursor.rest) :
    (reader'.run code cursor').unplaced comments = (reader.run code cursor).unplaced comments := by
  -- Each step reads the same lexeme or block of code, at another place.
  fun_induction run code reader cursor generalizing reader' cursor' with
  | case1 reader cursor name hstage text span next hcode ih =>
      obtain ⟨span', next', hcode', hnext⟩ := Cursor.codeBlock_of_rest_eq hrest hcode
      rw [run_codeBlock ((stage_eq_code_congr hreader name).mpr hstage) hcode',
        Reading.unplaced_before, Reading.unplaced_before,
        ih (opened_unplaced_congr hreader .member) hnext]
  | case2 reader cursor name hstage error hcode =>
      obtain ⟨error', hcode', herror⟩ := Cursor.codeBlock_fault_of_rest_eq hrest hcode
      rw [run_unterminatedCode ((stage_eq_code_congr hreader name).mpr hstage) hcode',
        closings_congr hreader]
      exact congrArg (Reading.mk _ ∘ some) herror
  | case3 reader cursor events next hstep hstage ih =>
      have hstep' := step_congr code hreader (Cursor.lexeme_kind_congr hrest)
      rw [hstep] at hstep'
      cases hreached : reader'.step code cursor'.lexeme.1 with
      | onward events' next' =>
          rw [hreached] at hstep'
          obtain ⟨hevents, hnext⟩ := Progress.onward.inj hstep'
          rw [run_onward (stage_ne_code_congr hreader hstage) hreached, Reading.unplaced_before,
            Reading.unplaced_before, hevents, ih hnext (Cursor.lexeme_rest_congr hrest)]
      | _ => rw [hreached] at hstep'; cases hstep'
  | case4 reader cursor events error hstep hstage =>
      have hstep' := step_congr code hreader (Cursor.lexeme_kind_congr hrest)
      rw [hstep] at hstep'
      cases hreached : reader'.step code cursor'.lexeme.1 with
      | failed events' error' =>
          rw [hreached] at hstep'
          obtain ⟨hevents, herror⟩ := Progress.failed.inj hstep'
          rw [run_failed (stage_ne_code_congr hreader hstage) hreached, closings_congr hreader]
          simp only [Reading.unplaced, Event.counted_append, hevents, Option.map_some, herror]
      | _ => rw [hreached] at hstep'; cases hstep'
  | case5 reader cursor events hstep hstage =>
      have hstep' := step_congr code hreader (Cursor.lexeme_kind_congr hrest)
      rw [hstep] at hstep'
      cases hreached : reader'.step code cursor'.lexeme.1 with
      | finished events' =>
          rw [hreached] at hstep'
          rw [run_finished (stage_ne_code_congr hreader hstage) hreached]
          simp only [Reading.unplaced, Progress.finished.inj hstep']
      | _ => rw [hreached] at hstep'; cases hstep'

end Run

end Reader

end Lookml
