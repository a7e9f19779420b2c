import Lookml.Proofs.Reader.Unplaced

/-!
Comments are told where they stand. A reader may keep a comment until it knows what the
word in front of it is, but tells it before anything that opens or closes a scope behind
it.
-/

namespace Lookml

/-- A comment, or what begins or ends a scope around it. -/
inductive Mark
  | comment (text : String)
  | opening (scope : Scope)
  | closing
deriving DecidableEq

def Event.mark? : Event → Option Mark
  | .comment text => some (.comment text)
  | .close => some .closing
  | event => event.opens?.map .opening

def Lexeme.Kind.mark? : Lexeme.Kind → Option Mark
  | .comment text => some (.comment text)
  | .openBrace => some (.opening .object)
  | .openBracket => some (.opening .list)
  | .closeBrace | .closeBracket => some .closing
  | _ => none

def marksOf (events : List Event) : List Mark := events.filterMap Event.mark?

@[simp] theorem marksOf_append (events events' : List Event) :
    marksOf (events ++ events') = marksOf events ++ marksOf events' :=
  List.filterMap_append ..

def Lexeme.marksOf (lexemes : List Lexeme) : List Mark :=
  lexemes.filterMap fun lexeme => lexeme.kind.mark?

theorem Lexeme.marksOf_cons (lexeme : Lexeme) (lexemes : List Lexeme) :
    marksOf (lexeme :: lexemes) = lexeme.kind.mark?.toList ++ marksOf lexemes := by
  cases h : lexeme.kind.mark? <;> simp [marksOf, h]

/-- A comment, and the scopes around it with the innermost first. A scope is known by how
many were opened before. -/
structure Placed where
  text : String
  around : List (Nat × Scope)
deriving DecidableEq

/-- The comments among marks, behind so many openings of which some still enclose what
follows. -/
def placed (count : Nat) (around : List (Nat × Scope)) : List Mark → List Placed
  | [] => []
  | .comment text :: marks => ⟨text, around⟩ :: placed count around marks
  | .opening scope :: marks => placed (count + 1) ((count, scope) :: around) marks
  | .closing :: marks => placed count around.tail marks

/-- The comments that events tell, in the scopes that they open and close. -/
def Reading.comments (reading : Reading) : List Placed := placed 0 [] (marksOf reading.events)

/-- The comments among lexemes, between the brackets that are read. -/
def Lexeme.comments (lexemes : List Lexeme) : List Placed :=
  placed 0 [] (Lexeme.marksOf lexemes)

theorem placed_append_congr (front : List Mark) {marks marks' : List Mark}
    (h : ∀ count around, placed count around marks = placed count around marks') (count : Nat)
    (around : List (Nat × Scope)) :
    placed count around (front ++ marks) = placed count around (front ++ marks') := by
  induction front generalizing count around with
  | nil => exact h count around
  | cons mark front ih => cases mark <;> simp [placed, ih]

/-- Where no comment follows, none is placed. -/
theorem placed_eq_nil {marks : List Mark} (h : ∀ mark ∈ marks, ∀ text, mark ≠ .comment text)
    (count : Nat) (around : List (Nat × Scope)) : placed count around marks = [] := by
  induction marks generalizing count around with
  | nil => rfl
  | cons mark marks ih =>
      have hlater : ∀ mark ∈ marks, ∀ text, mark ≠ .comment text :=
        fun later hmem => h later (List.mem_cons_of_mem _ hmem)
      cases mark with
      | comment text => exact absurd rfl (h _ List.mem_cons_self text)
      | opening scope => exact ih hlater _ _
      | closing => exact ih hlater _ _

namespace Reader

/-- The comments that a stage keeps. -/
def Stage.held : Stage → List String
  | .afterWord _ _ _ comments | .afterElementWord _ comments => comments
  | _ => []

theorem marksOf_comments (texts : List String) :
    marksOf (Event.comments texts) = texts.map .comment := by
  simp [marksOf, Event.comments, List.filterMap_map, Function.comp_def, Event.mark?]

theorem mark?_wordEvent (name : Option String) (word : String) :
    (wordEvent name word).mark? = none := by
  unfold wordEvent
  split <;> rfl

theorem marksOf_word (name : Option String) (word : String) (texts : List String) :
    marksOf (wordEvent name word :: Event.comments texts) = texts.map .comment := by
  rw [marksOf, List.filterMap_cons_none (mark?_wordEvent name word), ← marksOf, marksOf_comments]

theorem marksOf_closings (opened : List Opened) :
    marksOf (closings opened) = List.replicate opened.length .closing :=
  List.filterMap_replicate_of_some rfl

end Reader

/-- A step with a lexeme tells the marks that were held, and then that of the lexeme,
unless they are held on. Where it ends the reading, it tells those held, and the lexeme is
no comment. -/
def Progress.Marks (held : List Mark) (mark : Option Mark) : Progress → Prop
  | .onward events next =>
      marksOf events ++ next.stage.held.map .comment = held ++ mark.toList
  | .failed events _ | .finished events =>
      marksOf events = held ∧ ∀ text, mark ≠ some (.comment text)

theorem Progress.Marks.before {mark : Option Mark} {progress : Progress} (front : List Event)
    (h : progress.Marks [] mark) : (progress.before front).Marks (marksOf front) mark := by
  cases progress with
  | onward events next =>
      simp only [Progress.before, Progress.Marks, marksOf_append, List.append_assoc] at h ⊢
      rw [h, List.nil_append]
  | failed events error => simpa [Progress.before, Progress.Marks] using h
  | finished events => simpa [Progress.before, Progress.Marks] using h

namespace Reader

section Step
variable {opened : List Opened} {lexeme : Lexeme}

private theorem held_between (opened : List Opened) : (between opened).held = [] := by
  unfold between
  split <;> rfl

private theorem enter_marks (opened : List Opened) (events : List Event) {event : Event}
    {scope : Scope} (span : Span) (h : event.mark? = some (.opening scope)) :
    (enter opened events event scope span).Marks (marksOf events) (some (.opening scope)) := by
  have hevent : marksOf [event] = [.opening scope] := List.filterMap_cons_some h
  unfold enter
  split <;> simp [Progress.Marks, held_between, hevent]

private theorem onMember_marks (opened : List Opened) (lexeme : Lexeme) :
    (onMember opened lexeme).Marks [] lexeme.kind.mark? := by
  obtain ⟨kind, span⟩ := lexeme
  cases kind with
  | closeBrace =>
      cases opened with
      | nil => simp [onMember, Progress.Marks, marksOf, Lexeme.Kind.mark?]
      | cons inner outer =>
          simp [onMember, leave, Progress.Marks, held_between, marksOf, Event.mark?,
            Lexeme.Kind.mark?]
  | endOfInput => cases opened <;> simp [onMember, Progress.Marks, marksOf, Lexeme.Kind.mark?]
  | _ => simp [onMember, unexpected, Progress.Marks, Stage.held, marksOf, Event.mark?,
      Lexeme.Kind.mark?]

private theorem onElement_marks (opened : List Opened) (lexeme : Lexeme) :
    (onElement opened lexeme).Marks [] lexeme.kind.mark? := by
  obtain ⟨kind, span⟩ := lexeme
  cases kind with
  | closeBracket =>
      simp [onElement, leave, Progress.Marks, held_between, marksOf, Event.mark?, Lexeme.Kind.mark?]
  | openBracket => exact enter_marks opened [] span rfl
  | _ => simp [onElement, unexpected, Progress.Marks, Stage.held, marksOf, Event.mark?,
      Lexeme.Kind.mark?, Event.opens?]

private theorem onColon_marks (code : Names) (name : String) (span : Span) :
    (onColon code opened name span lexeme).Marks [] lexeme.kind.mark? := by
  obtain ⟨kind, place⟩ := lexeme
  cases kind with
  | colon => by_cases hcode : code.contains name = true <;>
      simp [onColon, hcode, Progress.Marks, Stage.held, marksOf, Lexeme.Kind.mark?]
  | _ => simp [onColon, unexpected, Progress.Marks, Stage.held, marksOf, Event.mark?,
      Lexeme.Kind.mark?]

private theorem onValue_marks (name : String) (span : Span) :
    (onValue opened name span lexeme).Marks [] lexeme.kind.mark? := by
  obtain ⟨kind, place⟩ := lexeme
  cases kind with
  | openBrace => exact enter_marks opened [] place rfl
  | openBracket => exact enter_marks opened [] place rfl
  | _ => simp [onValue, unexpected, Progress.Marks, Stage.held, marksOf, Event.mark?,
      Lexeme.Kind.mark?, Event.opens?]

private theorem onPairText_marks (reference : String) :
    (onPairText opened reference lexeme).Marks [] lexeme.kind.mark? := by
  obtain ⟨kind, place⟩ := lexeme
  cases kind <;> simp [onPairText, unexpected, Progress.Marks, Stage.held, marksOf, Event.mark?,
    Lexeme.Kind.mark?, Event.opens?]

private theorem onAfterWord_marks (name word : String) (span : Span) (comments : List String) :
    (onAfterWord opened name word span comments lexeme).Marks (comments.map .comment)
      lexeme.kind.mark? := by
  have hother := (onMember_marks opened lexeme).before
    (wordEvent (some name) word :: Event.comments comments)
  rw [marksOf_word] at hother
  obtain ⟨kind, place⟩ := lexeme
  cases kind with
  | comment text => simp [onAfterWord, Progress.Marks, Stage.held, marksOf, Lexeme.Kind.mark?]
  | openBrace =>
      have hnamed : (Event.named name word).mark? = some (.opening .object) := rfl
      have henter := enter_marks opened (Event.comments comments) span hnamed
      rwa [marksOf_comments] at henter
  | _ => exact hother

private theorem onAfterElementWord_marks (word : String) (comments : List String) :
    (onAfterElementWord opened word comments lexeme).Marks (comments.map .comment)
      lexeme.kind.mark? := by
  have hother := (onElement_marks opened lexeme).before
    (wordEvent none word :: Event.comments comments)
  rw [marksOf_word] at hother
  obtain ⟨kind, place⟩ := lexeme
  cases kind with
  | comment text =>
      simp [onAfterElementWord, Progress.Marks, Stage.held, marksOf, Lexeme.Kind.mark?]
  | colon =>
      simp [onAfterElementWord, Progress.Marks, Stage.held, marksOf_comments, Lexeme.Kind.mark?]
  | _ => exact hother

theorem step_marks (code : Names) (reader : Reader) (lexeme : Lexeme)
    (hstage : ∀ name, reader.stage ≠ .code name) :
    (reader.step code lexeme).Marks (reader.stage.held.map .comment) lexeme.kind.mark? := by
  obtain ⟨opened, stage⟩ := reader
  cases stage with
  | member => exact onMember_marks opened lexeme
  | colon name span => exact onColon_marks code name span
  | code name => exact absurd rfl (hstage name)
  | value name span => exact onValue_marks name span
  | afterWord name word span comments => exact onAfterWord_marks name word span comments
  | element => exact onElement_marks opened lexeme
  | afterElementWord word comments => exact onAfterElementWord_marks word comments
  | pairText reference => exact onPairText_marks reference

end Step

private theorem marksOf_closings_apart (opened : List Opened) :
    ∀ mark ∈ marksOf (closings opened), ∀ text, mark ≠ .comment text := by
  rw [marksOf_closings]
  rintro mark hmem text rfl
  cases List.eq_of_mem_replicate hmem

private theorem marksOf_apart {lexeme : Lexeme}
    (h : ∀ text, lexeme.kind.mark? ≠ some (.comment text)) :
    ∀ mark ∈ Lexeme.marksOf [lexeme], ∀ text, mark ≠ .comment text := by
  rintro mark hmem text rfl
  obtain ⟨other, hother, hmark⟩ := List.mem_filterMap.mp hmem
  rw [List.mem_singleton.mp hother] at hmark
  exact h text hmark

/-- What a run tells has the comments that were held and those read, each in the scopes
that enclose it. -/
theorem run_placed (code : Names) (reader : Reader) (cursor : Cursor) (count : Nat)
    (around : List (Nat × Scope)) :
    placed count around (marksOf (reader.run code cursor).events) =
      placed count around (reader.stage.held.map .comment ++
        Lexeme.marksOf (reader.lexed code cursor)) := by
  fun_induction run code reader cursor generalizing count around with
  | case1 reader cursor name hstage text span next hcode ih =>
      rw [lexed_codeBlock hstage hcode, hstage]
      exact ih count around
  | case2 reader cursor name hstage error hcode =>
      rw [lexed_unterminatedCode hstage hcode, hstage]
      exact placed_eq_nil (marksOf_closings_apart reader.opened) count around
  | case3 reader cursor events next hstep hstage ih =>
      have hmarks := step_marks code reader cursor.lexeme.1 hstage
      rw [hstep] at hmarks
      rw [lexed_onward hstage hstep, Lexeme.marksOf_cons, ← List.append_assoc, ← hmarks,
        Reading.before, marksOf_append, List.append_assoc]
      exact placed_append_congr _ ih count around
  | case4 reader cursor events error hstep hstage =>
      obtain ⟨hheld, happart⟩ : _ ∧ _ := hstep ▸ step_marks code reader cursor.lexeme.1 hstage
      rw [lexed_last hstage (by simp [hstep]), marksOf_append, hheld]
      refine placed_append_congr _ (fun count around => ?_) count around
      rw [placed_eq_nil (marksOf_closings_apart reader.opened),
        placed_eq_nil (marksOf_apart happart)]
  | case5 reader cursor events hstep hstage =>
      obtain ⟨hheld, happart⟩ : _ ∧ _ := hstep ▸ step_marks code reader cursor.lexeme.1 hstage
      rw [lexed_last hstage (by simp [hstep]), hheld]
      have hnil (count : Nat) (around : List (Nat × Scope)) :
          placed count around [] = placed count around (Lexeme.marksOf [cursor.lexeme.1]) :=
        (placed_eq_nil (marksOf_apart happart) count around).symm
      have hfront := placed_append_congr (reader.stage.held.map .comment) hnil count around
      rwa [List.append_nil] at hfront

end Reader

/-! The lexemes that a run reads are those of the text, one behind the other. -/

private theorem lexeme_span (cursor : Cursor) :
    cursor.offset ≤ cursor.lexeme.1.span.start ∧
      cursor.lexeme.1.span.start ≤ cursor.lexeme.1.span.stop ∧
        cursor.lexeme.1.span.stop = cursor.lexeme.2.offset := by
  obtain ⟨gap, -, -, hoffset⟩ := cursor.exists_blanks
  have hstart : cursor.offset ≤ cursor.skipBlank.offset := by omega
  exact ⟨hstart, Nat.le_add_right _ _, rfl⟩

private theorem codeBlock_offset {cursor next : Cursor} {text : String} {span : Span}
    (h : cursor.codeBlock = .ok (text, span, next)) : cursor.offset ≤ next.offset := by
  obtain ⟨taken, -, hoffset, -⟩ := Cursor.codeBlock_exchange h
  omega

theorem Reader.lexed_behind {code : Names} {reader : Reader} {cursor : Cursor} {lexeme : Lexeme}
    (h : lexeme ∈ reader.lexed code cursor) : cursor.offset ≤ lexeme.span.start := by
  fun_induction Reader.lexed code reader cursor with
  | case1 reader cursor name hstage text span next hcode ih =>
      exact Nat.le_trans (codeBlock_offset hcode) (ih h)
  | case2 => cases h
  | case3 reader cursor events next hstep hstage ih =>
      obtain ⟨hstart, hle, hstop⟩ := lexeme_span cursor
      rcases List.mem_cons.mp h with rfl | hlater
      · exact hstart
      · have := ih hlater
        omega
  | case4 reader cursor hstage => exact List.mem_singleton.mp h ▸ (lexeme_span cursor).1

theorem Reader.lexed_ordered (code : Names) (reader : Reader) (cursor : Cursor) :
    (reader.lexed code cursor).Pairwise fun lexeme later =>
      lexeme.span.stop ≤ later.span.start := by
  fun_induction Reader.lexed code reader cursor with
  | case1 reader cursor name hstage text span next hcode ih => exact ih
  | case2 => exact .nil
  | case3 reader cursor events next hstep hstage ih =>
      refine .cons (fun later hlater => ?_) ih
      rw [(lexeme_span cursor).2.2]
      exact lexed_behind hlater
  | case4 reader cursor hstage => exact List.pairwise_singleton _ _

/-- The lexemes of a text that its reading reads. -/
def Reading.lexed (code : Names) (source : List Char) : List Lexeme :=
  Reader.start.lexed code (Cursor.ofText source)

/-- Whether or not a text is well formed, the comments told are those read, in the scopes
that enclose them. -/
theorem Reading.comments_ofText (code : Names) (source : List Char) :
    (Reading.ofText code source).comments = Lexeme.comments (Reading.lexed code source) :=
  Reader.run_placed code Reader.start (Cursor.ofText source) 0 []

end Lookml
