import Lookml.Event.Reader
import Lookml.Proofs.Lexeme.Exchange

/-!
The way of a run through a text, and the lexemes that it reads on the way. A way is the
same in front of any text before which its last lexeme ends, so what stands behind it can
be exchanged.
-/

namespace Lookml

/-- Every lexeme that ends before one text ends before the other. -/
def EndsLike (old new : List Char) : Prop :=
  ∀ kind : Lexeme.Kind, kind.EndsBefore old → kind.EndsBefore new

/-- Where a lexeme ends is told by the first character that follows. -/
theorem endsLike_of_head {old new : List Char} (h : new.head? = old.head?) :
    EndsLike old new := by
  intro kind hold
  cases kind <;> first
    | trivial
    | (simp only [Lexeme.Kind.EndsBefore, Lexeme.Kind.token, Token.Kind.EndsBefore, IsBreak,
        EndsLine] at hold ⊢
       rwa [h])

/-- Every lexeme ends at a line end. -/
theorem endsLike_lineEnd (old rest : List Char) : EndsLike old ('\n' :: rest) := by
  intro kind _
  cases kind <;> first
    | trivial
    | (rintro c (_ | _)
       rfl)

theorem EndsLike.append {old new : List Char} (h : EndsLike old new) (front : List Char) :
    EndsLike (front ++ old) (front ++ new) := by
  cases front with
  | nil => exact h
  | cons c front => exact endsLike_of_head rfl

namespace Reader

/-- One step of a run: a lexeme or a block of code is read, and the run goes on. -/
inductive Moves (code : Names) : Reader → Cursor → List Event → Reader → Cursor → Prop
  | lexeme {reader next : Reader} {cursor : Cursor} {events : List Event}
      (hstage : ∀ name, reader.stage ≠ .code name)
      (hstep : reader.step code cursor.lexeme.1 = .onward events next) :
      Moves code reader cursor events next cursor.lexeme.2
  | codeBlock {reader : Reader} {cursor next : Cursor} {name text : String} {span : Span}
      (hstage : reader.stage = .code name) (hcode : cursor.codeBlock = .ok (text, span, next)) :
      Moves code reader cursor [.code name text] ⟨reader.opened, .member⟩ next

/-- Any number of steps. -/
inductive Path (code : Names) : Reader → Cursor → List Event → Reader → Cursor → Prop
  | here {reader : Reader} {cursor : Cursor} : Path code reader cursor [] reader cursor
  | step {reader next last : Reader} {cursor cursor' cursor'' : Cursor} {told events : List Event}
      (hmove : Moves code reader cursor told next cursor')
      (hlater : Path code next cursor' events last cursor'') :
      Path code reader cursor (told ++ events) last cursor''

/-- The lexemes that a run reads, the one that ends it included. -/
def lexed (code : Names) (reader : Reader) (cursor : Cursor) : List Lexeme :=
  match reader.stage with
  | .code _ =>
      match _hcode : cursor.codeBlock with
      | .ok (_, _, next) => lexed code ⟨reader.opened, .member⟩ next
      | .error _ => []
  | _ =>
      match _hstep : reader.step code cursor.lexeme.1 with
      | .onward _ next => cursor.lexeme.1 :: lexed code next cursor.lexeme.2
      | _ => [cursor.lexeme.1]
termination_by cursor.rest.length
decreasing_by
  · exact Cursor.codeBlock_rest_length_lt _hcode
  · exact Cursor.lexeme_rest_length_lt fun hend => step_endOfInput code reader hend _ _ _hstep

section Steps
variable {code : Names} {reader : Reader} {cursor : Cursor}

theorem lexed_codeBlock {name text : String} {span : Span} {next : Cursor}
    (hstage : reader.stage = .code name) (h : cursor.codeBlock = .ok (text, span, next)) :
    reader.lexed code cursor = lexed code ⟨reader.opened, .member⟩ next := by
  rw [lexed]
  simp only [hstage]
  split <;> simp_all

theorem lexed_unterminatedCode {name : String} {error : SyntaxError}
    (hstage : reader.stage = .code name) (h : cursor.codeBlock = .error error) :
    reader.lexed code cursor = [] := by
  rw [lexed]
  simp only [hstage]
  split <;> simp_all

theorem lexed_onward {events : List Event} {next : Reader}
    (hstage : ∀ name, reader.stage ≠ .code name)
    (h : reader.step code cursor.lexeme.1 = .onward events next) :
    reader.lexed code cursor = cursor.lexeme.1 :: next.lexed code cursor.lexeme.2 := by
  rw [lexed]
  split
  · exact absurd ‹_› (hstage _)
  · split <;> simp_all

theorem lexed_last (hstage : ∀ name, reader.stage ≠ .code name)
    (h : ∀ events next, reader.step code cursor.lexeme.1 ≠ .onward events next) :
    reader.lexed code cursor = [cursor.lexeme.1] := by
  rw [lexed]
  split
  · exact absurd ‹_› (hstage _)
  · split <;> simp_all

theorem Moves.run {next : Reader} {cursor' : Cursor} {events : List Event}
    (h : Moves code reader cursor events next cursor') :
    reader.run code cursor = (next.run code cursor').before events := by
  cases h with
  | lexeme hstage hstep => exact run_onward hstage hstep
  | codeBlock hstage hcode => exact run_codeBlock hstage hcode

theorem Path.run {last : Reader} {cursor' : Cursor} {events : List Event}
    (h : Path code reader cursor events last cursor') :
    reader.run code cursor = (last.run code cursor').before events := by
  induction h with
  | here => rfl
  | step hmove _ ih => rw [hmove.run, ih, Reading.before_before]

theorem Path.append {middle last : Reader} {cursor' cursor'' : Cursor} {events later : List Event}
    (h : Path code reader cursor events middle cursor')
    (hlater : Path code middle cursor' later last cursor'') :
    Path code reader cursor (events ++ later) last cursor'' := by
  induction h with
  | here => exact hlater
  | step hmove _ ih =>
      rw [List.append_assoc]
      exact .step hmove (ih hlater)

/-- A run comes to each lexeme that it reads. -/
theorem exists_path_of_mem_lexed {lexeme : Lexeme} (h : lexeme ∈ reader.lexed code cursor) :
    ∃ events last cursor', Path code reader cursor events last cursor' ∧
      (∀ name, last.stage ≠ .code name) ∧ cursor'.lexeme.1 = lexeme := by
  fun_induction lexed code reader cursor with
  | case1 reader cursor name hstage text span next hcode ih =>
      obtain ⟨events, last, cursor', hpath, hlast⟩ := ih h
      exact ⟨_, last, cursor', .step (.codeBlock hstage hcode) hpath, hlast⟩
  | case2 => cases h
  | case3 reader cursor events next hstep hstage ih =>
      rcases List.mem_cons.mp h with rfl | hlater
      · exact ⟨_, reader, cursor, .here, hstage, rfl⟩
      · obtain ⟨events, last, cursor', hpath, hlast⟩ := ih hlater
        exact ⟨_, last, cursor', .step (.lexeme hstage hstep) hpath, hlast⟩
  | case4 reader cursor hstage =>
      exact ⟨_, reader, cursor, .here, hstage, (List.mem_singleton.mp h).symm⟩

/-- A run without an error comes to the end. -/
theorem exists_path_of_success (h : (reader.run code cursor).failure = none) :
    ∃ told last cursor' left, Path code reader cursor told last cursor' ∧
      (∀ name, last.stage ≠ .code name) ∧ last.step code cursor'.lexeme.1 = .finished left ∧
      reader.run code cursor = ⟨told ++ left, none⟩ := by
  fun_induction run code reader cursor with
  | case1 reader cursor name hstage text span next hcode ih =>
      obtain ⟨told, last, cursor', left, hpath, hlast, hstep, hrun⟩ := ih h
      refine ⟨_, last, cursor', left, .step (.codeBlock hstage hcode) hpath, hlast, hstep, ?_⟩
      rw [hrun, Reading.before, List.append_assoc]
  | case2 => cases h
  | case3 reader cursor events next hstep hstage ih =>
      obtain ⟨told, last, cursor', left, hpath, hlast, hfinished, hrun⟩ := ih h
      refine ⟨_, last, cursor', left, .step (.lexeme hstage hstep) hpath, hlast, hfinished, ?_⟩
      rw [hrun, Reading.before, List.append_assoc]
  | case4 => cases h
  | case5 reader cursor events hstep hstage =>
      exact ⟨[], reader, cursor, events, .here, hstage, hstep, rfl⟩

end Steps

/-! The end of the input and what is invalid are not passed. -/

private theorem onMember_invalid {opened : List Opened} {lexeme : Lexeme} {fault : Fault}
    (h : lexeme.kind = .invalid fault) (events : List Event) (reader : Reader) :
    onMember opened lexeme ≠ .onward events reader := by
  simp [onMember, h]

private theorem onElement_invalid {opened : List Opened} {lexeme : Lexeme} {fault : Fault}
    (h : lexeme.kind = .invalid fault) (events : List Event) (reader : Reader) :
    onElement opened lexeme ≠ .onward events reader := by
  simp [onElement, h]

theorem step_invalid (code : Names) (reader : Reader) {lexeme : Lexeme} {fault : Fault}
    (h : lexeme.kind = .invalid fault) (events : List Event) (next : Reader) :
    reader.step code lexeme ≠ .onward events next := by
  unfold step
  cases reader.stage with
  | member => exact onMember_invalid h _ _
  | colon name span => simp [onColon, h]
  | code name => simp [unexpected]
  | value name span => simp [onValue, h]
  | afterWord name word span comments =>
      simp only [onAfterWord, h]
      exact Progress.before_ne_onward (onMember_invalid h) _ _ _
  | element => exact onElement_invalid h _ _
  | afterElementWord word comments =>
      simp only [onAfterElementWord, h]
      exact Progress.before_ne_onward (onElement_invalid h) _ _ _
  | pairText reference => simp [onPairText, h]

section Exchange
variable {code : Names} {reader last : Reader} {cursor cursor' : Cursor} {events : List Event}

/-- A step takes a part of the text, and is the same in front of any text before which its
lexeme ends. -/
theorem Moves.exchange (h : Moves code reader cursor events last cursor') :
    ∃ taken, cursor.rest = taken ++ cursor'.rest ∧
      cursor'.offset = cursor.offset + byteLength taken ∧
      ∀ rest', EndsLike cursor'.rest rest' →
        Moves code reader ⟨cursor.offset, taken ++ rest'⟩ events last ⟨cursor'.offset, rest'⟩ := by
  cases h with
  | lexeme hstage hstep =>
      obtain ⟨hends, taken, hrest, hoffset, hsame⟩ := Cursor.lexeme_exchange rfl
        (fun fault hfault => step_invalid code reader hfault _ _ hstep)
        (fun hend => step_endOfInput code reader hend _ _ hstep)
      refine ⟨taken, hrest, hoffset, fun rest' hrest' => ?_⟩
      have hlexeme := hsame rest' (hrest' _ hends)
      have hstep' : reader.step code (⟨cursor.offset, taken ++ rest'⟩ : Cursor).lexeme.1 =
          .onward events last := by rwa [hlexeme]
      have hmove := Moves.lexeme hstage hstep'
      rwa [hlexeme] at hmove
  | codeBlock hstage hcode =>
      obtain ⟨taken, hrest, hoffset, hsame⟩ := Cursor.codeBlock_exchange hcode
      exact ⟨taken, hrest, hoffset, fun rest' _ => .codeBlock hstage (hsame rest')⟩

theorem Path.exchange (h : Path code reader cursor events last cursor') :
    ∃ taken, cursor.rest = taken ++ cursor'.rest ∧
      cursor'.offset = cursor.offset + byteLength taken ∧
      ∀ rest', EndsLike cursor'.rest rest' →
        Path code reader ⟨cursor.offset, taken ++ rest'⟩ events last ⟨cursor'.offset, rest'⟩ := by
  induction h with
  | here => exact ⟨[], rfl, rfl, fun _ _ => .here⟩
  | step hmove _ ih =>
      obtain ⟨taken, hrest, hoffset, hsame⟩ := hmove.exchange
      obtain ⟨later, hrest', hoffset', hsame'⟩ := ih
      refine ⟨taken ++ later, ?_, ?_, fun rest hlike => ?_⟩
      · rw [hrest, hrest', List.append_assoc]
      · rw [hoffset', hoffset, byteLength_append, Nat.add_assoc]
      · rw [List.append_assoc]
        exact .step (hsame _ (hrest' ▸ hlike.append later)) (hsame' rest hlike)

end Exchange

/-! A reader that does not wait for code passes over blanks. -/

theorem run_of_lexeme_eq {code : Names} {reader : Reader} {cursor cursor' : Cursor}
    (hstage : ∀ name, reader.stage ≠ .code name) (h : cursor'.lexeme = cursor.lexeme) :
    reader.run code cursor' = reader.run code cursor := by
  cases hstep : reader.step code cursor.lexeme.1 with
  | onward events next =>
      rw [run_onward hstage hstep, run_onward hstage (by rw [h]; exact hstep), h]
  | failed events error =>
      rw [run_failed hstage hstep, run_failed hstage (by rw [h]; exact hstep)]
  | finished events =>
      rw [run_finished hstage hstep, run_finished hstage (by rw [h]; exact hstep)]

theorem run_blanks {code : Names} {reader : Reader} (hstage : ∀ name, reader.stage ≠ .code name)
    {gap : List Char} (hgap : IsBlanks gap) (offset : Nat) (rest : List Char) :
    reader.run code ⟨offset, gap ++ rest⟩ =
      reader.run code ⟨offset + byteLength gap, rest⟩ := by
  apply run_of_lexeme_eq hstage
  simp only [Cursor.lexeme, Cursor.skipBlank_append hgap]

end Reader

end Lookml
