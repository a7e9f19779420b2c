import Lookml.Proofs.Reader.Bounded
import Lookml.Proofs.Reader.Reads
import Lookml.Proofs.Reader.Stopped

/-!
Whatever a run has come to can be completed: what the reader waits for is spelled in its
shortest form, on a line of its own, and then the scopes are closed. So what stands in
front of the first lexeme that does not fit is the beginning of a document.
-/

namespace Lookml

def Scope.closer : Scope → Char
  | .object => '}'
  | .list => ']'

namespace Reader

/-- The closing marks of the scopes, the innermost first. -/
def closers (opened : List Opened) : List Char :=
  opened.map fun inner => inner.scope.closer

/-- What a stage waits for, an empty text or an empty block of code. -/
def Stage.ending (code : Names) : Stage → List Char
  | .colon name _ => if code.contains name then [':', ';', ';'] else [':', '"', '"']
  | .code _ => [';', ';']
  | .value _ _ | .pairText _ => ['"', '"']
  | _ => []

section Completed
variable {code : Names} {opened : List Opened}

theorem reads_closers (code : Names) (opened : List Opened) :
    Reads code ⟨opened, between opened⟩ (closers opened) (closings opened) := by
  induction opened with
  | nil => exact .finished Lexeme.next_nil
  | cons inner outer ih =>
      obtain ⟨scope, span⟩ := inner
      cases scope with
      | object =>
          exact .onward (by simp [between]) (Lexeme.next_closeBrace _) fun _ =>
            ⟨[.close], ⟨outer, between outer⟩, _, rfl, ih, rfl⟩
      | list =>
          exact .onward (by simp [between]) (Lexeme.next_closeBracket _) fun _ =>
            ⟨[.close], ⟨outer, between outer⟩, _, rfl, ih, rfl⟩

theorem reads_members (code : Names) (hscope : (scopesOf opened).current = .object) :
    Reads code ⟨opened, .member⟩ (closers opened) (closings opened) :=
  between_of_object hscope ▸ reads_closers code opened

theorem reads_elements (code : Names) (hscope : (scopesOf opened).current = .list) :
    Reads code ⟨opened, .element⟩ (closers opened) (closings opened) :=
  between_of_list hscope ▸ reads_closers code opened

theorem reads_emptyText {stage next : Stage} {event : Event} {cs : List Char}
    {events : List Event} (hstage : ∀ name, stage ≠ .code name)
    (hstep : ∀ span, step code ⟨opened, stage⟩ ⟨.quoted "", span⟩ = .onward [event] ⟨opened, next⟩)
    (h : Reads code ⟨opened, next⟩ cs events) :
    Reads code ⟨opened, stage⟩ ('"' :: '"' :: cs) (event :: events) :=
  .onward hstage (Lexeme.next_quoted [] cs) fun span =>
    ⟨[event], ⟨opened, next⟩, events, hstep span, h, rfl⟩

theorem reads_lineEnd {reader : Reader} {cs : List Char} {events : List Event}
    (hstage : ∀ name, reader.stage ≠ .code name) (h : reader.Reads code cs events) :
    reader.Reads code ('\n' :: cs) events := by
  have hline : IsBlanks ['\n'] := .gap rfl .nil
  exact h.blanks hstage hline

/-- What a reader has not told comes first when the text is completed. -/
theorem reads_ending {reader : Reader} (hreader : reader.Sound code) :
    ∃ later, reader.Reads code ('\n' :: (reader.stage.ending code ++ closers reader.opened))
      (reader.stage.untold ++ later) := by
  obtain ⟨opened, stage⟩ := reader
  have hscope := hreader.scope
  cases stage with
  | member => exact ⟨_, reads_lineEnd (by simp) (reads_members code hscope)⟩
  | colon name span =>
      have hmembers := reads_members code hscope
      have hcolon {cs : List Char} {events : List Event} {next : Stage}
          (hnext : (if code.contains name then .code name else .value name span) = next)
          (h : Reads code ⟨opened, next⟩ cs events) :
          Reads code ⟨opened, .colon name span⟩ ('\n' :: ':' :: cs) events := by
        refine reads_lineEnd (by simp) <| .onward (by simp) (Lexeme.next_colon _) fun _ => ?_
        exact ⟨[], ⟨opened, next⟩, _, by rw [← hnext]; rfl, h, rfl⟩
      simp only [Stage.ending]
      split
      · rename_i hname
        exact ⟨_, hcolon (if_pos hname) <| .codeBlock rfl hmembers⟩
      · rename_i hname
        exact ⟨_, hcolon (if_neg hname) <|
          reads_emptyText (by simp) (fun _ => rfl) hmembers⟩
  | code name =>
      -- The line end is not passed over here, it belongs to the block.
      exact ⟨_, .codeBlock rfl (reads_members code hscope)⟩
  | value name span =>
      exact ⟨_, reads_lineEnd (by simp) <|
        reads_emptyText (by simp) (fun _ => rfl) (reads_members code hscope)⟩
  | afterWord name word span comments =>
      have hmembers := reads_lineEnd (by simp) (reads_members code hscope)
      exact ⟨_, fun cursor hcursor => run_afterWord (hmembers cursor hcursor)⟩
  | element => exact ⟨_, reads_lineEnd (by simp) (reads_elements code hscope)⟩
  | afterElementWord word comments =>
      have helements := reads_lineEnd (by simp) (reads_elements code hscope)
      exact ⟨_, fun cursor hcursor => run_afterElementWord (helements cursor hcursor)⟩
  | pairText reference =>
      exact ⟨_, reads_lineEnd (by simp) <|
        reads_emptyText (by simp) (fun _ => rfl) (reads_elements code hscope)⟩

end Completed

end Reader

/-- With a line end behind it, a text is the beginning of a document, and these are the
first events of it. -/
def Begins (code : Names) (front : List Char) (told : List Event) : Prop :=
  ∃ rest, (Reading.ofText code (front ++ '\n' :: rest)).failure = none ∧
    told <+: (Reading.ofText code (front ++ '\n' :: rest)).events

namespace Reader

section Begins
variable {code : Names} {source : List Char} {told : List Event}

/-- What a run has read begins a document, with the blanks behind it unless code is waited
for. -/
theorem Path.begins {last : Reader} {cursor : Cursor} {gap back : List Char}
    (h : Path code start (Cursor.ofText source) told last cursor) (hgap : IsBlanks gap)
    (hstage : gap = [] ∨ ∀ name, last.stage ≠ .code name) (hrest : cursor.rest = gap ++ back) :
    Begins code (takeBytes (cursor.offset + byteLength gap) source)
      (told ++ last.stage.untold) := by
  obtain ⟨taken, htaken, hoffset, hsame⟩ := h.exchange
  obtain ⟨later, hending⟩ := reads_ending (h.sound (start_sound code)).2
  have hfront : takeBytes (cursor.offset + byteLength gap) source = taken ++ gap := by
    have hsource : source = taken ++ gap ++ back := by
      rw [List.append_assoc, ← hrest]
      exact htaken
    have hlength : cursor.offset + byteLength gap = byteLength (taken ++ gap) := by
      rw [hoffset, byteLength_append]
      exact congrArg (· + _) (Nat.zero_add _)
    rw [hlength, hsource, takeBytes_byteLength]
  have hbehind : last.Reads code
      (gap ++ '\n' :: (last.stage.ending code ++ closers last.opened))
      (last.stage.untold ++ later) := by
    rcases hstage with rfl | hstage
    · exact hending
    · exact hending.blanks hstage hgap
  -- The last lexeme ended in front of a blank or of what does not fit, and it ends in
  -- front of a line end as well.
  have hlike : EndsLike cursor.rest
      (gap ++ '\n' :: (last.stage.ending code ++ closers last.opened)) := by
    rw [hrest]
    exact (endsLike_lineEnd back _).append gap
  have hwhole : Reading.ofText code
      (taken ++ gap ++ '\n' :: (last.stage.ending code ++ closers last.opened)) =
      ⟨told ++ last.stage.untold ++ later, none⟩ := by
    have hrun := (hsame _ hlike).run
    rw [hbehind _ rfl, Reading.before, ← List.append_assoc, ← List.append_assoc] at hrun
    exact hrun
  refine ⟨last.stage.ending code ++ closers last.opened, ?_⟩
  rw [hfront, hwhole]
  exact ⟨rfl, List.prefix_append _ _⟩

/-- A run that fails at a lexeme, and not since a scope would be too deep, has read the
beginning of a document until there. -/
theorem Stops.begins {offset : Nat} {error : SyntaxError}
    (h : Stops code start (Cursor.ofText source) told offset error)
    (hshallow : error.fault ≠ .tooDeep) :
    offset = error.offset source ∧ Begins code (takeBytes offset source) told := by
  cases h with
  | @lexeme last cursor told left _ hpath hstage hstep =>
      have hfailed := step_failsWith code last cursor.lexeme_lexical
      rw [hstep] at hfailed
      obtain ⟨rfl, hblames⟩ := hfailed.resolve_right fun hdeep => hshallow hdeep.1
      obtain ⟨gap, hgap, hrest, hoffset⟩ := cursor.exists_blanks
      have hstart : cursor.lexeme.1.span.start = cursor.offset + byteLength gap := hoffset
      refine ⟨?_, ?_⟩
      · by_cases hend : cursor.lexeme.1.kind = .endOfInput
        · obtain ⟨taken, htaken, hlength, -⟩ := hpath.exchange
          rw [Cursor.skipBlank_rest_of_endOfInput hend, List.append_nil] at hrest
          rw [SyntaxError.offset, if_pos (hblames.isAtEnd.mpr hend), hstart, hlength, ← hrest]
          have hsource : source = taken ++ cursor.rest := htaken
          rw [hsource, byteLength_append]
          exact congrArg (· + _) (Nat.zero_add _)
        · rw [SyntaxError.offset, if_neg (mt hblames.isAtEnd.mp hend), hblames.span hend]
      · rw [hstart]
        exact hpath.begins hgap (.inr hstage) hrest
  | @codeBlock last cursor _ name _ hpath hstage hcode =>
      obtain rfl := Cursor.codeBlock_failed hcode
      have hbegins := hpath.begins .nil (.inl rfl) rfl
      rw [hstage] at hbegins
      exact ⟨rfl, by simpa [Stage.untold] using hbegins⟩

end Begins

end Reader

/-- Where a text is wrong the reading stops at the first lexeme that does not fit: what
stands in front of it is the beginning of a document, and nothing is told that the
document does not tell. The other error is that a scope would be opened inside as many as
there may be, and then it is not told of. -/
theorem Reading.stops_at_fault (code : Names) (source : List Char) :
    (∀ error, (Reading.ofText code source).failure = some error →
      ∃ told offset, Reader.start.Stops code (Cursor.ofText source) told offset error) ∧
    (∀ told offset error, Reader.start.Stops code (Cursor.ofText source) told offset error →
      Reading.ofText code source =
          ⟨told ++ List.replicate (OpenScopes.afterAll [] told).length .close, some error⟩ ∧
        (error.fault ≠ .tooDeep →
          offset = error.offset source ∧ Begins code (takeBytes offset source) told)) ∧
    ((∃ span, (Reading.ofText code source).failure = some ⟨.tooDeep, span⟩) ↔
      ∃ told event, Reader.start.WouldNest code (Cursor.ofText source) told event) ∧
    ∀ told event, Reader.start.WouldNest code (Cursor.ofText source) told event →
      (OpenScopes.afterAll [] told).length = maxDepth ∧
        (Reading.ofText code source).events = told ++ List.replicate maxDepth .close := by
  have hstart := Reader.start_sound code
  refine ⟨fun error => Reader.exists_stops, ?_, ⟨?_, ?_⟩, ?_⟩
  · exact fun told offset error hstops => ⟨hstops.run hstart, hstops.begins⟩
  · rintro ⟨span, hfailure⟩
    obtain ⟨told, offset, hstops⟩ := Reader.exists_stops hfailure
    exact ⟨told, hstops.wouldNest hstart⟩
  · rintro ⟨told, event, hnest⟩
    obtain ⟨-, offset, span, hstops⟩ := hnest.stops hstart
    exact ⟨span, congrArg Reading.failure (hstops.run hstart)⟩
  · intro told event hnest
    obtain ⟨hfull, offset, span, hstops⟩ := hnest.stops hstart
    refine ⟨hfull, ?_⟩
    have hevents := congrArg Reading.events (hstops.run hstart)
    rw [show (OpenScopes.afterAll (scopesOf Reader.start.opened) told).length = maxDepth from hfull]
      at hevents
    exact hevents

/-- A word is held back in front of a bracket that closes nothing, and a list stands
inside as many as there may be. -/
theorem Reading.stops_at_fault_bracket :
    Begins (Names.ofList []) ['a', ':', 'b', ' '] [.identifier (some "a") "b"] ∧
      ∃ told, (Reading.ofText (Names.ofList []) ('a' :: ':' :: List.replicate 129 '[')).events =
        told ++ List.replicate maxDepth .close := by
  constructor
  · have hname : Reader.Moves (Names.ofList []) Reader.start
        (Cursor.ofText ['a', ':', 'b', ' ', ']']) []
        ⟨[], .colon "a" ⟨0, 1⟩⟩ ⟨1, [':', 'b', ' ', ']']⟩ :=
      .lexeme (by simp [Reader.start]) rfl
    have hcolon : Reader.Moves (Names.ofList []) ⟨[], .colon "a" ⟨0, 1⟩⟩ ⟨1, [':', 'b', ' ', ']']⟩
        [] ⟨[], .value "a" ⟨0, 1⟩⟩ ⟨2, ['b', ' ', ']']⟩ := .lexeme (by simp) rfl
    have hword : Reader.Moves (Names.ofList []) ⟨[], .value "a" ⟨0, 1⟩⟩ ⟨2, ['b', ' ', ']']⟩ []
        ⟨[], .afterWord "a" "b" ⟨2, 3⟩ []⟩ ⟨3, [' ', ']']⟩ := .lexeme (by simp) rfl
    have hstops :=
      Reader.Stops.lexeme (.step hname (.step hcolon (.step hword .here))) (by simp) rfl
    obtain ⟨-, hfaults, -, -⟩ :=
      Reading.stops_at_fault (Names.ofList []) ['a', ':', 'b', ' ', ']']
    exact ((hfaults _ _ _ hstops).2 Fault.noConfusion).2
  · obtain ⟨-, -, hdeep, hnested⟩ :=
      Reading.stops_at_fault (Names.ofList []) ('a' :: ':' :: List.replicate 129 '[')
    obtain ⟨told, event, hnest⟩ := hdeep.mp ⟨⟨130, 131⟩, by
      rw [Reading.ofText_eq_runFor]
      decide +kernel⟩
    exact ⟨told, (hnested told event hnest).2⟩

end Lookml
