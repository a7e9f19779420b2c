import Lookml.Proofs.Reader.Reads
import Lookml.Proofs.Reader.Sound

/-!
Where a run stops at an error. A step fails at its lexeme, and then what was held back is
told; or it fails since a scope would open inside too many, and then nothing is told of
that scope. The scopes that are open are closed.
-/

namespace Lookml

/-- Whether something is missed at the end of the input. -/
def Fault.isAtEnd : Fault → Bool
  | .unclosedObject | .unclosedList | .unexpected .endOfInput _ => true
  | _ => false

/-- The offset of the lexeme that does not fit: the end of the input where something is
missed there. -/
def SyntaxError.offset (source : List Char) (error : SyntaxError) : Nat :=
  if error.fault.isAtEnd then byteLength source else error.span.start

/-- What is wrong is the lexeme itself, or that it is the end of the input. -/
structure SyntaxError.Blames (error : SyntaxError) (lexeme : Lexeme) : Prop where
  shallow : error.fault ≠ .tooDeep
  isAtEnd : error.fault.isAtEnd = true ↔ lexeme.kind = .endOfInput
  span : lexeme.kind ≠ .endOfInput → error.span = lexeme.span

namespace Lexeme

/-- What is wrong with a lexeme on its own is neither that it is the end of the input nor
how deep it stands. -/
def Kind.Lexical : Kind → Prop
  | .invalid fault => fault.isAtEnd = false ∧ fault ≠ .tooDeep
  | _ => True

theorem ofToken_lexical (kind : Token.Kind) (text : List Char) : (ofToken kind text).Lexical := by
  cases kind with
  | quoted =>
      simp only [ofToken, resolve]
      split
      · trivial
      · exact ⟨rfl, Fault.noConfusion⟩
  | invalid =>
      simp only [ofToken, faultOf]
      split
      · exact ⟨rfl, Fault.noConfusion⟩
      · split <;> exact ⟨rfl, Fault.noConfusion⟩
      · exact ⟨rfl, Fault.noConfusion⟩
  | code => exact ⟨rfl, Fault.noConfusion⟩
  | blank => exact ⟨rfl, Fault.noConfusion⟩
  | newline => exact ⟨rfl, Fault.noConfusion⟩
  | _ => trivial

end Lexeme

theorem Cursor.lexeme_lexical (cursor : Cursor) : cursor.lexeme.1.kind.Lexical :=
  Lexeme.ofToken_lexical _ _

namespace Reader

/-- What a stage has read and not told, since it waits for what follows. -/
def Stage.untold : Stage → List Event
  | .afterWord name word _ comments => wordEvent (some name) word :: Event.comments comments
  | .afterElementWord word comments => wordEvent none word :: Event.comments comments
  | _ => []

/-- The event of the scope that a lexeme opens behind a stage, and what is told in front
of it. -/
def Stage.opening? : Stage → Lexeme.Kind → Option (List Event × Event)
  | .value name _, .openBrace => some ([], .object name)
  | .value name _, .openBracket => some ([], .list (some name))
  | .afterWord name word _ comments, .openBrace =>
      some (Event.comments comments, .named name word)
  | .element, .openBracket => some ([], .list none)
  | .afterElementWord word comments, .openBracket =>
      some (wordEvent none word :: Event.comments comments, .list none)
  | _, _ => none

/-- A lexeme that opens a scope enters it, if there is room. -/
theorem step_opening (code : Names) (opened : List Opened) {stage : Stage} {lexeme : Lexeme}
    {front : List Event} {event : Event} (h : stage.opening? lexeme.kind = some (front, event)) :
    ∃ scope span, event.opens? = some scope ∧
      step code ⟨opened, stage⟩ lexeme = enter opened front event scope span := by
  obtain ⟨kind, span⟩ := lexeme
  change stage.opening? kind = some (front, event) at h
  unfold Stage.opening? at h
  split at h <;> cases h
  · exact ⟨.object, span, rfl, rfl⟩
  · exact ⟨.list, span, rfl, rfl⟩
  · exact ⟨.object, _, rfl, rfl⟩
  · exact ⟨.list, span, rfl, rfl⟩
  · refine ⟨.list, span, rfl, ?_⟩
    rw [enter_eq_before]
    rfl

end Reader

/-- What holds of a step that fails, of what it tells and the error. -/
def Progress.FailsWith (holds : List Event → SyntaxError → Prop) : Progress → Prop
  | .failed told error => holds told error
  | _ => True

namespace Reader

section Handlers
variable {holds : List Event → SyntaxError → Prop} {opened : List Opened} {lexeme : Lexeme}

theorem failsWith_before {front : List Event} {progress : Progress}
    (h : progress.FailsWith fun told error => holds (front ++ told) error) :
    (progress.before front).FailsWith holds := by
  cases progress with
  | failed told error => exact h
  | _ => trivial

theorem enter_failsWith {events : List Event} {event : Event} {scope : Scope} {span : Span}
    (h : holds events ⟨.tooDeep, span⟩) :
    (enter opened events event scope span).FailsWith holds := by
  unfold enter
  split
  · trivial
  · exact h

theorem blames_unexpected (expected : Expected) :
    (⟨.unexpected lexeme.kind.token expected, lexeme.span⟩ : SyntaxError).Blames lexeme := by
  refine ⟨Fault.noConfusion, ?_, fun _ => rfl⟩
  cases lexeme.kind <;> simp [Fault.isAtEnd, Lexeme.Kind.token]

theorem blames_lexeme {fault : Fault} (hkind : lexeme.kind ≠ .endOfInput)
    (hfault : fault.isAtEnd = false) (hshallow : fault ≠ .tooDeep) :
    (⟨fault, lexeme.span⟩ : SyntaxError).Blames lexeme :=
  ⟨hshallow, by simp [hfault, hkind], fun _ => rfl⟩

theorem blames_invalid {fault : Fault} (hkind : lexeme.kind = .invalid fault)
    (hlexical : lexeme.kind.Lexical) : (⟨fault, lexeme.span⟩ : SyntaxError).Blames lexeme := by
  rw [hkind] at hlexical
  exact blames_lexeme (by simp [hkind]) hlexical.1 hlexical.2

theorem blames_end {fault : Fault} (hkind : lexeme.kind = .endOfInput)
    (hfault : fault.isAtEnd = true) (span : Span) :
    (⟨fault, span⟩ : SyntaxError).Blames lexeme := by
  refine ⟨?_, by simp [hfault, hkind], fun hother => absurd hkind hother⟩
  rintro rfl
  cases hfault

theorem onMember_failsWith (hlexical : lexeme.kind.Lexical)
    (h : ∀ error : SyntaxError, error.Blames lexeme → holds [] error) :
    (onMember opened lexeme).FailsWith holds := by
  unfold onMember
  split
  · trivial
  · trivial
  · trivial
  · trivial
  · rename_i hkind
    split
    · exact h _ (blames_lexeme (by simp [hkind]) rfl Fault.noConfusion)
    · trivial
  · rename_i hkind
    split
    · trivial
    · exact h _ (blames_end hkind rfl _)
  · exact h _ (blames_invalid ‹_› hlexical)
  · rename_i hkind
    exact h _ (blames_lexeme (by simp [hkind]) rfl Fault.noConfusion)
  · exact h _ (blames_unexpected _)

theorem onElement_failsWith (hlexical : lexeme.kind.Lexical)
    (h : ∀ error : SyntaxError, error.Blames lexeme → holds [] error)
    (hdeep : lexeme.kind = .openBracket → ∀ span, holds [] ⟨.tooDeep, span⟩) :
    (onElement opened lexeme).FailsWith holds := by
  unfold onElement
  split
  · trivial
  · trivial
  · trivial
  · trivial
  · trivial
  · trivial
  · exact enter_failsWith (hdeep ‹_› _)
  · exact h _ (blames_end ‹_› rfl _)
  · exact h _ (blames_invalid ‹_› hlexical)
  · exact h _ (blames_unexpected _)

end Handlers

/-- A step fails at its lexeme with all told that was held back, or else the lexeme opens
a scope and there are too many. -/
theorem step_failsWith (code : Names) (reader : Reader) {lexeme : Lexeme}
    (hlexical : lexeme.kind.Lexical) :
    (reader.step code lexeme).FailsWith fun told error =>
      told = reader.stage.untold ∧ error.Blames lexeme ∨
        error.fault = .tooDeep ∧
          ∃ event, reader.stage.opening? lexeme.kind = some (told, event) := by
  obtain ⟨opened, stage⟩ := reader
  cases stage with
  | member => exact onMember_failsWith hlexical fun error herror => .inl ⟨rfl, herror⟩
  | colon name span =>
      simp only [step, onColon]
      split
      · trivial
      · trivial
      · exact .inl ⟨rfl, blames_invalid ‹_› hlexical⟩
      · exact .inl ⟨rfl, blames_unexpected _⟩
  | code name => exact .inl ⟨rfl, blames_unexpected _⟩
  | value name span =>
      simp only [step, onValue]
      split
      · trivial
      · trivial
      · trivial
      · trivial
      · rename_i hkind
        exact enter_failsWith (.inr ⟨rfl, _, by rw [hkind]; rfl⟩)
      · rename_i hkind
        exact enter_failsWith (.inr ⟨rfl, _, by rw [hkind]; rfl⟩)
      · exact .inl ⟨rfl, blames_invalid ‹_› hlexical⟩
      · exact .inl ⟨rfl, blames_end ‹_› rfl _⟩
      · exact .inl ⟨rfl, blames_unexpected _⟩
  | afterWord name word span comments =>
      simp only [step, onAfterWord]
      split
      · trivial
      · rename_i hkind
        exact enter_failsWith (.inr ⟨rfl, _, by rw [hkind]; rfl⟩)
      · exact failsWith_before <| onMember_failsWith hlexical fun error herror =>
          .inl ⟨List.append_nil _, herror⟩
  | element =>
      refine onElement_failsWith hlexical (fun error herror => .inl ⟨rfl, herror⟩) ?_
      exact fun hkind span => .inr ⟨rfl, _, by rw [hkind]; rfl⟩
  | afterElementWord word comments =>
      simp only [step, onAfterElementWord]
      split
      · trivial
      · trivial
      · refine failsWith_before <| onElement_failsWith hlexical
          (fun error herror => .inl ⟨List.append_nil _, herror⟩) fun hkind span => ?_
        exact .inr ⟨rfl, _, by rw [hkind, List.append_nil]; rfl⟩
  | pairText reference =>
      simp only [step, onPairText]
      split
      · trivial
      · trivial
      · exact .inl ⟨rfl, blames_invalid ‹_› hlexical⟩
      · exact .inl ⟨rfl, blames_unexpected _⟩

theorem Moves.sound {code : Names} {reader next : Reader} {cursor cursor' : Cursor}
    {events : List Event} (h : Moves code reader cursor events next cursor')
    (hreader : reader.Sound code) :
    Leads (Told code) (scopesOf reader.opened) events (scopesOf next.opened) ∧ next.Sound code := by
  cases h with
  | lexeme hstage hstep =>
      have hsound := step_sound cursor hreader
      rwa [hstep] at hsound
  | codeBlock hstage hcode =>
      obtain ⟨opened, stage⟩ := reader
      obtain rfl := hstage
      exact ⟨codeBlock_sound hreader hcode, hreader.scope, hreader.depth, trivial⟩

theorem Path.sound {code : Names} {reader last : Reader} {cursor cursor' : Cursor}
    {events : List Event} (h : Path code reader cursor events last cursor')
    (hreader : reader.Sound code) :
    Leads (Told code) (scopesOf reader.opened) events (scopesOf last.opened) ∧ last.Sound code := by
  induction h with
  | here => exact ⟨rfl, hreader⟩
  | step hmove _ ih =>
      obtain ⟨hleads, hnext⟩ := hmove.sound hreader
      obtain ⟨hlater, hlast⟩ := ih hnext
      exact ⟨hleads.append hlater, hlast⟩

/-- What is told up to a step that fails, and by that step, leads to the scopes that are
open there. -/
theorem Path.leads_failed {code : Names} {reader last : Reader} {cursor cursor' : Cursor}
    {told left : List Event} {error : SyntaxError} (h : Path code reader cursor told last cursor')
    (hreader : reader.Sound code) (hstep : last.step code cursor'.lexeme.1 = .failed left error) :
    Leads (Told code) (scopesOf reader.opened) (told ++ left) (scopesOf last.opened) := by
  obtain ⟨hleads, hlast⟩ := h.sound hreader
  have hleft := step_sound cursor' hlast
  rw [hstep] at hleft
  exact hleads.append hleft

/-- A run comes to a place where it fails: all that is told until then, and the offset of
what does not fit. -/
inductive Stops (code : Names) (reader : Reader) (cursor : Cursor) :
    List Event → Nat → SyntaxError → Prop
  | lexeme {last : Reader} {cursor' : Cursor} {told left : List Event} {error : SyntaxError}
      (hpath : Path code reader cursor told last cursor')
      (hstage : ∀ name, last.stage ≠ .code name)
      (hstep : last.step code cursor'.lexeme.1 = .failed left error) :
      Stops code reader cursor (told ++ left) cursor'.lexeme.1.span.start error
  | codeBlock {last : Reader} {cursor' : Cursor} {told : List Event} {name : String}
      {error : SyntaxError} (hpath : Path code reader cursor told last cursor')
      (hstage : last.stage = .code name) (hcode : cursor'.codeBlock = .error error) :
      Stops code reader cursor told cursor'.offset error

section Stops
variable {code : Names} {reader : Reader} {cursor : Cursor} {told : List Event} {offset : Nat}
  {error : SyntaxError}

theorem closings_of_leads {scopes : OpenScopes} {opened : List Opened}
    (h : Leads (Told code) scopes told (scopesOf opened)) :
    closings opened = List.replicate (scopes.afterAll told).length .close := by
  rw [h.afterAll_eq, length_scopesOf, closings]

/-- Behind what is told the scopes that are open then are closed. -/
theorem Stops.run (h : Stops code reader cursor told offset error) (hreader : reader.Sound code) :
    reader.run code cursor =
      ⟨told ++ List.replicate ((scopesOf reader.opened).afterAll told).length .close,
        some error⟩ := by
  cases h with
  | lexeme hpath hstage hstep =>
      rw [hpath.run, run_failed hstage hstep, Reading.before, ← List.append_assoc,
        closings_of_leads (hpath.leads_failed hreader hstep)]
  | codeBlock hpath hstage hcode =>
      rw [hpath.run, run_unterminatedCode hstage hcode, Reading.before,
        closings_of_leads (hpath.sound hreader).1]

theorem Stops.before {next : Reader} {cursor' : Cursor} {events : List Event}
    (hmove : Moves code reader cursor events next cursor')
    (h : Stops code next cursor' told offset error) :
    Stops code reader cursor (events ++ told) offset error := by
  cases h with
  | lexeme hpath hstage hstep =>
      rw [← List.append_assoc]
      exact .lexeme (.step hmove hpath) hstage hstep
  | codeBlock hpath hstage hcode => exact .codeBlock (.step hmove hpath) hstage hcode

theorem exists_stops (h : (reader.run code cursor).failure = some error) :
    ∃ told offset, Stops code reader cursor told offset error := by
  fun_induction run code reader cursor with
  | case1 reader cursor name hstage text span next hcode ih =>
      obtain ⟨told, offset, hlater⟩ := ih h
      exact ⟨_, offset, hlater.before (.codeBlock hstage hcode)⟩
  | case2 reader cursor name hstage failed hcode =>
      obtain rfl := Option.some.inj h
      exact ⟨[], _, .codeBlock .here hstage hcode⟩
  | case3 reader cursor events next hstep hstage ih =>
      obtain ⟨told, offset, hlater⟩ := ih h
      exact ⟨_, offset, hlater.before (.lexeme hstage hstep)⟩
  | case4 reader cursor events failed hstep hstage =>
      obtain rfl := Option.some.inj h
      exact ⟨events, _, .lexeme .here hstage hstep⟩
  | case5 => cases h

end Stops

/-- A run comes to a lexeme that opens a scope, inside as many as there may be: all that
is told until then, and the event of the scope. -/
inductive WouldNest (code : Names) (reader : Reader) (cursor : Cursor) :
    List Event → Event → Prop
  | opening {last : Reader} {cursor' : Cursor} {told front : List Event} {event : Event}
      (hpath : Path code reader cursor told last cursor') (hfull : last.opened.length = maxDepth)
      (hopening : last.stage.opening? cursor'.lexeme.1.kind = some (front, event)) :
      WouldNest code reader cursor (told ++ front) event

section WouldNest
variable {code : Names} {reader : Reader} {cursor : Cursor} {told : List Event} {event : Event}

theorem enter_of_full {opened : List Opened} {events : List Event} {scope : Scope} {span : Span}
    (hfull : opened.length = maxDepth) :
    enter opened events event scope span = .failed events ⟨.tooDeep, span⟩ := by
  have hroom : ¬opened.length < maxDepth := Nat.not_lt.mpr (Nat.le_of_eq hfull.symm)
  rw [enter, if_neg hroom]

theorem full_of_enter {opened : List Opened} {events left : List Event} {scope : Scope}
    {span : Span} {error : SyntaxError} (hdepth : opened.length ≤ maxDepth)
    (h : enter opened events event scope span = .failed left error) :
    opened.length = maxDepth := by
  refine Nat.le_antisymm hdepth (Nat.le_of_not_lt fun hroom => ?_)
  rw [enter_of_lt hroom] at h
  cases h

/-- The scope is not told of: the run stops in front of its event, with as many scopes
open as there may be. -/
theorem WouldNest.stops (h : WouldNest code reader cursor told event)
    (hreader : reader.Sound code) :
    ((scopesOf reader.opened).afterAll told).length = maxDepth ∧
      ∃ offset span, Stops code reader cursor told offset ⟨.tooDeep, span⟩ := by
  cases h with
  | @opening last cursor' told front _ hpath hfull hopening =>
      obtain ⟨opened, stage⟩ := last
      obtain ⟨scope, span, -, hstep⟩ := step_opening code opened hopening
      rw [enter_of_full hfull] at hstep
      have hstage : ∀ name, stage ≠ .code name := by
        rintro name rfl
        cases hopening
      refine ⟨?_, _, span, .lexeme hpath hstage hstep⟩
      rw [(hpath.leads_failed hreader hstep).afterAll_eq, length_scopesOf, hfull]

/-- Only a scope that would be too deep stops a run with that error. -/
theorem Stops.wouldNest {offset : Nat} {span : Span}
    (h : Stops code reader cursor told offset ⟨.tooDeep, span⟩) (hreader : reader.Sound code) :
    ∃ event, WouldNest code reader cursor told event := by
  cases h with
  | @lexeme last cursor' _ left _ hpath hstage hstep =>
      have hfailed := step_failsWith code last cursor'.lexeme_lexical
      rw [hstep] at hfailed
      rcases hfailed with ⟨-, hblames⟩ | ⟨-, event, hopening⟩
      · exact absurd rfl hblames.shallow
      · obtain ⟨-, hlast⟩ := hpath.sound hreader
        obtain ⟨opened, stage⟩ := last
        obtain ⟨scope, deep, -, hentered⟩ := step_opening code opened hopening
        have hfull := full_of_enter hlast.depth (hentered.symm.trans hstep)
        exact ⟨event, .opening hpath hfull hopening⟩
  | codeBlock hpath hstage hcode => cases Cursor.codeBlock_failed hcode

end WouldNest

end Reader

end Lookml
