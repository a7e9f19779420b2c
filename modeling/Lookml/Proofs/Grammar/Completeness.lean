import Lookml.Proofs.Grammar.Soundness

/-!
What the grammar derives, the reader reads. A reader accepts terminals when it reads every
text that consists of them and tells the given events, with comments in between; what is
accepted behind an item is accepted behind each derivation of it.
-/

namespace Lookml.Reader

open Grammar

/-- A reader that takes a block of code does so directly behind a colon. -/
def Accepts (code : Names) (reader : Reader) (ts : List Terminal) (es : List Event) : Prop :=
  ∀ (behindColon : Bool) (cursor : Cursor),
    (∀ name, reader.stage = .code name → behindColon = true) →
    Lexed behindColon cursor.rest ts →
    ∃ events, withoutComments events = es ∧ reader.run code cursor = ⟨events, none⟩

section Steps
variable {code : Names} {opened : List Opened} {ts : List Terminal} {es : List Event}

/-- A lexeme that each of some readers takes, when comments lead from one of these readers
to another. -/
theorem accepts_lexeme (waits : Reader → Prop) {kind : Lexeme.Kind}
    (hstage : ∀ reader, waits reader → ∀ name, reader.stage ≠ .code name)
    (hcomment : ∀ reader, waits reader → ∀ text span, ∃ told next,
      reader.step code ⟨.comment text, span⟩ = .onward told next ∧ waits next ∧
        withoutComments told = [])
    (hstep : ∀ reader, waits reader → ∀ span, ∃ told next later,
      reader.step code ⟨kind, span⟩ = .onward told next ∧ next.Accepts code ts later ∧
        (∀ name, next.stage = .code name → kind = .colon) ∧ withoutComments told ++ later = es)
    {reader : Reader} (hreader : waits reader) :
    reader.Accepts code (.lexeme kind :: ts) es := by
  rintro behindColon cursor - hlexed
  generalize hcs : cursor.rest = cs at hlexed
  generalize hts : Terminal.lexeme kind :: ts = terminals at hlexed
  -- Over the text, since comments may stand before the lexeme.
  induction hlexed generalizing reader cursor with
  | endOfInput hnext => cases hts
  | code hsplit later => cases hts
  | comment hnext later ih =>
      subst hcs
      obtain ⟨hlexeme, hrest⟩ := lexeme_of_next hnext
      obtain ⟨told, next, htold, hwaits, hnone⟩ := hcomment reader hreader _ cursor.lexeme.1.span
      rw [← hlexeme] at htold
      obtain ⟨events, rfl, hrun⟩ := ih hwaits cursor.lexeme.2 hrest hts
      refine ⟨told ++ events, by rw [withoutComments_append, hnone, List.nil_append], ?_⟩
      rw [run_onward (hstage reader hreader) htold, hrun, Reading.before]
  | lexeme hnext hkind later =>
      cases hts
      subst hcs
      obtain ⟨hlexeme, hrest⟩ := lexeme_of_next hnext
      obtain ⟨told, next, last, honward, haccepts, hcode, rfl⟩ :=
        hstep reader hreader cursor.lexeme.1.span
      rw [← hlexeme] at honward
      obtain ⟨events, rfl, hrun⟩ := haccepts _ cursor.lexeme.2
        (fun name hname => beq_iff_eq.mpr (hcode name hname)) (hrest.symm ▸ later)
      refine ⟨told ++ events, withoutComments_append told events, ?_⟩
      rw [run_onward (hstage reader hreader) honward, hrun, Reading.before]

private theorem not_lexed_code {cs text : List Char} {terminals : List Terminal} :
    ¬Lexed false cs (.code text :: terminals) := by
  intro hlexed
  generalize hflag : false = behindColon at hlexed
  generalize hts : Terminal.code text :: terminals = ts at hlexed
  induction hlexed with
  | endOfInput hnext => cases hts
  | lexeme hnext hkind later => cases hts
  | code hsplit later => cases hflag
  | comment hnext later ih => exact ih rfl hts

theorem Accepts.codeBlock {name : String} {text : List Char}
    (h : Accepts code ⟨opened, .member⟩ ts es) :
    Accepts code ⟨opened, .code name⟩ (.code text :: ts)
      (.code name (String.ofList (trimBlank text)) :: es) := by
  intro behindColon cursor hcode hlexed
  obtain rfl := hcode name rfl
  generalize hcs : cursor.rest = cs at hlexed
  cases hlexed with
  | comment hnext later => exact absurd later not_lexed_code
  | code hsplit later =>
      subst hcs
      obtain ⟨span, next, hblock, hnext⟩ := Cursor.codeBlock_of_splitCode hsplit
      obtain ⟨events, rfl, hrun⟩ := h false next (by simp) (hnext ▸ later)
      refine ⟨_, withoutComments_cons rfl events, ?_⟩
      rw [run_codeBlock rfl hblock, hrun, Reading.before]
      rfl

theorem Accepts.endOfInput : Accepts code ⟨[], .member⟩ [] [] := by
  rintro behindColon cursor - hlexed
  generalize hcs : cursor.rest = cs at hlexed
  generalize hts : ([] : List Terminal) = terminals at hlexed
  induction hlexed generalizing cursor with
  | code hsplit later => cases hts
  | lexeme hnext hkind later => cases hts
  | endOfInput hnext =>
      subst hcs
      exact ⟨[], rfl, Reads.finished hnext cursor rfl⟩
  | @comment _ _ _ text _ hnext later ih =>
      subst hcs
      obtain ⟨hlexeme, hrest⟩ := lexeme_of_next hnext
      obtain ⟨events, hevents, hrun⟩ := ih cursor.lexeme.2 hrest hts
      have hstep : start.step code cursor.lexeme.1 = .onward [.comment text] start := by
        rw [hlexeme]
        rfl
      refine ⟨.comment text :: events, hevents, ?_⟩
      exact (run_onward (by simp [start]) hstep).trans (congrArg (Reading.before _) hrun)

/-! The stages of a reader. Each but two stays where it is at a comment. -/

private theorem Accepts.lexeme {reader : Reader} {kind : Lexeme.Kind}
    (hstage : ∀ name, reader.stage ≠ .code name)
    (hcomment : ∀ text span,
      reader.step code ⟨.comment text, span⟩ = .onward [.comment text] reader)
    (hstep : ∀ span, ∃ told next later,
      reader.step code ⟨kind, span⟩ = .onward told next ∧ next.Accepts code ts later ∧
        (∀ name, next.stage = .code name → kind = .colon) ∧ withoutComments told ++ later = es) :
    reader.Accepts code (.lexeme kind :: ts) es := by
  refine accepts_lexeme (· = reader) ?_ ?_ ?_ rfl
  · rintro _ rfl
    exact hstage
  · rintro _ rfl text span
    exact ⟨_, _, hcomment text span, rfl, rfl⟩
  · rintro _ rfl
    exact hstep

theorem Accepts.name {kind : Lexeme.Kind} {name : String} (hname : nameOf? kind = some name)
    (h : ∀ span, Accepts code ⟨opened, .colon name span⟩ ts es) :
    Accepts code ⟨opened, .member⟩ (.lexeme kind :: ts) es := by
  refine .lexeme (by simp) (fun _ _ => rfl) fun span => ⟨[], _, _, ?_, h span, by simp, rfl⟩
  unfold nameOf? at hname
  split at hname <;> cases hname <;> rfl

theorem Accepts.colon {name : String} {span : Span} (hcode : code.contains name = false)
    (h : Accepts code ⟨opened, .value name span⟩ ts es) :
    Accepts code ⟨opened, .colon name span⟩ (.lexeme .colon :: ts) es := by
  refine .lexeme (by simp) (fun _ _ => rfl) fun _ => ⟨[], _, _, ?_, h, by simp, rfl⟩
  simp [step, onColon, hcode]

theorem Accepts.codeColon {name : String} {span : Span} (hcode : code.contains name = true)
    (h : Accepts code ⟨opened, .code name⟩ ts es) :
    Accepts code ⟨opened, .colon name span⟩ (.lexeme .colon :: ts) es := by
  refine .lexeme (by simp) (fun _ _ => rfl) fun _ => ⟨[], _, _, ?_, h, by simp, rfl⟩
  simp [step, onColon, hcode]

theorem Accepts.word {name word : String} {span : Span}
    (h : Accepts code ⟨opened, .member⟩ ts es) :
    Accepts code ⟨opened, .value name span⟩ (.lexeme (.word word) :: ts)
      (wordEvent (some name) word :: es) := by
  refine .lexeme (by simp) (fun _ _ => rfl) fun span => ⟨[], _, _, rfl, ?_, by simp, rfl⟩
  intro behindColon cursor _ hlexed
  obtain ⟨events, rfl, hrun⟩ := h behindColon cursor (by simp) hlexed
  exact ⟨_, withoutComments_cons (isComment_wordEvent _ _) events, run_afterWord hrun⟩

theorem Accepts.elementWord {word : String} (h : Accepts code ⟨opened, .element⟩ ts es) :
    Accepts code ⟨opened, .element⟩ (.lexeme (.word word) :: ts)
      (wordEvent none word :: es) := by
  refine .lexeme (by simp) (fun _ _ => rfl) fun _ => ⟨[], _, _, rfl, ?_, by simp, rfl⟩
  intro behindColon cursor _ hlexed
  obtain ⟨events, rfl, hrun⟩ := h behindColon cursor (by simp) hlexed
  exact ⟨_, withoutComments_cons (isComment_wordEvent _ _) events, run_afterElementWord hrun⟩

theorem Accepts.named {name word : String} {span : Span} (hroom : opened.length < maxDepth)
    (h : ∀ span, Accepts code ⟨⟨.object, span⟩ :: opened, .member⟩ ts es) :
    Accepts code ⟨opened, .value name span⟩ (.lexeme (.word word) :: .lexeme .openBrace :: ts)
      (.named name word :: es) := by
  refine .lexeme (by simp) (fun _ _ => rfl) fun span => ⟨[], _, _, rfl, ?_, by simp, rfl⟩
  refine accepts_lexeme
    (fun reader => ∃ comments, reader = ⟨opened, .afterWord name word span comments⟩)
    ?_ ?_ ?_ ⟨[], rfl⟩
  · rintro _ ⟨comments, rfl⟩
    simp
  · rintro _ ⟨comments, rfl⟩ text _
    exact ⟨[], _, rfl, ⟨_, rfl⟩, rfl⟩
  · rintro _ ⟨comments, rfl⟩ _
    refine ⟨_, _, es, enter_of_lt hroom, h span, by simp [between], ?_⟩
    simp [withoutComments, Event.isComment, Event.comments]

theorem Accepts.pair {reference text : String} (h : Accepts code ⟨opened, .element⟩ ts es) :
    Accepts code ⟨opened, .element⟩
      (.lexeme (.word reference) :: .lexeme .colon :: .lexeme (.quoted text) :: ts)
      (.pair reference text :: es) := by
  refine .lexeme (by simp) (fun _ _ => rfl) fun span => ⟨[], _, _, rfl, ?_, by simp, rfl⟩
  refine accepts_lexeme
    (fun reader => ∃ comments, reader = ⟨opened, .afterElementWord reference comments⟩)
    ?_ ?_ ?_ ⟨[], rfl⟩
  · rintro _ ⟨comments, rfl⟩
    simp
  · rintro _ ⟨comments, rfl⟩ text _
    exact ⟨[], _, rfl, ⟨_, rfl⟩, rfl⟩
  · rintro _ ⟨comments, rfl⟩ _
    refine ⟨_, _, .pair reference text :: es, rfl, ?_, by simp, by simp⟩
    exact .lexeme (by simp) (fun _ _ => rfl) fun _ => ⟨_, _, _, rfl, h, by simp, rfl⟩

theorem Accepts.object {name : String} {span : Span} (hroom : opened.length < maxDepth)
    (h : ∀ span, Accepts code ⟨⟨.object, span⟩ :: opened, .member⟩ ts es) :
    Accepts code ⟨opened, .value name span⟩ (.lexeme .openBrace :: ts) (.object name :: es) :=
  .lexeme (by simp) (fun _ _ => rfl) fun span =>
    ⟨_, _, _, enter_of_lt hroom, h span, by simp [between], rfl⟩

theorem Accepts.list {name : String} {span : Span} (hroom : opened.length < maxDepth)
    (h : ∀ span, Accepts code ⟨⟨.list, span⟩ :: opened, .element⟩ ts es) :
    Accepts code ⟨opened, .value name span⟩ (.lexeme .openBracket :: ts)
      (.list (some name) :: es) :=
  .lexeme (by simp) (fun _ _ => rfl) fun span =>
    ⟨_, _, _, enter_of_lt hroom, h span, by simp [between], rfl⟩

theorem Accepts.nested (hroom : opened.length < maxDepth)
    (h : ∀ span, Accepts code ⟨⟨.list, span⟩ :: opened, .element⟩ ts es) :
    Accepts code ⟨opened, .element⟩ (.lexeme .openBracket :: ts) (.list none :: es) :=
  .lexeme (by simp) (fun _ _ => rfl) fun span =>
    ⟨_, _, _, enter_of_lt hroom, h span, by simp [between], rfl⟩

theorem Accepts.closeBrace {span : Span} (h : Accepts code ⟨opened, between opened⟩ ts es) :
    Accepts code ⟨⟨.object, span⟩ :: opened, .member⟩ (.lexeme .closeBrace :: ts)
      (.close :: es) :=
  .lexeme (by simp) (fun _ _ => rfl) fun _ =>
    ⟨_, _, _, rfl, h, fun _ hcode => absurd hcode (between_ne_code _ _), rfl⟩

theorem Accepts.closeBracket {span : Span} (h : Accepts code ⟨opened, between opened⟩ ts es) :
    Accepts code ⟨⟨.list, span⟩ :: opened, .element⟩ (.lexeme .closeBracket :: ts)
      (.close :: es) :=
  .lexeme (by simp) (fun _ _ => rfl) fun _ =>
    ⟨_, _, _, rfl, h, fun _ hcode => absurd hcode (between_ne_code _ _), rfl⟩

end Steps

end Lookml.Reader

namespace Lookml.Grammar

open Reader

/-- Where a reader stands before what a nonterminal derives. -/
def Nonterminal.before : Nonterminal → Span → Stage
  | .members, _ | .member, _ => .member
  | .value name, span => .value name span
  | .elements, _ | .element, _ => .element

def Nonterminal.behind : Nonterminal → Stage
  | .members | .member | .value _ => .member
  | .elements | .element => .element

/-- What a reader accepts behind the terminals of a derivation, it accepts behind the
derivation. -/
theorem Derives.accepts {code : Names} {symbol : Nonterminal} {room : Nat} {ts : List Terminal}
    {es : List Event} (h : Derives code symbol room ts es) {opened : List Opened} (span : Span)
    {ts' : List Terminal} {es' : List Event} (hstage : between opened = symbol.behind)
    (hroom : opened.length + room = maxDepth)
    (hlater : Accepts code ⟨opened, symbol.behind⟩ ts' es') :
    Accepts code ⟨opened, symbol.before span⟩ (ts ++ ts') (es ++ es') := by
  -- What is accepted later grows with the derivation, so `hlater` has to be general.
  induction h generalizing opened span ts' es' with
  | noMembers => exact hlater
  | noElements => exact hlater
  | memberComma later ih =>
      exact .lexeme (by simp [Nonterminal.before]) (fun _ _ => rfl) fun span =>
        ⟨_, _, _, rfl, ih span hstage hroom hlater, by simp, rfl⟩
  | elementComma later ih =>
      exact .lexeme (by simp [Nonterminal.before]) (fun _ _ => rfl) fun span =>
        ⟨_, _, _, rfl, ih span hstage hroom hlater, by simp, rfl⟩
  | moreMembers first later ihfirst ihlater =>
      rw [List.append_assoc, List.append_assoc]
      exact ihfirst span hstage hroom (ihlater span hstage hroom hlater)
  | moreElements first later ihfirst ihlater =>
      rw [List.append_assoc, List.append_assoc]
      exact ihfirst span hstage hroom (ihlater span hstage hroom hlater)
  | property hname hcode value ih =>
      exact .name hname fun span => .colon hcode (ih span hstage hroom hlater)
  | codeBlock hname hcode =>
      exact .name hname fun span => .codeColon hcode (.codeBlock hlater)
  | number =>
      exact .lexeme (by simp [Nonterminal.before]) (fun _ _ => rfl) fun _ =>
        ⟨_, _, _, rfl, hlater, by simp, rfl⟩
  | string =>
      exact .lexeme (by simp [Nonterminal.before]) (fun _ _ => rfl) fun _ =>
        ⟨_, _, _, rfl, hlater, by simp, rfl⟩
  | elementNumber =>
      exact .lexeme (by simp [Nonterminal.before]) (fun _ _ => rfl) fun _ =>
        ⟨_, _, _, rfl, hlater, by simp, rfl⟩
  | elementString =>
      exact .lexeme (by simp [Nonterminal.before]) (fun _ _ => rfl) fun _ =>
        ⟨_, _, _, rfl, hlater, by simp, rfl⟩
  | word => exact .word hlater
  | elementWord => exact .elementWord hlater
  | pair => exact .pair hlater
  | named members ih =>
      simp only [List.cons_append, List.append_assoc, List.nil_append]
      refine .named (by omega) fun span => ih span rfl ?_ (.closeBrace (hstage ▸ hlater))
      rw [List.length_cons]
      omega
  | object members ih =>
      simp only [List.cons_append, List.append_assoc, List.nil_append]
      refine .object (by omega) fun span => ih span rfl ?_ (.closeBrace (hstage ▸ hlater))
      rw [List.length_cons]
      omega
  | list elements ih =>
      simp only [List.cons_append, List.append_assoc, List.nil_append]
      refine .list (by omega) fun span => ih span rfl ?_ (.closeBracket (hstage ▸ hlater))
      rw [List.length_cons]
      omega
  | nested elements ih =>
      simp only [List.cons_append, List.append_assoc, List.nil_append]
      refine .nested (by omega) fun span => ih span rfl ?_ (.closeBracket (hstage ▸ hlater))
      rw [List.length_cons]
      omega

/-- A reader between two items accepts all that may follow there, whatever the scopes that
are open. -/
theorem Continues.accepts {code : Names} {scopes : OpenScopes} {ts : List Terminal}
    {es : List Event} (h : Continues code scopes ts es) {opened : List Opened}
    (hscopes : scopesOf opened = scopes) : Accepts code ⟨opened, between opened⟩ ts es := by
  induction h generalizing opened with
  | document members =>
      obtain rfl : opened = [] := List.map_eq_nil_iff.mp hscopes
      have haccepts := members.accepts ⟨0, 0⟩ rfl (Nat.zero_add _) Accepts.endOfInput
      rwa [List.append_nil, List.append_nil] at haccepts
  | object members hroom later ih =>
      obtain ⟨⟨scope, span⟩, outer, rfl, rfl, rfl⟩ := List.map_eq_cons_iff.mp hscopes
      refine members.accepts span rfl ?_ (.closeBrace (ih rfl))
      rw [← hroom, List.length_cons, List.length_map]
  | list elements hroom later ih =>
      obtain ⟨⟨scope, span⟩, outer, rfl, rfl, rfl⟩ := List.map_eq_cons_iff.mp hscopes
      refine elements.accepts span rfl ?_ (.closeBracket (ih rfl))
      rw [← hroom, List.length_cons, List.length_map]

theorem IsDocument.read {code : Names} {source : List Char} {ts : List Terminal} {es : List Event}
    (hlexed : Lexed false source ts) (hdocument : IsDocument code ts es) :
    ∃ events, withoutComments events = es ∧ Reading.ofText code source = ⟨events, none⟩ := by
  have haccepts : Accepts code ⟨[], .member⟩ ts es := (Continues.document hdocument).accepts rfl
  exact haccepts false (Cursor.ofText source) (by simp) hlexed

/-- The reader reads exactly the documents of the grammar, and what it tells besides
comments is what each of their derivations tells. -/
theorem reads_iff_derives (code : Names) (source : List Char) :
    ((Reading.ofText code source).failure = none ↔
      ∃ ts es, Lexed false source ts ∧ IsDocument code ts es) ∧
    ∀ es, (∃ ts, Lexed false source ts ∧ IsDocument code ts es) ↔
      (Reading.ofText code source).failure = none ∧
        withoutComments (Reading.ofText code source).events = es := by
  have hsound (h : (Reading.ofText code source).failure = none) :
      ∃ ts, Lexed false source ts ∧
        IsDocument code ts (withoutComments (Reading.ofText code source).events) :=
    derives_of_read (congrArg (Reading.mk _) h)
  have hcomplete {ts : List Terminal} {es : List Event} (hlexed : Lexed false source ts)
      (hdocument : IsDocument code ts es) :
      (Reading.ofText code source).failure = none ∧
        withoutComments (Reading.ofText code source).events = es := by
    obtain ⟨events, hevents, hread⟩ := IsDocument.read hlexed hdocument
    rw [hread]
    exact ⟨rfl, hevents⟩
  refine ⟨⟨fun h => ?_, ?_⟩, fun es => ⟨?_, ?_⟩⟩
  · obtain ⟨ts, hlexed, hdocument⟩ := hsound h
    exact ⟨ts, _, hlexed, hdocument⟩
  · rintro ⟨ts, es, hlexed, hdocument⟩
    exact (hcomplete hlexed hdocument).1
  · rintro ⟨ts, hlexed, hdocument⟩
    exact hcomplete hlexed hdocument
  · rintro ⟨h, rfl⟩
    exact hsound h

end Lookml.Grammar
