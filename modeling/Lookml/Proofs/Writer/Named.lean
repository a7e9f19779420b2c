import Lookml.Proofs.Grammar.Completeness
import Lookml.Proofs.Reader.Concatenated
import Lookml.Proofs.Reader.Stopped
import Lookml.Proofs.Writer.Items

/-!
Which texts are written bare, and how names are read back. A text is a word if it is one
token, and a bare word if a reader takes it for an identifier; whichever way a name is
spelled, behind it and a colon stands the property of that name.
-/

namespace Lookml

namespace Token

theorem tokensOf_spelled {kind : Kind} {text : List Char} (h : Spells kind text)
    (hend : kind.EndsBefore []) (hne : text ≠ []) :
    tokensOf text = [⟨kind, ⟨0, byteLength text⟩, text⟩] := by
  have hcut : cut text = ⟨kind, text, []⟩ := by
    have happend := h.cut hend
    rwa [List.append_nil] at happend
  have htoken : (Cursor.ofText text).token =
      (⟨kind, ⟨0, byteLength text⟩, text⟩, ⟨byteLength text, []⟩) := by
    simp [Cursor.token, Cursor.ofText, hcut, Cursor.past, Cursor.spanTo]
  have hlater : (⟨byteLength text, []⟩ : Cursor).tokens = [] := Cursor.tokens_of_rest_eq_nil rfl
  rw [tokensOf, Cursor.tokens_of_rest_ne_nil hne, htoken, hlater]

theorem Spells.isWord {text : List Char} (h : Spells .word text) : isWord text = true := by
  cases h with
  | mark hmark =>
      unfold kindOfMark? at hmark
      split at hmark <;> cases hmark
  | word hword => exact hword

theorem isWord_iff_tokensOf {text : List Char} :
    isWord text = true ↔ ∃ span, tokensOf text = [⟨.word, span, text⟩] := by
  constructor
  · intro hword
    have hne : text ≠ [] := by
      rintro rfl
      cases hword
    exact ⟨_, tokensOf_spelled (.word hword) isBreak_nil hne⟩
  · rintro ⟨span, htokens⟩
    have hne : text ≠ [] := by
      rintro rfl
      rw [tokensOf, Cursor.tokens_of_rest_eq_nil rfl] at htokens
      cases htokens
    rw [tokensOf, Cursor.tokens_of_rest_ne_nil hne] at htokens
    have hfirst : (Cursor.ofText text).token.1 = ⟨.word, span, text⟩ := (List.cons.inj htokens).1
    have hkind : (cut text).kind = .word := congrArg Token.kind hfirst
    have htext : (cut text).text = text := congrArg Token.text hfirst
    have hinvalid : (cut text).kind ≠ .invalid := by simp [hkind]
    have hend : (cut text).kind ≠ .endOfInput := by simp [hkind]
    have hspells := (cut_spells hinvalid hend).1
    rw [hkind, htext] at hspells
    exact hspells.isWord

end Token

theorem Lexeme.next_blanks {gap : List Char} (hgap : IsBlanks gap) (cs : List Char) :
    next (gap ++ cs) = next cs := by
  have hskip := congrArg Cursor.rest (Cursor.skipBlank_append hgap 0 cs)
  rw [Cursor.skipBlank_rest, Cursor.skipBlank_rest] at hskip
  rw [next, next, hskip]

namespace Reader

/-- A word as the only value of a document is told as it is, unless it tells a truth
value. -/
theorem isBareWord_iff_read {name : String} :
    isBareWord name.toList = true ↔
      Reading.ofText (Names.ofList []) ("x: " ++ name).toList =
        ⟨[.identifier (some "x") name], none⟩ := by
  constructor
  · intro hbare
    have hvalue (span : Span) : Reads (Names.ofList []) ⟨[], .value "x" span⟩ name.toList
        [.identifier (some "x") name] := by
      have hnext : Lexeme.next name.toList = (.word name, []) := by
        simpa using next_spellWord (isWord_of_isBareWord hbare) isBreak_nil
      refine .onward (by simp) hnext fun _ => ⟨[], _, _, rfl, (Reads.finished rfl).afterWord, ?_⟩
      exact congrArg (· :: []) (wordEvent_of_isBareWord hbare)
    have hgap : IsBlanks [' '] := .gap rfl .nil
    have hread : Reads (Names.ofList []) ⟨[], .member⟩
        ((Layout.spellName "x").toList ++ ':' :: ([' '] ++ name.toList))
        [.identifier (some "x") name] := by
      refine .key fun span => ?_
      have hcode : (Names.ofList []).contains "x" = false := rfl
      rw [hcode]
      exact (hvalue span).blanks (by simp) hgap
    have hsource : ("x: " ++ name).toList =
        (Layout.spellName "x").toList ++ ':' :: ([' '] ++ name.toList) := by
      rw [String.toList_append]
      rfl
    rw [hsource]
    exact hread _ rfl
  · -- No reading tells an identifier that is no bare word.
    intro hread
    have hworded := Reading.worded (Names.ofList []) ("x: " ++ name).toList
    rw [hread] at hworded
    exact hworded _ List.mem_cons_self

end Reader

theorem Layout.next_spellName (name : String) : ∃ kind, Grammar.nameOf? kind = some name ∧
    ∀ rest, Lexeme.next ((spellName name).toList ++ ':' :: rest) = (kind, ':' :: rest) := by
  unfold spellName
  split
  · rename_i hbare
    have hbreak (rest : List Char) : IsBreak (':' :: rest) := isBreak_cons (by decide)
    exact ⟨.word name, rfl, fun rest =>
      Reader.next_spellWord (isWord_of_isBareWord hbare) (hbreak rest)⟩
  · exact ⟨.quoted name, rfl, fun rest => Reader.next_spellQuoted name _⟩

namespace Grammar

theorem isTerminal_of_nameOf? {kind : Lexeme.Kind} {name : String}
    (h : nameOf? kind = some name) : kind.isTerminal = true := by
  unfold nameOf? at h
  split at h <;> first | rfl | cases h

theorem lexed_spelledName {name : String} {kind : Lexeme.Kind} {rest : List Char}
    {ts : List Terminal} (hname : nameOf? kind = some name)
    (hnext : Lexeme.next ((Layout.spellName name).toList ++ ':' :: rest) = (kind, ':' :: rest))
    (h : Lexed true rest ts) :
    Lexed false ((Layout.spellName name).toList ++ ':' :: rest)
      (.lexeme kind :: .lexeme .colon :: ts) :=
  .lexeme hnext (isTerminal_of_nameOf? hname) (.lexeme (Lexeme.next_colon rest) rfl h)

/-- What may stand behind the name of a property and the colon, and what is told of it. -/
inductive Valued (code : Names) (name : String) (room : Nat) : List Terminal → List Event → Prop
  | value {ts : List Terminal} {es : List Event} (hcode : code.contains name = false)
      (value : Derives code (.value name) room ts es) : Valued code name room ts es
  | code {text : List Char} (hcode : code.contains name = true) :
      Valued code name room [.code text] [.code name (String.ofList (trimBlank text))]

section Valued
variable {code : Names} {name : String} {room : Nat} {ts : List Terminal} {es : List Event}

theorem Valued.member {kind : Lexeme.Kind} (hname : nameOf? kind = some name)
    (h : Valued code name room ts es) :
    Derives code .member room (.lexeme kind :: .lexeme .colon :: ts) es := by
  cases h with
  | value hcode value => exact .property hname hcode value
  | code hcode => exact .codeBlock hname hcode

theorem Valued.nameOf (h : Valued code name room ts es) :
    ∃ event later, es = event :: later ∧ Draft.nameOf event = some name := by
  cases h with
  | code hcode => exact ⟨_, _, rfl, rfl⟩
  | value hcode value =>
      cases value with
      | word =>
          refine ⟨_, _, rfl, ?_⟩
          unfold Reader.wordEvent
          split <;> rfl
      | _ => exact ⟨_, _, rfl, rfl⟩

end Valued

end Grammar

namespace Reader

/-- A run has come to a place between two members of an object: the scopes that are open
there, all that is told in front of it and the text behind it. -/
inductive BetweenMembers (code : Names) (source : List Char) :
    List Opened → List Event → List Char → Prop
  | intro {opened : List Opened} {stage : Stage} {told held : List Event} {cursor : Cursor}
      {gap rest : List Char}
      (hpath : Path code start (Cursor.ofText source) told ⟨opened, stage⟩ cursor)
      (hstage : Finishes stage held) (hgap : IsBlanks gap) (hrest : cursor.rest = gap ++ rest) :
      BetweenMembers code source opened (told ++ held) rest

section BetweenMembers
variable {code : Names} {source : List Char} {opened : List Opened} {stage : Stage}
  {told held : List Event} {name : String} {rest : List Char}

theorem Finishes.ne_code (h : Finishes stage held) (name : String) : stage ≠ .code name := by
  cases h <;> simp

/-- A name ends the member in front of it, and what was held back is told. -/
theorem Finishes.step_name {kind : Lexeme.Kind} (h : Finishes stage held)
    (hname : Grammar.nameOf? kind = some name) (span : Span) :
    step code ⟨opened, stage⟩ ⟨kind, span⟩ = .onward held ⟨opened, .colon name span⟩ := by
  unfold Grammar.nameOf? at hname
  split at hname <;> cases hname <;> cases h <;> simp [step, onMember, onAfterWord, Progress.before]

theorem BetweenMembers.path_spelledName
    (h : BetweenMembers code source opened told ((Layout.spellName name).toList ++ ':' :: rest)) :
    ∃ span cursor, Path code start (Cursor.ofText source) told
      ⟨opened, if code.contains name then .code name else .value name span⟩ cursor ∧
        cursor.rest = rest := by
  cases h with
  | @intro stage told held cursor gap _ hpath hstage hgap hrest =>
      obtain ⟨kind, hname, hnext⟩ := Layout.next_spellName name
      have hnext' : Lexeme.next cursor.rest = (kind, ':' :: rest) := by
        rw [hrest, Lexeme.next_blanks hgap, hnext]
      obtain ⟨hkind, hcolon⟩ := lexeme_of_next hnext'
      obtain ⟨hkind', hbehind⟩ := lexeme_of_next (hcolon ▸ Lexeme.next_colon rest)
      have hfirst : step code ⟨opened, stage⟩ cursor.lexeme.1 =
          .onward held ⟨opened, .colon name cursor.lexeme.1.span⟩ := by
        rw [hkind]
        exact hstage.step_name hname _
      have hsecond : step code ⟨opened, .colon name cursor.lexeme.1.span⟩ cursor.lexeme.2.lexeme.1 =
          .onward [] ⟨opened, if code.contains name then .code name
            else .value name cursor.lexeme.1.span⟩ := by
        rw [hkind']
        rfl
      have hlater := Path.step (.lexeme hstage.ne_code hfirst)
        (.step (.lexeme (by simp) hsecond) .here)
      rw [List.append_nil, List.append_nil] at hlater
      exact ⟨_, _, hpath.append hlater, hbehind⟩

/-- Where the name is followed by a value, and that by whatever may follow in the scopes
that are open, the whole text is read, and the value is told under the name. -/
theorem BetweenMembers.read_spelledName {room : Nat} {ts ts' : List Terminal} {es es' : List Event}
    (h : BetweenMembers code source opened told ((Layout.spellName name).toList ++ ':' :: rest))
    (hvalue : Grammar.Valued code name room ts es) (hroom : opened.length + room = maxDepth)
    (hlater : Grammar.Continues code (scopesOf opened) ts' es')
    (hlexed : Lexed true rest (ts ++ ts')) :
    ∃ events, Reading.ofText code source = ⟨told ++ events, none⟩ ∧
      withoutComments events = es ++ es' := by
  cases h with
  | @intro stage told held cursor gap _ hpath hstage hgap hrest =>
      obtain ⟨kind, hname, hnext⟩ := Layout.next_spellName name
      have hscope : (scopesOf opened).current = .object := by
        have hsound := (hpath.sound (start_sound code)).2.scope
        cases hstage <;> exact hsound
      -- The whole property is one more member in front of what may follow in its object.
      have hmember : Grammar.Continues code (scopesOf opened)
          (.lexeme kind :: .lexeme .colon :: ts ++ ts') (es ++ es') := by
        refine hlater.member hscope fun room' hroom' => ?_
        obtain rfl : room' = room := by
          rw [length_scopesOf] at hroom'
          omega
        exact hvalue.member hname
      have haccepts := hmember.accepts rfl
      rw [between_of_object hscope] at haccepts
      obtain ⟨events, hevents, hrun⟩ := haccepts false
        ⟨cursor.offset + byteLength gap, (Layout.spellName name).toList ++ ':' :: rest⟩ (by simp)
        (Grammar.lexed_spelledName hname (hnext rest) hlexed)
      rw [← run_blanks (by simp) hgap, ← hrest] at hrun
      refine ⟨events, ?_, hevents⟩
      have hwhole : Reading.ofText code source = _ := hpath.run
      rw [hwhole, hstage.run hrun, Reading.before, List.append_assoc]

theorem BetweenMembers.behindBrace
    (h : BetweenMembers code source opened told
      ((Layout.spellName name).toList ++ ':' :: '{' :: rest))
    (hcode : code.contains name = false) (hroom : opened.length < maxDepth) :
    ∃ span, BetweenMembers code source (⟨.object, span⟩ :: opened)
      (told ++ [.object name]) rest := by
  obtain ⟨span, cursor, hpath, hrest⟩ := h.path_spelledName
  rw [hcode] at hpath
  obtain ⟨hkind, hbehind⟩ := lexeme_of_next (hrest ▸ Lexeme.next_openBrace rest)
  have hstep : step code ⟨opened, .value name span⟩ cursor.lexeme.1 =
      .onward [.object name] ⟨⟨.object, cursor.lexeme.1.span⟩ :: opened, .member⟩ := by
    rw [hkind]
    exact enter_of_lt hroom
  have hentered := hpath.append (.step (.lexeme (by simp) hstep) .here)
  have hplace := BetweenMembers.intro hentered .member .nil hbehind
  rw [List.append_nil, List.append_nil] at hplace
  exact ⟨_, hplace⟩

end BetweenMembers

end Reader

namespace Layout

/-- What opens an object inside an object, and so on, under the given names. -/
def spellOuter (outer : List String) : List Char :=
  outer.flatMap fun name => (spellName name).toList ++ [':', '{']

theorem betweenMembers_behindOuter {code : Names} {source rest : List Char} {outer : List String}
    {opened : List Opened} {told : List Event}
    (h : Reader.BetweenMembers code source opened told (spellOuter outer ++ rest))
    (hcode : ∀ name ∈ outer, code.contains name = false)
    (hdepth : opened.length + outer.length ≤ maxDepth) :
    ∃ opened', scopesOf opened' =
        List.replicate outer.length .object ++ scopesOf opened ∧
      Reader.BetweenMembers code source opened' (told ++ outer.map .object) rest := by
  induction outer generalizing opened told with
  | nil => exact ⟨opened, rfl, by simpa [spellOuter] using h⟩
  | cons name outer ih =>
      have hspell : spellOuter (name :: outer) ++ rest =
          (spellName name).toList ++ ':' :: '{' :: (spellOuter outer ++ rest) := by
        simp [spellOuter]
      rw [hspell] at h
      rw [List.length_cons] at hdepth
      obtain ⟨span, hinner⟩ := h.behindBrace (hcode name List.mem_cons_self) (by omega)
      obtain ⟨opened', hscopes, hplace⟩ := ih hinner
        (fun inner hinner => hcode inner (List.mem_cons_of_mem name hinner))
        (by rw [List.length_cons]; omega)
      refine ⟨opened', ?_, by simpa using hplace⟩
      rw [hscopes, scopesOf_cons, List.length_cons, List.replicate_succ', List.append_assoc]
      rfl

/-- A text is written as a bare word exactly if it is one to a reader, and a name is read
back whichever way it is spelled: in any object, wherever a member may stand, the reader
comes from the spelled name and its colon to the value of the property with that name, and
tells every value under it. Objects stand inside each other as deep as they may. -/
theorem bareness_agrees (name : String) :
    (isWord name.toList = true ↔
      ∃ span, tokensOf name.toList = [⟨.word, span, name.toList⟩]) ∧
    (isBareWord name.toList = true ↔
      Reading.ofText (Names.ofList []) ("x: " ++ name).toList =
        ⟨[.identifier (some "x") name], none⟩) ∧
    (∀ (code : Names) (source : List Char) (opened : List Opened) (told : List Event)
      (rest : List Char),
      Reader.BetweenMembers code source opened told ((spellName name).toList ++ ':' :: rest) →
        (∃ span cursor, Reader.Path code Reader.start (Cursor.ofText source) told
          ⟨opened, if code.contains name then .code name else .value name span⟩ cursor ∧
            cursor.rest = rest) ∧
        ∀ (room : Nat) (ts ts' : List Terminal) (es es' : List Event),
          Grammar.Valued code name room ts es → opened.length + room = maxDepth →
          Grammar.Continues code (scopesOf opened) ts' es' → Lexed true rest (ts ++ ts') →
            ∃ event later events, es = event :: later ∧ Draft.nameOf event = some name ∧
              Reading.ofText code source = ⟨told ++ events, none⟩ ∧
              withoutComments events = es ++ es') ∧
    ∀ (code : Names) (outer : List String) (rest : List Char),
      (∀ name ∈ outer, code.contains name = false) → outer.length ≤ maxDepth →
        ∃ opened, scopesOf opened = List.replicate outer.length .object ∧
          Reader.BetweenMembers code
            (spellOuter outer ++ ((spellName name).toList ++ ':' :: rest)) opened
            (outer.map .object) ((spellName name).toList ++ ':' :: rest) := by
  refine ⟨Token.isWord_iff_tokensOf, Reader.isBareWord_iff_read, ?_, ?_⟩
  · intro code source opened told rest hplace
    refine ⟨hplace.path_spelledName, fun room ts ts' es es' hvalue hroom hlater hlexed => ?_⟩
    obtain ⟨event, later, hes, hevent⟩ := hvalue.nameOf
    obtain ⟨events, hread, hevents⟩ := hplace.read_spelledName hvalue hroom hlater hlexed
    exact ⟨event, later, events, hes, hevent, hread, hevents⟩
  · intro code outer rest hcode hdepth
    obtain ⟨opened, hscopes, hplace⟩ :=
      betweenMembers_behindOuter (.intro .here .member .nil rfl) hcode (by simpa using hdepth)
    exact ⟨opened, by simpa using hscopes, hplace⟩

/-- A name that is no bare word since it tells a truth value, in an object whose name is
no word. -/
theorem bareness_agrees_nested :
    let code := Names.ofList ["sql"]
    let source := "\"a b\":\x7b\"yes\":no # c\n\x7d".toList
    ∃ opened events,
      Reader.BetweenMembers code source opened [.object "a b"] "\"yes\":no # c\n\x7d".toList ∧
        Reading.ofText code source = ⟨.object "a b" :: events, none⟩ ∧
        withoutComments events = [.truth (some "yes") false, .close] := by
  intro code source
  obtain ⟨-, -, hread, hdeep⟩ := bareness_agrees "yes"
  obtain ⟨opened, hscopes, hplace⟩ :=
    hdeep code ["a b"] "no # c\n\x7d".toList (by decide +kernel) (by decide)
  have hvalue : Grammar.Valued code "yes" 127 [.lexeme (.word "no")] [.truth (some "yes") false] :=
    .value (by decide +kernel) .word
  have hroom : opened.length + 127 = maxDepth := by
    rw [← length_scopesOf, hscopes]
    rfl
  have hlater : Grammar.Continues code (scopesOf opened) [.lexeme .closeBrace] [.close] := by
    rw [hscopes]
    exact .closeBrace (by decide) (.document .noMembers)
  have hlexed : Lexed true "no # c\n\x7d".toList [.lexeme (.word "no"), .lexeme .closeBrace] :=
    .lexeme rfl rfl <| .comment rfl <| .lexeme rfl rfl <| .endOfInput rfl
  obtain ⟨-, -, events, -, -, hevents, hcomments⟩ :=
    (hread code source opened _ _ hplace).2 _ _ _ _ _ hvalue hroom hlater hlexed
  exact ⟨opened, events, hplace, hevents, hcomments⟩

end Layout

end Lookml
