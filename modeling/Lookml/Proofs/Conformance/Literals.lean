import Lookml.Proofs.Conformance.Judging
import Lookml.Proofs.Conformance.Marking
import Lookml.Proofs.Lexeme.Spelling
import Lookml.Proofs.Reader.Reads
import Lookml.Proofs.Tree.Reworded

/-!
Literals of enums written as words. A word that is a value of a property is told as a
truth value if it is `yes` or `no`, and as an identifier otherwise. Of identifiers an enum
takes its literals, of truth values none unless it is an enum of these; so every literal
can be written, save a truth value among others.
-/

namespace Lookml

/-- Where no comment stands first, none is passed. -/
theorem Cursor.Passes.eq_self {cursor last : Cursor} {texts : List String}
    (h : cursor.Passes texts last) (hother : ∀ text, cursor.lexeme.1.kind ≠ .comment text) :
    last = cursor := by
  cases h with
  | here => rfl
  | comment hkind _ => exact absurd hkind (hother _)

namespace Reader

variable {code : Names} {opened : List Opened} {name word : String} {span : Span}
  {cursor last : Cursor} {texts : List String}

/-- Behind a word that no brace follows the reader is between two members again, as if
comments were read there. -/
theorem run_behind_word
    (hbrace : ∀ comments next, cursor.Passes comments next → next.lexeme.1.kind ≠ .openBrace) :
    run code ⟨opened, .afterWord name word span []⟩ cursor =
      (run code ⟨opened, .member⟩ cursor).before [wordEvent (some name) word] := by
  obtain ⟨comments, next, hpasses⟩ := cursor.exists_passes
  have hmember : run code ⟨opened, .member⟩ cursor =
      (run code ⟨opened, .member⟩ next).before (Event.comments comments) :=
    run_told (by simp) (fun _ _ => rfl) hpasses
  rw [run_afterWord_passes hpasses, run_afterWord_other hpasses.other (hbrace _ _ hpasses), hmember,
    Reading.before_before]
  rfl

/-- From the colon behind the name of a property that is no code, over comments and over a
word. -/
theorem run_word (hcode : code.contains name = false) (hcolon : cursor.lexeme.1.kind = .colon)
    (hpasses : cursor.lexeme.2.Passes texts last) (hword : last.lexeme.1.kind = .word word)
    (hbrace : ∀ comments next, last.lexeme.2.Passes comments next →
      next.lexeme.1.kind ≠ .openBrace) :
    run code ⟨opened, .colon name span⟩ cursor =
      (run code ⟨opened, .member⟩ last.lexeme.2).before
        (Event.comments texts ++ [wordEvent (some name) word]) := by
  have hvalue : step code ⟨opened, .colon name span⟩ cursor.lexeme.1 =
      .onward [] ⟨opened, .value name span⟩ := by
    simp [step, onColon, hcolon, hcode]
  have htold : run code ⟨opened, .value name span⟩ cursor.lexeme.2 =
      (run code ⟨opened, .value name span⟩ last).before (Event.comments texts) :=
    run_told (by simp) (fun _ _ => rfl) hpasses
  have hafter : step code ⟨opened, .value name span⟩ last.lexeme.1 =
      .onward [] ⟨opened, .afterWord name word last.lexeme.1.span []⟩ := by
    simp [step, onValue, hword]
  rw [run_onward (by simp) hvalue, htold, run_onward (by simp) hafter, run_behind_word hbrace]
  simp only [Reading.before_before, List.nil_append]

end Reader

/-- An enum takes its literal written as this word: a truth value needs an enum of
these. -/
def EnumType.Admits (enumType : EnumType) (word : String) : Prop :=
  word = "yes" ∨ word = "no" → enumType.IsOfTruth

namespace Checker

variable {schema : Schema} {typeName name enumName literal : String} {type : ObjectType}
  {enumType : EnumType} {taken : List String} {level : Level} {outer : List Level}

/-- What a property of an enum says of a literal of it that is written as a word. -/
theorem scalarProperty_literal (typeName : String)
    (hproperty : type.property? name = some (.enum enumName))
    (henum : schema.enums.get? enumName = some enumType)
    (hliteral : enumType.contains literal = true) (hfresh : name ∉ taken) :
    (enumType.Admits literal →
      scalarProperty schema (some (typeName, type)) taken name
          (Reader.wordEvent (some name) literal) =
        .ok (name :: taken)) ∧
    (¬enumType.Admits literal →
      scalarProperty schema (some (typeName, type)) taken name
          (Reader.wordEvent (some name) literal) =
        .error (.invalidEnumValue typeName name enumName literal)) := by
  have hdeclared : declared (some (typeName, type)) name = .ok (.enum enumName) := by
    rw [declared, hproperty]
  have htake : takeName taken name = .ok (name :: taken) := by
    rw [takeName, if_neg (by simpa using hfresh)]
  cases htruth : truthOfWord? literal.toList with
  | none =>
      have hother : enumType.Admits literal := by
        rintro (rfl | rfl) <;> cases htruth
      have hscalar : scalarProperty schema (some (typeName, type)) taken name
          (Reader.wordEvent (some name) literal) =
            requireIdentifier schema typeName (.enum enumName) name literal >>= fun _ =>
              takeName taken name := by
        rw [Reader.wordEvent, htruth, scalarProperty, hdeclared]
        rfl
      have hrequired :
          requireIdentifier schema typeName (.enum enumName) name literal = .ok () := by
        simp [requireIdentifier, henum, hliteral]
      refine ⟨fun _ => ?_, fun hnot => absurd hother hnot⟩
      rw [hscalar, hrequired, htake]
      rfl
  | some value =>
      have hword : literal = wordOfTruth value := eq_wordOfTruth htruth
      have hadmits : enumType.Admits literal ↔ enumType.isBoolean = true := by
        rw [EnumType.isBoolean_iff]
        refine ⟨fun h => h ?_, fun h _ => h⟩
        rw [hword]
        cases value <;> decide
      have hscalar : scalarProperty schema (some (typeName, type)) taken name
          (Reader.wordEvent (some name) literal) =
            requireTruth schema typeName (.enum enumName) name value >>= fun _ =>
              takeName taken name := by
        rw [Reader.wordEvent, htruth, scalarProperty, hdeclared]
        rfl
      simp only [hadmits, hscalar, requireTruth, henum, Option.map_some, Option.getD_some, ← hword]
      constructor
      · intro hboolean
        rw [if_pos hboolean, htake]
        rfl
      · intro hnot
        rw [if_neg hnot]
        rfl

theorem wordEvent_scalar (given : Option String) (word : String) :
    (Reader.wordEvent given word = .identifier given word ∨
      ∃ value, Reader.wordEvent given word = .truth given value) := by
  rw [Reader.wordEvent]
  cases truthOfWord? word.toList with
  | none => exact .inl rfl
  | some value => exact .inr ⟨value, rfl⟩

/-- In an object of its type a property of an enum is judged by whether the enum takes the
literal as it is written. -/
theorem judge_literal (typeName : String) (hproperty : type.property? name = some (.enum enumName))
    (henum : schema.enums.get? enumName = some enumType)
    (hliteral : enumType.contains literal = true) (hfresh : name ∉ taken) :
    (enumType.Admits literal →
      judge schema (.object (some (typeName, type)) taken) (Reader.wordEvent (some name) literal) =
        .keep (.object (some (typeName, type)) (name :: taken))) ∧
    (¬enumType.Admits literal →
      judge schema (.object (some (typeName, type)) taken) (Reader.wordEvent (some name) literal) =
        .refuse (.invalidEnumValue typeName name enumName literal)) := by
  have hjudge : judge schema (.object (some (typeName, type)) taken)
      (Reader.wordEvent (some name) literal) =
        judgeScalar schema (some (typeName, type)) taken name
          (Reader.wordEvent (some name) literal) := by
    rcases wordEvent_scalar (some name) literal with heq | ⟨value, heq⟩ <;> rw [heq] <;> rfl
  obtain ⟨htakes, hrefuses⟩ :=
    scalarProperty_literal typeName hproperty henum hliteral hfresh
  rw [hjudge, judgeScalar]
  exact ⟨fun h => by rw [htakes h], fun h => by rw [hrefuses h]⟩

/-- Comments leave the levels as they are. -/
theorem run_comments (texts : List String)
    (hlevel : ∀ text, judge schema level (.comment text) = .keep level) :
    run ⟨schema, level :: outer⟩ ((Event.comments texts).map .event) =
      ⟨schema, level :: outer⟩ := by
  induction texts with
  | nil => rfl
  | cons text texts ih =>
      have hstep : (step ⟨schema, level :: outer⟩ (.event (.comment text))).1 =
          ⟨schema, level :: outer⟩ := by
        rw [step_keep (by simp) (hlevel text)]
      exact (congrArg (run · ((Event.comments texts).map .event)) hstep).trans ih

/-- A literal told in an object of its type, with what is told before and behind it. -/
theorem verdicts_literal {checker : Checker} {front : List Delivery}
    (hfront : checker.run front = ⟨schema, .object (some (typeName, type)) taken :: outer⟩)
    (hproperty : type.property? name = some (.enum enumName))
    (henum : schema.enums.get? enumName = some enumType)
    (hliteral : enumType.contains literal = true) (hfresh : name ∉ taken)
    (behind : List Delivery) :
    let event := Reader.wordEvent (some name) literal
    ∃ verdict next,
      checker.verdicts (front ++ .event event :: behind) =
        checker.verdicts front ++ verdict :: Checker.verdicts next behind ∧
      (verdict = .forward (.event event) ↔ enumType.Admits literal) ∧
      (verdict = .forward (.event event) ∨
        verdict = .report (.invalidEnumValue typeName name enumName literal)) := by
  intro event
  have hclose : event ≠ .close := by
    rcases wordEvent_scalar (some name) literal with heq | ⟨value, heq⟩ <;> simp [event, heq]
  obtain ⟨htakes, hrefuses⟩ := judge_literal typeName hproperty henum hliteral hfresh
  rw [verdicts_append, hfront, verdicts_cons]
  by_cases hadmits : enumType.Admits literal
  · rw [step_keep hclose (htakes hadmits)]
    exact ⟨_, _, rfl, ⟨fun _ => hadmits, fun _ => rfl⟩, .inl rfl⟩
  · rw [step_refuse hclose (hrefuses hadmits)]
    exact ⟨_, _, rfl, ⟨fun h => (by cases h), fun h => absurd h hadmits⟩, .inr rfl⟩

end Checker

section Written
variable {schema : Schema} {typeName name enumName literal : String} {type : ObjectType}
  {enumType : EnumType} {source gap rest : List Char} {told : List Event} {opened : List Opened}
  {span : Span} {cursor last : Cursor} {texts taken : List String} {outer : List Checker.Level}

/-- The text is read over a word behind the colon of a property of an enum, which is no
code anywhere. -/
theorem Schema.IsBuilt.read_literal (hschema : schema.IsBuilt)
    (htype : schema.objects.get? typeName = some type)
    (hproperty : type.property? name = some (.enum enumName)) (hword : isWord literal.toList = true)
    (hpath : Reader.Path schema.codeNames .start (Cursor.ofText source) told
      ⟨opened, .colon name span⟩ cursor)
    (hcolon : cursor.lexeme.1.kind = .colon) (hpasses : cursor.lexeme.2.Passes texts last)
    (hgap : IsBlanks gap) (hlast : last.rest = gap ++ (literal.toList ++ rest))
    (hbreak : IsBreak rest)
    (hbrace : ∀ comments next, last.lexeme.2.Passes comments next →
      next.lexeme.1.kind ≠ .openBrace) :
    schema.read source = (Reader.run schema.codeNames ⟨opened, .member⟩ last.lexeme.2).before
      (told ++ Event.comments texts ++ [Reader.wordEvent (some name) literal]) := by
  have hcode : schema.codeNames.contains name = false := Bool.eq_false_iff.mpr fun hcode =>
    PropertyType.noConfusion (hschema.eq_code hcode (mem_allProperties htype hproperty))
  have hkind : last.lexeme.1.kind = .word literal := by
    obtain ⟨offset, cs⟩ := last
    obtain rfl : cs = gap ++ (literal.toList ++ rest) := hlast
    rw [Cursor.lexeme, Cursor.skipBlank_append hgap, ← Cursor.lexeme,
      (Reader.lexeme_of_next (Lexeme.next_word hword hbreak)).1, String.ofList_toList]
  rw [Schema.read, Reading.ofText, hpath.run, Reader.run_word hcode hcolon hpasses hkind hbrace,
    Reading.before_before, List.append_assoc]

/-- A literal of an enum that is a word, written as it is behind the colon of a property
of the enum: the text is read on behind it, and where the object has the property for the
first time, the literal is passed on exactly if it is no truth value or the enum is one of
truth values, and else it is reported once, as a value that the enum does not have. -/
theorem Schema.IsBuilt.written_literal_forwarded_iff (hschema : schema.IsBuilt)
    (htype : schema.objects.get? typeName = some type)
    (hproperty : type.property? name = some (.enum enumName))
    (henum : schema.enums.get? enumName = some enumType)
    (hliteral : enumType.contains literal = true) (hword : isWord literal.toList = true)
    -- The reading has come to the colon behind the name of the property; behind comments
    -- there is the literal, and no brace that would make it the name of an instance.
    (hpath : Reader.Path schema.codeNames .start (Cursor.ofText source) told
      ⟨opened, .colon name span⟩ cursor)
    (hcolon : cursor.lexeme.1.kind = .colon) (hpasses : cursor.lexeme.2.Passes texts last)
    (hgap : IsBlanks gap) (hlast : last.rest = gap ++ (literal.toList ++ rest))
    (hbreak : IsBreak rest)
    (hbrace : ∀ comments next, last.lexeme.2.Passes comments next →
      next.lexeme.1.kind ≠ .openBrace)
    -- The check stands in an object of the type, in which the name of the property is not
    -- taken.
    (hlevel : (Checker.start schema).run (told.map .event) =
      ⟨schema, .object (some (typeName, type)) taken :: outer⟩)
    (hfresh : name ∉ taken) :
    let event := Reader.wordEvent (some name) literal
    let front := told ++ Event.comments texts
    let behind := Reader.run schema.codeNames ⟨opened, .member⟩ last.lexeme.2
    schema.read source = behind.before (front ++ [event]) ∧
      ∃ verdict next,
        schema.verdicts (wholeDocument (schema.read source).events) =
          (Checker.start schema).verdicts (front.map .event) ++
            verdict :: Checker.verdicts next (wholeDocument behind.events) ∧
        (verdict = .forward (.event event) ↔
          (literal = "yes" ∨ literal = "no" → enumType.IsOfTruth)) ∧
        (verdict = .forward (.event event) ∨
          verdict = .report (.invalidEnumValue typeName name enumName literal)) := by
  intro event front behind
  have hread :=
    hschema.read_literal htype hproperty hword hpath hcolon hpasses hgap hlast hbreak hbrace
  have hchecker : (Checker.start schema).run (front.map .event) =
      ⟨schema, .object (some (typeName, type)) taken :: outer⟩ := by
    rw [List.map_append, Checker.run_append, hlevel, Checker.run_comments _ fun _ => rfl]
  have hstream : wholeDocument (schema.read source).events =
      front.map .event ++ .event event :: wholeDocument behind.events := by
    simp [hread, Reading.before, wholeDocument, front, event, behind]
  refine ⟨hread, ?_⟩
  rw [hstream]
  exact Checker.verdicts_literal hchecker hproperty henum hliteral hfresh
    (wholeDocument behind.events)

end Written

/-- Comments stand between the name and the literal; it is a truth value, and the enum is
one of these. -/
theorem Schema.IsBuilt.written_literal_forwarded_iff_yes :
    let schema : Schema := ⟨"s", .ofList [("boolean", ⟨.ofList ["no", "yes"]⟩)],
      .ofList [("view", ⟨.ofList [("hidden", .enum "boolean")]⟩)], .ofList ["view"]⟩
    let source := "view: v \x7b hidden: # c\n yes \x7d"
    schema.IsBuilt ∧ isWord "yes".toList = true ∧
      ∃ next, schema.verdicts (wholeDocument (schema.read source.toList).events) =
        [.forward (.event (.named "view" "v")), .forward (.event (.comment " c"))] ++
          .forward (.event (.truth (some "hidden") true)) ::
            Checker.verdicts next (wholeDocument [.close]) := by
  intro schema source
  have hbuilt : schema.IsBuilt := by
    refine ⟨"s", [.enum "boolean" ["yes", "no"],
      .rootWith "view" [⟨"hidden", .enum "boolean"⟩]], ?_⟩
    decide +kernel
  let cursor₁ := (Cursor.ofText source.toList).lexeme.2
  let cursor₂ := cursor₁.lexeme.2
  let cursor₃ := cursor₂.lexeme.2
  let cursor₄ := cursor₃.lexeme.2
  let cursor₅ := cursor₄.lexeme.2
  let opened : List Opened := [⟨.object, ⟨6, 7⟩⟩]
  have hpath : Reader.Path schema.codeNames .start (Cursor.ofText source.toList) [.named "view" "v"]
      ⟨opened, .colon "hidden" ⟨10, 16⟩⟩ cursor₅ := by
    have hname : Reader.Moves schema.codeNames .start (Cursor.ofText source.toList) []
        ⟨[], .colon "view" ⟨0, 4⟩⟩ cursor₁ := .lexeme (by simp [Reader.start]) (by decide +kernel)
    have hcolon : Reader.Moves schema.codeNames ⟨[], .colon "view" ⟨0, 4⟩⟩ cursor₁ []
        ⟨[], .value "view" ⟨0, 4⟩⟩ cursor₂ := .lexeme (by simp) (by decide +kernel)
    have hvalue : Reader.Moves schema.codeNames ⟨[], .value "view" ⟨0, 4⟩⟩ cursor₂ []
        ⟨[], .afterWord "view" "v" ⟨6, 7⟩ []⟩ cursor₃ := .lexeme (by simp) (by decide +kernel)
    have hbrace : Reader.Moves schema.codeNames ⟨[], .afterWord "view" "v" ⟨6, 7⟩ []⟩ cursor₃
        [.named "view" "v"] ⟨opened, .member⟩ cursor₄ := .lexeme (by simp) (by decide +kernel)
    have hmember : Reader.Moves schema.codeNames ⟨opened, .member⟩ cursor₄ []
        ⟨opened, .colon "hidden" ⟨10, 16⟩⟩ cursor₅ := .lexeme (by simp) (by decide +kernel)
    exact .step hname (.step hcolon (.step hvalue (.step hbrace (.step hmember .here))))
  have hpasses : cursor₅.lexeme.2.Passes [" c"] cursor₅.lexeme.2.lexeme.2 := by
    have hcomment : cursor₅.lexeme.2.lexeme.1.kind = .comment " c" := by decide +kernel
    have hword : cursor₅.lexeme.2.lexeme.2.lexeme.1.kind = .word "yes" := by decide +kernel
    exact .comment hcomment (.here fun text => by simp [hword])
  have hbrace : ∀ comments next, cursor₅.lexeme.2.lexeme.2.lexeme.2.Passes comments next →
      next.lexeme.1.kind ≠ .openBrace := by
    have hkind : cursor₅.lexeme.2.lexeme.2.lexeme.2.lexeme.1.kind = .closeBrace := by decide +kernel
    intro comments next hnext
    rw [hnext.eq_self fun text => by simp [hkind], hkind]
    simp
  have hgap : IsBlanks ['\n', ' '] := .gap rfl (.gap rfl .nil)
  have hlevel : (Checker.start schema).run ([.named "view" "v"].map .event) =
      ⟨schema, [.object (some ("view", ⟨.ofList [("hidden", .enum "boolean")]⟩)) [],
        .object none ["view:v"]]⟩ := by
    decide +kernel
  have htype : schema.objects.get? "view" = some ⟨.ofList [("hidden", .enum "boolean")]⟩ := by
    decide +kernel
  have hproperty : (⟨.ofList [("hidden", .enum "boolean")]⟩ : ObjectType).property? "hidden" =
      some (.enum "boolean") := by
    decide +kernel
  have henum : schema.enums.get? "boolean" = some ⟨.ofList ["no", "yes"]⟩ := by decide +kernel
  have hliteral : (⟨.ofList ["no", "yes"]⟩ : EnumType).contains "yes" = true := by decide +kernel
  have hword : isWord "yes".toList = true := by decide
  have hcolon : cursor₅.lexeme.1.kind = .colon := by decide +kernel
  have hlast : cursor₅.lexeme.2.lexeme.2.rest = ['\n', ' '] ++ ("yes".toList ++ [' ', '}']) := by
    decide +kernel
  have hbreak : IsBreak [' ', '}'] := isBreak_cons (by decide)
  have hfresh : "hidden" ∉ ([] : List String) := List.not_mem_nil
  have hwritten := hbuilt.written_literal_forwarded_iff htype hproperty henum hliteral hword hpath
    hcolon hpasses hgap hlast hbreak hbrace hlevel hfresh
  have hevent : Reader.wordEvent (some "hidden") "yes" = .truth (some "hidden") true := rfl
  have hbehind : (Reader.run schema.codeNames ⟨opened, .member⟩
      cursor₅.lexeme.2.lexeme.2.lexeme.2).events = [.close] := by
    decide +kernel
  have hfront : (Checker.start schema).verdicts
      (([Event.named "view" "v"] ++ Event.comments [" c"]).map .event) =
        [.forward (.event (.named "view" "v")), .forward (.event (.comment " c"))] := by
    decide +kernel
  have hadmits : "yes" = "yes" ∨ "yes" = "no" → EnumType.IsOfTruth ⟨.ofList ["no", "yes"]⟩ :=
    fun _ => (EnumType.isBoolean_iff _).mp (by decide +kernel)
  obtain ⟨_, verdict, next, hverdicts, hforwarded, _⟩ := hwritten
  rw [hbehind, hfront, hforwarded.mpr hadmits, hevent] at hverdicts
  exact ⟨hbuilt, hword, next, hverdicts⟩

/-- A truth value that is a literal beside others is reported, though the enum has it. -/
theorem Schema.written_literal_reported :
    let answer : EnumType := ⟨.ofList ["maybe", "no", "yes"]⟩
    let view : ObjectType := ⟨.ofList [("hidden", .enum "answer")]⟩
    let schema : Schema :=
      ⟨"s", .ofList [("answer", answer)], .ofList [("view", view)], .ofList ["view"]⟩
    let source := "view: v \x7b hidden: yes \x7d"
    schema.IsBuilt ∧ schema.objects.get? "view" = some view ∧
      view.property? "hidden" = some (.enum "answer") ∧ schema.enums.get? "answer" = some answer ∧
      answer.contains "yes" = true ∧ isWord "yes".toList = true ∧
      schema.validate source.toList = .ok [.invalidEnumValue "view" "hidden" "answer" "yes"] := by
  intro answer view schema source
  have hbuilt : schema.IsBuilt := by
    refine ⟨"s", [.enum "answer" ["yes", "no", "maybe"],
      .rootWith "view" [⟨"hidden", .enum "answer"⟩]], ?_⟩
    decide +kernel
  exact ⟨hbuilt, by decide +kernel, by decide +kernel, by decide +kernel, by decide +kernel,
    by decide, by decide +kernel⟩

end Lookml
