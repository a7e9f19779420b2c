import Lookml.Proofs.Node.Made
import Lookml.Proofs.Project.Lossless

/-!
Reading a project. A text can be read or it cannot; what is read conforms to the schema of
projects or it does not; and where it does, the project is the one that its tree
describes.
-/

namespace Lookml.Project

section Cases
variable {source : List Char}

theorem read_of_failure {error : SyntaxError} (h : (schema.read source).failure = some error) :
    Document.read schema.codeNames source = .error error ∧ schema.validate source = .error error ∧
      read source = .error (.unreadable error) := by
  have hread : (Reading.ofText schema.codeNames source).failure = some error := h
  refine ⟨by simp [Document.read, hread], ?_, ?_⟩
  · simp [Schema.validate, Schema.check, h, Except.map]
  · simp [read_eq_readBy, readBy, registry_missing?, Schema.readNodes, Schema.check, h, Except.map]

variable (h : (schema.read source).failure = none)
include h

theorem read_of_violations (hviolations :
      Verdict.violations (schema.verdicts (wholeDocument (schema.read source).events)) ≠ []) :
    ∃ document violations, violations ≠ [] ∧
      Document.read schema.codeNames source = .ok document ∧
      schema.validate source = .ok violations ∧ read source = .error (.invalid violations) := by
  have hread : (Reading.ofText schema.codeNames source).failure = none := h
  refine ⟨.ofEvents (schema.read source).events, _, hviolations, ?_, ?_, ?_⟩
  · simp [Document.read, hread, Schema.read]
  · simp [Schema.validate, Schema.check, h, Except.map]
  · rw [read_eq_readBy, readBy, registry_missing?]
    simp only [Schema.readNodes, Schema.check, h, Except.map]

theorem read_of_silent
    (hsilent :
      Verdict.violations (schema.verdicts (wholeDocument (schema.read source).events)) = []) :
    ∃ document, Members.Suits schema .document document ∧ Members.Worded document ∧
      Document.read schema.codeNames source = .ok document ∧ schema.validate source = .ok [] ∧
      read source = .ok (ofDocument document) := by
  have hread : (Reading.ofText schema.codeNames source).failure = none := h
  have hbalanced := schema.balanced_read source
  obtain ⟨document, hforwarded, hstream, hplaced, hsuits⟩ :=
    Schema.exists_kept schema_isBuilt.isClosed hbalanced
  have hdocument := Schema.ofEvents_eq_of_silent hbalanced hsilent hforwarded hstream
  obtain ⟨nodes, hnodes, hmakes⟩ := Members.exists_nodes registry_missing? hsuits hplaced
  obtain rfl := Option.some.inj (hnodes.symm.trans (nodes?_eq hsuits))
  have hparts := (hmakes []).nodesOfStream_eq
  rw [List.append_nil, List.reverse_reverse] at hparts
  refine ⟨document, hsuits, ?_, ?_, ?_, ?_⟩
  · exact hdocument ▸ Document.ofEvents_worded (Reading.worded schema.codeNames source)
  · simp [Document.read, hread, ← hdocument, Schema.read]
  · simp [Schema.validate, Schema.check, h, Except.map, hsilent]
  · rw [read_eq_readBy, readBy, registry_missing?]
    simp [Schema.readNodes, Schema.check, h, Except.map, hsilent, hforwarded, hparts,
      ofParts_partsOf]

end Cases

/-- Whatever the text, it is read as a project just as its tree and its check by the
schema of projects have it: an error of reading is that of reading the tree, violations
are those of the check in their order, and there is no other error. Where it is read, its
tree suits the schema and has truth values where `yes` and `no` stand, the project is the
one that the tree describes, and parts of one property have names of their own. No part
leaves out what its object says under a property of the schema. -/
theorem read_eq_ofDocument (source : List Char) :
    Schema.load schemaText.toList = .ok schema ∧
    (∀ error, read source = .error (.unreadable error) ↔
      Document.read schema.codeNames source = .error error) ∧
    (∀ violations, read source = .error (.invalid violations) ↔
      schema.validate source = .ok violations ∧ violations ≠ []) ∧
    (∀ project, read source = .ok project ↔ schema.validate source = .ok [] ∧
      ∃ document, Document.read schema.codeNames source = .ok document ∧
        ofDocument document = project) ∧
    (∀ error, read source ≠ .error (.schema error)) ∧
    (∀ typeName, read source ≠ .error (.unregistered typeName)) ∧
    (∀ document, schema.validate source = .ok [] →
      Document.read schema.codeNames source = .ok document →
        Members.Suits schema .document document ∧ Members.Worded document ∧
          (ofDocument document).HasDistinctNames) ∧
    ∀ typeName property type, (typeName, property, type) ∈ schema.properties →
      ∀ name name' members members',
        Part.ofMembers typeName name members = Part.ofMembers typeName name' members' →
          said members property type = said members' property type := by
  refine ⟨load_schemaText, ?_⟩
  simp only [← and_assoc]
  refine ⟨?_, fun typeName property type hdeclared name name' members members' hsame =>
    said_eq hdeclared hsame⟩
  cases hfailure : (schema.read source).failure with
  | some error =>
      obtain ⟨hdocument, hvalidate, hread⟩ := read_of_failure hfailure
      simp [hdocument, hvalidate, hread]
  | none =>
      by_cases hviolations :
          Verdict.violations (schema.verdicts (wholeDocument (schema.read source).events)) = []
      · obtain ⟨document, hsuits, hworded, hdocument, hvalidate, hread⟩ :=
          read_of_silent hfailure hviolations
        simp [hdocument, hvalidate, hread, hsuits, hworded, hasDistinctNames_ofDocument]
      · obtain ⟨document, violations, hsome, hdocument, hvalidate, hread⟩ :=
          read_of_violations hfailure hviolations
        simp [hdocument, hvalidate, hread, hsome]

/-- A group of dimensions may have the name of a dimension, and what is not said has its
default. -/
example : read ("view: v \x7b dimension: a \x7b hidden: yes type: time \x7d ".toList ++
      "dimension_group: a \x7b tags: [\"b\"] \x7d derived_table: \x7b \x7d \x7d".toList) =
    .ok ⟨[], [{
      name := "v"
      derivedTable := some {}
      dimensions := [{ name := "a", kind := some "time", hidden := true }]
      dimensionGroups := [{ name := "a", tags := ["b"] }] }]⟩ := by
  rw [read_eq_readBy]
  decide +kernel

end Lookml.Project
