import Lookml.Proofs.Conformance.Conforming
import Lookml.Proofs.Schema.Redeclared
import Lookml.Proofs.Schema.Written

/-!
Schemas that are written as documents and loaded again.
-/

namespace Lookml.Schema

variable {schema : Schema} {layout : Layout}

/-- What is read of a document that conforms is the document, and nothing is reported of
it. -/
theorem readValid_format {checked : Schema} (hclosed : checked.IsClosed)
    (hcolons : checked.IsColonFree) (hplain : layout.IsPlain) {document : Document}
    (hdocument : Members.IsWritable checked.codeNames document)
    (hconforms : checked.Conforms (Members.events (document.map onOneLine Number.readBack))) :
    checked.readValid (Members.format layout document).toList =
      .ok (document.map onOneLine Number.readBack, []) := by
  have hread : checked.read (Members.format layout document).toList =
      ⟨Members.events (document.map onOneLine Number.readBack), none⟩ :=
    Reading.ofText_format hplain hdocument
  rw [readValid, check]
  simp only [hread, Except.map, hconforms.violations_eq_nil hclosed hcolons,
    hconforms.forwarded_eq hclosed hcolons, Document.ofStream?_events (hdocument.placed _ _),
    Option.getD_some]

theorem metaSchema_isBuilt : metaSchema.IsBuilt := by
  refine ⟨"schema", [
    .objectType "property" [⟨"type", .ref⟩, ⟨"type_name", .ref⟩],
    .objectType "object_type" [⟨"property", .named "property"⟩],
    .objectType "enum_type" [⟨"values", .list .strings⟩],
    .rootWith "schema" [⟨"enum_type", .named "enum_type"⟩, ⟨"object_type", .named "object_type"⟩,
      ⟨"root_properties", .list .refs⟩]], ?_⟩
  decide +kernel

theorem metaSchema_isColonFree : metaSchema.IsColonFree := by decide +kernel

section Written
variable (hbuilt : schema.IsBuilt) (hworded : schema.IsWorded) (hplain : layout.IsPlain)
include hbuilt hworded hplain

/-- A schema with words for its names is loaded from its document, where no type that is
written tells a truth value. -/
theorem load_format (henums : ∀ {owner name typeName},
      (owner, name, .enum typeName) ∈ schema.properties → isBareWord typeName.toList = true) :
    load (Members.format layout schema.toDocument).toList = .ok schema := by
  have hread : metaSchema.readValid (Members.format layout schema.toDocument).toList =
      .ok (schema.toDocument.map onOneLine Number.readBack, []) :=
    readValid_format metaSchema_isBuilt.isClosed metaSchema_isColonFree hplain
      (hworded.toDocument_writable henums) (by
        rw [toDocument_map]
        exact schema.toDocument_conforms)
  rw [toDocument_map] at hread
  rw [load, hread]
  simp only [instances_toDocument]
  exact hbuilt.ofBody_body

end Written

/-! A type that tells a truth value is read as one, which no schema document may hold. -/

/-- Truth values stand in no document that conforms to a schema without properties of enum
types. -/
theorem truth_not_mem_of_conforms {checked : Schema}
    (hnone : ∀ owner name typeName, (owner, name, .enum typeName) ∉ checked.properties)
    {forest : Forest} {ground : Ground} (h : forest.Conforms checked ground)
    (hground : ground.Declared checked) (name : Option String) (value : Bool) :
    .truth name value ∉ forest.events := by
  induction forest generalizing ground with
  | nil => exact List.not_mem_nil
  | leaf event rest ih =>
      rw [Forest.events_leaf, List.mem_cons, not_or]
      refine ⟨?_, ih h.2 hground⟩
      rintro rfl
      cases ground with
      | document => exact h.1
      | list elements => cases elements <;> exact h.1
      | object type =>
          obtain ⟨typeName, htype⟩ := hground
          obtain ⟨_, _, _, hproperty, enumName, _, rfl, _⟩ := h.1
          exact hnone _ _ _ (mem_properties htype hproperty)
  | nest opening inner rest ihinner ihrest =>
      obtain ⟨⟨inside, hopens, _, hinner⟩, hrest⟩ := h
      rw [Forest.events_nest, List.mem_cons, List.mem_append, List.mem_cons, not_or, not_or, not_or]
      refine ⟨?_, ihinner hinner hopens.declared, by rintro ⟨⟩, ihrest hrest hground⟩
      rintro rfl
      exact absurd hopens.fits.2 (by rintro ⟨⟩)

theorem mem_events_of_mem_toList {members : Members} {name : String} {value : Value} {event : Event}
    (hmem : (name, value) ∈ members.toList) (hevent : event ∈ value.asProperty name) :
    event ∈ members.events := by
  induction members using Members.toList.induct with
  | case1 comments => cases hmem
  | case2 comments first found rest ih =>
      rw [Members.events, List.mem_append, List.mem_append]
      rcases List.mem_cons.mp hmem with heq | hmem
      · obtain ⟨rfl, rfl⟩ := Prod.mk.inj heq
        exact .inr (.inl hevent)
      · exact .inr (.inr (ih hmem))

theorem mem_events_of_mem_instances {members inner : Members} {name instanceName : String}
    {event : Event} (hmem : (instanceName, inner) ∈ members.instances name)
    (hevent : event ∈ inner.events) : event ∈ members.events := by
  refine mem_events_of_mem_toList (Members.mem_instances.mp hmem) ?_
  exact List.mem_cons_of_mem _ (List.mem_append_left _ hevent)

theorem identifier_mem_toDocument {owner name typeName : String}
    (h : (owner, name, .enum typeName) ∈ schema.properties) :
    .identifier (some "type_name") typeName ∈ Members.events schema.toDocument := by
  obtain ⟨owned, howned, hentries⟩ := List.mem_flatMap.mp h
  obtain ⟨⟨found, property⟩, hentry, heq⟩ := List.mem_map.mp hentries
  obtain ⟨rfl, rfl, rfl⟩ : owned.1 = owner ∧ found = name ∧ property = .enum typeName := by
    simpa using heq
  have hproperty : .identifier (some "type_name") typeName ∈
      (propertyBody found (.enum typeName)).events := by
    simp [propertyBody, membersOf, Members.events, Value.asProperty, Event.comments]
  have hobject : (found, propertyBody found (.enum typeName)) ∈
      (objectBody owned.2).instances "property" := by
    rw [instances_properties]
    exact List.mem_map.mpr ⟨_, hentry, rfl⟩
  have hbody : (owned.1, objectBody owned.2) ∈ schema.body.instances "object_type" := by
    rw [instances_objects]
    exact List.mem_map.mpr ⟨owned, howned, rfl⟩
  have hdocument : (schema.name, schema.body) ∈ schema.toDocument.instances "schema" := by
    rw [instances_toDocument]
    exact List.mem_singleton.mpr rfl
  exact mem_events_of_mem_instances hdocument
    (mem_events_of_mem_instances hbody (mem_events_of_mem_instances hobject hproperty))

/-- What is read with a truth value in it is not loaded. -/
theorem load_ne_ok_of_truth {source : List Char} {events : List Event}
    (hread : metaSchema.read source = ⟨events, none⟩) {name : Option String} {value : Bool}
    (htruth : .truth name value ∈ events) : load source ≠ .ok schema := by
  have hbalanced : Balanced (metaSchema.read source).events := Reading.balanced _ _
  rw [hread] at hbalanced
  have hnone : ∀ owner name typeName, (owner, name, .enum typeName) ∉ metaSchema.properties := by
    have hkeywords : ∀ entry ∈ metaSchema.properties, entry.2.2.keyword ≠ .enum := by decide
    exact fun owner name typeName hmem => hkeywords _ hmem rfl
  -- Without a violation what was read would conform, and so would hold no truth value.
  have hviolations : Verdict.violations (metaSchema.verdicts (wholeDocument events)) ≠ [] := by
    intro hsilent
    obtain ⟨forest, rfl, _, hconforms⟩ :=
      Conforms.of_violations_eq_nil metaSchema_isBuilt.isClosed hbalanced hsilent
    exact truth_not_mem_of_conforms hnone hconforms trivial name value htruth
  rw [load, readValid, check]
  simp only [hread, Except.map]
  rintro ⟨⟩

theorem IsWorded.isWord_enum (hworded : schema.IsWorded) (hbuilt : schema.IsBuilt)
    {owner name typeName : String} (hmem : (owner, name, .enum typeName) ∈ schema.properties) :
    isWord typeName.toList = true := by
  have hcontains := hbuilt.contains_enum (List.mem_append_right _ hmem)
  obtain ⟨entry, hentry, rfl⟩ := List.mem_map.mp (Table.contains_iff_mem_keys.mp hcontains)
  exact hworded.enums entry hentry

theorem load_format_ne_ok (hbuilt : schema.IsBuilt) (hworded : schema.IsWorded)
    (hplain : layout.IsPlain) {owner name typeName : String} {value : Bool}
    (hmem : (owner, name, .enum typeName) ∈ schema.properties)
    (htruth : truthOfWord? typeName.toList = some value) :
    load (Members.format layout schema.toDocument).toList ≠ .ok schema := by
  -- The text is that of the reworded document, too, and it is the reworded document that
  -- is read back.
  have hread := Reading.ofText_format hplain
    (hworded.reworded_writable fun hmem => hworded.isWord_enum hbuilt hmem)
  rw [Members.format_reworded, ← Members.events_readBack, Members.events_reworded] at hread
  have hreworded : (Event.identifier (some "type_name") typeName).reworded =
      .truth (some "type_name") value := by
    rw [Event.reworded, Reader.wordEvent, htruth]
  have hreadBack : .truth (some "type_name") value ∈
      ((Members.events schema.toDocument).map Event.reworded).map Event.readBack :=
    List.mem_map.mpr ⟨.truth (some "type_name") value,
      List.mem_map.mpr ⟨_, identifier_mem_toDocument hmem, hreworded⟩, rfl⟩
  exact load_ne_ok_of_truth hread hreadBack

/-- The names of a schema are words that tell no truth value. -/
structure HasBareNames (schema : Schema) : Prop where
  name : isBareWord schema.name.toList = true
  enums : ∀ name ∈ schema.enums.keys, isBareWord name.toList = true
  objects : ∀ name ∈ schema.objects.keys, isBareWord name.toList = true
  properties : ∀ entry ∈ schema.properties, isBareWord entry.2.1.toList = true
  roots : ∀ name ∈ schema.roots.keys, isBareWord name.toList = true

theorem HasBareNames.isWorded (h : schema.HasBareNames) (hbuilt : schema.IsBuilt) :
    schema.IsWorded where
  name := isWord_of_isBareWord h.name
  enums entry hentry := isWord_of_isBareWord (h.enums _ (List.mem_map.mpr ⟨entry, hentry, rfl⟩))
  objects entry hentry :=
    isWord_of_isBareWord (h.objects _ (List.mem_map.mpr ⟨entry, hentry, rfl⟩))
  properties owned howned entry hentry := by
    have hmem := mem_properties_of_mem howned hentry
    refine ⟨isWord_of_isBareWord (h.properties _ hmem), ?_⟩
    obtain ⟨name, property⟩ := entry
    have hdeclared {typeName : String} (htype : property.objectType? = some typeName) :
        isBareWord typeName.toList = true := by
      have hcontains := hbuilt.contains_object (List.mem_append_right _ hmem) htype
      exact h.objects typeName (Table.contains_iff_mem_keys.mp hcontains)
    cases property with
    | object typeName | named typeName => exact .inr (hdeclared rfl)
    | _ => trivial
  roots entry hentry := h.roots _ (List.mem_map.mpr ⟨entry, hentry, rfl⟩)

/-- A schema whose names are words other than the truth values is written, in any layout
with quoted strings and an indent of blanks, as a text that it is loaded from again. -/
theorem load_format_of_bareNames (hbuilt : schema.IsBuilt) (hnames : schema.HasBareNames)
    (hbare : layout.bareStrings = false)
    (hindent : ∀ c ∈ layout.indent.toList, c = ' ' ∨ c = '\t') :
    load (Members.format layout schema.toDocument).toList = .ok schema := by
  refine load_format hbuilt (hnames.isWorded hbuilt) (.of_blanks hbare hindent) fun hmem => ?_
  have hcontains := hbuilt.contains_enum (List.mem_append_right _ hmem)
  exact hnames.enums _ (Table.contains_iff_mem_keys.mp hcontains)

theorem load_format_of_bareNames_graph :
    let schema : Schema := ⟨"graph",
      .ofList [("none", ⟨.ofList []⟩), ("string", ⟨.ofList ["a \"b\"\nc", "yes"]⟩)],
      .ofList [("leaf", ⟨.ofList []⟩), ("node", ⟨.ofList [("kind", .enum "string"),
        ("label", .string), ("next", .named "node"), ("node", .object "node"), ("sql", .code)]⟩)],
      .ofList ["leaf", "node"]⟩
    let compact : Layout := ⟨false, "  ", false⟩
    (schema.IsBuilt ∧ schema.HasBareNames) ∧
      load (Members.format Layout.standard schema.toDocument).toList = .ok schema ∧
      load (Members.format compact schema.toDocument).toList = .ok schema := by
  intro schema compact
  have hbuilt : schema.IsBuilt := by
    refine ⟨"graph", [.enum "none" [], .enum "string" ["a \"b\"\nc", "yes"], .rootWith "leaf" [],
      .rootWith "node" [⟨"sql", .code⟩, ⟨"next", .named "node"⟩, ⟨"node", .object "node"⟩,
        ⟨"kind", .enum "string"⟩, ⟨"label", .string⟩]], ?_⟩
    decide +kernel
  have hnames : schema.HasBareNames :=
    ⟨by decide, by decide +kernel, by decide +kernel, by decide +kernel, by decide +kernel⟩
  have hblanks : ∀ c ∈ "  ".toList, c = ' ' ∨ c = '\t' := by simp
  exact ⟨⟨hbuilt, hnames⟩, load_format_of_bareNames hbuilt hnames rfl hblanks,
    load_format_of_bareNames hbuilt hnames rfl hblanks⟩

/-- A schema that was loaded is written as a text that it is loaded from again exactly if
no property has an enum type that is named like a truth value. -/
theorem load_format_iff_of_load {source : List Char} (hload : load source = .ok schema)
    (hbare : layout.bareStrings = false)
    (hindent : ∀ c ∈ layout.indent.toList, c = ' ' ∨ c = '\t') :
    load (Members.format layout schema.toDocument).toList = .ok schema ↔
      ∀ owner name typeName, (owner, name, .enum typeName) ∈ schema.properties →
        typeName ≠ "yes" ∧ typeName ≠ "no" := by
  obtain ⟨hbuilt, hworded⟩ := isWorded_of_load hload
  have hplain : layout.IsPlain := .of_blanks hbare hindent
  constructor
  · intro hreload owner name typeName hmem
    constructor
    · rintro rfl
      exact load_format_ne_ok hbuilt hworded hplain hmem rfl hreload
    · rintro rfl
      exact load_format_ne_ok hbuilt hworded hplain hmem rfl hreload
  · intro hnames
    refine load_format hbuilt hworded hplain fun {owner name typeName} hmem => ?_
    obtain ⟨hyes, hno⟩ := hnames owner name typeName hmem
    rw [isBareWord, hworded.isWord_enum hbuilt hmem, Bool.true_and, Option.isNone_iff_eq_none,
      Option.eq_none_iff_forall_ne_some]
    intro value htruth
    cases value with
    | true => exact hyes (eq_wordOfTruth htruth)
    | false => exact hno (eq_wordOfTruth htruth)

theorem load_format_iff_of_load_truths :
    let schema : Schema := ⟨"s", .ofList [("no", ⟨.ofList ["a"]⟩)],
      .ofList [("yes", ⟨.ofList [("yes", .named "yes")]⟩)], .ofList []⟩
    let source := "schema: s \x7b enum_type: no \x7b values: [\"a\"] \x7d object_type: yes \x7b " ++
      "property: yes \x7b type: named_object \x7d \x7d \x7d"
    load source.toList = .ok schema ∧
      (load (Members.format Layout.standard schema.toDocument).toList = .ok schema ↔
        ∀ owner name typeName, (owner, name, .enum typeName) ∈ schema.properties →
          typeName ≠ "yes" ∧ typeName ≠ "no") := by
  intro schema source
  have hload : load source.toList = .ok schema := by decide +kernel
  have hblanks : ∀ c ∈ Layout.standard.indent.toList, c = ' ' ∨ c = '\t' := by
    simp [Layout.standard]
  exact ⟨hload, load_format_iff_of_load hload rfl hblanks⟩

/-- A property of an enum type `yes` is loaded where its type is left to its name, and is
written as one of a type that tells a truth value. -/
theorem load_format_error_of_yes :
    let schema : Schema := ⟨"s", .ofList [("yes", ⟨.ofList ["a"]⟩)],
      .ofList [("t", ⟨.ofList [("yes", .enum "yes")]⟩)], .ofList []⟩
    let source := "schema: s \x7b enum_type: yes \x7b values: [\"a\"] \x7d " ++
      "object_type: t \x7b property: yes \x7b type: enum \x7d \x7d \x7d"
    let compact : Layout := ⟨false, "  ", false⟩
    load source.toList = .ok schema ∧
      load (Members.format Layout.standard schema.toDocument).toList =
        .error (.invalidDocument [.invalidType "type_name" .ref .boolean]) ∧
      load (Members.format compact schema.toDocument).toList =
        .error (.invalidDocument [.invalidType "type_name" .ref .boolean]) := by
  intro schema source compact
  exact ⟨by decide +kernel, by decide +kernel, by decide +kernel⟩

end Lookml.Schema
