import Lookml.Node.Tree
import Lookml.Project.Tree
import Lookml.Proofs.Project.Assembled
import Lookml.Proofs.Project.Bundled
import Lookml.Proofs.Schema.Guaranteed
import Lookml.Proofs.Tree.Suited

/-!
The parts of a project as they are made and as a tree tells them. In a tree that suits the
schema, the fields that a part is assembled from are the properties of its object, each
read by its name; so what is made of the nodes of a document is the project that the
document tells.
-/

namespace Lookml.Project

/-! What the name of a property tells of its type. -/

/-- The properties that may stand more than once, with an instance name each. -/
def isRepeated (name : String) : Bool :=
  ["explore", "join", "dimension", "dimension_group", "measure"].contains name

def isTruth (name : String) : Bool :=
  ["hidden", "primary_key"].contains name

/-- The object type of the objects under a property. -/
def innerType : String → String
  | "always_filter" => "filters"
  | "dimension_group" => "dimension"
  | name => name

/-- A type that the schema gives to a property of this name, in whatever object type. -/
structure IsTypeOf (name : String) (property : PropertyType) : Prop where
  named : property.isNamed = isRepeated name
  truth : isTruth name = true → property = .enum "boolean"
  inner : ∀ typeName, property.objectType? = some typeName → innerType name = typeName

theorem isTypeOf_property? {typeName name : String} {type : ObjectType} {property : PropertyType}
    (htype : schema.objects.get? typeName = some type)
    (hproperty : type.property? name = some property) : IsTypeOf name property := by
  have hall : ∀ entry ∈ schema.properties, entry.2.2.isNamed = isRepeated entry.2.1 ∧
      (isTruth entry.2.1 = true → entry.2.2 = .enum "boolean") ∧
      entry.2.2.objectType?.all (innerType entry.2.1 = ·) = true := by
    decide +kernel
  obtain ⟨hnamed, htruth, hinner⟩ := hall (typeName, name, property) <|
    Schema.mem_properties_iff.mpr
      ⟨type, Table.mem_of_get? htype, Table.mem_of_get? hproperty⟩
  refine ⟨hnamed, htruth, fun inner hfound => ?_⟩
  simpa [hfound] using hinner

/-- What a value is to the part around it: itself, or the part that it describes. -/
def fieldOf (typeName : String) : Value → PartField
  | .object members => .node (.ofMembers typeName "" members)
  | .named instanceName members => .node (.ofMembers typeName instanceName members)
  | value => .value value

def fieldsOf (members : Members) : List (String × PartField) :=
  members.toList.map fun member => (member.1, fieldOf (innerType member.1) member.2)

section Values
variable (typeName : String) (value : Value)

theorem text?_fieldOf : (fieldOf typeName value).text? = value.text? := by
  cases value <;> rfl

theorem number?_fieldOf : (fieldOf typeName value).number? = value.number? := by
  cases value <;> rfl

theorem pairs_fieldOf : (fieldOf typeName value).pairs =
    ((value.elements?.map Elements.toList).getD []).filterMap Value.pair? := by
  cases value <;> rfl

theorem filtersOf_fieldOf :
    filtersOf (fieldOf "filters" value) = value.members?.map (·.pairs "filters") := by
  cases value <;> rfl

theorem tableOf_fieldOf : tableOf (fieldOf "derived_table" value) =
    value.members?.map fun members => some (DerivedTable.ofMembers members) := by
  cases value <;> rfl

end Values

theorem texts_fieldOf (typeName : String) {value : Value} {property : PropertyType}
    (h : value.Suits schema property) : (fieldOf typeName value).texts =
      ((value.elements?.map Elements.toList).getD []).filterMap Value.text? := by
  cases h with
  | @list listed elements helements =>
      change elements.toList.filterMap _ = elements.toList.filterMap _
      generalize elements.toList = elements at helements
      induction elements with
      | nil => rfl
      | cons first rest ih =>
          obtain ⟨hfirst, hrest⟩ := List.forall_mem_cons.mp helements
          -- Code would be a text as well, but it is no element of a list.
          cases listed <;> cases first <;>
            first | exact hfirst.elim | simp [List.filterMap_cons, Value.text?, ih hrest]
  | _ => rfl

/-- The values of the enum of truth values are `yes` and `no`; no other word for a truth
value is one of them. -/
theorem truth?_fieldOf (typeName : String) {value : Value}
    (h : value.Suits schema (.enum "boolean")) :
    (fieldOf typeName value).truth? = value.boolean? := by
  cases h with
  | truth value => rfl
  | @literal _ text enumType henum htext =>
      have hdeclared : schema.enums.get? "boolean" = some ⟨.ofList ["yes", "no"]⟩ := by
        simp [schema, Table.ofList, Table.get?_insert]
      obtain rfl := Option.some.inj (hdeclared.symm.trans henum)
      have hword : text = "yes" ∨ text = "no" := by
        simpa using Names.contains_ofList.mp htext
      rcases hword with rfl | rfl <;> rfl

section Folds
variable {β : Type} (members : Members) (name : String)

theorem foldl_replace (said? : PartField → Option β) (held : β) :
    (fieldsOf members).foldl (replace name said?) held =
      ((members.getAll name).map (fieldOf (innerType name))).foldl
        (fun held field => (said? field).getD held) held := by
  rw [fieldsOf, Members.getAll]
  induction members.toList generalizing held with
  | nil => rfl
  | cons member rest ih =>
      obtain ⟨other, value⟩ := member
      by_cases h : other = name <;> simp [replace, h, ih]

theorem foldl_collect (said : PartField → List β) (held : List β) :
    (fieldsOf members).foldl (collect name said) held =
      held ++ (members.getAll name).flatMap fun value => said (fieldOf (innerType name) value) := by
  rw [fieldsOf, Members.getAll]
  induction members.toList generalizing held with
  | nil => simp
  | cons member rest ih =>
      obtain ⟨other, value⟩ := member
      by_cases h : other = name <;> simp [collect, h, ih]

end Folds

/-- The members of an object that suits the schema. -/
def OfObject (members : Members) : Prop :=
  ∃ typeName type, schema.objects.get? typeName = some type ∧ members.Suits schema (.object type)

namespace OfObject

variable {members : Members} {name : String} (h : OfObject members)
include h

theorem exists_type {value : Value} (hvalue : value ∈ members.getAll name) :
    ∃ property, value.Suits schema property ∧ IsTypeOf name property := by
  obtain ⟨typeName, type, htype, hsuits⟩ := h
  obtain ⟨property, hproperty, hvalue⟩ := hsuits.exists_of_getAll hvalue
  exact ⟨property, hvalue, isTypeOf_property? htype hproperty⟩

theorem getAll_eq_toList (hname : isRepeated name = false) :
    members.getAll name = (members.get? name).toList := by
  obtain ⟨typeName, type, htype, hsuits⟩ := h
  exact hsuits.getAll_eq_toList fun property hproperty =>
    (isTypeOf_property? htype hproperty).named.trans hname

theorem getAll_eq_map (hname : isRepeated name = true) :
    members.getAll name = (members.instances name).map fun entry => .named entry.1 entry.2 := by
  obtain ⟨typeName, type, htype, hsuits⟩ := h
  exact hsuits.getAll_eq_map fun property hproperty =>
    (isTypeOf_property? htype hproperty).named.trans hname

/-- What the one value of a property says is held in the end, where the property is not
repeated. -/
theorem replaced_eq {β : Type} (hname : isRepeated name = false) (said? : PartField → Option β)
    (held : β) :
    (fieldsOf members).foldl (replace name said?) held =
      ((members.get? name).bind fun value => said? (fieldOf (innerType name) value)).getD held := by
  rw [foldl_replace, h.getAll_eq_toList hname]
  cases members.get? name <;> rfl

/-! The fields of one name. -/

theorem text_eq (name : String) (hname : isRepeated name = false) :
    (fieldsOf members).foldl (replace name textOf) none = members.text? name := by
  rw [h.replaced_eq hname, Members.text?]
  cases members.get? name <;> simp [textOf, text?_fieldOf]

theorem number_eq (name : String) (hname : isRepeated name = false) :
    (fieldsOf members).foldl (replace name numberOf) none = members.number? name := by
  rw [h.replaced_eq hname, Members.number?]
  cases members.get? name <;> simp [numberOf, number?_fieldOf]

theorem truth_eq (name : String) (hname : isRepeated name = false) (htruth : isTruth name = true) :
    (fieldsOf members).foldl (replace name truthOf) false = members.truth name := by
  rw [h.replaced_eq hname, Members.truth]
  cases hvalue : members.get? name with
  | none => rfl
  | some value =>
      obtain ⟨property, hsuits, htype⟩ := h.exists_type (List.mem_of_head? hvalue)
      obtain rfl := htype.truth htruth
      simp [truthOf, truth?_fieldOf _ hsuits]

theorem texts_eq (name : String) (hname : isRepeated name = false) :
    (fieldsOf members).foldl (replace name textsOf) [] = members.texts name := by
  rw [h.replaced_eq hname, Members.texts, Members.elementsOf]
  cases hvalue : members.get? name with
  | none => rfl
  | some value =>
      obtain ⟨property, hsuits, _⟩ := h.exists_type (List.mem_of_head? hvalue)
      simp [textsOf, texts_fieldOf _ hsuits]

theorem pairs_eq (name : String) (hname : isRepeated name = false) :
    (fieldsOf members).foldl (replace name pairsOf) [] = members.pairs name := by
  rw [h.replaced_eq hname, Members.pairs, Members.elementsOf]
  cases members.get? name <;> simp [pairsOf, pairs_fieldOf]

theorem allPairs_eq (name : String) (hname : isRepeated name = false) :
    (fieldsOf members).foldl (collect name Field.pairs) [] = members.pairs name := by
  rw [foldl_collect, h.getAll_eq_toList hname, Members.pairs, Members.elementsOf]
  cases members.get? name <;> simp [pairs_fieldOf]

/-- A part inside, where its property is not repeated. -/
theorem inside_eq {β : Type} (name : String) (hname : isRepeated name = false)
    {said? : PartField → Option β} {make : Members → β} (held : β)
    (hsaid : ∀ value, said? (fieldOf (innerType name) value) = value.members?.map make) :
    (fieldsOf members).foldl (replace name said?) held =
      ((members.inner? name).map make).getD held := by
  rw [h.replaced_eq hname, Members.inner?]
  cases members.get? name <;> simp [hsaid]

/-- The parts inside, where their property is repeated. -/
theorem insides_eq {β : Type} (name : String) (hname : isRepeated name = true)
    {said : PartField → List β} {make : String → Members → β}
    (hsaid : ∀ instanceName inner,
      said (fieldOf (innerType name) (.named instanceName inner)) = [make instanceName inner]) :
    (fieldsOf members).foldl (collect name said) [] =
      (members.instances name).map fun (instanceName, inner) => make instanceName inner := by
  rw [foldl_collect, h.getAll_eq_map hname]
  induction members.instances name with
  | nil => rfl
  | cons entry rest ih => simp_all

/-! The parts. -/

theorem model_eq (name : String) :
    (fieldsOf members).foldl (fun model field => model.set field.1 field.2) { name } =
      Model.ofMembers name members := by
  rw [Model.foldl_set, Model.ofMembers, h.text_eq "label" rfl, h.text_eq "connection" rfl,
    h.texts_eq "include" rfl, h.insides_eq "explore" rfl fun _ _ => rfl]

theorem explore_eq (name : String) :
    (fieldsOf members).foldl (fun explore field => explore.set field.1 field.2) { name } =
      Explore.ofMembers name members := by
  rw [Explore.foldl_set, Explore.ofMembers, h.text_eq "label" rfl, h.text_eq "description" rfl,
    h.text_eq "view_name" rfl, h.text_eq "from" rfl, h.truth_eq "hidden" rfl rfl,
    h.texts_eq "fields" rfl, h.text_eq "sql_always_where" rfl,
    h.inside_eq "always_filter" rfl [] filtersOf_fieldOf,
    h.insides_eq "join" rfl fun _ _ => rfl]

theorem join_eq (name : String) :
    (fieldsOf members).foldl (fun join field => join.set field.1 field.2) { name } =
      Join.ofMembers name members := by
  rw [Join.foldl_set, Join.ofMembers, h.text_eq "type" rfl, h.text_eq "relationship" rfl,
    h.text_eq "from" rfl, h.text_eq "view_label" rfl, h.text_eq "sql_on" rfl,
    h.texts_eq "fields" rfl]

theorem filters_eq :
    (fieldsOf members).foldl (fun pairs field => addFilters pairs field.1 field.2) [] =
      members.pairs "filters" :=
  (foldl_addFilters _ []).trans (h.allPairs_eq "filters" rfl)

theorem view_eq (name : String) :
    (fieldsOf members).foldl (fun view field => view.set field.1 field.2) { name } =
      View.ofMembers name members := by
  rw [View.foldl_set, View.ofMembers, h.text_eq "label" rfl, h.text_eq "sql_table_name" rfl,
    h.texts_eq "extends" rfl, h.texts_eq "drill_fields" rfl,
    h.inside_eq "derived_table" rfl none tableOf_fieldOf,
    h.insides_eq "dimension" rfl fun _ _ => rfl, h.insides_eq "dimension_group" rfl fun _ _ => rfl,
    h.insides_eq "measure" rfl fun _ _ => rfl]
  cases members.inner? "derived_table" <;> rfl

theorem derivedTable_eq :
    (fieldsOf members).foldl (fun table field => table.set field.1 field.2) {} =
      DerivedTable.ofMembers members := by
  rw [DerivedTable.foldl_set, DerivedTable.ofMembers, h.text_eq "sql" rfl,
    h.text_eq "persist_for" rfl, h.texts_eq "indexes" rfl]

theorem dimension_eq (name : String) :
    (fieldsOf members).foldl (fun dimension field => dimension.set field.1 field.2) { name } =
      Dimension.ofMembers name members := by
  rw [Dimension.foldl_set, Dimension.ofMembers, h.text_eq "type" rfl, h.text_eq "label" rfl,
    h.text_eq "description" rfl, h.text_eq "sql" rfl, h.text_eq "html" rfl,
    h.truth_eq "primary_key" rfl rfl, h.truth_eq "hidden" rfl rfl,
    h.text_eq "value_format_name" rfl, h.texts_eq "timeframes" rfl, h.texts_eq "tags" rfl]

theorem measure_eq (name : String) :
    (fieldsOf members).foldl (fun measure field => measure.set field.1 field.2) { name } =
      Measure.ofMembers name members := by
  rw [Measure.foldl_set, Measure.ofMembers, h.text_eq "type" rfl, h.text_eq "label" rfl,
    h.text_eq "description" rfl, h.text_eq "sql" rfl, h.text_eq "html" rfl,
    h.truth_eq "hidden" rfl rfl, h.text_eq "value_format_name" rfl, h.number_eq "precision" rfl,
    h.texts_eq "drill_fields" rfl, h.pairs_eq "filters" rfl]

end OfObject

/-- For each object type of the schema there is a factory, and what it makes of the
properties of an object is the part that the object describes. -/
theorem exists_factory {typeName : String} {type : ObjectType}
    (htype : schema.objects.get? typeName = some type) :
    ∃ factory, registry.known? schema typeName = some (type, factory) ∧
      ∀ (instanceName : Option String) (members : Members), members.Suits schema (.object type) →
        factory instanceName (fieldsOf members) =
          .ofMembers typeName (instanceName.getD "") members := by
  have hmem : typeName ∈ ["model", "explore", "join", "filters", "view", "derived_table",
      "dimension", "measure"] := by
    have hentry := Table.mem_ofList (Table.mem_of_get? htype)
    simp only [List.mem_cons, Prod.mk.injEq] at hentry ⊢
    grind
  have hknown {factory : Factory Part}
      (hfactory : registry.factories.get? typeName = some factory) :
      registry.known? schema typeName = some (type, factory) := by
    simp [Registry.known?, htype, hfactory]
  have hobject {members : Members} (hmembers : members.Suits schema (.object type)) :
      OfObject members :=
    ⟨typeName, type, htype, hmembers⟩
  simp only [List.mem_cons, List.not_mem_nil, or_false] at hmem
  rcases hmem with rfl | rfl | rfl | rfl | rfl | rfl | rfl | rfl
  · refine ⟨assemble (fun name => { name }) Model.set .model, hknown ?_, fun _ _ hmembers =>
      congrArg Part.model ((hobject hmembers).model_eq _)⟩
    simp [registry, Registry.register, Table.get?_insert]
  · refine ⟨assemble (fun name => { name }) Explore.set .explore, hknown ?_, fun _ _ hmembers =>
      congrArg Part.explore ((hobject hmembers).explore_eq _)⟩
    simp [registry, Registry.register, Table.get?_insert]
  · refine ⟨assemble (fun name => { name }) Join.set .join, hknown ?_, fun _ _ hmembers =>
      congrArg Part.join ((hobject hmembers).join_eq _)⟩
    simp [registry, Registry.register, Table.get?_insert]
  · refine ⟨assemble (fun _ => []) addFilters .filters, hknown ?_, fun _ _ hmembers =>
      congrArg Part.filters (hobject hmembers).filters_eq⟩
    simp [registry, Registry.register, Table.get?_insert]
  · refine ⟨assemble (fun name => { name }) View.set .view, hknown ?_, fun _ _ hmembers =>
      congrArg Part.view ((hobject hmembers).view_eq _)⟩
    simp [registry, Registry.register, Table.get?_insert]
  · refine ⟨assemble (fun _ => {}) DerivedTable.set .derivedTable, hknown ?_, fun _ _ hmembers =>
      congrArg Part.derivedTable (hobject hmembers).derivedTable_eq⟩
    simp [registry, Registry.register, Table.get?_insert]
  · refine ⟨assemble (fun name => { name }) Dimension.set .dimension, hknown ?_, fun _ _ hmembers =>
      congrArg Part.dimension ((hobject hmembers).dimension_eq _)⟩
    simp [registry, Registry.register, Table.get?_insert]
  · refine ⟨assemble (fun name => { name }) Measure.set .measure, hknown ?_, fun _ _ hmembers =>
      congrArg Part.measure ((hobject hmembers).measure_eq _)⟩
    simp [registry, Registry.register, Table.get?_insert]

theorem exists_factoryOf {name typeName innerName : String} {type inner : ObjectType}
    {property : PropertyType} (htype : schema.objects.get? typeName = some type)
    (hproperty : type.property? name = some property)
    (hinner : property.objectType? = some innerName)
    (hdeclared : schema.objects.get? innerName = some inner) :
    ∃ factory, registry.knownOf? schema type name = some (inner, factory) ∧
      ∀ (instanceName : Option String) (members : Members), members.Suits schema (.object inner) →
        factory instanceName (fieldsOf members) =
          .ofMembers (innerType name) (instanceName.getD "") members := by
  obtain ⟨factory, hknown, hmade⟩ := exists_factory hdeclared
  rw [(isTypeOf_property? htype hproperty).inner innerName hinner]
  exact ⟨factory, by simp [Registry.knownOf?, hproperty, hinner, hknown], hmade⟩

mutual
theorem field?_eq {typeName name : String} {type : ObjectType} {property : PropertyType}
    (htype : schema.objects.get? typeName = some type)
    (hproperty : type.property? name = some property) {value : Value}
    (hvalue : value.Suits schema property) :
    value.field? schema registry type name = some (fieldOf (innerType name) value) := by
  cases hvalue with
  | @object innerName inner members hdeclared hmembers =>
      obtain ⟨factory, hknown, hmade⟩ := exists_factoryOf htype hproperty rfl hdeclared
      simp [Value.field?, hknown, fields?_eq hdeclared hmembers,
        hmade none members hmembers, fieldOf]
  | @named innerName instanceName inner members hdeclared hmembers =>
      obtain ⟨factory, hknown, hmade⟩ := exists_factoryOf htype hproperty rfl hdeclared
      simp [Value.field?, hknown, fields?_eq hdeclared hmembers,
        hmade (some instanceName) members hmembers, fieldOf]
  | _ => rfl

theorem fields?_eq {typeName : String} {type : ObjectType} {members : Members}
    (htype : schema.objects.get? typeName = some type)
    (hmembers : members.Suits schema (.object type)) :
    members.fields? schema registry type = some (fieldsOf members) := by
  cases hmembers with
  | ending comments => rfl
  | member hproperty hvalue _ hrest =>
      simp [Members.fields?, field?_eq htype hproperty hvalue, fields?_eq htype hrest, fieldsOf]
end

/-- The parts that the named objects at the top of a document describe. -/
def partsOf (document : Document) : List (String × Part) :=
  document.toList.filterMap fun item =>
    match item.2 with
    | .named instanceName members => some (item.1, .ofMembers item.1 instanceName members)
    | _ => none

theorem nodes?_eq {document : Document} (h : Members.Suits schema .document document) :
    Members.nodes? schema registry document = some (partsOf document) := by
  induction document using Members.toList.induct with
  | case1 comments => rfl
  | case2 comments name value rest ih =>
      cases h with
      | @member _ _ _ property _ _ hproperty hvalue _ hrest =>
          obtain ⟨hroot, rfl⟩ : schema.roots.contains name = true ∧ .named name = property := by
            simpa [Ground.property?] using hproperty
          cases hvalue with
          | @named _ instanceName type members hdeclared hmembers =>
              obtain ⟨factory, hknown, hmade⟩ := exists_factory hdeclared
              simp [Members.nodes?, Members.rootNode?, hroot, hknown, fields?_eq hdeclared hmembers,
                hmade (some instanceName) members hmembers, ih hrest, partsOf]

/-- The parts of one kind are those of one property, where no other property has parts of
that kind. -/
theorem filterMap_partsOf {β : Type} (document : Document) (property : String)
    (said? : Part → Option β) {make : String → Members → β}
    (hsaid : ∀ name instanceName members, said? (.ofMembers name instanceName members) =
      if name = property then some (make instanceName members) else none) :
    (partsOf document).filterMap (fun part => said? part.2) =
      (Members.instances document property).map fun (name, members) => make name members := by
  rw [partsOf, Members.instances, Members.getAll]
  induction document.toList with
  | nil => rfl
  | cons item items ih =>
      obtain ⟨name, value⟩ := item
      by_cases h : name = property <;> cases value <;> simp_all

def Part.model? : Part → Option Model
  | .model told => some told
  | _ => none

def Part.view? : Part → Option View
  | .view told => some told
  | _ => none

theorem ofParts_partsOf (document : Document) :
    ofParts (partsOf document) = ofDocument document := by
  rw [ofParts, ofDocument, Project.mk.injEq]
  constructor
  · refine filterMap_partsOf document "model" Part.model? fun name instanceName members => ?_
    unfold Part.ofMembers
    split <;> simp_all [Part.model?]
  · refine filterMap_partsOf document "view" Part.view? fun name instanceName members => ?_
    unfold Part.ofMembers
    split <;> simp_all [Part.view?]

end Lookml.Project
