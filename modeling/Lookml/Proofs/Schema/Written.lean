import Lookml.Proofs.Conformance.Ground
import Lookml.Proofs.Schema.Loaded
import Lookml.Proofs.Tree.Heads
import Lookml.Proofs.Tree.Reworded
import Lookml.Proofs.Tree.RoundTrip
import Lookml.Schema.Document

/-!
The document of a schema: it can be written wherever its names are words, and it conforms
to the schema that schema documents have.
-/

namespace Lookml

section Members
variable {items : List (String × Value)} {values : List Value}

namespace Schema

theorem membersOf_cons (item : String × Value) (items : List (String × Value)) :
    membersOf (item :: items) = .member [] item.1 item.2 (membersOf items) := rfl

theorem membersOf_all {property : String → Value → Prop} {element : Value → Prop}
    (h : ∀ item ∈ items, property item.1 item.2 ∧ item.2.All property element) :
    (membersOf items).All property element := by
  induction items with
  | nil => trivial
  | cons item items ih =>
      obtain ⟨hitem, hitems⟩ := List.forall_mem_cons.mp h
      exact ⟨hitem.1, hitem.2, ih hitems⟩

theorem ofList_all {property : String → Value → Prop} {element : Value → Prop}
    (h : ∀ value ∈ values, element value ∧ value.All property element) :
    (Elements.ofList values).All property element := by
  induction values with
  | nil => trivial
  | cons value values ih =>
      obtain ⟨hvalue, hvalues⟩ := List.forall_mem_cons.mp h
      exact ⟨hvalue.1, hvalue.2, ih hvalues⟩

theorem height_membersOf_le {limit : Nat} (h : ∀ item ∈ items, item.2.height ≤ limit) :
    (membersOf items).height ≤ limit := by
  induction items with
  | nil => exact Nat.zero_le _
  | cons item items ih =>
      obtain ⟨hitem, hitems⟩ := List.forall_mem_cons.mp h
      exact Nat.max_le.mpr ⟨hitem, ih hitems⟩

theorem height_ofList_le {limit : Nat} (h : ∀ value ∈ values, value.height ≤ limit) :
    (Elements.ofList values).height ≤ limit := by
  induction values with
  | nil => exact Nat.zero_le _
  | cons value values ih =>
      obtain ⟨hvalue, hvalues⟩ := List.forall_mem_cons.mp h
      exact Nat.max_le.mpr ⟨hvalue, ih hvalues⟩

section Map
variable {comment : String → String} {number : Number → Number}

theorem membersOf_map (h : ∀ item ∈ items, item.2.map comment number = item.2) :
    (membersOf items).map comment number = membersOf items := by
  induction items with
  | nil => rfl
  | cons item items ih =>
      obtain ⟨hitem, hitems⟩ := List.forall_mem_cons.mp h
      rw [membersOf_cons, Members.map, hitem, ih hitems]
      rfl

theorem ofList_map (h : ∀ value ∈ values, value.map comment number = value) :
    (Elements.ofList values).map comment number = Elements.ofList values := by
  induction values with
  | nil => rfl
  | cons value values ih =>
      obtain ⟨hvalue, hvalues⟩ := List.forall_mem_cons.mp h
      rw [Elements.ofList, Elements.map, hvalue, ih hvalues]
      rfl

end Map

end Schema

namespace Schema

theorem heads_membersOf (items : List (String × Value)) :
    (membersOf items).forest.heads = items.filterMap fun item => item.2.head? item.1 := by
  induction items with
  | nil => rfl
  | cons item items ih =>
      have hforest : (membersOf (item :: items)).forest =
          item.2.property item.1 (membersOf items).forest := rfl
      rw [hforest, Value.heads_property, ih, List.filterMap_cons]
      cases item.2.head? item.1 <;> rfl

theorem distinct_membersOf (h : (items.map fun item => (item.1, item.2.instanceName?)).Nodup) :
    (membersOf items).forest.Distinct := by
  rw [Forest.Distinct, heads_membersOf, List.pairwise_filterMap]
  refine (List.pairwise_map.mp h).imp fun hne event hevent event' hevent' hrepeats => ?_
  exact hne (Value.eq_of_repeats hevent hevent' hrepeats)

/-- A value may stand under a name, in front of whatever may stand there. -/
def Fits (schema : Schema) (ground : Ground) (name : String) (value : Value) : Prop :=
  ∀ rest : Forest, rest.Conforms schema ground → (value.property name rest).Conforms schema ground

theorem conforms_membersOf {schema : Schema} {ground : Ground}
    (h : ∀ item ∈ items, schema.Fits ground item.1 item.2) :
    (membersOf items).forest.Conforms schema ground := by
  induction items with
  | nil => trivial
  | cons item items ih =>
      obtain ⟨hitem, hitems⟩ := List.forall_mem_cons.mp h
      exact hitem _ (ih hitems)

section Fits
variable {schema : Schema} {type inner : ObjectType} {name typeName instanceName : String}

theorem fits_ref {text : String} (hproperty : type.property? name = some .ref) :
    schema.Fits (.object type) name (.identifier text) :=
  fun _ hrest => ⟨⟨name, .ref, rfl, hproperty, .inl rfl⟩, hrest⟩

theorem fits_named {members : Members} (hproperty : type.property? name = some (.named typeName))
    (hinner : schema.objects.get? typeName = some inner) (hdistinct : members.forest.Distinct)
    (hmembers : members.forest.Conforms schema (.object inner)) :
    schema.Fits (.object type) name (.named instanceName members) := by
  refine fun _ hrest => ⟨⟨.object inner, ?_, hdistinct, hmembers⟩, hrest⟩
  exact ⟨name, _, rfl, hproperty, typeName, rfl, hinner⟩

theorem fits_root {members : Members} (hroot : schema.roots.contains name = true)
    (hinner : schema.objects.get? name = some inner) (hdistinct : members.forest.Distinct)
    (hmembers : members.forest.Conforms schema (.object inner)) :
    schema.Fits .document name (.named instanceName members) :=
  fun _ hrest => ⟨⟨.object inner, ⟨hroot, hinner⟩, hdistinct, hmembers⟩, hrest⟩

/-- Texts may stand in a list whose type takes them one by one. -/
theorem fits_list {elements : ListType} {make : String → Value} {told : String → Event}
    (hproperty : type.property? name = some (.list elements)) (texts : List String)
    (htold : ∀ text rest, (make text).element rest = .leaf (told text) rest)
    (hnever : ∀ text event, ¬(told text).Repeats event)
    (htakes : ∀ text, (Ground.list elements).Takes schema (told text)) :
    schema.Fits (.object type) name (.list (.ofList (texts.map make))) := by
  have hforest : (Elements.ofList (texts.map make)).forest.heads = texts.map told ∧
      (Elements.ofList (texts.map make)).forest.Conforms schema (.list elements) := by
    induction texts with
    | nil => exact ⟨rfl, trivial⟩
    | cons text texts ih =>
        have heq : (Elements.ofList ((text :: texts).map make)).forest =
            .leaf (told text) (Elements.ofList (texts.map make)).forest := htold text _
        rw [heq]
        exact ⟨congrArg (told text :: ·) ih.1, htakes text, ih.2⟩
  have hdistinct : (Elements.ofList (texts.map make)).forest.Distinct := by
    rw [Forest.Distinct, hforest.1, List.pairwise_map]
    exact List.pairwise_of_forall fun earlier text => hnever text (told earlier)
  refine fun _ hrest => ⟨⟨.list elements, ?_, hdistinct, hforest.2⟩, hrest⟩
  exact ⟨name, _, rfl, hproperty, rfl⟩

end Fits

end Schema

end Members

/-- The name of an enum or object type that is written with a property of a name. -/
def PropertyType.written? (name : String) : PropertyType → Option String
  | .enum typeName => some typeName
  | .object typeName | .named typeName => if typeName = name then none else some typeName
  | _ => none

namespace Schema

theorem propertyBody_eq (name : String) (property : PropertyType) :
    propertyBody name property = membersOf (("type", .identifier property.keyword.word) ::
      (property.written? name).toList.map fun typeName => ("type_name", .identifier typeName)) := by
  cases property with
  | object typeName | named typeName =>
      by_cases hname : typeName = name <;> simp [propertyBody, PropertyType.written?, hname]
  | _ => rfl

theorem codeNames_metaSchema (name : String) : metaSchema.codeNames.contains name = false := by
  have hempty : metaSchema.codeNames = .empty := by decide
  rw [hempty]
  rfl

theorem isBareWord_keyword (keyword : TypeKeyword) : isBareWord keyword.word.toList = true := by
  cases keyword <;> decide

/-- The items of a schema in its document. -/
def bodyItems (schema : Schema) : List (String × Value) :=
  schema.enums.toList.map (fun entry => ("enum_type", .named entry.1 (enumBody entry.2))) ++
    schema.objects.toList.map (fun entry => ("object_type", .named entry.1 (objectBody entry.2))) ++
    [("root_properties", .list (.ofList (schema.roots.keys.map .identifier)))]

theorem body_eq (schema : Schema) : schema.body = membersOf schema.bodyItems := rfl

section Written
variable {schema : Schema}

theorem forall_mem_bodyItems {motive : String × Value → Prop}
    (henums : ∀ entry ∈ schema.enums.toList,
      motive ("enum_type", .named entry.1 (enumBody entry.2)))
    (hobjects : ∀ entry ∈ schema.objects.toList,
      motive ("object_type", .named entry.1 (objectBody entry.2)))
    (hroots : motive ("root_properties", .list (.ofList (schema.roots.keys.map .identifier)))) :
    ∀ item ∈ schema.bodyItems, motive item := by
  intro item hitem
  simp only [bodyItems, List.mem_append, List.mem_map, List.mem_singleton] at hitem
  rcases hitem with (⟨entry, hentry, rfl⟩ | ⟨entry, hentry, rfl⟩) | rfl
  · exact henums entry hentry
  · exact hobjects entry hentry
  · exact hroots

theorem IsWorded.written? (h : schema.IsWorded) {owned : String × ObjectType}
    {entry : String × PropertyType} (howned : owned ∈ schema.objects.toList)
    (hentry : entry ∈ owned.2.properties.toList) {typeName : String}
    (hwritten : entry.2.written? entry.1 = some typeName) :
    isBareWord typeName.toList = true ∨ entry.2 = .enum typeName := by
  have hworded := (h.properties owned howned entry hentry).2
  obtain ⟨name, property⟩ := entry
  cases property with
  | enum found =>
      obtain rfl : found = typeName := Option.some.inj hwritten
      exact .inr rfl
  | object found | named found =>
      rw [PropertyType.written?] at hwritten
      split at hwritten
      · cases hwritten
      · obtain rfl : found = typeName := Option.some.inj hwritten
        exact .inl (hworded.resolve_left ‹_›)
  | _ => cases hwritten

/-- What holds of all values in the document of a schema: of objects whose instance names
are words, of lists and of strings, and of identifiers if they are spelled in some way. -/
structure Holds (spelled : String → Prop) (property : String → Value → Prop)
    (element : Value → Prop) : Prop where
  named : ∀ {name instanceName members}, isWord instanceName.toList = true →
    property name (.named instanceName members)
  list : ∀ {name elements}, property name (.list elements)
  identifier : ∀ {name text}, spelled text → property name (.identifier text)
  reference : ∀ {text}, spelled text → element (.identifier text)
  string : ∀ {text}, element (.string text)

section Holds
variable {spelled : String → Prop} {property : String → Value → Prop} {element : Value → Prop}

theorem Holds.propertyBody (h : Holds spelled property element) {name : String}
    {type : PropertyType} (hkeyword : spelled type.keyword.word)
    (hwritten : ∀ typeName, type.written? name = some typeName → spelled typeName) :
    (propertyBody name type).All property element := by
  rw [propertyBody_eq]
  refine membersOf_all (List.forall_mem_cons.mpr ⟨⟨h.identifier hkeyword, trivial⟩, ?_⟩)
  intro item hitem
  obtain ⟨typeName, hmem, rfl⟩ := List.mem_map.mp hitem
  exact ⟨h.identifier (hwritten typeName (Option.mem_toList.mp hmem)), trivial⟩

theorem Holds.enumBody (h : Holds spelled property element) (enumType : EnumType) :
    (enumBody enumType).All property element := by
  refine membersOf_all (List.forall_mem_singleton.mpr ⟨h.list, ofList_all ?_⟩)
  exact List.forall_mem_map.mpr fun text _ => ⟨h.string, trivial⟩

theorem Holds.toDocument (h : Holds spelled property element) (hworded : schema.IsWorded)
    (hbare : ∀ {text : String}, isBareWord text.toList = true → spelled text)
    (henums : ∀ {owner name typeName}, (owner, name, .enum typeName) ∈ schema.properties →
      spelled typeName) : schema.toDocument.All property element := by
  have hobject {owned : String × ObjectType} (howned : owned ∈ schema.objects.toList) :
      (objectBody owned.2).All property element := by
    refine membersOf_all (List.forall_mem_map.mpr fun entry hentry => ?_)
    refine ⟨h.named (hworded.properties owned howned entry hentry).1, ?_⟩
    refine h.propertyBody (hbare (isBareWord_keyword _)) fun typeName hwritten => ?_
    rcases hworded.written? howned hentry hwritten with hname | henum
    · exact hbare hname
    · have hmem := mem_properties_of_mem howned hentry
      rw [henum] at hmem
      exact henums hmem
  have hbody : schema.body.All property element := by
    rw [body_eq]
    refine membersOf_all (forall_mem_bodyItems (fun entry hentry => ?_) (fun entry hentry => ?_) ?_)
    · exact ⟨h.named (hworded.enums entry hentry), h.enumBody entry.2⟩
    · exact ⟨h.named (hworded.objects entry hentry), hobject hentry⟩
    · refine ⟨h.list,
        ofList_all (List.forall_mem_map.mpr (List.forall_mem_map.mpr fun entry hentry => ?_))⟩
      exact ⟨h.reference (hbare (hworded.roots entry hentry)), trivial⟩
  exact membersOf_all (List.forall_mem_singleton.mpr ⟨h.named hworded.name, hbody⟩)

end Holds

section Height

theorem height_ofList_map_le {make : String → Value} (hmake : ∀ text, (make text).height = 0)
    (texts : List String) : (Elements.ofList (texts.map make)).height ≤ 0 :=
  height_ofList_le (List.forall_mem_map.mpr fun text _ => Nat.le_of_eq (hmake text))

theorem height_propertyBody_le (name : String) (property : PropertyType) :
    (propertyBody name property).height ≤ 0 := by
  rw [propertyBody_eq]
  refine height_membersOf_le (List.forall_mem_cons.mpr ⟨Nat.le_refl _, ?_⟩)
  exact List.forall_mem_map.mpr fun typeName _ => Nat.le_refl _

theorem height_objectBody_le (type : ObjectType) : (objectBody type).height ≤ 1 :=
  height_membersOf_le (List.forall_mem_map.mpr fun entry _ =>
    Nat.succ_le_succ (height_propertyBody_le entry.1 entry.2))

theorem height_enumBody_le (type : EnumType) : (enumBody type).height ≤ 1 :=
  height_membersOf_le (List.forall_mem_singleton.mpr
    (Nat.succ_le_succ (height_ofList_map_le (fun _ => rfl) _)))

theorem height_body_le (schema : Schema) : schema.body.height ≤ 2 := by
  rw [body_eq]
  refine height_membersOf_le (forall_mem_bodyItems (fun entry _ => ?_) (fun entry _ => ?_) ?_)
  · exact Nat.succ_le_succ (height_enumBody_le entry.2)
  · exact Nat.succ_le_succ (height_objectBody_le entry.2)
  · have hroots := height_ofList_map_le (fun _ => rfl : ∀ text, (Value.identifier text).height = 0)
    exact Nat.le_trans (Nat.succ_le_succ (hroots _)) (by decide)

theorem toDocument_height (schema : Schema) : schema.toDocument.height ≤ maxDepth := by
  have hdocument : schema.toDocument.height ≤ 3 :=
    height_membersOf_le (List.forall_mem_singleton.mpr (Nat.succ_le_succ schema.height_body_le))
  exact Nat.le_trans hdocument (by decide)

end Height

/-- A schema's document can be written if its names are words that tell no truth value
where they stand as values. -/
theorem IsWorded.toDocument_writable (h : schema.IsWorded)
    (henums : ∀ {owner name typeName}, (owner, name, .enum typeName) ∈ schema.properties →
      isBareWord typeName.toList = true) :
    Members.IsWritable metaSchema.codeNames schema.toDocument := by
  have hholds : Holds (fun text => isBareWord text.toList = true)
      (Value.WritableUnder metaSchema.codeNames) Value.WritableInList :=
    ⟨fun hword => ⟨codeNames_metaSchema _, hword⟩, codeNames_metaSchema _,
      fun hbare => ⟨codeNames_metaSchema _, hbare⟩, id, trivial⟩
  exact ⟨hholds.toDocument h id henums, toDocument_height schema⟩

theorem reworded_writable {text : String} (hword : isWord text.toList = true) :
    (∀ name, (Value.reworded (.identifier text)).WritableUnder metaSchema.codeNames name) ∧
      (Value.reworded (.identifier text)).WritableInList := by
  rw [Value.reworded]
  cases htruth : truthOfWord? text.toList with
  | some value => exact ⟨codeNames_metaSchema, trivial⟩
  | none =>
      have hbare : isBareWord text.toList = true := by simp [isBareWord, hword, htruth]
      exact ⟨fun name => ⟨codeNames_metaSchema name, hbare⟩, hbare⟩

/-- As it is read, the document can be written whatever words its names are. -/
theorem IsWorded.reworded_writable (h : schema.IsWorded)
    (henums : ∀ {owner name typeName}, (owner, name, .enum typeName) ∈ schema.properties →
      isWord typeName.toList = true) :
    Members.IsWritable metaSchema.codeNames schema.toDocument.reworded := by
  have hholds : Holds (fun text => isWord text.toList = true)
      (fun name value => value.reworded.WritableUnder metaSchema.codeNames name)
      (fun value => value.reworded.WritableInList) :=
    ⟨fun hword => ⟨codeNames_metaSchema _, hword⟩, codeNames_metaSchema _,
      fun hword => (Schema.reworded_writable hword).1 _,
      fun hword => (Schema.reworded_writable hword).2, trivial⟩
  refine ⟨Members.All.reworded (hholds.toDocument h isWord_of_isBareWord henums), ?_⟩
  rw [Members.height_reworded]
  exact toDocument_height schema

section Map
variable (comment : String → String) (number : Number → Number)

theorem ofList_map_map {make : String → Value}
    (hmake : ∀ text, (make text).map comment number = make text) (texts : List String) :
    (Value.list (.ofList (texts.map make))).map comment number =
      .list (.ofList (texts.map make)) :=
  congrArg Value.list (ofList_map (List.forall_mem_map.mpr fun text _ => hmake text))

theorem propertyBody_map (name : String) (property : PropertyType) :
    (propertyBody name property).map comment number = propertyBody name property := by
  rw [propertyBody_eq]
  refine membersOf_map (List.forall_mem_cons.mpr ⟨rfl, ?_⟩)
  exact List.forall_mem_map.mpr fun typeName _ => rfl

theorem objectBody_map (type : ObjectType) :
    (objectBody type).map comment number = objectBody type :=
  membersOf_map (List.forall_mem_map.mpr fun entry _ =>
    congrArg (Value.named entry.1) (propertyBody_map comment number entry.1 entry.2))

theorem enumBody_map (type : EnumType) : (enumBody type).map comment number = enumBody type :=
  membersOf_map (List.forall_mem_singleton.mpr (ofList_map_map comment number (fun _ => rfl) _))

theorem body_map (schema : Schema) : schema.body.map comment number = schema.body := by
  rw [body_eq]
  refine membersOf_map (forall_mem_bodyItems (fun entry _ => ?_) (fun entry _ => ?_) ?_)
  · exact congrArg (Value.named entry.1) (enumBody_map comment number entry.2)
  · exact congrArg (Value.named entry.1) (objectBody_map comment number entry.2)
  · exact ofList_map_map comment number (fun _ => rfl) _

/-- A schema's document has neither comments nor numbers. -/
theorem toDocument_map (schema : Schema) :
    schema.toDocument.map comment number = schema.toDocument :=
  membersOf_map (List.forall_mem_singleton.mpr
    (congrArg (Value.named schema.name) (schema.body_map comment number)))

end Map

/-! The document conforms to the schema of schema documents. -/

theorem propertyBody_conforms (name : String) (property : PropertyType) :
    (propertyBody name property).forest.Distinct ∧
      (propertyBody name property).forest.Conforms metaSchema
        (.object (metaSchema.objectType "property")) := by
  have htype : (metaSchema.objectType "property").property? "type" = some .ref := by decide
  have htypeName : (metaSchema.objectType "property").property? "type_name" = some .ref := by decide
  rw [propertyBody_eq]
  constructor
  · refine distinct_membersOf ?_
    cases property.written? name <;> simp
  · refine conforms_membersOf (List.forall_mem_cons.mpr ⟨fits_ref htype, ?_⟩)
    exact List.forall_mem_map.mpr fun typeName _ => fits_ref htypeName

/-- Instances that stand for the entries of a table do not repeat one another. -/
theorem nodup_instances {α : Type} (name : String) (table : Table α)
    (make : String × α → String × Value)
    (hmake : ∀ entry, (make entry).1 = name ∧ (make entry).2.instanceName? = some entry.1) :
    ((table.toList.map make).map fun item => (item.1, item.2.instanceName?)).Nodup := by
  rw [List.map_map]
  refine List.pairwise_map.mpr ((List.pairwise_map.mp table.keys_nodup).imp fun hne heq => hne ?_)
  have hinstances := (Prod.mk.inj heq).2
  rw [(hmake _).2, (hmake _).2] at hinstances
  exact Option.some.inj hinstances

theorem objectBody_conforms (type : ObjectType) :
    (objectBody type).forest.Distinct ∧
      (objectBody type).forest.Conforms metaSchema
        (.object (metaSchema.objectType "object_type")) := by
  have hproperty : (metaSchema.objectType "object_type").property? "property" =
      some (.named "property") := by decide
  have hinner : metaSchema.objects.get? "property" = some (metaSchema.objectType "property") := by
    decide
  refine ⟨distinct_membersOf (nodup_instances "property" _ _ fun _ => ⟨rfl, rfl⟩), ?_⟩
  refine conforms_membersOf (List.forall_mem_map.mpr fun entry _ => ?_)
  obtain ⟨hdistinct, hconforms⟩ := propertyBody_conforms entry.1 entry.2
  exact fits_named hproperty hinner hdistinct hconforms

theorem enumBody_conforms (type : EnumType) :
    (enumBody type).forest.Distinct ∧
      (enumBody type).forest.Conforms metaSchema
        (.object (metaSchema.objectType "enum_type")) := by
  have hvalues : (metaSchema.objectType "enum_type").property? "values" =
      some (.list .strings) := by decide
  refine ⟨distinct_membersOf (by simp), ?_⟩
  refine conforms_membersOf (List.forall_mem_singleton.mpr ?_)
  refine fits_list hvalues _ (fun _ _ => rfl) ?_ fun _ => trivial
  rintro text event (⟨_, ⟨⟩, _⟩ | ⟨_, _, ⟨⟩, _⟩)

theorem body_distinct (schema : Schema) : schema.body.forest.Distinct := by
  have henums := nodup_instances "enum_type" schema.enums
    (fun entry => ("enum_type", Value.named entry.1 (enumBody entry.2))) fun _ => ⟨rfl, rfl⟩
  have hobjects := nodup_instances "object_type" schema.objects
    (fun entry => ("object_type", Value.named entry.1 (objectBody entry.2))) fun _ => ⟨rfl, rfl⟩
  have hkinds : "enum_type" ≠ "object_type" ∧ "enum_type" ≠ "root_properties" ∧
      "object_type" ≠ "root_properties" := by decide
  refine distinct_membersOf ?_
  rw [List.map_append, List.map_append]
  refine List.nodup_append.mpr ⟨List.nodup_append.mpr ⟨henums, hobjects, ?_⟩, by simp, ?_⟩
  · simp only [List.mem_map]
    rintro _ ⟨_, ⟨_, _, rfl⟩, rfl⟩ _ ⟨_, ⟨_, _, rfl⟩, rfl⟩ heq
    exact hkinds.1 (Prod.mk.inj heq).1
  · simp only [List.mem_append, List.mem_map, List.mem_singleton]
    rintro _ (⟨_, ⟨_, _, rfl⟩, rfl⟩ | ⟨_, ⟨_, _, rfl⟩, rfl⟩) _ ⟨_, rfl, rfl⟩ heq
    · exact hkinds.2.1 (Prod.mk.inj heq).1
    · exact hkinds.2.2 (Prod.mk.inj heq).1

theorem body_conforms (schema : Schema) :
    schema.body.forest.Conforms metaSchema (.object (metaSchema.objectType "schema")) := by
  have henums : (metaSchema.objectType "schema").property? "enum_type" =
      some (.named "enum_type") := by decide
  have hobjects : (metaSchema.objectType "schema").property? "object_type" =
      some (.named "object_type") := by decide
  have hroots : (metaSchema.objectType "schema").property? "root_properties" =
      some (.list .refs) := by decide
  have henumType : metaSchema.objects.get? "enum_type" =
      some (metaSchema.objectType "enum_type") := by decide
  have hobjectType : metaSchema.objects.get? "object_type" =
      some (metaSchema.objectType "object_type") := by decide
  rw [body_eq]
  refine conforms_membersOf (forall_mem_bodyItems (fun entry _ => ?_) (fun entry _ => ?_) ?_)
  · obtain ⟨hdistinct, hconforms⟩ := enumBody_conforms entry.2
    exact fits_named henums henumType hdistinct hconforms
  · obtain ⟨hdistinct, hconforms⟩ := objectBody_conforms entry.2
    exact fits_named hobjects hobjectType hdistinct hconforms
  · refine fits_list hroots _ (fun _ _ => rfl) ?_ fun _ => trivial
    rintro text event (⟨_, ⟨⟩, _⟩ | ⟨_, _, ⟨⟩, _⟩)

theorem toDocument_conforms (schema : Schema) : metaSchema.Conforms schema.toDocument.events := by
  have hroot : metaSchema.roots.contains "schema" = true := by decide
  have hinner : metaSchema.objects.get? "schema" = some (metaSchema.objectType "schema") := by
    decide
  refine ⟨schema.toDocument.forest, Members.events_forest _, ?_, ?_⟩
  · exact distinct_membersOf (by simp)
  · exact conforms_membersOf (List.forall_mem_singleton.mpr
      (fits_root hroot hinner schema.body_distinct schema.body_conforms))

end Written

end Schema

end Lookml
