import Lookml.Proofs.Schema.Built
import Lookml.Schema.Document

/-!
A schema declared again from its own document. What the document holds are the entries of
the schema's tables in their order, and all that is declared one by one are these tables.
-/

namespace Lookml

namespace Schema

@[simp] theorem toList_membersOf (items : List (String × Value)) :
    (membersOf items).toList = items := by
  induction items with
  | nil => rfl
  | cons item items ih => exact congrArg (item :: ·) ih

theorem getAll_membersOf (items : List (String × Value)) (name : String) :
    (membersOf items).getAll name =
      items.filterMap fun item => if item.1 = name then some item.2 else none := by
  rw [Members.getAll, toList_membersOf]

theorem elementsOf_membersOf {name : String} {values : List Value} {items : List (String × Value)}
    (h : (membersOf items).getAll name = [.list (.ofList values)]) :
    (membersOf items).elementsOf name = values := by
  rw [Members.elementsOf, Members.get?, h]
  exact Elements.toList_ofList values

section Body
variable (schema : Schema) (type : ObjectType)

theorem instances_toDocument :
    schema.toDocument.instances "schema" = [(schema.name, schema.body)] := by
  simp [toDocument, Members.instances, getAll_membersOf]

theorem instances_enums : schema.body.instances "enum_type" =
    schema.enums.toList.map fun entry => (entry.1, enumBody entry.2) := by
  simp [body, Members.instances, getAll_membersOf, List.filterMap_map]

theorem instances_objects : schema.body.instances "object_type" =
    schema.objects.toList.map fun entry => (entry.1, objectBody entry.2) := by
  simp [body, Members.instances, getAll_membersOf, List.filterMap_map]

theorem elementsOf_roots :
    schema.body.elementsOf "root_properties" = schema.roots.keys.map .identifier := by
  have hnone {α : Type} (entries : List α) :
      entries.filterMap (fun _ => (none : Option Value)) = [] := by
    simp
  refine elementsOf_membersOf ?_
  simp [getAll_membersOf, List.filterMap_map, hnone]

theorem instances_properties : (objectBody type).instances "property" =
    type.properties.toList.map fun entry => (entry.1, propertyBody entry.1 entry.2) := by
  simp [objectBody, Members.instances, getAll_membersOf, List.filterMap_map]

theorem elementsOf_values (enumType : EnumType) :
    (enumBody enumType).elementsOf "values" = enumType.values.keys.map .string := by
  refine elementsOf_membersOf ?_
  simp [getAll_membersOf]

end Body

section Property
variable (name : String) (property : PropertyType)

theorem identifierOf?_type :
    identifierOf? (propertyBody name property) "type" = some property.keyword.word := by
  cases property with
  | object typeName | named typeName =>
      simp [identifierOf?, propertyBody, Members.get?, getAll_membersOf, Value.identifier?]
  | _ => rfl

theorem identifierOf?_typeName :
    (identifierOf? (propertyBody name property) "type_name").getD name =
      property.typeName?.getD name := by
  cases property with
  | object typeName | named typeName =>
      by_cases hname : typeName = name <;>
        simp [identifierOf?, propertyBody, Members.get?, getAll_membersOf, Value.identifier?,
          PropertyType.typeName?, hname]
  | _ => rfl

end Property

theorem ofWord?_word (keyword : TypeKeyword) : TypeKeyword.ofWord? keyword.word = some keyword := by
  cases keyword <;> decide

section Declared
variable {schema : Schema} {name : String}

/-- A property is declared as it was, where its enum type is declared. -/
theorem declarationOf_propertyBody {property : PropertyType}
    (henum : ∀ typeName, property = .enum typeName → schema.enums.contains typeName = true) :
    schema.declarationOf name (propertyBody name property) = .ok ⟨name, property⟩ := by
  simp only [declarationOf, identifierOf?_type, identifierOf?_typeName, ofWord?_word]
  cases property with
  | enum typeName => exact if_pos (henum typeName rfl)
  | list elements => cases elements <;> rfl
  | _ => rfl

theorem undeclaredEnum?_eq_none {declarations : List Declaration}
    (h : ∀ declaration ∈ declarations, ∀ typeName, declaration.type = .enum typeName →
      schema.enums.contains typeName = true) : schema.undeclaredEnum? declarations = none := by
  refine List.findSome?_eq_none_iff.mpr fun declaration hmem => ?_
  cases htype : declaration.type with
  | enum typeName => exact if_pos (h declaration hmem typeName htype)
  | _ => rfl

theorem repeated?_eq_none {seen names : List String} (hdistinct : names.Nodup)
    (hfresh : ∀ name ∈ names, name ∉ seen) : repeated? seen names = none := by
  induction names generalizing seen with
  | nil => rfl
  | cons name names ih =>
      obtain ⟨hnever, hdistinct⟩ := List.nodup_cons.mp hdistinct
      obtain ⟨hfirst, hnames⟩ := List.forall_mem_cons.mp hfresh
      rw [repeated?, if_neg (by simpa using hfirst)]
      refine ih hdistinct fun other hmem => ?_
      rw [List.mem_cons, not_or]
      exact ⟨fun heq => hnever (heq ▸ hmem), hnames other hmem⟩

theorem mapM_eq_ok {α β ε : Type} {make : α → Except ε β} {made : α → β} {items : List α}
    (h : ∀ item ∈ items, make item = .ok (made item)) :
    items.mapM make = .ok (items.map made) := by
  induction items with
  | nil => rfl
  | cons first items ih =>
      obtain ⟨hfirst, hitems⟩ := List.forall_mem_cons.mp h
      rw [List.mapM_cons, hfirst, ih hitems]
      rfl

theorem loadEnum_enumBody {enumType : EnumType} (hfresh : schema.enums.contains name = false) :
    schema.loadEnum (name, enumBody enumType) =
      .ok { schema with enums := schema.enums.insert name enumType } := by
  have hvalues : ((enumBody enumType).elementsOf "values").filterMap Value.text? =
      enumType.values.keys := by
    simp [elementsOf_values, List.filterMap_map, Function.comp_def, Value.text?]
  rw [loadEnum, addEnum, hfresh, hvalues, Names.ofList_keys]
  rfl

/-- An object type is added by the declarations of its properties. -/
theorem addObjectType_declarations {type : ObjectType}
    (hfresh : schema.objects.contains name = false)
    (henums : ∀ entry ∈ type.properties.toList, ∀ typeName, entry.2 = .enum typeName →
      schema.enums.contains typeName = true) :
    schema.addObjectType name
        (type.properties.toList.map fun entry => (⟨entry.1, entry.2⟩ : Declaration)) =
      .ok { schema with objects := schema.objects.insert name type } := by
  let declarations := type.properties.toList.map fun entry => (⟨entry.1, entry.2⟩ : Declaration)
  have hundeclared : schema.undeclaredEnum? declarations = none := by
    refine undeclaredEnum?_eq_none fun declaration hmem => ?_
    obtain ⟨entry, hentry, rfl⟩ := List.mem_map.mp hmem
    exact henums entry hentry
  have hnames : declarations.map Declaration.name = type.properties.keys := by
    rw [List.map_map]
    rfl
  have hrepeated : repeated? [] (declarations.map Declaration.name) = none := by
    rw [hnames]
    exact repeated?_eq_none type.properties.keys_nodup (by simp)
  have htype : typeOf declarations = type := by
    rw [typeOf, List.map_map]
    exact congrArg ObjectType.mk
      ((congrArg Table.ofList (List.map_id _)).trans (Table.ofList_toList _))
  show schema.addObjectType name declarations = _
  simp only [addObjectType, hfresh, Bool.false_eq_true, if_false, hundeclared, hrepeated, htype]

theorem loadObjectType_objectBody {type : ObjectType}
    (hfresh : schema.objects.contains name = false)
    (henums : ∀ entry ∈ type.properties.toList, ∀ typeName, entry.2 = .enum typeName →
      schema.enums.contains typeName = true) :
    schema.loadObjectType (name, objectBody type) =
      .ok { schema with objects := schema.objects.insert name type } := by
  have hmade : type.properties.toList.mapM
      (fun entry => schema.declarationOf entry.1 (propertyBody entry.1 entry.2)) =
        .ok (type.properties.toList.map fun entry => ⟨entry.1, entry.2⟩) :=
    mapM_eq_ok fun entry hmem => declarationOf_propertyBody (henums entry hmem)
  rw [loadObjectType, if_neg (by simp [hfresh])]
  simp only [instances_properties, List.mapM_map, Function.comp_def, hmade]
  exact addObjectType_declarations hfresh henums

end Declared

/-- A schema that is built is declared again by its own document. -/
theorem IsBuilt.ofBody_body {schema : Schema} (h : schema.IsBuilt) :
    ofBody schema.name schema.body = .ok schema := by
  have henums : (schema.body.instances "enum_type").foldlM loadEnum (empty schema.name) =
      .ok ⟨schema.name, schema.enums, .empty, .empty⟩ := by
    rw [instances_enums, List.foldlM_map]
    exact Table.foldlM_refill (Schema.mk schema.name · .empty .empty)
      fun entry _ table hfresh => loadEnum_enumBody hfresh
  have hobjects : (schema.body.instances "object_type").foldlM loadObjectType
      ⟨schema.name, schema.enums, .empty, .empty⟩ =
        .ok ⟨schema.name, schema.enums, schema.objects, .empty⟩ := by
    rw [instances_objects, List.foldlM_map]
    refine Table.foldlM_refill (Schema.mk schema.name schema.enums · .empty)
      fun owned howned table hfresh => ?_
    refine loadObjectType_objectBody hfresh fun entry hentry typeName heq => ?_
    have hmem := mem_properties_of_mem howned hentry
    rw [heq] at hmem
    exact h.contains_enum (List.mem_append_right _ hmem)
  have hroots : ((schema.body.elementsOf "root_properties").filterMap Value.identifier?).foldlM
      addRoot ⟨schema.name, schema.enums, schema.objects, .empty⟩ = .ok schema := by
    have hnames : (schema.body.elementsOf "root_properties").filterMap Value.identifier? =
        schema.roots.toList.map Prod.fst := by
      simp [elementsOf_roots, Table.keys, List.filterMap_map, Function.comp_def, Value.identifier?]
    rw [hnames, List.foldlM_map]
    refine Table.foldlM_refill (Schema.mk schema.name schema.enums schema.objects)
      fun root _ table hfresh => ?_
    rw [addRoot, if_neg (by simp [hfresh])]
  rw [ofBody, henums]
  show (List.foldlM loadObjectType _ _ >>= _) = _
  rw [hobjects]
  show (List.foldlM addRoot _ _ >>= _) = _
  rw [hroots]
  show schema.build = _
  rw [build, h.flaw?_eq_none]

end Schema

end Lookml
