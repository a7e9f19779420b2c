import Lookml.Proofs.Schema.Reloaded
import Lookml.Proofs.Tree.Suited

/-!
What a schema document declares, said of its tree: enum types by their values, object
types by their properties, and the properties at the top. A part of a body that suits the
schema of schemas declares one type or property, and that is the one that is made of it.
-/

namespace Lookml

/-- The values of an enum type are the strings on the list of its values. -/
def EnumType.IsDeclaredBy (type : EnumType) (body : Members) : Prop :=
  ∀ text, type.contains text = true ↔
    ∃ elements, ("values", .list elements) ∈ body.toList ∧ .string text ∈ elements.toList

/-- A property has the type of the word that its body gives, or an enum type of that name
where no property can have the type of the word. The type that it refers to is the one
that the body gives, or else has the property's name. -/
inductive PropertyType.IsDeclaredBy (enums : Table EnumType) (name : String) (body : Members) :
    PropertyType → Prop
  | keyword {type : PropertyType} (hword : ("type", .identifier type.keyword.word) ∈ body.toList)
      (hname : ∀ typeName, type.typeName? = some typeName →
        ("type_name", .identifier typeName) ∈ body.toList ∨
          typeName = name ∧ ∀ value, ("type_name", value) ∉ body.toList) :
      IsDeclaredBy enums name body type
  | enum {word : String} (hword : ("type", .identifier word) ∈ body.toList)
      (hfree : ∀ type : PropertyType, type.keyword.word ≠ word)
      (henum : enums.contains word = true) : IsDeclaredBy enums name body (.enum word)

namespace PropertyType

/-- The type with another name for the type that it refers to, if it refers to one. -/
def referring (typeName : String) : PropertyType → PropertyType
  | .enum _ => .enum typeName
  | .object _ => .object typeName
  | .named _ => .named typeName
  | type => type

theorem keyword_referring (typeName : String) (type : PropertyType) :
    (type.referring typeName).keyword = type.keyword := by
  cases type <;> rfl

theorem typeName?_referring (typeName : String) (type : PropertyType) :
    (type.referring typeName).typeName? = type.typeName?.map fun _ => typeName := by
  cases type <;> rfl

theorem referring_eq_self {typeName : String} {type : PropertyType}
    (h : ∀ found, type.typeName? = some found → typeName = found) :
    type.referring typeName = type := by
  cases type with
  | enum found | object found | named found => rw [referring, h found rfl]
  | _ => rfl

end PropertyType

/-- A table has an entry for each object of one property of a body, the only one that this
object declares, and no others. -/
structure Table.IsDeclaredBy {α : Type} (table : Table α) (body : Members) (property : String)
    (declares : String → Members → α → Prop) : Prop where
  every : ∀ name inner, (property, .named name inner) ∈ body.toList →
    ∃ value, table.get? name = some value ∧ ∀ other, declares name inner other ↔ other = value
  only : ∀ name, table.contains name = true → ∃ inner, (property, .named name inner) ∈ body.toList

def ObjectType.IsDeclaredBy (enums : Table EnumType) (type : ObjectType) (body : Members) : Prop :=
  type.properties.IsDeclaredBy body "property" fun name inner property =>
    property.IsDeclaredBy enums name inner

/-- A schema has the types and the properties at the top that its body declares. -/
structure Schema.IsDeclaredBy (schema : Schema) (body : Members) : Prop where
  enums : schema.enums.IsDeclaredBy body "enum_type" fun _ inner type => type.IsDeclaredBy inner
  objects : schema.objects.IsDeclaredBy body "object_type" fun _ inner type =>
    type.IsDeclaredBy schema.enums inner
  roots : ∀ name, schema.roots.contains name = true ↔
    ∃ elements, ("root_properties", .list elements) ∈ body.toList ∧
      .identifier name ∈ elements.toList

theorem EnumType.IsDeclaredBy.unique {type other : EnumType} {body : Members}
    (h : type.IsDeclaredBy body) (hother : other.IsDeclaredBy body) : type = other :=
  congrArg EnumType.mk (Names.eq_of_contains fun text => (h text).trans (hother text).symm)

namespace Table.IsDeclaredBy
variable {α : Type} {table other : Table α} {body : Members} {property : String}
  {declares : String → Members → α → Prop}

theorem unique (h : table.IsDeclaredBy body property declares)
    (hother : other.IsDeclaredBy body property declares) : table = other := by
  refine eq_of_get? fun name => ?_
  by_cases hdeclared : ∃ inner, (property, .named name inner) ∈ body.toList
  · obtain ⟨inner, hinner⟩ := hdeclared
    obtain ⟨value, hvalue, hsole⟩ := h.every name inner hinner
    obtain ⟨value', hvalue', hsole'⟩ := hother.every name inner hinner
    rw [hvalue, hvalue', (hsole' value).mp ((hsole value).mpr rfl)]
  · have hnone {found : Table α} (hfound : found.IsDeclaredBy body property declares) :
        found.get? name = none :=
      Option.not_isSome_iff_eq_none.mp fun hcontains => hdeclared (hfound.only name hcontains)
    rw [hnone h, hnone hother]

/-- A table is declared by a body if its entries are made of the objects in turn, each the
one that its object declares. -/
theorem of_mapM {β ε : Type} {make : String × Members → Except ε β} {made : List β}
    {entryOf : β → String × α} (hdistinct : ((body.instances property).map Prod.fst).Nodup)
    (hmade : (body.instances property).mapM make = .ok made)
    (hmake : ∀ declared ∈ body.instances property, ∀ value, make declared = .ok value →
      (entryOf value).1 = declared.1 ∧
        ∀ other, declares declared.1 declared.2 other ↔ other = (entryOf value).2) :
    (Table.ofList (made.map entryOf)).IsDeclaredBy body property declares := by
  have hkeys : (made.map entryOf).map Prod.fst = (body.instances property).map Prod.fst := by
    rw [List.map_map]
    exact map_eq_of_mapM (fun declared hdeclared value hvalue =>
      (hmake declared hdeclared value hvalue).1) hmade
  constructor
  · intro name inner hinner
    have hinner := Members.mem_instances.mpr hinner
    obtain ⟨value, hvalue, hmakes⟩ := exists_mem_of_mapM hmade hinner
    obtain ⟨rfl, hsole⟩ := hmake _ hinner value hmakes
    exact ⟨_, (get?_ofList (hkeys ▸ hdistinct)).mpr (List.mem_map.mpr ⟨value, hvalue, rfl⟩), hsole⟩
  · intro name hcontains
    obtain ⟨⟨declared, inner⟩, hinner, rfl⟩ :=
      List.mem_map.mp (hkeys ▸ contains_ofList.mp hcontains)
    exact ⟨inner, Members.mem_instances.mp hinner⟩

end Table.IsDeclaredBy

theorem ObjectType.IsDeclaredBy.unique {enums : Table EnumType} {type other : ObjectType}
    {body : Members} (h : type.IsDeclaredBy enums body) (hother : other.IsDeclaredBy enums body) :
    type = other :=
  congrArg ObjectType.mk (Table.IsDeclaredBy.unique h hother)

theorem TypeKeyword.ofWord?_eq_some {word : String} {keyword : TypeKeyword} :
    ofWord? word = some keyword ↔ keyword.word = word := by
  constructor
  · exact fun h => by simpa using List.find?_some h
  · rintro rfl
    exact Schema.ofWord?_word keyword

namespace Schema

/-- The objects of schema documents stand on these grounds. -/
def bodyGround (typeName : String) : Ground :=
  .object (metaSchema.objectType typeName)

theorem property?_schema :
    Ground.document.property? metaSchema "schema" = some (.named "schema") := by decide +kernel

theorem property?_rootProperties :
    (bodyGround "schema").property? metaSchema "root_properties" = some (.list .refs) := by
  decide +kernel

section Property
variable {schema : Schema} {name : String} {body : Members} {declaration : Declaration}
  {property : PropertyType}

theorem exists_keyword_iff {keyword : TypeKeyword} :
    (∃ type : PropertyType, type.keyword = keyword) ↔ keyword ≠ .refString := by
  constructor
  · rintro ⟨type, rfl⟩
    cases type with
    | list elements => cases elements <;> rintro ⟨⟩
    | _ => rintro ⟨⟩
  · intro hkeyword
    cases keyword with
    | refString => exact absurd rfl hkeyword
    | number => exact ⟨.number, rfl⟩
    | string => exact ⟨.string, rfl⟩
    | enum => exact ⟨.enum "", rfl⟩
    | code => exact ⟨.code, rfl⟩
    | object => exact ⟨.object "", rfl⟩
    | namedObject => exact ⟨.named "", rfl⟩
    | ref => exact ⟨.ref, rfl⟩
    | refList => exact ⟨.list .refs, rfl⟩
    | stringList => exact ⟨.list .strings, rfl⟩
    | refStringMap => exact ⟨.list .pairs, rfl⟩

/-- A word is of the type of no property if it is no keyword, or the one for the elements
of maps. -/
theorem word_free_iff {word : String} : (∀ type : PropertyType, type.keyword.word ≠ word) ↔
    TypeKeyword.ofWord? word = none ∨ TypeKeyword.ofWord? word = some .refString := by
  constructor
  · intro hfree
    cases hkeyword : TypeKeyword.ofWord? word with
    | none => exact .inl rfl
    | some keyword =>
        refine .inr (congrArg some (Classical.not_not.mp fun hne => ?_))
        obtain ⟨type, rfl⟩ := exists_keyword_iff.mpr hne
        exact hfree type (TypeKeyword.ofWord?_eq_some.mp hkeyword)
  · rintro hword type rfl
    rw [ofWord?_word] at hword
    rcases hword with hword | hword
    · cases hword
    · exact exists_keyword_iff.mp ⟨type, rfl⟩ (Option.some.inj hword)

theorem declarationOf_of_free {word : String} (hword : identifierOf? body "type" = some word)
    (hfree : ∀ type : PropertyType, type.keyword.word ≠ word) :
    schema.declarationOf name body =
      if schema.enums.contains word then .ok ⟨name, .enum word⟩
      else .error (.unknownType name word) := by
  rcases word_free_iff.mp hfree with hkeyword | hkeyword <;>
    simp only [declarationOf, hword, hkeyword]

theorem exists_word_of_declarationOf (h : schema.declarationOf name body = .ok declaration) :
    ∃ word, identifierOf? body "type" = some word := by
  cases hword : identifierOf? body "type" with
  | none =>
      rw [declarationOf, hword] at h
      cases h
  | some word => exact ⟨word, rfl⟩

/-- Where a property can have the type of the word, the property has it, and refers to the
type that is given or else to the one of its name. -/
theorem type_of_declarationOf (hword : identifierOf? body "type" = some property.keyword.word)
    (h : schema.declarationOf name body = .ok declaration) :
    declaration.type = property.referring ((identifierOf? body "type_name").getD name) := by
  unfold declarationOf at h
  rw [hword] at h
  simp only [ofWord?_word] at h
  cases property with
  | list elements => cases elements <;> exact congrArg Declaration.type (Except.ok.inj h).symm
  | enum typeName =>
      change (if schema.enums.contains _ then
        Except.ok (Declaration.mk name (.enum _)) else _) = _ at h
      split at h
      · exact congrArg Declaration.type (Except.ok.inj h).symm
      · cases h
  | _ => exact congrArg Declaration.type (Except.ok.inj h).symm

theorem name_of_declarationOf (h : schema.declarationOf name body = .ok declaration) :
    declaration.name = name := by
  unfold declarationOf at h
  grind

theorem contains_of_declarationOf (h : schema.declarationOf name body = .ok declaration)
    {typeName : String} (htype : declaration.type = .enum typeName) :
    schema.enums.contains typeName = true := by
  unfold declarationOf at h
  grind

variable (hbody : body.Suits metaSchema (bodyGround "property"))
include hbody

theorem identifierOf?_type_eq {word : String} :
    identifierOf? body "type" = some word ↔ ("type", .identifier word) ∈ body.toList :=
  hbody.identifierOf?_eq_some (by decide +kernel)

theorem typeName_eq {typeName : String} : (identifierOf? body "type_name").getD name = typeName ↔
    ("type_name", .identifier typeName) ∈ body.toList ∨
      typeName = name ∧ ∀ value, ("type_name", value) ∉ body.toList := by
  have hproperty : (bodyGround "property").property? metaSchema "type_name" = some .ref := by
    decide +kernel
  rw [← hbody.identifierOf?_eq_some hproperty, ← hbody.identifierOf?_eq_none hproperty]
  cases identifierOf? body "type_name" <;> simp [eq_comm]

theorem isDeclaredBy_of_declarationOf (h : schema.declarationOf name body = .ok declaration) :
    declaration.type.IsDeclaredBy schema.enums name body := by
  obtain ⟨word, hidentifier⟩ := exists_word_of_declarationOf h
  have hword := (identifierOf?_type_eq hbody).mp hidentifier
  by_cases hfree : ∀ type : PropertyType, type.keyword.word ≠ word
  · rw [declarationOf_of_free hidentifier hfree] at h
    split at h
    · rename_i henum
      obtain rfl := Except.ok.inj h
      exact .enum hword hfree henum
    · cases h
  · obtain ⟨type, rfl⟩ : ∃ type : PropertyType, type.keyword.word = word := by
      simpa using hfree
    rw [type_of_declarationOf hidentifier h]
    refine .keyword (by rwa [PropertyType.keyword_referring]) fun typeName htypeName => ?_
    rw [PropertyType.typeName?_referring, Option.map_eq_some_iff] at htypeName
    obtain ⟨_, _, htypeName⟩ := htypeName
    exact (typeName_eq hbody).mp htypeName

theorem declarationOf_of_isDeclaredBy (h : schema.declarationOf name body = .ok declaration)
    (hdeclared : property.IsDeclaredBy schema.enums name body) : property = declaration.type := by
  cases hdeclared with
  | keyword hword hname =>
      rw [type_of_declarationOf ((identifierOf?_type_eq hbody).mpr hword) h]
      exact (PropertyType.referring_eq_self fun typeName htype =>
        (typeName_eq hbody).mpr (hname typeName htype)).symm
  | enum hword hfree henum =>
      rw [← identifierOf?_type_eq hbody] at hword
      rw [declarationOf_of_free hword hfree, if_pos henum] at h
      obtain rfl := Except.ok.inj h
      rfl

/-- A property that is declared has the type that its body gives, and no other. -/
theorem isDeclaredBy_iff (h : schema.declarationOf name body = .ok declaration) :
    property.IsDeclaredBy schema.enums name body ↔ property = declaration.type :=
  ⟨declarationOf_of_isDeclaredBy hbody h, fun heq => heq ▸ isDeclaredBy_of_declarationOf hbody h⟩

end Property

section Objects
variable {schema : Schema} {body : Members} {declarations : List Declaration}

def declarationsOf (schema : Schema) (body : Members) : Except SchemaError (List Declaration) :=
  (body.instances "property").mapM fun declared => schema.declarationOf declared.1 declared.2

variable (hbody : body.Suits metaSchema (bodyGround "object_type"))
  (hmade : schema.declarationsOf body = .ok declarations)
include hbody hmade

theorem declarationsOf_nodup : (declarations.map Declaration.name).Nodup := by
  have hnames : declarations.map Declaration.name = (body.instances "property").map Prod.fst :=
    map_eq_of_mapM (fun _ _ _ h => name_of_declarationOf h) hmade
  exact hnames ▸ hbody.instances_nodup "property"

theorem typeOf_isDeclaredBy : (typeOf declarations).IsDeclaredBy schema.enums body := by
  refine Table.IsDeclaredBy.of_mapM (hbody.instances_nodup "property") hmade ?_
  intro declared hmem declaration hdeclared
  have hinner : declared.2.Suits metaSchema (bodyGround "property") :=
    hbody.instance (by decide +kernel) (Members.mem_instances.mp hmem)
  exact ⟨name_of_declarationOf hdeclared, fun property => isDeclaredBy_iff hinner hdeclared⟩

end Objects

end Schema

end Lookml
