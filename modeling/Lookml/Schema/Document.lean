import Lookml.Conformance.Checker
import Lookml.Draft
import Lookml.Schema.Declaration

/-!
Schemas as documents. A schema document has an object `schema` that holds enum types,
object types and the list of properties at the top; it has a schema of its own, by which
it is checked before it is loaded.
-/

namespace Lookml

def metaSchema : Schema where
  name := "schema"
  enums := .empty
  objects := .ofList [
    ("schema", ⟨.ofList [
      ("enum_type", .named "enum_type"),
      ("object_type", .named "object_type"),
      ("root_properties", .list .refs)]⟩),
    ("enum_type", ⟨.ofList [("values", .list .strings)]⟩),
    ("object_type", ⟨.ofList [("property", .named "property")]⟩),
    ("property", ⟨.ofList [("type", .ref), ("type_name", .ref)]⟩)]
  roots := .ofList ["schema"]

def Members.instances (members : Members) (name : String) : List (String × Members) :=
  (members.getAll name).filterMap fun value =>
    match value with
    | .named instanceName inner => some (instanceName, inner)
    | _ => none

/-- The elements of the first value of a property, where that is a list. -/
def Members.elementsOf (members : Members) (name : String) : List Value :=
  (((members.get? name).bind Value.elements?).map Elements.toList).getD []

namespace Schema

def identifierOf? (members : Members) (name : String) : Option String :=
  (members.get? name).bind Value.identifier?

/-- The declaration of a property. Its type is a keyword or an enum type of the document;
a name for an enum or object type may be left out where it is the name of the property. -/
def declarationOf (schema : Schema) (name : String) (body : Members) :
    Except SchemaError Declaration :=
  match identifierOf? body "type" with
  | none => .error (.missingType name)
  | some word =>
      let typeName := (identifierOf? body "type_name").getD name
      let enum (typeName : String) : Except SchemaError Declaration :=
        if schema.enums.contains typeName then .ok ⟨name, .enum typeName⟩
        else .error (.unknownEnumType name typeName)
      match TypeKeyword.ofWord? word with
      | some .number => .ok ⟨name, .number⟩
      | some .string => .ok ⟨name, .string⟩
      | some .code => .ok ⟨name, .code⟩
      | some .enum => enum typeName
      | some .object => .ok ⟨name, .object typeName⟩
      | some .namedObject => .ok ⟨name, .named typeName⟩
      | some .ref => .ok ⟨name, .ref⟩
      | some .refList => .ok ⟨name, .list .refs⟩
      | some .stringList => .ok ⟨name, .list .strings⟩
      | some .refStringMap => .ok ⟨name, .list .pairs⟩
      | some .refString | none =>
          if schema.enums.contains word then .ok ⟨name, .enum word⟩
          else .error (.unknownType name word)

def loadEnum (schema : Schema) (declared : String × Members) : Except SchemaError Schema :=
  schema.addEnum declared.1 ((declared.2.elementsOf "values").filterMap Value.text?)

def loadObjectType (schema : Schema) (declared : String × Members) :
    Except SchemaError Schema := do
  if schema.objects.contains declared.1 then throw (.duplicateObjectType declared.1)
  let declarations ← (declared.2.instances "property").mapM fun (name, body) =>
    schema.declarationOf name body
  schema.addObjectType declared.1 declarations

def ofBody (name : String) (body : Members) : Except SchemaError Schema := do
  let schema ← (body.instances "enum_type").foldlM loadEnum (empty name)
  let schema ← (body.instances "object_type").foldlM loadObjectType schema
  let schema ← ((body.elementsOf "root_properties").filterMap Value.identifier?).foldlM
    addRoot schema
  schema.build

/-- Loads the first schema that a document declares. -/
def load (source : List Char) : Except SchemaError Schema :=
  match metaSchema.readValid source with
  | .error error => .error (.unreadable error)
  | .ok (document, []) =>
      match document.instances "schema" with
      | [] => .error .noSchema
      | (name, body) :: _ => ofBody name body
  | .ok (_, violations) => .error (.invalidDocument violations)

/-! A schema written as a document. -/

def membersOf (items : List (String × Value)) : Members :=
  items.foldr (fun item rest => .member [] item.1 item.2 rest) .empty

def enumBody (enumType : EnumType) : Members :=
  membersOf [("values", .list (.ofList (enumType.values.keys.map .string)))]

/-- The name of an enum type is always written, that of an object type where it is not the
property's. -/
def propertyBody (name : String) (type : PropertyType) : Members :=
  let word := ("type", Value.identifier type.keyword.word)
  match type with
  | .enum typeName => membersOf [word, ("type_name", .identifier typeName)]
  | .object typeName | .named typeName =>
      membersOf (word :: if typeName = name then [] else [("type_name", .identifier typeName)])
  | _ => membersOf [word]

def objectBody (type : ObjectType) : Members :=
  membersOf (type.properties.toList.map fun (name, property) =>
    ("property", .named name (propertyBody name property)))

def body (schema : Schema) : Members :=
  membersOf
    (schema.enums.toList.map
        (fun (name, type) => ("enum_type", Value.named name (enumBody type))) ++
      schema.objects.toList.map
        (fun (name, type) => ("object_type", Value.named name (objectBody type))) ++
      [("root_properties", .list (.ofList (schema.roots.keys.map .identifier)))])

def toDocument (schema : Schema) : Document :=
  membersOf [("schema", .named schema.name schema.body)]

end Schema

end Lookml
