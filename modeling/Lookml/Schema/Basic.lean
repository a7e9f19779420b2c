import Lookml.Event.Reader
import Lookml.Table

/-!
Schemas: the enum types and object types of a kind of document, and the properties that it
may have at its top. A property name that is code in one object type is read as code
everywhere.
-/

namespace Lookml

/-- The words that schema documents have for the types of properties. -/
inductive TypeKeyword
  | number
  | string
  | enum
  | code
  | object
  | namedObject
  | ref
  | refList
  | stringList
  | refStringMap
  /-- What the elements of a map are; no property has this type. -/
  | refString
deriving DecidableEq

namespace TypeKeyword

def all : List TypeKeyword :=
  [.number, .string, .enum, .code, .object, .namedObject, .ref, .refList, .stringList,
    .refStringMap, .refString]

theorem mem_all (keyword : TypeKeyword) : keyword ∈ all := by
  cases keyword <;> decide

def word : TypeKeyword → String
  | .number => "number"
  | .string => "string"
  | .enum => "enum"
  | .code => "code"
  | .object => "object"
  | .namedObject => "named_object"
  | .ref => "ref"
  | .refList => "ref_list"
  | .stringList => "string_list"
  | .refStringMap => "ref_string_map"
  | .refString => "ref_string"

def title (keyword : TypeKeyword) : String :=
  String.ofList (keyword.word.toList.map Char.toUpper)

def ofWord? (word : String) : Option TypeKeyword :=
  all.find? fun keyword => keyword.word == word

def hasTypeName : TypeKeyword → Bool
  | .enum | .object | .namedObject => true
  | _ => false

def isList : TypeKeyword → Bool
  | .refList | .stringList | .refStringMap => true
  | _ => false

end TypeKeyword

/-- What the elements of a list are: references, strings, or references with a string
each. -/
inductive ListType
  | refs
  | strings
  | pairs
deriving DecidableEq

def ListType.keyword : ListType → TypeKeyword
  | .refs => .refList
  | .strings => .stringList
  | .pairs => .refStringMap

/-- The type of a property, with the enum or object type that it names. -/
inductive PropertyType
  | number
  | string
  | code
  | ref
  | list (elements : ListType)
  | enum (typeName : String)
  | object (typeName : String)
  | named (typeName : String)
deriving DecidableEq

namespace PropertyType

def keyword : PropertyType → TypeKeyword
  | .number => .number
  | .string => .string
  | .code => .code
  | .ref => .ref
  | .list elements => elements.keyword
  | .enum _ => .enum
  | .object _ => .object
  | .named _ => .namedObject

def typeName? : PropertyType → Option String
  | .enum typeName | .object typeName | .named typeName => some typeName
  | _ => none

def objectType? : PropertyType → Option String
  | .object typeName | .named typeName => some typeName
  | _ => none

theorem hasTypeName_keyword (type : PropertyType) :
    type.keyword.hasTypeName = type.typeName?.isSome := by
  cases type with
  | list elements => cases elements <;> rfl
  | _ => rfl

end PropertyType

structure EnumType where
  values : Names
deriving DecidableEq

namespace EnumType

def contains (enumType : EnumType) (value : String) : Bool := enumType.values.contains value

/-- Its values are the two truth values in one of their spellings. -/
def isBoolean (enumType : EnumType) : Bool :=
  enumType.values.keys == ["false", "true"] || enumType.values.keys == ["no", "yes"]

end EnumType

structure ObjectType where
  properties : Table PropertyType
deriving DecidableEq

def ObjectType.empty : ObjectType := ⟨.empty⟩

def ObjectType.property? (type : ObjectType) (name : String) : Option PropertyType :=
  type.properties.get? name

/-- A property at the top holds named objects of the object type that has its name. -/
structure Schema where
  name : String
  enums : Table EnumType
  objects : Table ObjectType
  roots : Names
deriving DecidableEq

namespace Schema

/-- The object type of a name, without properties where the schema declares none. -/
def objectType (schema : Schema) (typeName : String) : ObjectType :=
  (schema.objects.get? typeName).getD .empty

/-- All properties with the object type that declares them, in order of the names of
both. -/
def properties (schema : Schema) : List (String × String × PropertyType) :=
  schema.objects.toList.flatMap fun (owner, type) =>
    type.properties.toList.map fun (name, property) => (owner, name, property)

def codeNames (schema : Schema) : Names :=
  Names.ofList (schema.properties.filterMap fun (_, name, property) =>
    if property = .code then some name else none)

/-- The object types of the objects that an object of some type may hold. -/
def successors (schema : Schema) (typeName : String) : List String :=
  (schema.objectType typeName).properties.values.filterMap PropertyType.objectType?

/-- A set of object types with all that their objects may hold. -/
def grow (schema : Schema) (reached : Names) : Names :=
  (reached.keys.flatMap schema.successors).foldl (fun names name => names.insert name ()) reached

/-- The object types that a document can have objects of. A round that adds nothing is the
last that matters, and no more rounds than properties can add something. -/
def reachable (schema : Schema) : Names :=
  Nat.repeat schema.grow schema.properties.length schema.roots

end Schema

end Lookml
