import Lookml.Schema.Basic

/-!
The ways in which a document can break its schema.
-/

namespace Lookml

inductive ValueKind
  | number
  | string
  | boolean
  | identifier
  | code
  | pair
  | list
  | object
  | namedObject
deriving DecidableEq

def ValueKind.title : ValueKind → String
  | .number => "NUMBER"
  | .string => "STRING"
  | .boolean => "BOOLEAN"
  | .identifier => "IDENTIFIER"
  | .code => "CODE"
  | .pair => "REF_STRING"
  | .list => "LIST"
  | .object => "OBJECT"
  | .namedObject => "NAMED_OBJECT"

inductive Violation
  | invalidRoot (name : String)
  | invalidProperty (name : String) (parent : String)
  | nameRequired (name : String)
  | invalidType (name : String) (expected : TypeKeyword) (actual : ValueKind)
  | invalidEnumValue (parent : String) (name : String) (enumType : String) (value : String)
  | invalidElement (name : String) (actual : ValueKind) (elements : ListType)
  | duplicateProperty (name : String)
  | duplicateNamed (name : String) (instanceName : String)
deriving DecidableEq

def Violation.message : Violation → String
  | .invalidRoot name => s!"'{name}' is not a valid top-level property"
  | .invalidProperty name parent => s!"'{name}' is not a valid property of '{parent}'"
  | .nameRequired name => s!"'{name}' needs an instance name"
  | .invalidType name expected actual =>
      s!"'{name}' should be {expected.title}, found {actual.title}"
  | .invalidEnumValue parent name enumType value =>
      s!"'{value}' is not a valid {enumType} for '{name}' of '{parent}'"
  | .invalidElement name actual elements =>
      s!"{actual.title} is not a valid element of '{name}' ({elements.keyword.title})"
  | .duplicateProperty name => s!"'{name}' is already set"
  | .duplicateNamed name instanceName => s!"'{name}: {instanceName}' is already defined"

def Violation.report (violations : List Violation) : String :=
  String.join (violations.map fun violation => violation.message ++ "\n")

end Lookml
