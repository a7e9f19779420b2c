import Lookml.Conformance.Violation

/-!
What can be wrong with a schema, declared step by step or read from a document.
-/

namespace Lookml

inductive SchemaError
  | unknownEnumType (property : String) (enumType : String)
  | unknownObjectType (property : String) (objectType : String)
  | unknownType (property : String) (word : String)
  | missingType (property : String)
  | duplicateEnumType (name : String)
  | duplicateObjectType (name : String)
  | duplicateProperty (property : String) (parent : String)
  | codeClash (property : String) (codeIn : String) (otherIn : String) (other : TypeKeyword)
  | noSchema
  | invalidDocument (violations : List Violation)
  | unreadable (error : SyntaxError)
deriving DecidableEq

def SchemaError.message : SchemaError → String
  | .unknownEnumType property enumType =>
      s!"property '{property}' refers to undeclared enum type '{enumType}'"
  | .unknownObjectType property objectType =>
      s!"property '{property}' refers to undeclared object type '{objectType}'"
  | .unknownType property word => s!"property '{property}' has unknown type '{word}'"
  | .missingType property => s!"property '{property}' has no type"
  | .duplicateEnumType name => s!"enum type '{name}' is declared twice"
  | .duplicateObjectType name => s!"object type '{name}' is declared twice"
  | .duplicateProperty property parent => s!"property '{property}' is declared twice in '{parent}'"
  | .codeClash property codeIn otherIn other =>
      s!"property '{property}' is CODE in '{codeIn}' but {other.title} in '{otherIn}'"
  | .noSchema => "document declares no schema"
  | .invalidDocument violations =>
      "schema document does not validate: " ++
        "; ".intercalate (violations.map Violation.message)
  | .unreadable error => error.message

end Lookml
