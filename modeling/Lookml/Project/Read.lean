import Lookml.Node.Assembly
import Lookml.Project.Parts
import Lookml.Project.Schema
import Lookml.Schema.Document

/-!
Reading a project from a text, by the schema that the library carries. Any violation of
the schema fails the whole text.
-/

namespace Lookml.Project

inductive ReadError
  | schema (error : SchemaError)
  | unregistered (typeName : String)
  | unreadable (error : SyntaxError)
  | invalid (violations : List Violation)
deriving DecidableEq

def ReadError.message : ReadError → String
  | .schema error => error.message
  | .unregistered typeName => Registry.missingMessage typeName
  | .unreadable error => error.message
  | .invalid violations => s!"document has {violations.length} validation error(s)"

def ofParts (parts : List (String × Part)) : Project where
  models := parts.filterMap fun part =>
    match part.2 with
    | .model model => some model
    | _ => none
  views := parts.filterMap fun part =>
    match part.2 with
    | .view view => some view
    | _ => none

/-- The project of a text by a schema, if that could be loaded. There has to be a part for
every object type that it reaches. -/
def readBy (loaded : Except SchemaError Schema) (source : List Char) : Except ReadError Project :=
  match loaded with
  | .error error => .error (.schema error)
  | .ok schema =>
      match registry.missing? schema with
      | some typeName => .error (.unregistered typeName)
      | none =>
          match schema.readNodes registry source with
          | .error error => .error (.unreadable error)
          | .ok (parts, []) => .ok (ofParts parts)
          | .ok (_, violations) => .error (.invalid violations)

def read (source : List Char) : Except ReadError Project :=
  readBy (Schema.load schemaText.toList) source

end Lookml.Project
