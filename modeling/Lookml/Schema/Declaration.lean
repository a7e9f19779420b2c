import Lookml.Schema.Error

/-!
Declaring a schema step by step. A step that fails leaves the schema as it was, save that
an object type declared together with a property at the top stays when only the property
fails. A finished schema is checked as a whole: all types are declared, and no name is
code here and something else there.
-/

namespace Lookml

structure Declaration where
  name : String
  type : PropertyType
deriving DecidableEq

inductive SchemaStep
  | enum (name : String) (values : List String)
  | objectType (name : String) (declarations : List Declaration)
  | root (name : String)
  | rootWith (name : String) (declarations : List Declaration)
deriving DecidableEq

namespace Schema

def rootOwner : String := "(root)"

def empty (name : String) : Schema := ⟨name, .empty, .empty, .empty⟩

def addEnum (schema : Schema) (name : String) (values : List String) :
    Except SchemaError Schema :=
  if schema.enums.contains name then .error (.duplicateEnumType name)
  else .ok { schema with enums := schema.enums.insert name ⟨.ofList values⟩ }

/-- The first declaration of an enum type that is not there yet. -/
def undeclaredEnum? (schema : Schema) (declarations : List Declaration) : Option SchemaError :=
  declarations.findSome? fun declaration =>
    match declaration.type with
    | .enum typeName =>
        if schema.enums.contains typeName then none
        else some (.unknownEnumType declaration.name typeName)
    | _ => none

/-- The first name that has been on the list before. -/
def repeated? (seen : List String) : List String → Option String
  | [] => none
  | name :: names => if seen.contains name then some name else repeated? (name :: seen) names

def typeOf (declarations : List Declaration) : ObjectType :=
  ⟨.ofList (declarations.map fun declaration => (declaration.name, declaration.type))⟩

def addObjectType (schema : Schema) (name : String) (declarations : List Declaration) :
    Except SchemaError Schema :=
  if schema.objects.contains name then .error (.duplicateObjectType name)
  else
    match schema.undeclaredEnum? declarations, repeated? [] (declarations.map Declaration.name) with
    | some error, _ => .error error
    | none, some property => .error (.duplicateProperty property name)
    | none, none => .ok { schema with objects := schema.objects.insert name (typeOf declarations) }

def addRoot (schema : Schema) (name : String) : Except SchemaError Schema :=
  if schema.roots.contains name then .error (.duplicateProperty name rootOwner)
  else .ok { schema with roots := schema.roots.insert name () }

def declare (schema : Schema) (step : SchemaStep) : Schema × Option SchemaError :=
  match step with
  | .enum name values => settled schema (schema.addEnum name values)
  | .objectType name declarations => settled schema (schema.addObjectType name declarations)
  | .root name => settled schema (schema.addRoot name)
  | .rootWith name declarations =>
      match schema.addObjectType name declarations with
      | .error error => (schema, some error)
      | .ok schema => settled schema (schema.addRoot name)
where
  settled (schema : Schema) : Except SchemaError Schema → Schema × Option SchemaError
    | .ok next => (next, none)
    | .error error => (schema, some error)

/-- All properties with what declares them, those at the top first. -/
def allProperties (schema : Schema) : List (String × String × PropertyType) :=
  schema.roots.keys.map (fun name => (rootOwner, name, .named name)) ++ schema.properties

/-- The complaint about a property whose type is not declared. -/
def unresolved? (schema : Schema) (name : String) (type : PropertyType) : Option SchemaError :=
  match type with
  | .enum typeName =>
      if schema.enums.contains typeName then none else some (.unknownEnumType name typeName)
  | .object typeName | .named typeName =>
      if schema.objects.contains typeName then none
      else some (.unknownObjectType name typeName)
  | _ => none

def codeOwner? (schema : Schema) (name : String) : Option String :=
  (schema.properties.find? fun (_, other, type) => other == name && type == .code).map Prod.fst

/-- The complaint about a property of a name that is code elsewhere. -/
def clash? (schema : Schema) (owner name : String) (type : PropertyType) : Option SchemaError :=
  if type = .code then none
  else (schema.codeOwner? name).map fun codeIn => .codeClash name codeIn owner type.keyword

def flaw? (schema : Schema) : Option SchemaError :=
  (schema.allProperties.findSome? fun (_, name, type) => schema.unresolved? name type).or
    (schema.allProperties.findSome? fun (owner, name, type) => schema.clash? owner name type)

def build (schema : Schema) : Except SchemaError Schema :=
  match schema.flaw? with
  | some error => .error error
  | none => .ok schema

/-- The schema of some steps; steps that fail are passed over. -/
def ofSteps (name : String) (steps : List SchemaStep) : Schema :=
  steps.foldl (fun schema step => (schema.declare step).1) (empty name)

end Schema

end Lookml
