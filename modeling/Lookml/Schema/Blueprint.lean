import Lookml.Schema.Declaration

/-!
Declaring a schema call by call, with all that the calls keep. A property is a record
under its name, and what configures an object type may look at each answer that it gets
and go on or fail. A blueprint is checked as a whole when it is finished.
-/

namespace Lookml

/-- A property as it is kept under its name, with the enum or object type that it
names. -/
structure Property where
  name : String
  keyword : TypeKeyword
  typeName? : Option String
deriving DecidableEq

namespace Property

def ofType (name : String) (type : PropertyType) : Property :=
  ⟨name, type.keyword, type.typeName?⟩

/-- A property at the top, which has the object type of its name. -/
def root (name : String) : Property := ⟨name, .namedObject, some name⟩

end Property

/-- What configures an object type. It declares one property after another, is told of
each whether it is refused, and finishes with an error of its own or without one. -/
inductive Configuration
  | finish (error : Option SchemaError)
  | declare (declaration : Declaration) (next : Option SchemaError → Configuration)

/-- Some properties in their order, up to the first that is refused. -/
def Configuration.ofDeclarations : List Declaration → Configuration
  | [] => .finish none
  | declaration :: declarations =>
      .declare declaration fun refusal =>
        match refusal with
        | none => ofDeclarations declarations
        | some error => .finish (some error)

/-- An object type that is being configured: its properties so far, and the first name
that came again. -/
@[ext] structure TypeDraft where
  properties : Table Property
  repeated : Option String
deriving DecidableEq

namespace TypeDraft

def start : TypeDraft := ⟨.empty, none⟩

/-- A property takes the place of an earlier one of its name. -/
def add (draft : TypeDraft) (property : Property) : TypeDraft where
  properties := draft.properties.insert property.name property
  repeated := draft.repeated.or
    (if draft.properties.contains property.name then some property.name else none)

end TypeDraft

/-- Only a property of an enum type that is not there yet is refused. -/
def Declaration.refusal? (enums : Table EnumType) (declaration : Declaration) :
    Option SchemaError :=
  match declaration.type with
  | .enum typeName =>
      if enums.contains typeName then none
      else some (.unknownEnumType declaration.name typeName)
  | _ => none

def Configuration.run (enums : Table EnumType) (draft : TypeDraft) :
    Configuration → Except SchemaError TypeDraft
  | .finish none => .ok draft
  | .finish (some error) => .error error
  | .declare declaration next =>
      match declaration.refusal? enums with
      | some error => (next (some error)).run enums draft
      | none =>
          (next none).run enums (draft.add (.ofType declaration.name declaration.type))

inductive SchemaCall
  | enum (name : String) (values : List String)
  | objectType (name : String) (configuration : Configuration)
  | root (name : String)
  | rootWith (name : String) (configuration : Configuration)

/-- A step is the call that declares its properties one by one. -/
def SchemaStep.call : SchemaStep → SchemaCall
  | .enum name values => .enum name values
  | .objectType name declarations => .objectType name (.ofDeclarations declarations)
  | .root name => .root name
  | .rootWith name declarations => .rootWith name (.ofDeclarations declarations)

structure Blueprint where
  name : String
  enums : Table EnumType
  objects : Table (Table Property)
  roots : Table Property
deriving DecidableEq

namespace Blueprint

def empty (name : String) : Blueprint := ⟨name, .empty, .empty, .empty⟩

def addEnum (blueprint : Blueprint) (name : String) (values : List String) :
    Blueprint × Option SchemaError :=
  if blueprint.enums.contains name then (blueprint, some (.duplicateEnumType name))
  else ({ blueprint with enums := blueprint.enums.insert name ⟨.ofList values⟩ }, none)

def addObjectType (blueprint : Blueprint) (name : String) (configuration : Configuration) :
    Blueprint × Option SchemaError :=
  if blueprint.objects.contains name then (blueprint, some (.duplicateObjectType name))
  else
    match configuration.run blueprint.enums .start with
    | .error error => (blueprint, some error)
    | .ok ⟨_, some property⟩ => (blueprint, some (.duplicateProperty property name))
    | .ok ⟨properties, none⟩ =>
        ({ blueprint with objects := blueprint.objects.insert name properties }, none)

/-- The property is put in whether or not one of its name is there already. -/
def addRoot (blueprint : Blueprint) (name : String) : Blueprint × Option SchemaError :=
  ({ blueprint with roots := blueprint.roots.insert name (.root name) },
    if blueprint.roots.contains name then some (.duplicateProperty name Schema.rootOwner)
    else none)

def addRootWith (blueprint : Blueprint) (name : String) (configuration : Configuration) :
    Blueprint × Option SchemaError :=
  match blueprint.addObjectType name configuration with
  | (next, some error) => (next, some error)
  | (next, none) => next.addRoot name

def call (blueprint : Blueprint) : SchemaCall → Blueprint × Option SchemaError
  | .enum name values => blueprint.addEnum name values
  | .objectType name configuration => blueprint.addObjectType name configuration
  | .root name => blueprint.addRoot name
  | .rootWith name configuration => blueprint.addRootWith name configuration

/-- The blueprint after some calls; it goes on after a call that fails. -/
def ofCalls (name : String) (calls : List SchemaCall) : Blueprint :=
  calls.foldl (fun blueprint call => (blueprint.call call).1) (empty name)

/-- All properties with what declares them, those at the top first. -/
def allProperties (blueprint : Blueprint) : List (String × Property) :=
  blueprint.roots.values.map (fun property => (Schema.rootOwner, property)) ++
    blueprint.objects.toList.flatMap fun (owner, properties) =>
      properties.values.map fun property => (owner, property)

/-- The complaint about a property whose type is not declared. -/
def unresolved? (blueprint : Blueprint) (property : Property) : Option SchemaError :=
  property.typeName?.bind fun typeName =>
    match property.keyword with
    | .enum =>
        if blueprint.enums.contains typeName then none
        else some (.unknownEnumType property.name typeName)
    | _ =>
        if blueprint.objects.contains typeName then none
        else some (.unknownObjectType property.name typeName)

def noteCode (owners : Table String) (owned : String × Property) : Table String :=
  if owned.2.keyword = .code ∧ owners.contains owned.2.name = false then
    owners.insert owned.2.name owned.1
  else owners

/-- The names of code, each with the first that declares it. -/
def codeOwners (blueprint : Blueprint) : Table String :=
  blueprint.allProperties.foldl noteCode .empty

/-- The complaint about a property of a name that is code elsewhere. -/
def clash? (owners : Table String) (owner : String) (property : Property) : Option SchemaError :=
  if property.keyword = .code then none
  else
    (owners.get? property.name).map fun codeIn =>
      .codeClash property.name codeIn owner property.keyword

def flaw? (blueprint : Blueprint) : Option SchemaError :=
  (blueprint.allProperties.findSome? fun (_, property) => blueprint.unresolved? property).or
    (blueprint.allProperties.findSome? fun (owner, property) =>
      clash? blueprint.codeOwners owner property)

/-- The finished blueprint with the names of code, or the first complaint. -/
def build (blueprint : Blueprint) : Except SchemaError (Blueprint × Names) :=
  match blueprint.flaw? with
  | some error => .error error
  | none => .ok (blueprint, .ofList blueprint.codeOwners.keys)

end Blueprint

end Lookml
