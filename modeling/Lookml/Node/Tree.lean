import Lookml.Node.Registry

/-!
The nodes of a tree, made from the inside out. An object has a node only if its property
names an object type that both the schema and the registry know, and if the objects inside
it have nodes.
-/

namespace Lookml

variable {ν : Type}

/-- What is known of an object type: its properties, and how a node of it is made. -/
def Registry.known? (registry : Registry ν) (schema : Schema) (typeName : String) :
    Option (ObjectType × Factory ν) := do
  let type ← schema.objects.get? typeName
  let factory ← registry.factories.get? typeName
  return (type, factory)

def Registry.knownOf? (registry : Registry ν) (schema : Schema) (type : ObjectType)
    (property : String) : Option (ObjectType × Factory ν) := do
  registry.known? schema (← (← type.property? property).objectType?)

mutual
/-- What a value under a property gives to the node of its object. -/
def Value.field? (schema : Schema) (registry : Registry ν) (type : ObjectType)
    (property : String) : Value → Option (Field ν)
  | .object members => do
      let (inner, factory) ← registry.knownOf? schema type property
      return .node (factory none (← members.fields? schema registry inner))
  | .named instanceName members => do
      let (inner, factory) ← registry.knownOf? schema type property
      return .node (factory (some instanceName) (← members.fields? schema registry inner))
  | value => some (.value value)

def Members.fields? (schema : Schema) (registry : Registry ν) (type : ObjectType) :
    Members → Option (List (String × Field ν))
  | .ending _ => some []
  | .member _ property value rest => do
      let field ← value.field? schema registry type property
      return (property, field) :: (← rest.fields? schema registry type)
end

/-- The node of a named object at the top, whose object type has the name of its
property. -/
def Members.rootNode? (schema : Schema) (registry : Registry ν) (property instanceName : String)
    (members : Members) : Option ν :=
  if schema.roots.contains property then do
    let (type, factory) ← registry.known? schema property
    return factory (some instanceName) (← members.fields? schema registry type)
  else none

/-- The nodes of the named objects at the top of a document, each with its property. -/
def Members.nodes? (schema : Schema) (registry : Registry ν) :
    Members → Option (List (String × ν))
  | .ending _ => some []
  | .member _ property (.named instanceName members) rest => do
      let node ← members.rootNode? schema registry property instanceName
      return (property, node) :: (← rest.nodes? schema registry)
  | .member _ _ _ rest => rest.nodes? schema registry

end Lookml
