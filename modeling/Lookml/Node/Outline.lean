import Lookml.Node.Registry

/-!
Nodes that keep all that they are made from, for any schema.
-/

namespace Lookml

inductive Outline
  | node (typeName : String) (instanceName : Option String) (fields : List (String × Field Outline))

def Outline.registry (typeNames : List String) : Registry Outline :=
  typeNames.foldl (fun registry typeName => registry.register typeName (.node typeName)) .empty

end Lookml
