import Lookml.Node.Field
import Lookml.Schema.Basic
import Lookml.Text.Visible

/-!
A registry knows for each object type how a node is made from an instance name, if there
is one, and the fields in their order. A registry fits a schema if it knows every object
type that a document can hold.
-/

namespace Lookml

abbrev Factory (ν : Type) := Option String → List (String × Field ν) → ν

structure Registry (ν : Type) where
  factories : Table (Factory ν)

namespace Registry

variable {ν : Type}

def empty : Registry ν := ⟨.empty⟩

/-- A factory for an object type, in place of an earlier one. -/
def register (registry : Registry ν) (typeName : String) (factory : Factory ν) : Registry ν :=
  ⟨registry.factories.insert typeName factory⟩

def contains (registry : Registry ν) (typeName : String) : Bool :=
  registry.factories.contains typeName

def missing? (registry : Registry ν) (schema : Schema) : Option String :=
  schema.reachable.keys.find? fun typeName => !registry.contains typeName

def missingMessage (typeName : String) : String :=
  s!"no node builder registered for object type '{typeName}'"

def bare? (registry : Registry ν) (typeName : String) : Option ν :=
  (registry.factories.get? typeName).map fun factory => factory none []

/-- A character between the quotes of a description. One that does not show is told by its
code point. -/
def spellChar (c : Char) : List Char :=
  match c with
  | '"' => ['\\', '"']
  | '\\' => ['\\', '\\']
  | '\n' => ['\\', 'n']
  | '\r' => ['\\', 'r']
  | '\t' => ['\\', 't']
  | '\x00' => ['\\', '0']
  | c =>
      if isVisible c then [c] else ['\\', 'u', '{'] ++ Nat.toDigits 16 c.toNat ++ ['}']

def spell (name : String) : String :=
  String.ofList ('"' :: (name.toList.flatMap spellChar ++ ['"']))

def describe (registry : Registry ν) : String :=
  "TypeRegistry \x7b types: [" ++ ", ".intercalate (registry.factories.keys.map spell) ++ "] \x7d"

end Registry

end Lookml
