import Lookml.Tree.Basic

/-!
What a node is made from: for each property of an object a value, or the node of an object
inside it.
-/

namespace Lookml

inductive Field (ν : Type)
  | value (held : Value)
  | node (made : ν)

namespace Field

variable {ν : Type}

def value? : Field ν → Option Value
  | .value held => some held
  | .node _ => none

def node? : Field ν → Option ν
  | .value _ => none
  | .node made => some made

def text? (field : Field ν) : Option String := field.value?.bind Value.text?

def number? (field : Field ν) : Option Number := field.value?.bind Value.number?

/-- A truth value, also where it is written as `true` or `false`. -/
def truth? : Field ν → Option Bool
  | .value (.boolean truth) => some truth
  | .value (.identifier "true") => some true
  | .value (.identifier "false") => some false
  | _ => none

def elements (field : Field ν) : List Value :=
  ((field.value?.bind Value.elements?).map Elements.toList).getD []

def texts (field : Field ν) : List String :=
  field.elements.filterMap fun element =>
    match element with
    | .string text | .identifier text => some text
    | _ => none

def pairs (field : Field ν) : List (String × String) :=
  field.elements.filterMap fun element =>
    match element with
    | .pair reference text => some (reference, text)
    | _ => none

end Field

end Lookml
