import Lookml.Number.Basic

/-!
Documents as trees. The members of an object and the elements of a list keep their order
and may repeat; comments stay with the item that they stand before, and those behind the
last item end the sequence.
-/

namespace Lookml

mutual
inductive Value
  | number (value : Number)
  | string (text : String)
  | boolean (value : Bool)
  | identifier (text : String)
  | code (text : String)
  | pair (reference : String) (text : String)
  | list (elements : Elements)
  | object (members : Members)
  | named (instanceName : String) (members : Members)

inductive Members
  | ending (comments : List String)
  | member (comments : List String) (name : String) (value : Value) (rest : Members)

inductive Elements
  | ending (comments : List String)
  | element (comments : List String) (value : Value) (rest : Elements)
end

instance : Inhabited Members := ⟨.ending []⟩

instance : Inhabited Elements := ⟨.ending []⟩

instance : Inhabited Value := ⟨.list default⟩

/-- A document is the content of an object without braces. -/
abbrev Document := Members

namespace Value

def kindName : Value → String
  | .number _ => "number"
  | .string _ => "string"
  | .boolean _ => "boolean"
  | .identifier _ => "identifier"
  | .code _ => "code"
  | .pair _ _ => "pair"
  | .list _ => "list"
  | .object _ => "object"
  | .named _ _ => "named object"

def number? : Value → Option Number
  | .number value => some value
  | _ => none

def boolean? : Value → Option Bool
  | .boolean value => some value
  | _ => none

def text? : Value → Option String
  | .string text | .identifier text | .code text => some text
  | _ => none

def identifier? : Value → Option String
  | .identifier text => some text
  | _ => none

def elements? : Value → Option Elements
  | .list elements => some elements
  | _ => none

/-- The members of an object, whether an instance name stands before it or not. -/
def members? : Value → Option Members
  | .object members | .named _ members => some members
  | _ => none

def instanceName? : Value → Option String
  | .named instanceName _ => some instanceName
  | _ => none

end Value

namespace Members

def empty : Members := .ending []

def toList : Members → List (String × Value)
  | .ending _ => []
  | .member _ name value rest => (name, value) :: rest.toList

@[simp] theorem toList_ending (comments : List String) : (ending comments).toList = [] := rfl

@[simp] theorem toList_member (comments : List String) (name : String) (value : Value)
    (rest : Members) :
    (member comments name value rest).toList = (name, value) :: rest.toList := rfl

def length (members : Members) : Nat := members.toList.length

def isEmpty (members : Members) : Bool := members.toList.isEmpty

/-- A further member behind the last one. -/
def push (name : String) (value : Value) : Members → Members
  | .ending comments => .member [] name value (.ending comments)
  | .member comments name' value' rest => .member comments name' value' (rest.push name value)

theorem toList_push (name : String) (value : Value) (members : Members) :
    (members.push name value).toList = members.toList ++ [(name, value)] := by
  induction members using toList.induct with
  | case1 comments => rfl
  | case2 comments name' value' rest ih => simp [push, ih]

def getAll (members : Members) (name : String) : List Value :=
  members.toList.filterMap fun member => if member.1 = name then some member.2 else none

def get? (members : Members) (name : String) : Option Value :=
  (members.getAll name).head?

def contains (members : Members) (name : String) : Bool :=
  members.toList.any fun member => member.1 = name

/-- The members of the first object that carries both names. -/
def getNamed? (members : Members) (name instanceName : String) : Option Members :=
  (members.getAll name).findSome? fun value =>
    match value with
    | .named found inner => if found = instanceName then some inner else none
    | _ => none

end Members

namespace Elements

def empty : Elements := .ending []

def toList : Elements → List Value
  | .ending _ => []
  | .element _ value rest => value :: rest.toList

@[simp] theorem toList_ending (comments : List String) : (ending comments).toList = [] := rfl

@[simp] theorem toList_element (comments : List String) (value : Value) (rest : Elements) :
    (element comments value rest).toList = value :: rest.toList := rfl

def ofList : List Value → Elements
  | [] => .ending []
  | value :: values => .element [] value (ofList values)

theorem toList_ofList (values : List Value) : (ofList values).toList = values := by
  induction values with
  | nil => rfl
  | cons value values ih => simp [ofList, ih]

def length (elements : Elements) : Nat := elements.toList.length

def isEmpty (elements : Elements) : Bool := elements.toList.isEmpty

def get? (elements : Elements) (index : Nat) : Option Value := elements.toList[index]?

/-- A further element behind the last one. -/
def push (value : Value) : Elements → Elements
  | .ending comments => .element [] value (.ending comments)
  | .element comments value' rest => .element comments value' (rest.push value)

theorem toList_push (value : Value) (elements : Elements) :
    (elements.push value).toList = elements.toList ++ [value] := by
  induction elements using toList.induct with
  | case1 comments => rfl
  | case2 comments value' rest ih => simp [push, ih]

end Elements

/-! Equality of trees, with numbers compared as values: a NaN makes two trees differ. -/

mutual
def Value.same : Value → Value → Bool
  | .number value, .number value' => value.same value'
  | .string text, .string text' => text == text'
  | .boolean value, .boolean value' => value == value'
  | .identifier text, .identifier text' => text == text'
  | .code text, .code text' => text == text'
  | .pair reference text, .pair reference' text' => reference == reference' && text == text'
  | .list elements, .list elements' => elements.same elements'
  | .object members, .object members' => members.same members'
  | .named name members, .named name' members' => name == name' && members.same members'
  | _, _ => false

def Members.same : Members → Members → Bool
  | .ending comments, .ending comments' => comments == comments'
  | .member comments name value rest, .member comments' name' value' rest' =>
      comments == comments' && name == name' && value.same value' && rest.same rest'
  | _, _ => false

def Elements.same : Elements → Elements → Bool
  | .ending comments, .ending comments' => comments == comments'
  | .element comments value rest, .element comments' value' rest' =>
      comments == comments' && value.same value' && rest.same rest'
  | _, _ => false
end

/-! Trees without their comments. -/

mutual
def Value.withoutComments : Value → Value
  | .list elements => .list elements.withoutComments
  | .object members => .object members.withoutComments
  | .named instanceName members => .named instanceName members.withoutComments
  | .number value => .number value
  | .string text => .string text
  | .boolean value => .boolean value
  | .identifier text => .identifier text
  | .code text => .code text
  | .pair reference text => .pair reference text

def Members.withoutComments : Members → Members
  | .ending _ => .ending []
  | .member _ name value rest => .member [] name value.withoutComments rest.withoutComments

def Elements.withoutComments : Elements → Elements
  | .ending _ => .ending []
  | .element _ value rest => .element [] value.withoutComments rest.withoutComments
end

/-! Paths into a tree: a name steps to the first value of a property, an index into a
list. -/

inductive PathStep
  | name (name : String)
  | index (index : Nat)
deriving DecidableEq

def Value.step? (value : Value) : PathStep → Option Value
  | .name name => value.members?.bind (·.get? name)
  | .index index => value.elements?.bind (·.get? index)

def Members.at? (members : Members) : List PathStep → Option Value
  | [] => none
  | step :: steps => steps.foldlM Value.step? =<< (Value.object members).step? step

end Lookml
