import Lookml.Conformance.Violation
import Lookml.Tree.Assembly

/-!
Checking a stream against a schema. What conforms is passed on; what does not is reported
once and left out, a scope with all that it holds. Comments are passed on wherever the
scope around them is.
-/

namespace Lookml

/-- What is made of a delivery that is not left out in silence. -/
inductive Verdict
  | forward (delivery : Delivery)
  | report (violation : Violation)
deriving DecidableEq

namespace Checker

/-- An open scope. Inside an object the names that are taken are known; the document
itself has no object type. In a refused scope nothing is looked at. -/
inductive Level
  | object (type : Option (String × ObjectType)) (taken : List String)
  | list (name : String) (elements : ListType)
  | refused
deriving DecidableEq

/-- What a level says of an event: it stays out, or it goes on, with the level afterwards
and the level of the scope that it opens. -/
inductive Judgement
  | refuse (violation : Violation)
  | keep (level : Level)
  | enter (level : Level) (inner : Level)
  | ignore
deriving DecidableEq

/-- The declaration of a property. The document itself has none of scalars, lists or
objects without an instance name. -/
def declared (type : Option (String × ObjectType)) (name : String) :
    Except Violation PropertyType :=
  match type with
  | none => .error (.invalidRoot name)
  | some (typeName, type) =>
      match type.property? name with
      | some property => .ok property
      | none => .error (.invalidProperty name typeName)

def takeName (taken : List String) (name : String) : Except Violation (List String) :=
  if taken.contains name then .error (.duplicateProperty name) else .ok (name :: taken)

/-- The name under which an object with an instance name is taken. -/
def pairedName (name instanceName : String) : String := name ++ ":" ++ instanceName

def takeNamed (taken : List String) (name instanceName : String) :
    Except Violation (List String) :=
  if taken.contains (pairedName name instanceName) then
    .error (.duplicateNamed name instanceName)
  else .ok (pairedName name instanceName :: taken)

def requireType (property expected : PropertyType) (name : String) (actual : ValueKind) :
    Except Violation Unit :=
  if property = expected then .ok () else .error (.invalidType name property.keyword actual)

/-- Whether a property takes an identifier: as a reference, or as a literal of its
enum. -/
def requireIdentifier (schema : Schema) (parent : String) (property : PropertyType)
    (name text : String) : Except Violation Unit :=
  match property with
  | .ref => .ok ()
  | .enum typeName =>
      if ((schema.enums.get? typeName).map fun type => type.contains text).getD false then .ok ()
      else .error (.invalidEnumValue parent name typeName text)
  | _ => .error (.invalidType name property.keyword .identifier)

/-- Whether a property takes a truth value, which only an enum of the truth values
does. -/
def requireTruth (schema : Schema) (parent : String) (property : PropertyType) (name : String)
    (value : Bool) : Except Violation Unit :=
  match property with
  | .enum typeName =>
      if ((schema.enums.get? typeName).map EnumType.isBoolean).getD false then .ok ()
      else .error (.invalidEnumValue parent name typeName (wordOfTruth value))
  | _ => .error (.invalidType name property.keyword .boolean)

def requireList (property : PropertyType) (name : String) : Except Violation ListType :=
  match property with
  | .list elements => .ok elements
  | _ => .error (.invalidType name property.keyword .list)

def requireObject (property : PropertyType) (name : String) : Except Violation String :=
  match property with
  | .object typeName => .ok typeName
  | .named _ => .error (.nameRequired name)
  | _ => .error (.invalidType name property.keyword .object)

def requireNamed (property : PropertyType) (name : String) : Except Violation String :=
  match property with
  | .named typeName => .ok typeName
  | _ => .error (.invalidType name property.keyword .namedObject)

/-- The object type of an object with an instance name; at the top it has the name of the
property. -/
def namedType (schema : Schema) (type : Option (String × ObjectType)) (name : String) :
    Except Violation String :=
  match type with
  | none => if schema.roots.contains name then .ok name else .error (.invalidRoot name)
  | some _ => do requireNamed (← declared type name) name

/-- The object type of an object without an instance name; there is none at the top. -/
def plainType (schema : Schema) (type : Option (String × ObjectType)) (name : String) :
    Except Violation String :=
  match type with
  | none =>
      if schema.roots.contains name then .error (.nameRequired name)
      else .error (.invalidRoot name)
  | some _ => do requireObject (← declared type name) name

/-- The level inside an object of some type, with no name taken. An undeclared type counts
as one without properties; with a schema that was built no checker comes to one. -/
def levelOf (schema : Schema) (typeName : String) : Level :=
  .object (some (typeName, schema.objectType typeName)) []

def elementKind : Event → ValueKind
  | .number _ _ => .number
  | .truth _ _ => .boolean
  | .string _ _ => .string
  | .identifier _ _ => .identifier
  | .code _ _ => .code
  | .pair _ _ => .pair
  | .list _ => .list
  | .object _ | .comment _ | .close => .object
  | .named _ _ => .namedObject

def admittedKind : ListType → ValueKind
  | .refs => .identifier
  | .strings => .string
  | .pairs => .pair

/-- The names taken in an object after a scalar property. -/
def scalarProperty (schema : Schema) (type : Option (String × ObjectType)) (taken : List String)
    (name : String) (event : Event) : Except Violation (List String) := do
  let property ← declared type name
  let parent := (type.map Prod.fst).getD ""
  match event with
  | .number _ _ => requireType property .number name .number
  | .string _ _ => requireType property .string name .string
  | .code _ _ => requireType property .code name .code
  | .truth _ value => requireTruth schema parent property name value
  | .identifier _ text => requireIdentifier schema parent property name text
  | _ => .ok ()
  takeName taken name

def judgeScalar (schema : Schema) (type : Option (String × ObjectType)) (taken : List String)
    (name : String) (event : Event) : Judgement :=
  match scalarProperty schema type taken name event with
  | .ok taken => .keep (.object type taken)
  | .error violation => .refuse violation

def judgeList (type : Option (String × ObjectType)) (taken : List String) (name : String) :
    Judgement :=
  let judged : Except Violation (ListType × List String) := do
    let elements ← requireList (← declared type name) name
    return (elements, ← takeName taken name)
  match judged with
  | .ok (elements, taken) => .enter (.object type taken) (.list name elements)
  | .error violation => .refuse violation

def judgeObject (schema : Schema) (type : Option (String × ObjectType)) (taken : List String)
    (name : String) : Judgement :=
  let judged : Except Violation (String × List String) := do
    let typeName ← plainType schema type name
    return (typeName, ← takeName taken name)
  match judged with
  | .ok (typeName, taken) => .enter (.object type taken) (levelOf schema typeName)
  | .error violation => .refuse violation

def judgeNamed (schema : Schema) (type : Option (String × ObjectType)) (taken : List String)
    (name instanceName : String) : Judgement :=
  let judged : Except Violation (String × List String) := do
    let typeName ← namedType schema type name
    return (typeName, ← takeNamed taken name instanceName)
  match judged with
  | .ok (typeName, taken) => .enter (.object type taken) (levelOf schema typeName)
  | .error violation => .refuse violation

def judge (schema : Schema) (level : Level) (event : Event) : Judgement :=
  match level with
  | .refused => .ignore
  | .list name elements =>
      match event with
      | .comment _ => .keep level
      | event =>
          if elementKind event = admittedKind elements then .keep level
          else .refuse (.invalidElement name (elementKind event) elements)
  | .object type taken =>
      match event with
      | .comment _ | .close => .keep level
      | .number name _ | .truth name _ | .string name _ | .identifier name _ =>
          judgeScalar schema type taken (name.getD "") event
      | .code name _ => judgeScalar schema type taken name event
      | .pair reference _ => judgeScalar schema type taken reference event
      | .list name => judgeList type taken (name.getD "")
      | .object name => judgeObject schema type taken name
      | .named name instanceName => judgeNamed schema type taken name instanceName

end Checker

/-- The levels of the open scopes, the innermost first and the document's last. -/
structure Checker where
  schema : Schema
  levels : List Checker.Level
deriving DecidableEq

namespace Checker

def start (schema : Schema) : Checker := ⟨schema, [.object none []]⟩

def refusedLevels (event : Event) : List Level :=
  event.opens?.toList.map fun _ => .refused

/-- Leaves the innermost scope; inside a refused one nothing is told of it. -/
def leave (checker : Checker) (delivery : Delivery) : Checker × Option Verdict :=
  match checker.levels with
  | [] => (checker, none)
  | .refused :: levels => ({ checker with levels }, none)
  | _ :: levels => ({ checker with levels }, some (.forward delivery))

def step (checker : Checker) (delivery : Delivery) : Checker × Option Verdict :=
  match delivery, checker.levels with
  | .abandon, _ | .event .close, _ => checker.leave delivery
  | .event _, [] => (checker, none)
  | .event event, level :: levels =>
      match judge checker.schema level event with
      | .keep level => ({ checker with levels := level :: levels }, some (.forward delivery))
      | .enter level inner =>
          ({ checker with levels := inner :: level :: levels }, some (.forward delivery))
      | .refuse violation =>
          ({ checker with levels := refusedLevels event ++ level :: levels },
            some (.report violation))
      | .ignore => ({ checker with levels := refusedLevels event ++ level :: levels }, none)

def verdicts (checker : Checker) : List Delivery → List Verdict
  | [] => []
  | delivery :: deliveries =>
      let (next, verdict) := checker.step delivery
      verdict.toList ++ next.verdicts deliveries

end Checker

namespace Verdict

def delivery? : Verdict → Option Delivery
  | .forward delivery => some delivery
  | .report _ => none

def violation? : Verdict → Option Violation
  | .forward _ => none
  | .report violation => some violation

def forwarded (verdicts : List Verdict) : List Delivery := verdicts.filterMap delivery?

def violations (verdicts : List Verdict) : List Violation := verdicts.filterMap violation?

end Verdict

namespace Schema

def verdicts (schema : Schema) (deliveries : List Delivery) : List Verdict :=
  (Checker.start schema).verdicts deliveries

def read (schema : Schema) (source : List Char) : Reading :=
  Reading.ofText schema.codeNames source

/-- The verdicts on what a text tells, or the error that stops the reading. -/
def check (schema : Schema) (source : List Char) : Except SyntaxError (List Verdict) :=
  let reading := schema.read source
  match reading.failure with
  | some error => .error error
  | none => .ok (schema.verdicts (wholeDocument reading.events))

def validate (schema : Schema) (source : List Char) : Except SyntaxError (List Violation) :=
  (schema.check source).map Verdict.violations

/-- The document of what conforms in a text, and the violations. -/
def readValid (schema : Schema) (source : List Char) :
    Except SyntaxError (Document × List Violation) :=
  (schema.check source).map fun verdicts =>
    ((Document.ofStream? (Verdict.forwarded verdicts)).getD .empty, Verdict.violations verdicts)

end Schema

end Lookml
