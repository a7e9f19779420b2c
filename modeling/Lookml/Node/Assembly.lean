import Lookml.Conformance.Checker
import Lookml.Node.Registry
import Lookml.Tree.Assembly

/-!
Making nodes from a stream. The objects at the top of a document become nodes, and an
object inside another becomes a field of the other's node. An object of which the schema
or the registry does not know the type is passed over with all that it holds. Comments are
ignored, and so are values at the top.
-/

namespace Lookml

variable {ν : Type}

namespace NodeAssembly

/-- An open scope: the document with its nodes so far, an object with its fields so far, a
list, or a scope that is passed over. The newest node or field stands first. -/
inductive Frame (ν : Type)
  | document (nodes : List (String × ν))
  | node (property : String) (type : ObjectType) (factory : Factory ν)
      (instanceName : Option String) (fields : List (String × Field ν))
  | list (frame : Assembly.Frame)
  | passed

def openNode (schema : Schema) (registry : Registry ν) (property : String) (typeName : String)
    (instanceName : Option String) : Frame ν :=
  match schema.objects.get? typeName, registry.factories.get? typeName with
  | some type, some factory => .node property type factory instanceName []
  | _, _ => .passed

/-- The frame of an object inside another, by the type that the property there names. -/
def openChild (schema : Schema) (registry : Registry ν) (type : ObjectType) (property : String)
    (instanceName : Option String) : Frame ν :=
  match (type.property? property).bind PropertyType.typeName? with
  | some typeName => openNode schema registry property typeName instanceName
  | none => .passed

def openRoot (schema : Schema) (registry : Registry ν) (property instanceName : String) :
    Frame ν :=
  if schema.roots.contains property then
    openNode schema registry property property (some instanceName)
  else .passed

namespace Frame

def takeAtTop (schema : Schema) (registry : Registry ν) (frame : Frame ν) (event : Event) :
    List (Frame ν) :=
  match event with
  | .named name instanceName => [openRoot schema registry name instanceName, frame]
  | .list _ | .object _ => [.passed, frame]
  | _ => [frame]

def takeInNode (schema : Schema) (registry : Registry ν) (property : String) (type : ObjectType)
    (factory : Factory ν) (instanceName : Option String) (fields : List (String × Field ν))
    (event : Event) : List (Frame ν) :=
  let same : Frame ν := .node property type factory instanceName fields
  match event with
  | .list name => [.list ⟨[], name.getD "", .list, [], []⟩, same]
  | .object name => [openChild schema registry type name none, same]
  | .named name inner => [openChild schema registry type name (some inner), same]
  | event =>
      match event.scalar? with
      | some (name, value) =>
          [.node property type factory instanceName ((name.getD "", .value value) :: fields)]
      | none => [same]

def take (schema : Schema) (registry : Registry ν) (frame : Frame ν) (event : Event) :
    List (Frame ν) :=
  match frame with
  | .document _ => frame.takeAtTop schema registry event
  | .node property type factory instanceName fields =>
      takeInNode schema registry property type factory instanceName fields event
  | .list inner => (inner.take event).map .list
  | .passed => event.opens?.toList.map (fun _ => .passed) ++ [.passed]

def put (frame : Frame ν) (property : String) (field : Field ν) : Frame ν :=
  match frame, field with
  | .document nodes, .node made => .document ((property, made) :: nodes)
  | .node outer type factory instanceName fields, field =>
      .node outer type factory instanceName ((property, field) :: fields)
  | frame, _ => frame

def close (inner outer : Frame ν) : Frame ν :=
  match inner, outer with
  | .node property _ factory instanceName fields, outer =>
      outer.put property (.node (factory instanceName fields.reverse))
  | .list frame, .list around => .list (around.put frame.item)
  | .list frame, outer => outer.put frame.name (.value frame.value)
  | .document _, outer | .passed, outer => outer

end Frame

/-- The frames after a delivery, the innermost first and the document's last. -/
def step (schema : Schema) (registry : Registry ν) (frames : List (Frame ν))
    (delivery : Delivery) : List (Frame ν) :=
  match delivery, frames with
  | _, [] => []
  | .abandon, _ :: [] | .event .close, _ :: [] => frames
  | .abandon, _ :: outer => outer
  | .event .close, inner :: outer :: frames => inner.close outer :: frames
  | .event event, frame :: frames => frame.take schema registry event ++ frames

def nodesOf : List (Frame ν) → List (String × ν)
  | [] => []
  | .document nodes :: _ => nodes.reverse
  | _ :: frames => nodesOf frames

end NodeAssembly

/-- The nodes that a stream tells, each with the property that it stands under. -/
def nodesOfStream (schema : Schema) (registry : Registry ν) (deliveries : List Delivery) :
    List (String × ν) :=
  NodeAssembly.nodesOf
    (deliveries.foldl (NodeAssembly.step schema registry) [.document []])

def Schema.readNodes (schema : Schema) (registry : Registry ν) (source : List Char) :
    Except SyntaxError (List (String × ν) × List Violation) :=
  (schema.check source).map fun verdicts =>
    (nodesOfStream schema registry (Verdict.forwarded verdicts), Verdict.violations verdicts)

end Lookml
