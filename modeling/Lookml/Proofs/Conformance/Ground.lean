import Lookml.Proofs.Event.Forest
import Lookml.Schema.Basic

/-!
What it is for a document to conform to a schema, said of its items and not of a run of a
checker. The ground of a scope is what the schema has for it; it says which items may
stand there, and what the ground of their inside is. Besides, no property without an
instance name may stand twice in a scope, and no object with both its names.
-/

namespace Lookml

namespace Event

/-- The name that an item has as a property. -/
def propertyName? : Event → Option String
  | .number name _ | .truth name _ | .string name _ | .identifier name _ | .list name => name
  | .code name _ | .object name | .named name _ => some name
  | .pair _ _ | .comment _ | .close => none

/-- The name of a property that has no instance name. -/
def plainName? : Event → Option String
  | .named _ _ => none
  | event => event.propertyName?

/-- An item repeats an earlier one if both are a property of one name without an instance
name, or if both are objects with both names the same. -/
def Repeats (event earlier : Event) : Prop :=
  (∃ name, event.plainName? = some name ∧ earlier.plainName? = some name) ∨
    ∃ name instanceName, event = .named name instanceName ∧ earlier = .named name instanceName

end Event

/-- The values of an enum are exactly the two truth values, in one of their spellings. -/
def EnumType.IsOfTruth (enumType : EnumType) : Prop :=
  (∀ word, enumType.contains word = true ↔ word = "false" ∨ word = "true") ∨
    ∀ word, enumType.contains word = true ↔ word = "no" ∨ word = "yes"

/-- What a scope is to a schema: the document, an object of some type, or a list. -/
inductive Ground
  | document
  | object (type : ObjectType)
  | list (elements : ListType)

/-- A property of this type takes the value of an item that opens no scope. -/
def PropertyType.Takes (schema : Schema) (property : PropertyType) : Event → Prop
  | .number _ _ => property = .number
  | .string _ _ => property = .string
  | .code _ _ => property = .code
  | .identifier _ text => property = .ref ∨ ∃ typeName enumType, property = .enum typeName ∧
      schema.enums.get? typeName = some enumType ∧ enumType.contains text = true
  | .truth _ _ => ∃ typeName enumType, property = .enum typeName ∧
      schema.enums.get? typeName = some enumType ∧ enumType.IsOfTruth
  | _ => False

/-- A property of this type is opened by an item, and this is the ground of its inside. -/
def PropertyType.Opens (schema : Schema) (property : PropertyType) : Event → Ground → Prop
  | .list _, .list elements => property = .list elements
  | .object _, .object type => ∃ typeName, property = .object typeName ∧
      schema.objects.get? typeName = some type
  | .named _ _, .object type => ∃ typeName, property = .named typeName ∧
      schema.objects.get? typeName = some type
  | _, _ => False

section Properties
variable {schema : Schema} {property : PropertyType} {event : Event} {inside inside' : Ground}

theorem PropertyType.Takes.opens? (h : property.Takes schema event) : event.opens? = none := by
  cases event <;> first | rfl | cases h

theorem PropertyType.Opens.opens? (h : property.Opens schema event inside) :
    event.opens?.isSome = true := by
  cases event <;> first | rfl | cases h

theorem PropertyType.Opens.unique (h : property.Opens schema event inside)
    (h' : property.Opens schema event inside') : inside = inside' := by
  cases event <;> cases inside <;> cases inside' <;> grind [PropertyType.Opens]

end Properties

def ListType.Takes : ListType → Event → Prop
  | .refs, .identifier none _ => True
  | .strings, .string none _ => True
  | .pairs, .pair _ _ => True
  | _, _ => False

namespace Ground

/-- An item that opens no scope may stand here, as far as the schema goes. -/
def Takes (schema : Schema) : Ground → Event → Prop
  | _, .comment _ => True
  | .document, _ => False
  | .object type, event => ∃ name property, event.propertyName? = some name ∧
      type.property? name = some property ∧ property.Takes schema event
  | .list elements, event => elements.Takes event

/-- An item that opens a scope may stand here, as far as the schema goes, and this is the
ground of its inside. -/
def Opens (schema : Schema) : Ground → Event → Ground → Prop
  | .document, .named name _, .object type =>
      schema.roots.contains name = true ∧ schema.objects.get? name = some type
  | .object type, event, inside => ∃ name property, event.propertyName? = some name ∧
      type.property? name = some property ∧ property.Opens schema event inside
  | _, _, _ => False

/-- An item may stand here, whatever stands beside it. -/
def Accepts (schema : Schema) (ground : Ground) (event : Event) : Prop :=
  ground.Takes schema event ∨ ∃ inside, ground.Opens schema event inside

/-- The ground is that of a scope that a document can have by this schema. -/
def Declared (schema : Schema) : Ground → Prop
  | .object type => ∃ typeName, schema.objects.get? typeName = some type
  | _ => True

section Objects
variable {schema : Schema} {type : ObjectType} {ground inside inside' : Ground} {event : Event}
  {name : String}

theorem takes_object_iff (hname : event.propertyName? = some name) :
    (Ground.object type).Takes schema event ↔
      ∃ property, type.property? name = some property ∧ property.Takes schema event := by
  cases event <;> simp_all [Takes, Event.propertyName?]

theorem opens_object_iff (hname : event.propertyName? = some name) :
    (Ground.object type).Opens schema event inside ↔
      ∃ property, type.property? name = some property ∧ property.Opens schema event inside := by
  simp [Opens, hname]

theorem Opens.unique (h : ground.Opens schema event inside)
    (h' : ground.Opens schema event inside') : inside = inside' := by
  cases ground with
  | document => cases event <;> cases inside <;> cases inside' <;> simp_all [Opens]
  | object type =>
      obtain ⟨name, property, hname, hproperty, hopens⟩ := h
      obtain ⟨name', property', hname', hproperty', hopens'⟩ := h'
      obtain rfl : name = name' := Option.some.inj (hname.symm.trans hname')
      obtain rfl : property = property' := Option.some.inj (hproperty.symm.trans hproperty')
      exact hopens.unique hopens'
  | list elements => exact h.elim

theorem Opens.declared (h : ground.Opens schema event inside) : inside.Declared schema := by
  cases inside with
  | document => trivial
  | list elements => trivial
  | object type =>
      cases ground with
      | document => cases event <;> first | exact ⟨_, h.2⟩ | exact h.elim
      | list elements => exact h.elim
      | object outer =>
          obtain ⟨name, property, hname, hproperty, hopens⟩ := h
          cases event <;> first | exact ⟨_, hopens.choose_spec.2⟩ | exact hopens.elim

end Objects

end Ground

namespace Forest

/-- The items of a scope, each by its first event. -/
def heads : Forest → List Event
  | .nil => []
  | .leaf event rest => event :: rest.heads
  | .nest opening _ rest => opening :: rest.heads

/-- No item of a scope repeats one before it. -/
def Distinct (forest : Forest) : Prop :=
  forest.heads.Pairwise fun earlier event => ¬event.Repeats earlier

/-- All items may stand where they do, and inside of them none repeats another. -/
def Conforms (schema : Schema) : Ground → Forest → Prop
  | _, .nil => True
  | ground, .leaf event rest => ground.Takes schema event ∧ rest.Conforms schema ground
  | ground, .nest opening inner rest =>
      (∃ inside, ground.Opens schema opening inside ∧ inner.Distinct ∧
        inner.Conforms schema inside) ∧
        rest.Conforms schema ground

end Forest

/-- The events are those of a document that conforms to the schema. -/
def Schema.Conforms (schema : Schema) (events : List Event) : Prop :=
  ∃ forest : Forest, forest.events = events ∧ forest.Distinct ∧ forest.Conforms schema .document

end Lookml
