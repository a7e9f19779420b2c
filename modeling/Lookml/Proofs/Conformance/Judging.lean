import Lookml.Proofs.Conformance.Ground
import Lookml.Proofs.Conformance.Watching
import Lookml.Proofs.Schema.Built

/-!
One judgement of a checker, in the terms of the schema: an item that may stand where it
does is taken, unless its key is taken already, which is reported as a duplicate; any
other item is refused with a violation that is none.
-/

namespace Lookml

theorem EnumType.isBoolean_iff (enumType : EnumType) :
    enumType.isBoolean = true ↔ enumType.IsOfTruth := by
  have hkeys {first second : String} (hlt : first < second) :
      enumType.values.keys = [first, second] ↔
        ∀ word, enumType.contains word = true ↔ word = first ∨ word = second := by
    have hsorted : [first, second].Pairwise fun left right => left < right := by simpa using hlt
    simpa [EnumType.contains] using enumType.values.keys_eq_iff hsorted
  rw [EnumType.isBoolean, Bool.or_eq_true, beq_iff_eq, beq_iff_eq, EnumType.IsOfTruth,
    hkeys (by decide), hkeys (by decide)]

/-- The name under which an item is taken in an object. -/
def Event.key? : Event → Option String
  | .named name instanceName => some (Checker.pairedName name instanceName)
  | event => event.propertyName?

/-- What is reported of an item whose key is taken. -/
def Event.duplicate : Event → Violation
  | .named name instanceName => .duplicateNamed name instanceName
  | event => .duplicateProperty (event.propertyName?.getD "")

def Violation.isDuplicate : Violation → Bool
  | .duplicateProperty _ | .duplicateNamed _ _ => true
  | _ => false

namespace Checker

/-! Requirements: each lets pass what meets a condition, and the violation of what does
not is no duplicate. -/

/-- A requirement is passed with the only value that meets a condition, or none meets
it. -/
def Requires {α : Type} (condition : α → Prop) : Except Violation α → Prop
  | .ok value => condition value ∧ ∀ other, condition other → other = value
  | .error violation => (∀ value, ¬condition value) ∧ violation.isDuplicate = false

theorem Requires.bind {α β : Type} {first : α → Prop} {second : α → β → Prop}
    {required : Except Violation α} {next : α → Except Violation β} (h : Requires first required)
    (hnext : ∀ value, first value → Requires (second value) (next value)) :
    Requires (fun result => ∃ value, first value ∧ second value result) (required >>= next) := by
  cases required with
  | error violation => exact ⟨fun result ⟨value, hvalue, _⟩ => h.1 value hvalue, h.2⟩
  | ok value =>
      have hthen := hnext value h.1
      show Requires _ (next value)
      cases hresult : next value with
      | error violation =>
          rw [hresult] at hthen
          refine ⟨fun result ⟨other, hother, hsecond⟩ => ?_, hthen.2⟩
          exact hthen.1 result (h.2 other hother ▸ hsecond)
      | ok result =>
          rw [hresult] at hthen
          refine ⟨⟨value, h.1, hthen.1⟩, fun other ⟨found, hfound, hsecond⟩ => ?_⟩
          exact hthen.2 other (h.2 found hfound ▸ hsecond)

section Requirements
variable {schema : Schema} {property : PropertyType} {name : String}

theorem requires_declared (parent : String) (type : ObjectType) (name : String) :
    Requires (fun property => type.property? name = some property)
      (declared (some (parent, type)) name) := by
  simp only [declared]
  cases hproperty : type.property? name with
  | none => exact ⟨by simp, rfl⟩
  | some property => exact ⟨rfl, by simp⟩

theorem requires_type (expected : PropertyType) (actual : ValueKind) :
    Requires (fun _ => property = expected) (requireType property expected name actual) := by
  unfold requireType
  split
  · exact ⟨‹_›, fun _ _ => rfl⟩
  · exact ⟨fun _ => ‹_›, rfl⟩

theorem requires_identifier (parent text : String) (given : Option String) :
    Requires (fun _ => property.Takes schema (.identifier given text))
      (requireIdentifier schema parent property name text) := by
  cases property with
  | ref => exact ⟨.inl rfl, fun _ _ => rfl⟩
  | enum typeName =>
      simp only [requireIdentifier, PropertyType.Takes]
      cases henum : schema.enums.get? typeName with
      | none => simp [Requires, henum, Violation.isDuplicate]
      | some enumType =>
          cases hcontains : enumType.contains text <;>
            simp [Requires, henum, hcontains, Violation.isDuplicate]
  | number | string | code | list elements | object typeName | named typeName =>
      simp [requireIdentifier, PropertyType.Takes, Requires, Violation.isDuplicate]

theorem requires_truth (parent : String) (value : Bool) (given : Option String) :
    Requires (fun _ => property.Takes schema (.truth given value))
      (requireTruth schema parent property name value) := by
  cases property with
  | enum typeName =>
      simp only [requireTruth, PropertyType.Takes, ← EnumType.isBoolean_iff]
      cases henum : schema.enums.get? typeName with
      | none => simp [Requires, henum, Violation.isDuplicate]
      | some enumType =>
          cases hboolean : enumType.isBoolean <;>
            simp [Requires, henum, hboolean, Violation.isDuplicate]
  | ref | number | string | code | list elements | object typeName | named typeName =>
      simp [requireTruth, PropertyType.Takes, Requires, Violation.isDuplicate]

theorem requires_list (property : PropertyType) (name : String) :
    Requires (fun elements => property = .list elements) (requireList property name) := by
  cases property <;> simp [requireList, Requires, Violation.isDuplicate, eq_comm]

theorem requires_object (property : PropertyType) (name : String) :
    Requires (fun typeName => property = .object typeName) (requireObject property name) := by
  cases property <;> simp [requireObject, Requires, Violation.isDuplicate, eq_comm]

theorem requires_named (property : PropertyType) (name : String) :
    Requires (fun typeName => property = .named typeName) (requireNamed property name) := by
  cases property <;> simp [requireNamed, Requires, Violation.isDuplicate, eq_comm]

end Requirements

/-! Levels in the terms of the schema. -/

namespace Level

def ground : Level → Ground
  | .object none _ | .refused => .document
  | .object (some (_, type)) _ => .object type
  | .list _ elements => .list elements

def taken : Level → List String
  | .object _ taken => taken
  | .list _ _ | .refused => []

/-- The level behind an item that is passed on. -/
def take (level : Level) (event : Event) : Level :=
  match level with
  | .object type taken => .object type (event.key?.toList ++ taken)
  | level => level

/-- The key of the item is not taken. -/
def Fresh (level : Level) (event : Event) : Prop :=
  ∀ key, event.key? = some key → key ∉ level.taken

end Level

/-- What a judgement says of an item. -/
inductive Judged (schema : Schema) (level : Level) (event : Event) : Judgement → Prop
  | keep (htakes : level.ground.Takes schema event) (hfresh : level.Fresh event) :
      Judged schema level event (.keep (level.take event))
  | enter {inside : Level} (hopens : level.ground.Opens schema event inside.ground)
      (hempty : inside.taken = []) (hfresh : level.Fresh event) :
      Judged schema level event (.enter (level.take event) inside)
  | duplicate (haccepts : level.ground.Accepts schema event) (htaken : ¬level.Fresh event) :
      Judged schema level event (.refuse event.duplicate)
  | unacceptable {violation : Violation} (hnot : ¬level.ground.Accepts schema event)
      (hother : violation.isDuplicate = false) :
      Judged schema level event (.refuse violation)

section Judging
variable {schema : Schema} {type : Option (String × ObjectType)} {taken : List String}
  {name instanceName : String} {event : Event}

theorem fresh {key : String} (hkey : event.key? = some key)
    (hcontains : taken.contains key = false) : (Level.object type taken).Fresh event := by
  intro other hother hmem
  obtain rfl : key = other := Option.some.inj (hkey.symm.trans hother)
  exact Bool.false_ne_true (hcontains.symm.trans (List.contains_iff_mem.mpr hmem))

theorem not_fresh {key : String} (hkey : event.key? = some key)
    (hcontains : taken.contains key = true) : ¬(Level.object type taken).Fresh event :=
  fun hfresh => hfresh key hkey (List.contains_iff_mem.mp hcontains)

theorem take_object {key : String} (hkey : event.key? = some key) :
    (Level.object type taken).take event = .object type (key :: taken) := by
  simp [Level.take, hkey]

/-- A scalar in an object, of whichever kind its property is required to be. -/
theorem judgeScalar_judged {parent : String} {type : ObjectType}
    {required : PropertyType → Except Violation Unit} (hname : event.propertyName? = some name)
    (hkey : event.key? = some name) (hduplicate : event.duplicate = .duplicateProperty name)
    (hopens : event.opens? = none)
    (hrequired : ∀ property, Requires (fun _ => property.Takes schema event) (required property))
    (heq : scalarProperty schema (some (parent, type)) taken name event =
      declared (some (parent, type)) name >>= fun property =>
        required property >>= fun _ => takeName taken name) :
    Judged schema (.object (some (parent, type)) taken) event
      (judgeScalar schema (some (parent, type)) taken name event) := by
  have htakes : (Ground.object type).Takes schema event ↔
      ∃ property, type.property? name = some property ∧ property.Takes schema event :=
    Ground.takes_object_iff hname
  have h := (requires_declared parent type name).bind fun property _ => hrequired property
  rw [judgeScalar, heq, ← bind_assoc]
  cases hresult : declared (some (parent, type)) name >>= required with
  | error violation =>
      rw [hresult] at h
      refine .unacceptable ?_ h.2
      rintro (haccepts | ⟨inside, hinside⟩)
      · exact h.1 () (htakes.mp haccepts)
      · obtain ⟨property, _, hproperty⟩ := (Ground.opens_object_iff hname).mp hinside
        simpa [hopens] using hproperty.opens?
  | ok value =>
      rw [hresult] at h
      have haccepts : (Ground.object type).Takes schema event := htakes.mpr h.1
      cases hcontains : taken.contains name with
      | true =>
          simp only [bind, Except.bind, takeName, hcontains, if_true]
          exact hduplicate ▸ .duplicate (.inl haccepts) (not_fresh hkey hcontains)
      | false =>
          simp only [bind, Except.bind, takeName, hcontains, Bool.false_eq_true, if_false]
          exact take_object hkey ▸ .keep haccepts (fresh hkey hcontains)

/-- What becomes of an opening, by what its scope is required to be and the names taken
with it. -/
def opening {α : Type} (type : Option (String × ObjectType)) (inside : α → Level) :
    Except Violation (α × List String) → Judgement
  | .ok (value, taken) => .enter (.object type taken) (inside value)
  | .error violation => .refuse violation

theorem judgeList_eq_opening : judgeList type taken name = opening type (.list name) (do
    let elements ← declared type name >>= (requireList · name)
    return (elements, ← takeName taken name)) := by
  rw [bind_assoc]
  simp only [judgeList]
  split <;> simp_all only [opening]

theorem judgeObject_eq_opening :
    judgeObject schema type taken name = opening type (levelOf schema) (do
      let typeName ← plainType schema type name
      return (typeName, ← takeName taken name)) := by
  simp only [judgeObject]
  split <;> simp_all only [opening]

theorem judgeNamed_eq_opening :
    judgeNamed schema type taken name instanceName = opening type (levelOf schema) (do
      let typeName ← namedType schema type name
      return (typeName, ← takeNamed taken name instanceName)) := by
  simp only [judgeNamed]
  split <;> simp_all only [opening]

/-- An opening in an object or in the document, of whichever kind it is required to be. -/
theorem judged_opening {α : Type} {required : Except Violation α} {condition : α → Prop}
    {took : Except Violation (List String)} {key : String} {inside : α → Level}
    (hkey : event.key? = some key) (hrequired : Requires condition required)
    (htook : took = if taken.contains key then .error event.duplicate else .ok (key :: taken))
    (htakes : ¬(Level.object type taken).ground.Takes schema event)
    (hopens : ∀ ground, (Level.object type taken).ground.Opens schema event ground ↔
      ∃ value, condition value ∧ ground = (inside value).ground)
    (hempty : ∀ value, (inside value).taken = []) :
    Judged schema (.object type taken) event (opening type inside (do
      let value ← required
      return (value, ← took))) := by
  subst htook
  cases required with
  | error violation =>
      refine .unacceptable ?_ hrequired.2
      rintro (haccepts | ⟨ground, hground⟩)
      · exact htakes haccepts
      · obtain ⟨value, hvalue, _⟩ := (hopens ground).mp hground
        exact hrequired.1 value hvalue
  | ok value =>
      have hground := (hopens _).mpr ⟨value, hrequired.1, rfl⟩
      cases hcontains : taken.contains key with
      | true => exact .duplicate (.inr ⟨_, hground⟩) (not_fresh hkey hcontains)
      | false =>
          have hjudged : Judged schema (.object type taken) event
              (.enter ((Level.object type taken).take event) (inside value)) :=
            .enter hground (hempty value) (fresh hkey hcontains)
          rwa [take_object hkey] at hjudged

theorem judgeList_judged {parent : String} {type : ObjectType} :
    Judged schema (.object (some (parent, type)) taken) (.list (some name))
      (judgeList (some (parent, type)) taken name) := by
  have hrequired := (requires_declared parent type name).bind fun property _ =>
    requires_list property name
  rw [judgeList_eq_opening]
  refine judged_opening rfl hrequired rfl ?_ ?_ (fun _ => rfl)
  · rintro ⟨name, property, _, _, htakes⟩
    exact htakes
  · intro ground
    refine (Ground.opens_object_iff rfl).trans ?_
    cases ground <;> simp [PropertyType.Opens, Level.ground]

/-- Objects of a declared type: the level inside is one of the ground that the schema has
for them. -/
theorem opens_iff_levelOf {type : ObjectType} {made : String → PropertyType}
    (hschema : schema.IsClosed) (htype : (Ground.object type).Declared schema)
    (hname : event.propertyName? = some name)
    (hmade : ∀ typeName, (made typeName).objectType? = some typeName)
    (hopens : ∀ property ground, PropertyType.Opens schema property event ground ↔
      ∃ typeName inner, property = made typeName ∧ schema.objects.get? typeName = some inner ∧
        ground = .object inner) (ground : Ground) :
    (Ground.object type).Opens schema event ground ↔
      ∃ typeName, (∃ property, type.property? name = some property ∧ property = made typeName) ∧
        ground = (levelOf schema typeName).ground := by
  rw [Ground.opens_object_iff hname]
  simp only [hopens, levelOf, Level.ground, Schema.objectType]
  constructor
  · rintro ⟨property, hproperty, typeName, inner, rfl, hinner, rfl⟩
    exact ⟨typeName, ⟨_, hproperty, rfl⟩, by rw [hinner, Option.getD_some]⟩
  · rintro ⟨typeName, ⟨property, hproperty, rfl⟩, rfl⟩
    obtain ⟨parent, hparent⟩ := htype
    obtain ⟨inner, hinner⟩ := hschema.property hparent hproperty (hmade typeName)
    exact ⟨_, hproperty, typeName, inner, rfl, hinner, by rw [hinner, Option.getD_some]⟩

theorem opens_object_property_iff (property : PropertyType) (ground : Ground) :
    property.Opens schema (.object name) ground ↔
      ∃ typeName inner, property = .object typeName ∧ schema.objects.get? typeName = some inner ∧
        ground = .object inner := by
  cases ground <;> simp [PropertyType.Opens]

theorem opens_named_property_iff (property : PropertyType) (ground : Ground) :
    property.Opens schema (.named name instanceName) ground ↔
      ∃ typeName inner, property = .named typeName ∧ schema.objects.get? typeName = some inner ∧
        ground = .object inner := by
  cases ground <;> simp [PropertyType.Opens]

theorem judgeObject_judged {parent : String} {type : ObjectType} (hschema : schema.IsClosed)
    (htype : (Ground.object type).Declared schema) :
    Judged schema (.object (some (parent, type)) taken) (.object name)
      (judgeObject schema (some (parent, type)) taken name) := by
  have hrequired := (requires_declared parent type name).bind fun property _ =>
    requires_object property name
  rw [judgeObject_eq_opening, plainType]
  refine judged_opening rfl hrequired rfl ?_ ?_ (fun _ => rfl)
  · rintro ⟨name, property, _, _, htakes⟩
    exact htakes
  · exact opens_iff_levelOf hschema htype rfl (fun _ => rfl) opens_object_property_iff

theorem judgeNamed_judged {parent : String} {type : ObjectType} (hschema : schema.IsClosed)
    (htype : (Ground.object type).Declared schema) :
    Judged schema (.object (some (parent, type)) taken) (.named name instanceName)
      (judgeNamed schema (some (parent, type)) taken name instanceName) := by
  have hrequired := (requires_declared parent type name).bind fun property _ =>
    requires_named property name
  rw [judgeNamed_eq_opening, namedType]
  refine judged_opening rfl hrequired rfl ?_ ?_ (fun _ => rfl)
  · rintro ⟨name, property, _, _, htakes⟩
    exact htakes
  · exact opens_iff_levelOf hschema htype rfl (fun _ => rfl) opens_named_property_iff

/-! The document, which takes objects with an instance name only. -/

theorem judgeNamed_document_judged (hschema : schema.IsClosed) :
    Judged schema (.object none taken) (.named name instanceName)
      (judgeNamed schema none taken name instanceName) := by
  have hrequired : Requires (fun typeName => schema.roots.contains name = true ∧ typeName = name)
      (namedType schema none name) := by
    simp only [namedType]
    split
    · exact ⟨⟨‹_›, rfl⟩, fun _ hother => hother.2⟩
    · exact ⟨fun _ hother => absurd hother.1 ‹_›, rfl⟩
  rw [judgeNamed_eq_opening]
  refine judged_opening rfl hrequired rfl id ?_ (fun _ => rfl)
  intro ground
  constructor
  · intro hopens
    cases ground with
    | object inner =>
        exact ⟨name, ⟨hopens.1, rfl⟩, congrArg _ (by simp [Schema.objectType, hopens.2])⟩
    | _ => exact hopens.elim
  · rintro ⟨typeName, ⟨hroot, rfl⟩, rfl⟩
    obtain ⟨inner, hinner⟩ := hschema.root hroot
    exact ⟨hroot, by simp [Schema.objectType, hinner]⟩

theorem not_accepts_document (hcomment : event.isComment = false)
    (hnamed : ∀ name instanceName, event ≠ .named name instanceName) :
    ¬Ground.document.Accepts schema event := by
  rintro (htakes | ⟨inside, hopens⟩)
  · cases event <;> first | exact htakes | cases hcomment
  · cases event <;> first | exact hopens | exact hnamed _ _ rfl

theorem judgeScalar_document_judged (hcomment : event.isComment = false)
    (hnamed : ∀ name instanceName, event ≠ .named name instanceName) :
    Judged schema (.object none taken) event (judgeScalar schema none taken name event) :=
  .unacceptable (not_accepts_document hcomment hnamed) rfl

theorem judgeObject_document_judged :
    Judged schema (.object none taken) (.object name) (judgeObject schema none taken name) := by
  have hnot : ¬(Level.object none taken).ground.Accepts schema (.object name) :=
    not_accepts_document rfl (by simp)
  rw [judgeObject_eq_opening, plainType]
  split
  · exact .unacceptable hnot rfl
  · exact .unacceptable hnot rfl

/-! Lists, which take elements of one kind. -/

theorem admitted_iff_takes {elements : ListType} (hfit : event.fit? .list = some event) :
    elementKind event = admittedKind elements ↔ elements.Takes event := by
  cases event with
  | identifier given text | string given text =>
      cases given with
      | none => cases elements <;> simp [elementKind, admittedKind, ListType.Takes]
      | some word => simp [Event.fit?, Event.inList?] at hfit
  | _ => cases elements <;> simp [elementKind, admittedKind, ListType.Takes]

theorem judgeElement_judged {elements : ListType} (hfit : event.fit? .list = some event)
    (hcomment : event.isComment = false) :
    Judged schema (.list name elements) event
      (if elementKind event = admittedKind elements then .keep (.list name elements)
        else .refuse (.invalidElement name (elementKind event) elements)) := by
  have htakes : (Ground.list elements).Takes schema event ↔ elements.Takes event := by
    cases event <;> first | exact Iff.rfl | cases hcomment
  split
  · rename_i hkind
    exact .keep (htakes.mpr ((admitted_iff_takes hfit).mp hkind)) fun _ _ => List.not_mem_nil
  · rename_i hkind
    refine .unacceptable ?_ rfl
    rintro (haccepts | ⟨inside, hopens⟩)
    · exact hkind ((admitted_iff_takes hfit).mpr (htakes.mp haccepts))
    · exact hopens

theorem judgeComment_judged {level : Level} {text : String} (hrefused : level ≠ .refused) :
    Judged schema level (.comment text) (judge schema level (.comment text)) := by
  have htakes (ground : Ground) : ground.Takes schema (.comment text) := by
    cases ground <;> trivial
  have hfresh : level.Fresh (.comment text) := fun key hkey => by cases hkey
  cases level with
  | refused => exact absurd rfl hrefused
  | object type taken => exact .keep (htakes _) hfresh
  | list name elements => exact .keep (htakes _) hfresh

theorem judgeProperty_judged (hschema : schema.IsClosed)
    (hdeclared : (Level.object type taken).ground.Declared schema) (hclose : event ≠ .close)
    (hfit : event.fit? .object = some event) :
    Judged schema (.object type taken) event (judge schema (.object type taken) event) := by
  cases type with
  | none =>
      cases event with
      | comment text => exact judgeComment_judged (by simp)
      | close => exact absurd rfl hclose
      | named name instanceName => exact judgeNamed_document_judged hschema
      | object name => exact judgeObject_document_judged
      | list given => exact .unacceptable (not_accepts_document rfl (by simp)) rfl
      | _ => exact judgeScalar_document_judged rfl (by simp)
  | some declaration =>
      obtain ⟨parent, type⟩ := declaration
      cases event with
      | comment text => exact judgeComment_judged (by simp)
      | close => exact absurd rfl hclose
      | pair reference text => cases hfit
      | named name instanceName => exact judgeNamed_judged hschema hdeclared
      | object name => exact judgeObject_judged hschema hdeclared
      | code name text =>
          exact judgeScalar_judged rfl rfl rfl rfl (fun _ => requires_type .code .code) rfl
      | list given =>
          cases given with
          | none => cases hfit
          | some name => exact judgeList_judged
      | number given value =>
          cases given with
          | none => cases hfit
          | some name =>
              exact judgeScalar_judged rfl rfl rfl rfl (fun _ => requires_type .number .number) rfl
      | string given text =>
          cases given with
          | none => cases hfit
          | some name =>
              exact judgeScalar_judged rfl rfl rfl rfl (fun _ => requires_type .string .string) rfl
      | identifier given text =>
          cases given with
          | none => cases hfit
          | some name =>
              exact judgeScalar_judged rfl rfl rfl rfl
                (fun _ => requires_identifier parent text (some name)) rfl
      | truth given value =>
          cases given with
          | none => cases hfit
          | some name =>
              exact judgeScalar_judged rfl rfl rfl rfl
                (fun _ => requires_truth parent value (some name)) rfl

/-- A checker judges each item by whether it may stand where it does and whether its key
is taken. -/
theorem judge_judged (hschema : schema.IsClosed) {level : Level} {scope : Scope}
    (hlevel : level.scope? = some scope) (hdeclared : level.ground.Declared schema)
    (hclose : event ≠ .close) (hfit : event.fit? scope = some event) :
    Judged schema level event (judge schema level event) := by
  cases level with
  | refused => cases hlevel
  | list name elements =>
      obtain rfl : Scope.list = scope := Option.some.inj hlevel
      cases event with
      | comment text => exact judgeComment_judged (by simp)
      | close => exact absurd rfl hclose
      | _ => exact judgeElement_judged hfit rfl
  | object type taken =>
      obtain rfl : Scope.object = scope := Option.some.inj hlevel
      exact judgeProperty_judged hschema hdeclared hclose hfit

end Judging

end Checker

end Lookml
