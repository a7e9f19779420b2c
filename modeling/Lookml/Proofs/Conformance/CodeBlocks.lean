import Lookml.Proofs.Conformance.Items
import Lookml.Proofs.Reader.Sound

/-!
Code is told by name alone, whatever the scope. In a schema that is built a name of code
is declared as code wherever it is declared, so a reader that knows all names of code and
none of the scopes agrees with the checker, which knows the types of both.
-/

namespace Lookml

def Event.isCode : Event → Bool
  | .code _ _ => true
  | _ => false

/-- A scope has a property of this type by the schema. Those of the document are named
objects. -/
def Ground.Declares (schema : Schema) : Ground → String → PropertyType → Prop
  | .document, name, property => schema.roots.contains name = true ∧ property = .named name
  | .object type, name, property => type.property? name = some property
  | .list _, _, _ => False

/-- An item whose property is declared in its scope is told as code just where it is
declared as code. -/
def ReadsCode (schema : Schema) (ground : Ground) (event : Event) : Prop :=
  ∀ name property, event.propertyName? = some name → ground.Declares schema name property →
    (event.isCode = true ↔ property = .code)

section Names
variable {schema : Schema} {ground : Ground} {event : Event} {name : String}
  {property : PropertyType}

theorem Event.Spelled.isCode_iff {code : Names} (h : event.Spelled code)
    (hname : event.propertyName? = some name) :
    event.isCode = true ↔ code.contains name = true := by
  cases event with
  | code given text =>
      obtain rfl : given = name := Option.some.inj hname
      exact ⟨fun _ => h.1, fun _ => rfl⟩
  | pair reference text | comment text | close => cases hname
  | identifier given text => simp [isCode, h.1 name hname]
  | number given value | truth given value | string given text | list given =>
      simp [isCode, h name hname]
  | object given =>
      obtain rfl : given = name := Option.some.inj hname
      have hother : code.contains given = false := h
      simp [isCode, hother]
  | named given instanceName =>
      obtain rfl : given = name := Option.some.inj hname
      simp [isCode, h.1]

theorem Ground.Declares.eq_code_iff (h : ground.Declares schema name property)
    (hbuilt : schema.IsBuilt) (hground : ground.Declared schema) :
    property = .code ↔ schema.codeNames.contains name = true := by
  cases ground with
  | document =>
      obtain ⟨hroot, rfl⟩ := h
      have hnot := fun hcode => hbuilt.eq_code hcode (Schema.mem_allProperties_of_root hroot)
      constructor
      · rintro ⟨⟩
      · exact hnot
  | list elements => exact h.elim
  | object type =>
      obtain ⟨typeName, htype⟩ := hground
      constructor
      · rintro rfl
        exact Schema.contains_codeNames_iff.mpr ⟨typeName, Schema.mem_properties htype h⟩
      · intro hcode
        exact hbuilt.eq_code hcode (Schema.mem_allProperties htype h)

theorem Event.Spelled.readsCode (h : event.Spelled schema.codeNames) (hbuilt : schema.IsBuilt)
    (hground : ground.Declared schema) : ReadsCode schema ground event := by
  intro name property hname hdeclares
  rw [h.isCode_iff hname, hdeclares.eq_code_iff hbuilt hground]

end Names

namespace Forest

/-- A relation holds of each item that stands in a scope declared by the schema, with the
ground of the scope. -/
def EachDeclared (schema : Schema) (holds : Ground → Event → Prop) : Ground → Forest → Prop
  | _, .nil => True
  | ground, .leaf event rest => holds ground event ∧ rest.EachDeclared schema holds ground
  | ground, .nest opening inner rest =>
      holds ground opening ∧
        (∀ inside, ground.Opens schema opening inside → inner.EachDeclared schema holds inside) ∧
        rest.EachDeclared schema holds ground

theorem eachDeclared {schema : Schema} {holds : Ground → Event → Prop} {forest : Forest}
    {ground : Ground} (hground : ground.Declared schema)
    (hholds : ∀ ground : Ground, ground.Declared schema → ∀ event ∈ forest.events,
      holds ground event) : forest.EachDeclared schema holds ground := by
  induction forest generalizing ground with
  | nil => trivial
  | leaf event rest ih =>
      refine ⟨hholds ground hground event List.mem_cons_self, ih hground ?_⟩
      exact fun ground hground other hmem =>
        hholds ground hground other (List.mem_cons_of_mem _ hmem)
  | nest opening inner rest ihinner ihrest =>
      refine ⟨hholds ground hground opening List.mem_cons_self, fun inside hopens => ?_, ?_⟩
      · refine ihinner hopens.declared fun ground hground event hmem =>
          hholds ground hground event ?_
        exact List.mem_cons_of_mem _ (List.mem_append_left _ hmem)
      · refine ihrest hground fun ground hground event hmem => hholds ground hground event ?_
        exact List.mem_cons_of_mem _ (List.mem_append_right _ (List.mem_cons_of_mem _ hmem))

end Forest

/-! Complaints about the types of properties. -/

/-- A complaint about the type of a property is one about the property of the item, as its
scope declares it, and the kind of the item; and code is not complained about where code
is declared. -/
def Explains (schema : Schema) (ground : Ground) (event : Event) (violation : Violation) : Prop :=
  ∀ name expected actual, violation = .invalidType name expected actual →
    ∃ property, event.propertyName? = some name ∧ ground.Declares schema name property ∧
      expected = property.keyword ∧ actual = Checker.elementKind event ∧
      (event.isCode = true → property ≠ .code)

/-- Neither is code expected nor is code found in the place of something else. -/
def Violation.SparesCode (violation : Violation) : Prop :=
  ∀ name expected actual, violation = .invalidType name expected actual →
    expected ≠ .code ∧ actual ≠ .code

theorem Explains.sparesCode {schema : Schema} {ground : Ground} {event : Event}
    {violation : Violation} (h : Explains schema ground event violation)
    (hreads : ReadsCode schema ground event) : violation.SparesCode := by
  intro name expected actual heq
  obtain ⟨property, hname, hdeclares, rfl, rfl, hnot⟩ := h name expected actual heq
  have hcode := hreads name property hname hdeclares
  have hother : property ≠ .code := fun heq => hnot (hcode.mpr heq) heq
  have hevent : event.isCode ≠ true := fun heq => hother (hcode.mp heq)
  constructor
  · cases property with
    | code => exact absurd rfl hother
    | list elements => cases elements <;> simp [PropertyType.keyword, ListType.keyword]
    | _ => simp [PropertyType.keyword]
  · cases event with
    | code name text => exact absurd rfl hevent
    | _ => simp [Checker.elementKind]

namespace Checker

section Complaints
variable {schema : Schema} {ground : Ground} {event : Event} {parent : String} {type : ObjectType}
  {taken : List String} {name instanceName : String} {property : PropertyType}

/-- Whenever a requirement is not met, the complaint is of some sort. -/
def Complains {α : Type} (sort : Violation → Prop) (required : Except Violation α) : Prop :=
  ∀ violation, required = .error violation → sort violation

theorem Complains.bind {α β : Type} {sort : Violation → Prop} {required : Except Violation α}
    {next : α → Except Violation β} (h : Complains sort required)
    (hnext : ∀ value, required = .ok value → Complains sort (next value)) :
    Complains sort (required >>= next) := by
  cases required with
  | error violation =>
      rintro other ⟨⟩
      exact h violation rfl
  | ok value => exact hnext value rfl

theorem complains_pure {α : Type} {sort : Violation → Prop} (value : α) :
    Complains sort (pure value) := by
  rintro _ ⟨⟩

/-- A complaint about something else than the type of a property. -/
theorem complains_other {α : Type} {required : Except Violation α}
    (h : ∀ name expected actual, required ≠ .error (.invalidType name expected actual)) :
    Complains (Explains schema ground event) required := by
  rintro violation hviolation name expected actual rfl
  exact absurd hviolation (h name expected actual)

theorem complains_takeName : Complains (Explains schema ground event) (takeName taken name) := by
  refine complains_other fun _ _ _ => ?_
  rw [takeName]
  split <;> simp

theorem complains_takeNamed :
    Complains (Explains schema ground event) (takeNamed taken name instanceName) := by
  refine complains_other fun _ _ _ => ?_
  rw [takeNamed]
  split <;> simp

/-- A requirement on the property that an object declares, as it is declared. -/
theorem complains_property {α : Type} {required : PropertyType → Except Violation α}
    (h : ∀ property, type.property? name = some property →
      Complains (Explains schema (.object type) event) (required property)) :
    Complains (Explains schema (.object type) event)
      (declared (some (parent, type)) name >>= required) := by
  cases hproperty : type.property? name with
  | none =>
      have hdeclared : declared (some (parent, type)) name =
          .error (.invalidProperty name parent) := by
        simp [declared, hproperty]
      rw [hdeclared]
      exact complains_other (by rintro _ _ _ ⟨⟩)
  | some property =>
      have hdeclared : declared (some (parent, type)) name = .ok property := by
        simp [declared, hproperty]
      rw [hdeclared]
      exact h property hproperty

/-- A requirement on a declared property, of whose type it is said that it is not the one
required. -/
theorem complains_type {α : Type} {required : Except Violation α}
    (hname : event.propertyName? = some name) (hproperty : type.property? name = some property)
    (h : ∀ found expected actual, required = .error (.invalidType found expected actual) →
      (found = name ∧ expected = property.keyword ∧ actual = elementKind event) ∧
        (event.isCode = true → property ≠ .code)) :
    Complains (Explains schema (.object type) event) required := by
  rintro violation hviolation found expected actual rfl
  obtain ⟨⟨rfl, rfl, rfl⟩, hcode⟩ := h found expected actual hviolation
  exact ⟨property, hname, hproperty, rfl, rfl, hcode⟩

theorem requireType_invalidType {wanted : PropertyType} {found : String} {expected : TypeKeyword}
    {kind actual : ValueKind}
    (h : requireType property wanted name kind = .error (.invalidType found expected actual)) :
    (found = name ∧ expected = property.keyword ∧ actual = kind) ∧ property ≠ wanted := by
  rw [requireType] at h
  split at h
  · cases h
  · cases h
    exact ⟨⟨rfl, rfl, rfl⟩, ‹_›⟩

theorem requireIdentifier_invalidType {text found : String} {expected : TypeKeyword}
    {actual : ValueKind}
    (h : requireIdentifier schema parent property name text =
      .error (.invalidType found expected actual)) :
    found = name ∧ expected = property.keyword ∧ actual = .identifier := by
  cases property with
  | enum typeName =>
      simp only [requireIdentifier] at h
      split at h <;> cases h
  | _ =>
      cases h
      try exact ⟨rfl, rfl, rfl⟩

theorem requireTruth_invalidType {value : Bool} {found : String} {expected : TypeKeyword}
    {actual : ValueKind}
    (h : requireTruth schema parent property name value =
      .error (.invalidType found expected actual)) :
    found = name ∧ expected = property.keyword ∧ actual = .boolean := by
  cases property with
  | enum typeName =>
      simp only [requireTruth] at h
      split at h <;> cases h
  | _ =>
      cases h
      exact ⟨rfl, rfl, rfl⟩

theorem requireList_invalidType {found : String} {expected : TypeKeyword} {actual : ValueKind}
    (h : requireList property name = .error (.invalidType found expected actual)) :
    found = name ∧ expected = property.keyword ∧ actual = .list := by
  cases property with
  | list elements => cases h
  | _ =>
      cases h
      exact ⟨rfl, rfl, rfl⟩

theorem requireObject_invalidType {found : String} {expected : TypeKeyword} {actual : ValueKind}
    (h : requireObject property name = .error (.invalidType found expected actual)) :
    found = name ∧ expected = property.keyword ∧ actual = .object := by
  cases property with
  | object typeName | named typeName => cases h
  | _ =>
      cases h
      exact ⟨rfl, rfl, rfl⟩

theorem requireNamed_invalidType {found : String} {expected : TypeKeyword} {actual : ValueKind}
    (h : requireNamed property name = .error (.invalidType found expected actual)) :
    found = name ∧ expected = property.keyword ∧ actual = .namedObject := by
  cases property with
  | named typeName => cases h
  | _ =>
      cases h
      exact ⟨rfl, rfl, rfl⟩

/-- A scalar, of whichever kind its property is required to be. -/
theorem explains_judgeScalar {required : PropertyType → Except Violation Unit}
    (hname : event.propertyName? = some name)
    (heq : scalarProperty schema (some (parent, type)) taken name event =
      declared (some (parent, type)) name >>= fun property =>
        required property >>= fun _ => takeName taken name)
    (hrequired : ∀ property found expected actual,
      required property = .error (.invalidType found expected actual) →
        (found = name ∧ expected = property.keyword ∧ actual = elementKind event) ∧
          (event.isCode = true → property ≠ .code)) :
    ∀ violation, (judgeScalar schema (some (parent, type)) taken name event).mark = some violation →
      Explains schema (.object type) event violation := by
  intro violation hviolation
  have hcomplains : Complains (Explains schema (.object type) event)
      (scalarProperty schema (some (parent, type)) taken name event) := by
    rw [heq]
    refine complains_property fun property hproperty => ?_
    exact (complains_type hname hproperty (hrequired property)).bind fun _ _ => complains_takeName
  rw [judgeScalar] at hviolation
  split at hviolation
  · cases hviolation
  · rename_i error herror
    obtain rfl : error = violation := Option.some.inj hviolation
    exact hcomplains error herror

theorem explains_opening {α : Type} {type : Option (String × ObjectType)} {inside : α → Level}
    {required : Except Violation α} {took : Except Violation (List String)}
    (hrequired : Complains (Explains schema ground event) required)
    (htook : Complains (Explains schema ground event) took) :
    ∀ violation, (opening type inside (do
        let value ← required
        return (value, ← took))).mark = some violation →
          Explains schema ground event violation := by
  intro violation hviolation
  have hcomplains := hrequired.bind fun value _ =>
    htook.bind fun taken _ => complains_pure (value, taken)
  cases hresult : (do
      let value ← required
      return (value, ← took) : Except Violation (α × List String)) with
  | ok value =>
      rw [hresult] at hviolation
      cases hviolation
  | error error =>
      rw [hresult] at hviolation
      obtain rfl : error = violation := Option.some.inj hviolation
      exact hcomplains error hresult

/-- What a declared property is required to be opened as, where the item is no code
block. -/
theorem complains_opening {α : Type} {required : PropertyType → Except Violation α}
    (hname : event.propertyName? = some name) (hevent : event.isCode = false)
    (hrequired : ∀ property found expected actual,
      required property = .error (.invalidType found expected actual) →
        found = name ∧ expected = property.keyword ∧ actual = elementKind event) :
    Complains (Explains schema (.object type) event)
      (declared (some (parent, type)) name >>= required) := by
  refine complains_property fun property hproperty => ?_
  refine complains_type hname hproperty fun found expected actual h => ?_
  exact ⟨hrequired property found expected actual h, by simp [hevent]⟩

/-- What the document refuses is not complained about by its type. -/
theorem explains_judge_document :
    ∀ violation, (judge schema (.object none taken) event).mark = some violation →
      Explains schema .document event violation := by
  cases event with
  | comment text | close =>
      rintro _ ⟨⟩
  | named name instanceName =>
      simp only [judge, judgeNamed_eq_opening, namedType]
      refine explains_opening (complains_other fun _ _ _ => ?_) complains_takeNamed
      split <;> simp
  | object name =>
      simp only [judge, judgeObject_eq_opening, plainType]
      refine explains_opening (complains_other fun _ _ _ => ?_) complains_takeName
      split <;> simp
  | _ =>
      rintro _ ⟨⟩
      rintro _ _ _ ⟨⟩

theorem explains_judge_object (hfit : event.fit? .object = some event) :
    ∀ violation, (judge schema (.object (some (parent, type)) taken) event).mark = some violation →
      Explains schema (.object type) event violation := by
  cases event with
  | comment text | close =>
      rintro _ ⟨⟩
  | pair reference text => cases hfit
  | code name text =>
      exact explains_judgeScalar rfl rfl fun _ _ _ _ h =>
        ⟨(requireType_invalidType h).1, fun _ => (requireType_invalidType h).2⟩
  | number given value =>
      cases given with
      | none => cases hfit
      | some name =>
          exact explains_judgeScalar rfl rfl fun _ _ _ _ h =>
            ⟨(requireType_invalidType h).1, by rintro ⟨⟩⟩
  | string given text =>
      cases given with
      | none => cases hfit
      | some name =>
          exact explains_judgeScalar rfl rfl fun _ _ _ _ h =>
            ⟨(requireType_invalidType h).1, by rintro ⟨⟩⟩
  | identifier given text =>
      cases given with
      | none => cases hfit
      | some name =>
          exact explains_judgeScalar rfl rfl fun _ _ _ _ h =>
            ⟨requireIdentifier_invalidType h, by rintro ⟨⟩⟩
  | truth given value =>
      cases given with
      | none => cases hfit
      | some name =>
          exact explains_judgeScalar rfl rfl fun _ _ _ _ h =>
            ⟨requireTruth_invalidType h, by rintro ⟨⟩⟩
  | list given =>
      cases given with
      | none => cases hfit
      | some name =>
          simp only [judge, judgeList_eq_opening]
          exact explains_opening (complains_opening rfl rfl fun _ _ _ _ => requireList_invalidType)
             complains_takeName
  | object name =>
      simp only [judge, judgeObject_eq_opening, plainType]
      exact explains_opening (complains_opening rfl rfl fun _ _ _ _ => requireObject_invalidType)
         complains_takeName
  | named name instanceName =>
      simp only [judge, judgeNamed_eq_opening, namedType]
      exact explains_opening (complains_opening rfl rfl fun _ _ _ _ => requireNamed_invalidType)
         complains_takeNamed

theorem explains_judge {level : Level} {scope : Scope} (hlevel : level.scope? = some scope)
    (hfit : event.fit? scope = some event) :
    ∀ violation, (judge schema level event).mark = some violation →
      Explains schema level.ground event violation := by
  cases level with
  | refused => cases hlevel
  | list name elements =>
      rintro violation hviolation _ _ _ rfl
      cases event with
      | comment text => cases hviolation
      | _ =>
          simp only [judge] at hviolation
          split at hviolation <;> cases hviolation
  | object type taken =>
      obtain rfl : Scope.object = scope := Option.some.inj hlevel
      cases type with
      | none => exact explains_judge_document
      | some declaration => exact explains_judge_object hfit

end Complaints

end Checker

/-- What is marked is of some sort, where each mark is. -/
theorem Marking.EachItem.forall_violations {schema : Schema} {sort : Violation → Prop}
    {marking : Marking} {ground : Ground} {earlier : List Event}
    (h : marking.EachItem schema (fun _ _ _ mark => ∀ violation, mark = some violation →
      sort violation) ground earlier) : ∀ violation ∈ marking.violations, sort violation := by
  induction marking generalizing ground earlier with
  | nil =>
      rintro _ ⟨⟩
  | keep event rest ih => exact ih h.2
  | enter opening inner rest ihinner ihrest =>
      obtain ⟨_, ⟨inside, _, hinner⟩, hrest⟩ := h
      intro violation hmem
      rcases List.mem_append.mp hmem with hmem | hmem
      · exact ihinner hinner violation hmem
      · exact ihrest hrest violation hmem
  | drop violation event rest ih => exact List.forall_mem_cons.mpr ⟨h.1 violation rfl, ih h.2⟩
  | prune violation opening inside rest ih =>
      exact List.forall_mem_cons.mpr ⟨h.1 violation rfl, ih h.2⟩

namespace Schema

variable {schema : Schema}

/-- By a schema that is built, no property is complained about whose type is code, and no
code block. In each scope that the schema declares, a property that it declares there is
told as code just where it is declared as code. -/
theorem reads_code_where_declared (hbuilt : schema.IsBuilt) (source : List Char) :
    let events := (schema.read source).events
    (∀ name expected actual, .invalidType name expected actual ∈
        Verdict.violations (schema.verdicts (wholeDocument events)) →
      expected ≠ .code ∧ actual ≠ .code) ∧
    ∃ forest : Forest, (forest.Fits .object ∧ forest.events = events) ∧
      forest.EachDeclared schema (ReadsCode schema) .document := by
  intro events
  have hspelled : ∀ event ∈ events, event.Spelled schema.codeNames :=
    (Reading.told schema.codeNames source).forall_mem fun _ _ htold => htold.spelled
  obtain ⟨marking, hmarking⟩ : ∃ marking, schema.MarksDocument events marking :=
    exists_marksDocument schema (Reading.balanced schema.codeNames source)
  have hwhole : ∀ event ∈ marking.whole.events, event.Spelled schema.codeNames := by
    rw [hmarking.events_eq]
    exact hspelled
  constructor
  -- A mark is explained by its item and the scope, and how the item was told rules code
  -- out.
  · have hexplained : marking.EachItem schema (fun ground _ event mark =>
        ∀ violation, mark = some violation → Explains schema ground event violation) .document [] :=
      hmarking.eachItem_of hbuilt.isClosed fun hlevel _ _ _ hfit =>
        Checker.explains_judge hlevel hfit
    have hsorted : marking.EachItem schema (fun _ _ _ mark => ∀ violation, mark = some violation →
        violation.SparesCode) .document [] := by
      refine hexplained.mono (fun event => event.Spelled schema.codeNames) (fun _ _ => True)
        (fun _ _ _ => trivial) ?_ trivial (by simp) hwhole
      intro ground earlier event mark hground hevent _ hexplains violation hmark
      exact (hexplains violation hmark).sparesCode (hevent.readsCode hbuilt hground)
    rw [hmarking.violations_eq]
    exact fun name expected actual hmem => hsorted.forall_violations _ hmem name expected actual rfl
  · refine ⟨marking.whole, ⟨hmarking.fits, hmarking.events_eq⟩, ?_⟩
    exact Forest.eachDeclared trivial fun ground hground event hmem =>
      (hwhole event hmem).readsCode hbuilt hground

theorem reads_code_where_declared_view :
    let schema : Schema := ⟨"s", .empty, .ofList [("dim", ⟨.ofList [("sql", .code)]⟩),
      ("view", ⟨.ofList [("label", .string), ("dimension", .named "dim")]⟩)], .ofList ["view"]⟩
    let source := "view: v \x7b label: 1 dimension: d \x7b sql: x \x7b\x7d ;; \x7d \x7d"
    let events := (schema.read source.toList).events
    (events = [.named "view" "v",
        .number (some "label") (.finite false ⟨4607182418800017408, by decide⟩),
        .named "dimension" "d", .code "sql" "x \x7b\x7d", .close, .close] ∧
      Verdict.violations (schema.verdicts (wholeDocument events)) =
        [.invalidType "label" .string .number]) ∧
    (∀ name expected actual, .invalidType name expected actual ∈
        Verdict.violations (schema.verdicts (wholeDocument events)) →
      expected ≠ .code ∧ actual ≠ .code) ∧
    ∃ forest : Forest, (forest.Fits .object ∧ forest.events = events) ∧
      forest.EachDeclared schema (ReadsCode schema) .document := by
  intro schema source events
  have hbuilt : schema.IsBuilt := by
    refine ⟨"s", [.objectType "dim" [⟨"sql", .code⟩],
      .rootWith "view" [⟨"label", .string⟩, ⟨"dimension", .named "dim"⟩]], ?_⟩
    decide +kernel
  exact ⟨⟨by decide +kernel, by decide +kernel⟩, reads_code_where_declared hbuilt source.toList⟩

/-- A property that is declared as code in one object type is told as code in an object of
another type, too, which does not declare it. -/
theorem reads_code_undeclared :
    let view : ObjectType := ⟨.ofList [("label", .string)]⟩
    let schema : Schema := ⟨"s", .empty, .ofList [("dim", ⟨.ofList [("sql", .code)]⟩),
      ("view", view)], .ofList ["dim", "view"]⟩
    let source := "view: v \x7b sql: x # ;;\n \x7d"
    (schema.IsBuilt ∧ Ground.document.Opens schema (.named "view" "v") (.object view)) ∧
      (schema.read source.toList).events = [.named "view" "v", .code "sql" "x #", .close] ∧
      view.property? "sql" = none := by
  intro view schema source
  have hbuilt : schema.IsBuilt := by
    refine ⟨"s", [.rootWith "dim" [⟨"sql", .code⟩], .rootWith "view" [⟨"label", .string⟩]], ?_⟩
    decide +kernel
  exact ⟨⟨hbuilt, by decide +kernel, by decide +kernel⟩, by decide +kernel, by decide +kernel⟩

end Schema

end Lookml
