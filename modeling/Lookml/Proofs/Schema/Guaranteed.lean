import Lookml.Proofs.Schema.Called

/-!
What the finishing of a blueprint guarantees, and what a call that fails leaves behind. A
blueprint is finished just when all object types that it names are declared and no name is
code here and something else there; a complaint is true of the properties that it names. A
call that fails leaves no trace, but for one that adds an object type before it finds the
property at the top there already.
-/

namespace Lookml

namespace Schema

variable {schema : Schema} {owner name : String} {type : PropertyType} {error : SchemaError}

/-! What holds of a schema that is declared step by step. -/

section Steps
variable {holds : Schema → Prop}

theorem settled_holds {result : Except SchemaError Schema} (h : holds schema)
    (hnext : ∀ next, result = .ok next → holds next) : holds (declare.settled schema result).1 := by
  cases result with
  | error error => exact h
  | ok next => exact hnext next rfl

/-- What each addition keeps holds after any steps, also after those that fail. -/
theorem ofSteps_holds (steps : List SchemaStep) (hempty : holds (empty name))
    (henum : ∀ {schema next name values}, holds schema → schema.addEnum name values = .ok next →
      holds next)
    (hobject : ∀ {schema next name declarations}, holds schema →
      schema.addObjectType name declarations = .ok next → holds next)
    (hroot : ∀ {schema next name}, holds schema → schema.addRoot name = .ok next → holds next) :
    holds (ofSteps name steps) := by
  have hstep {schema : Schema} (h : holds schema) (step : SchemaStep) :
      holds (schema.declare step).1 := by
    cases step with
    | enum name values => exact settled_holds h fun _ => henum h
    | objectType name declarations => exact settled_holds h fun _ => hobject h
    | root name => exact settled_holds h fun _ => hroot h
    | rootWith name declarations =>
        rw [declare]
        cases hadded : schema.addObjectType name declarations with
        | error error => exact h
        | ok next => exact settled_holds (hobject h hadded) fun _ => hroot (hobject h hadded)
  have hsteps {schema : Schema} (h : holds schema) :
      holds (steps.foldl (fun schema step => (schema.declare step).1) schema) := by
    induction steps generalizing schema with
    | nil => exact h
    | cons step steps ih => exact ih (hstep h step)
  exact hsteps hempty

end Steps

/-- The enum types that properties name are there. -/
def DeclaresEnums (schema : Schema) : Prop :=
  ∀ {owner name typeName}, (owner, name, .enum typeName) ∈ schema.properties →
    schema.enums.contains typeName = true

theorem mem_properties_iff {schema : Schema} : (owner, name, type) ∈ schema.properties ↔
    ∃ found, (owner, found) ∈ schema.objects.toList ∧ (name, type) ∈ found.properties.toList := by
  simp only [properties, List.mem_flatMap, List.mem_map]
  constructor
  · rintro ⟨⟨_, found⟩, howned, ⟨_, _⟩, hentry, heq⟩
    obtain ⟨rfl, rfl, rfl⟩ := heq
    exact ⟨found, howned, hentry⟩
  · rintro ⟨found, howned, hentry⟩
    exact ⟨(owner, found), howned, (name, type), hentry, rfl⟩

theorem contains_of_undeclaredEnum? {declarations : List Declaration} {typeName : String}
    (h : schema.undeclaredEnum? declarations = none)
    (hmem : (name, .enum typeName) ∈ (typeOf declarations).properties.toList) :
    schema.enums.contains typeName = true := by
  obtain ⟨declaration, hdeclaration, heq⟩ := List.mem_map.mp (Table.mem_ofList hmem)
  obtain ⟨-, htype⟩ := Prod.mk.inj heq
  have hadmitted : declaration.refusal? schema.enums = none :=
    List.findSome?_eq_none_iff.mp h declaration hdeclaration
  simp only [Declaration.refusal?, htype] at hadmitted
  split at hadmitted
  · assumption
  · cases hadmitted

theorem declaresEnums_ofSteps (name : String) (steps : List SchemaStep) :
    (ofSteps name steps).DeclaresEnums := by
  apply ofSteps_holds steps
  · rintro _ _ _ ⟨⟩
  · intro schema next name values h hnext owner property typeName hmem
    unfold addEnum at hnext
    split at hnext
    · cases hnext
    · obtain rfl := Except.ok.inj hnext
      exact Table.contains_insert.mpr (.inr (h hmem))
  · intro schema next name declarations h hnext owner property typeName hmem
    unfold addObjectType at hnext
    split at hnext
    · cases hnext
    split at hnext
    · cases hnext
    · cases hnext
    · rename_i henums _
      obtain rfl := Except.ok.inj hnext
      obtain ⟨found, howned, hentry⟩ := mem_properties_iff.mp hmem
      rcases Table.mem_insert howned with heq | hold
      · obtain ⟨rfl, rfl⟩ := Prod.mk.inj heq
        exact contains_of_undeclaredEnum? henums hentry
      · exact h (mem_properties_iff.mpr ⟨found, hold, hentry⟩)
  · intro schema next name h hnext owner property typeName hmem
    unfold addRoot at hnext
    split at hnext
    · cases hnext
    · obtain rfl := Except.ok.inj hnext
      exact h hmem

/-! The complaints about a schema. -/

theorem unresolved?_eq_some (h : schema.unresolved? name type = some error) :
    (∃ typeName, type = .enum typeName ∧ schema.enums.contains typeName = false) ∨
      ∃ typeName, type.objectType? = some typeName ∧ schema.objects.contains typeName = false ∧
        error = .unknownObjectType name typeName := by
  cases type with
  | enum typeName =>
      simp only [unresolved?] at h
      split at h
      · cases h
      · exact .inl ⟨typeName, rfl, by simp_all⟩
  | object typeName | named typeName =>
      simp only [unresolved?] at h
      split at h
      · cases h
      · exact .inr ⟨typeName, rfl, by simp_all, (Option.some.inj h).symm⟩
  | _ => cases h

theorem clash?_eq_some (h : schema.clash? owner name type = some error) :
    type ≠ .code ∧ ∃ codeIn, (codeIn, name, .code) ∈ schema.properties ∧
      error = .codeClash name codeIn owner type.keyword := by
  unfold clash? at h
  split at h
  · cases h
  · rename_i hother
    obtain ⟨codeIn, howner, rfl⟩ := Option.map_eq_some_iff.mp h
    obtain ⟨⟨found, other, property⟩, hentry, rfl⟩ := Option.map_eq_some_iff.mp howner
    obtain ⟨rfl, rfl⟩ : other = name ∧ property = .code := by simpa using List.find?_some hentry
    exact ⟨hother, found, List.mem_of_find?_eq_some hentry, rfl⟩

theorem exists_flaw (h : schema.build = .error error) :
    (∃ owner name type, (owner, name, type) ∈ schema.allProperties ∧
      schema.unresolved? name type = some error) ∨
    ∃ owner name type, (owner, name, type) ∈ schema.allProperties ∧
      schema.clash? owner name type = some error := by
  have hflaw : schema.flaw? = some error := by
    unfold build at h
    split at h
    · rename_i found hfound
      rw [hfound, Except.error.inj h]
    · cases h
  rw [flaw?, Option.or_eq_some_iff] at hflaw
  rcases hflaw with hunresolved | ⟨-, hclash⟩
  · obtain ⟨entry, hmem, hentry⟩ := List.exists_of_findSome?_eq_some hunresolved
    exact .inl ⟨_, _, _, hmem, hentry⟩
  · obtain ⟨entry, hmem, hentry⟩ := List.exists_of_findSome?_eq_some hclash
    exact .inr ⟨_, _, _, hmem, hentry⟩

end Schema

namespace Blueprint

/-- A property stands under a key at the top, or in the object type that is its owner. -/
inductive Declares (blueprint : Blueprint) : String → String → Property → Prop
  | root {key : String} {property : Property} (hroot : blueprint.roots.get? key = some property) :
      Declares blueprint Schema.rootOwner key property
  | type {owner key : String} {properties : Table Property} {property : Property}
      (hobject : blueprint.objects.get? owner = some properties)
      (hproperty : properties.get? key = some property) : Declares blueprint owner key property

/-- Every property of objects names an object type that is declared. -/
def IsClosed (blueprint : Blueprint) : Prop :=
  ∀ {owner key property}, blueprint.Declares owner key property →
    property.keyword = .object ∨ property.keyword = .namedObject →
    ∃ typeName, property.typeName? = some typeName ∧ blueprint.objects.contains typeName = true

/-- No name is code in one place and something else in another. -/
def IsCodeExclusive (blueprint : Blueprint) : Prop :=
  ∀ {owner owner' key key' property property'}, blueprint.Declares owner key property →
    blueprint.Declares owner' key' property' → property.name = property'.name →
    property.keyword = .code → property'.keyword = .code

/-- Each property has the name that it stands under, and a type that properties can have;
it names a type just where it is of an enum or of objects, and this type is declared. -/
structure IsSound (blueprint : Blueprint) : Prop where
  name : ∀ {owner key property}, blueprint.Declares owner key property → property.name = key
  keyword : ∀ {owner key property}, blueprint.Declares owner key property →
    property.keyword ≠ .refString
  typeName : ∀ {owner key property}, blueprint.Declares owner key property →
    (property.typeName?.isSome = true ↔ property.keyword = .enum ∨ property.keyword = .object ∨
      property.keyword = .namedObject)
  enum : ∀ {owner key property typeName}, blueprint.Declares owner key property →
    property.typeName? = some typeName → property.keyword = .enum →
    blueprint.enums.contains typeName = true
  object : ∀ {owner key property typeName}, blueprint.Declares owner key property →
    property.typeName? = some typeName → property.keyword ≠ .enum →
    blueprint.objects.contains typeName = true

/-- A complaint of one of the two kinds that finishing has, and true of the properties
that it names. -/
def Suffers (blueprint : Blueprint) : SchemaError → Prop
  | .unknownObjectType name typeName => ∃ owner property, blueprint.Declares owner name property ∧
      (property.keyword = .object ∨ property.keyword = .namedObject) ∧
      property.typeName? = some typeName ∧ blueprint.objects.contains typeName = false
  | .codeClash name codeIn otherIn other => other ≠ .code ∧
      (∃ property, blueprint.Declares codeIn name property ∧ property.keyword = .code) ∧
      ∃ property, blueprint.Declares otherIn name property ∧ property.keyword = other
  | _ => False

end Blueprint

namespace Schema

variable {schema : Schema} {owner key name : String} {type : PropertyType} {error : SchemaError}

theorem declares_blueprint_iff {property : Property} :
    schema.blueprint.Declares owner key property ↔
      ∃ type, (owner, key, type) ∈ schema.allProperties ∧ property = .ofType key type := by
  constructor
  · intro h
    cases h with
    | root hroot =>
        obtain ⟨_, hget, rfl⟩ :=
          Option.map_eq_some_iff.mp ((Table.get?_mapEntries _).symm.trans hroot)
        exact ⟨.named key, mem_allProperties_of_root (Table.contains_iff_get?.mpr ⟨_, hget⟩), rfl⟩
    | type hobject hproperty =>
        obtain ⟨found, htype, rfl⟩ :=
          Option.map_eq_some_iff.mp ((Table.get?_mapEntries _).symm.trans hobject)
        obtain ⟨type, hget, rfl⟩ :=
          Option.map_eq_some_iff.mp ((Table.get?_mapEntries _).symm.trans hproperty)
        exact ⟨type, mem_allProperties htype hget, rfl⟩
  · rintro ⟨type, hmem, rfl⟩
    rcases List.mem_append.mp hmem with hroot | hinner
    · obtain ⟨name, hname, heq⟩ := List.mem_map.mp hroot
      obtain ⟨rfl, rfl, rfl⟩ : rootOwner = owner ∧ name = key ∧ .named name = type := by
        simpa using heq
      obtain ⟨_, hget⟩ := Table.contains_iff_get?.mp (Table.contains_iff_mem_keys.mpr hname)
      exact .root ((Table.get?_mapEntries _).trans (by rw [hget]; rfl))
    · obtain ⟨found, howned, hentry⟩ := mem_properties_iff.mp hinner
      have hobject := Table.get?_of_mem howned
      have hproperty := Table.get?_of_mem hentry
      exact .type ((Table.get?_mapEntries _).trans (by rw [hobject]; rfl))
        ((Table.get?_mapEntries _).trans (by rw [hproperty]; rfl))

theorem keyword_eq_object_iff : type.keyword = .object ∨ type.keyword = .namedObject ↔
    ∃ typeName, type.objectType? = some typeName := by
  cases type with
  | list elements => cases elements <;> simp [PropertyType.keyword, ListType.keyword,
      PropertyType.objectType?]
  | _ => simp [PropertyType.keyword, PropertyType.objectType?]

theorem typeName?_of_objectType? {typeName : String} (h : type.objectType? = some typeName) :
    type.typeName? = some typeName := by
  cases type <;> first | exact h | cases h

theorem IsBuilt.blueprint_isSound (h : schema.IsBuilt) : schema.blueprint.IsSound where
  name hdeclares := by
    obtain ⟨type, _, rfl⟩ := declares_blueprint_iff.mp hdeclares
    rfl
  keyword hdeclares := by
    obtain ⟨type, _, rfl⟩ := declares_blueprint_iff.mp hdeclares
    cases type with
    | list elements =>
        cases elements <;> simp [Property.ofType, PropertyType.keyword, ListType.keyword]
    | _ => simp [Property.ofType, PropertyType.keyword]
  typeName hdeclares := by
    obtain ⟨type, _, rfl⟩ := declares_blueprint_iff.mp hdeclares
    cases type with
    | list elements => cases elements <;>
        simp [Property.ofType, PropertyType.keyword, ListType.keyword, PropertyType.typeName?]
    | _ => simp [Property.ofType, PropertyType.keyword, PropertyType.typeName?]
  enum hdeclares htypeName hkeyword := by
    obtain ⟨type, hmem, rfl⟩ := declares_blueprint_iff.mp hdeclares
    cases type with
    | enum typeName =>
        obtain rfl := Option.some.inj htypeName
        exact h.contains_enum hmem
    | list elements => cases htypeName
    | _ => cases hkeyword
  object hdeclares htypeName hkeyword := by
    obtain ⟨type, hmem, rfl⟩ := declares_blueprint_iff.mp hdeclares
    cases type with
    | object typeName | named typeName =>
        obtain rfl := Option.some.inj htypeName
        exact (contains_blueprint_objects _).trans (h.contains_object hmem rfl)
    | enum typeName => exact absurd rfl hkeyword
    | list elements => cases htypeName
    | _ => cases htypeName

theorem IsBuilt.blueprint_isClosed (h : schema.IsBuilt) : schema.blueprint.IsClosed := by
  intro owner key property hdeclares hkeyword
  have hsound := h.blueprint_isSound
  have hnames := (hsound.typeName hdeclares).mpr (.inr hkeyword)
  obtain ⟨typeName, htypeName⟩ := Option.isSome_iff_exists.mp hnames
  refine ⟨typeName, htypeName, hsound.object hdeclares htypeName ?_⟩
  rcases hkeyword with hkeyword | hkeyword <;> simp [hkeyword]

theorem IsBuilt.blueprint_isCodeExclusive (h : schema.IsBuilt) :
    schema.blueprint.IsCodeExclusive := by
  intro owner owner' key key' property property' hdeclares hdeclares' hname hcode
  obtain ⟨type, hmem, rfl⟩ := declares_blueprint_iff.mp hdeclares
  obtain ⟨type', hmem', rfl⟩ := declares_blueprint_iff.mp hdeclares'
  obtain rfl : key = key' := hname
  obtain rfl : type = .code := keyword_eq_code_iff.mp hcode
  rcases List.mem_append.mp hmem with hroot | hinner
  · simp at hroot
  · have hcontains := contains_codeNames_iff.mpr ⟨owner, hinner⟩
    exact keyword_eq_code_iff.mpr (h.eq_code hcontains hmem')

theorem contains_codeNames_iff_declares {name : String} : schema.codeNames.contains name = true ↔
    ∃ owner key property, schema.blueprint.Declares owner key property ∧
      property.name = name ∧ property.keyword = .code := by
  rw [contains_codeNames_iff]
  constructor
  · rintro ⟨owner, hmem⟩
    exact ⟨owner, name, _, declares_blueprint_iff.mpr ⟨.code, List.mem_append_right _ hmem, rfl⟩,
      rfl, rfl⟩
  · rintro ⟨owner, key, property, hdeclares, rfl, hcode⟩
    obtain ⟨type, hmem, rfl⟩ := declares_blueprint_iff.mp hdeclares
    obtain rfl : type = .code := keyword_eq_code_iff.mp hcode
    rcases List.mem_append.mp hmem with hroot | hinner
    · simp at hroot
    · exact ⟨owner, hinner⟩

/-- An enum type is looked for when a property of it is declared, so the finishing finds
none missing. -/
theorem suffers_of_build (henums : schema.DeclaresEnums) (h : schema.build = .error error) :
    schema.blueprint.Suffers error := by
  rcases exists_flaw h with ⟨owner, name, type, hmem, hflaw⟩ | ⟨owner, name, type, hmem, hflaw⟩
  · rcases unresolved?_eq_some hflaw with
      ⟨typeName, rfl, hmissing⟩ | ⟨typeName, htype, hmissing, rfl⟩
    · rcases List.mem_append.mp hmem with hroot | hinner
      · simp at hroot
      · exact absurd (henums hinner) (by simp [hmissing])
    · exact ⟨owner, _, declares_blueprint_iff.mpr ⟨type, hmem, rfl⟩,
        keyword_eq_object_iff.mpr ⟨typeName, htype⟩, typeName?_of_objectType? htype,
        (contains_blueprint_objects typeName).trans hmissing⟩
  · obtain ⟨hother, codeIn, hcode, rfl⟩ := clash?_eq_some hflaw
    exact ⟨fun hkeyword => hother (keyword_eq_code_iff.mp hkeyword),
      ⟨_, declares_blueprint_iff.mpr ⟨.code, List.mem_append_right _ hcode, rfl⟩, rfl⟩,
      _, declares_blueprint_iff.mpr ⟨type, hmem, rfl⟩, rfl⟩

theorem not_suffers (hclosed : schema.blueprint.IsClosed)
    (hexclusive : schema.blueprint.IsCodeExclusive) : ¬schema.blueprint.Suffers error := by
  intro h
  cases error with
  | unknownObjectType name typeName =>
      obtain ⟨owner, property, hdeclares, hkeyword, htypeName, hmissing⟩ := h
      obtain ⟨found, hfound, hdeclared⟩ := hclosed hdeclares hkeyword
      obtain rfl : typeName = found := Option.some.inj (htypeName.symm.trans hfound)
      simp [hmissing] at hdeclared
  | codeClash name codeIn otherIn other =>
      obtain ⟨hother, ⟨property, hdeclares, hcode⟩, property', hdeclares', rfl⟩ := h
      obtain ⟨type, _, rfl⟩ := declares_blueprint_iff.mp hdeclares
      obtain ⟨type', _, rfl⟩ := declares_blueprint_iff.mp hdeclares'
      exact hother (hexclusive hdeclares hdeclares' rfl hcode)
  | _ => exact h.elim

end Schema

namespace Blueprint

variable {name : String} {calls : List SchemaCall}

/-- What calls build is the blueprint of a schema that steps build, with the names that
are code in it. -/
theorem exists_isBuilt {built : Blueprint} {codeNames : Names}
    (h : (ofCalls name calls).build = .ok (built, codeNames)) :
    built = ofCalls name calls ∧
      ∃ schema : Schema,
        schema.IsBuilt ∧ schema.blueprint = built ∧ schema.codeNames = codeNames := by
  obtain ⟨steps, hsteps⟩ := Schema.exists_steps_of_calls name calls
  rw [hsteps, Schema.build_blueprint] at h
  cases hbuild : (Schema.ofSteps name steps).build with
  | error error =>
      rw [hbuild] at h
      cases h
  | ok schema =>
      obtain ⟨rfl, _⟩ := Schema.build_eq_ok hbuild
      rw [hbuild] at h
      obtain ⟨rfl, rfl⟩ := Prod.mk.inj (Except.ok.inj h)
      exact ⟨hsteps.symm, _, ⟨name, steps, hbuild⟩, rfl, rfl⟩

theorem suffers_of_build {error : SchemaError} (h : (ofCalls name calls).build = .error error) :
    (ofCalls name calls).Suffers error := by
  obtain ⟨steps, hsteps⟩ := Schema.exists_steps_of_calls name calls
  rw [hsteps] at h ⊢
  rw [Schema.build_blueprint] at h
  cases hbuild : (Schema.ofSteps name steps).build with
  | ok schema =>
      rw [hbuild] at h
      cases h
  | error found =>
      rw [hbuild] at h
      obtain rfl : found = error := Except.error.inj h
      exact Schema.suffers_of_build (Schema.declaresEnums_ofSteps name steps) hbuild

theorem exists_build (hclosed : (ofCalls name calls).IsClosed)
    (hexclusive : (ofCalls name calls).IsCodeExclusive) :
    ∃ built codeNames, (ofCalls name calls).build = .ok (built, codeNames) := by
  cases hbuild : (ofCalls name calls).build with
  | ok built => exact ⟨built.1, built.2, rfl⟩
  | error error =>
      have hcomplaint := suffers_of_build hbuild
      obtain ⟨steps, hsteps⟩ := Schema.exists_steps_of_calls name calls
      rw [hsteps] at hclosed hexclusive hcomplaint
      exact absurd hcomplaint (Schema.not_suffers hclosed hexclusive)

/-- Whatever calls are made, and whichever of them fail, their blueprint is finished
exactly if every property of objects names a declared object type and no name is code in
one place and something else in another. A finished blueprint is sound and knows its names
of code; otherwise the complaint is true of the properties that it names. -/
theorem build_guarantees (name : String) (calls : List SchemaCall) :
    let blueprint := ofCalls name calls
    ((∃ built codeNames, blueprint.build = .ok (built, codeNames)) ↔
        blueprint.IsClosed ∧ blueprint.IsCodeExclusive) ∧
      (∀ built codeNames, blueprint.build = .ok (built, codeNames) →
        built = blueprint ∧ built.IsSound ∧
          ∀ name, codeNames.contains name = true ↔
            ∃ owner key property, built.Declares owner key property ∧
              property.name = name ∧ property.keyword = .code) ∧
      ∀ error, blueprint.build = .error error → blueprint.Suffers error := by
  intro blueprint
  refine ⟨⟨?_, fun h => exists_build h.1 h.2⟩, ?_, fun _ => suffers_of_build⟩
  · rintro ⟨built, codeNames, hbuild⟩
    obtain ⟨hsame, schema, hbuilt, hschema, _⟩ := exists_isBuilt hbuild
    have heq : blueprint = schema.blueprint := hsame.symm.trans hschema.symm
    rw [heq]
    exact ⟨hbuilt.blueprint_isClosed, hbuilt.blueprint_isCodeExclusive⟩
  · intro built codeNames hbuild
    obtain ⟨hsame, schema, hbuilt, rfl, rfl⟩ := exists_isBuilt hbuild
    exact ⟨hsame, hbuilt.blueprint_isSound, fun _ => Schema.contains_codeNames_iff_declares⟩

/-- A configuration goes on where an enum type is missing, others fail on their own or
declare a property twice; what is left is finished all the same. A name of code that is
declared again is told with the places of both. -/
theorem build_guarantees_view :
    let calls : List SchemaCall := [.enum "kind" ["a"], .enum "kind" ["b"],
      .rootWith "view" (.declare ⟨"kind", .enum "missing"⟩ fun refusal =>
        match refusal with
        | some _ => .declare ⟨"sql", .code⟩ fun _ => .finish none
        | none => .finish none),
      .objectType "join" (.declare ⟨"on", .code⟩ fun _ => .finish (some .noSchema)),
      .objectType "join"
        (.declare ⟨"on", .ref⟩ fun _ => .declare ⟨"on", .code⟩ fun _ => .finish none),
      .root "view"]
    let clashing := calls ++ [.objectType "join" (.ofDeclarations [⟨"sql", .ref⟩])]
    (ofCalls "s" calls).IsClosed ∧ (ofCalls "s" calls).IsCodeExclusive ∧
      (ofCalls "s" calls).IsSound ∧
      (ofCalls "s" clashing).Suffers (.codeClash "sql" "view" "join" .ref) := by
  intro calls clashing
  obtain ⟨hiff, hsound, _⟩ := build_guarantees "s" calls
  have hbuild : (ofCalls "s" calls).build = .ok (ofCalls "s" calls, .ofList ["sql"]) := by
    decide +kernel
  obtain ⟨hclosed, hexclusive⟩ := hiff.mp ⟨_, _, hbuild⟩
  exact ⟨hclosed, hexclusive, (hsound _ _ hbuild).2.1,
    (build_guarantees "s" clashing).2.2 _ (by decide +kernel)⟩

/-! Calls that fail. -/

theorem addRoot_eq_self {schema : Schema} {root : String} {error : SchemaError}
    (h : (schema.blueprint.addRoot root).2 = some error) :
    (schema.blueprint.addRoot root).1 = schema.blueprint := by
  rw [Schema.blueprint_addRoot] at h ⊢
  simp only [Schema.declare] at h ⊢
  cases hadded : schema.addRoot root with
  | ok next =>
      rw [hadded] at h
      cases h
  | error found => rfl

/-- A call that adds an object type and then fails finds the property at the top there
already. -/
theorem addRootWith_of_added {schema : Schema} {root : String} {configuration : Configuration}
    {error : SchemaError} (hadded : (schema.blueprint.addObjectType root configuration).2 = none)
    (h : (schema.blueprint.addRootWith root configuration).2 = some error) :
    (schema.blueprint.addRootWith root configuration).1 =
        (schema.blueprint.addObjectType root configuration).1 ∧
      error = .duplicateProperty root Schema.rootOwner := by
  obtain ⟨declarations, hnext⟩ := Schema.exists_step_of_addObjectType hadded
  have hadds : schema.blueprint.addRootWith root configuration =
      (schema.blueprint.addObjectType root configuration).1.addRoot root := by
    rw [addRootWith]
    split <;> simp_all
  rw [hadds, hnext] at h ⊢
  refine ⟨addRoot_eq_self h, ?_⟩
  simp only [addRoot] at h
  split at h
  · exact (Option.some.inj h).symm
  · cases h

theorem addObjectType_ne_self {blueprint : Blueprint} {root : String}
    {configuration : Configuration} (h : (blueprint.addObjectType root configuration).2 = none) :
    (blueprint.addObjectType root configuration).1 ≠ blueprint := by
  intro hsame
  rw [addObjectType] at h hsame
  split at h
  · cases h
  · rename_i hnew
    rw [if_neg hnew] at hsame
    cases hrun : configuration.run blueprint.enums .start with
    | error error =>
        rw [hrun] at h
        cases h
    | ok draft =>
        obtain ⟨properties, repeated⟩ := draft
        rw [hrun] at h hsame
        cases repeated with
        | some property => cases h
        | none =>
            have hobjects : blueprint.objects.insert root properties = blueprint.objects :=
              congrArg Blueprint.objects hsame
            refine hnew ?_
            rw [← hobjects, Table.contains_insert]
            exact .inl rfl

/-- A call that fails leaves a blueprint as it was, unless it adds an object type together
with a property at the top and could add the first of them; then this is there afterwards,
and the complaint is that the second was there before. -/
theorem failed_call_eq_self_iff {call : SchemaCall} {error : SchemaError}
    (h : ((ofCalls name calls).call call).2 = some error) :
    let blueprint := ofCalls name calls
    ((blueprint.call call).1 = blueprint ↔ ∀ root configuration,
        call = .rootWith root configuration →
          (blueprint.addObjectType root configuration).2 ≠ none) ∧
      ∀ root configuration, call = .rootWith root configuration →
        (blueprint.addObjectType root configuration).2 = none →
          (blueprint.call call).1 = (blueprint.addObjectType root configuration).1 ∧
            error = .duplicateProperty root Schema.rootOwner := by
  obtain ⟨steps, hsteps⟩ := Schema.exists_steps_of_calls name calls
  rw [hsteps] at h ⊢
  generalize Schema.ofSteps name steps = schema at h ⊢
  cases call with
  | enum enumName values =>
      refine ⟨⟨by simp, fun _ => ?_⟩, by simp⟩
      simp only [Blueprint.call, addEnum] at h ⊢
      split at h
      · simp_all
      · cases h
  | root root => exact ⟨⟨by simp, fun _ => addRoot_eq_self h⟩, by simp⟩
  | objectType typeName configuration =>
      exact ⟨⟨by simp, fun _ => addObjectType_eq_self h⟩, by simp⟩
  | rootWith root configuration =>
      have hleft (hadded : (schema.blueprint.addObjectType root configuration).2 = none) :=
        addRootWith_of_added hadded h
      refine ⟨⟨?_, fun hnever => ?_⟩, ?_⟩
      · rintro hsame _ _ ⟨⟩ hadded
        exact addObjectType_ne_self hadded ((hleft hadded).1.symm.trans hsame)
      · obtain ⟨found, hfails⟩ := Option.ne_none_iff_exists'.mp (hnever root configuration rfl)
        have hfirst : schema.blueprint.addRootWith root configuration =
            schema.blueprint.addObjectType root configuration := by
          rw [addRootWith]
          split <;> simp_all
        exact (congrArg Prod.fst hfirst).trans (addObjectType_eq_self hfails)
      · rintro _ _ ⟨⟩ hadded
        exact hleft hadded

/-- The first of two calls has added its object type when it fails; the second fails
before it adds anything. -/
theorem failed_call_eq_self_iff_view :
    let blueprint := ofCalls "s" [.root "view"]
    let adding := SchemaCall.rootWith "view" (.ofDeclarations [⟨"label", .string⟩])
    let failing := SchemaCall.rootWith "view" (.ofDeclarations [⟨"label", .enum "kind"⟩])
    (blueprint.call adding).2 = some (.duplicateProperty "view" "(root)") ∧
      (blueprint.call adding).1.objects.contains "view" = true ∧
      (blueprint.call failing).2 = some (.unknownEnumType "label" "kind") ∧
      (blueprint.call failing).1 = blueprint := by
  intro blueprint adding failing
  have hadding : (blueprint.call adding).2 = some (.duplicateProperty "view" "(root)") := by
    decide +kernel
  have hfailing : (blueprint.call failing).2 = some (.unknownEnumType "label" "kind") := by
    decide +kernel
  refine ⟨hadding, ?_, hfailing, (failed_call_eq_self_iff hfailing).1.mpr ?_⟩
  · have hleft := (failed_call_eq_self_iff hadding).2 "view" _ rfl (by decide +kernel)
    rw [hleft.1]
    decide +kernel
  · intro root configuration hcall
    obtain ⟨rfl, rfl⟩ := SchemaCall.rootWith.inj hcall
    decide +kernel

/-- A root that is there already is told only when its object type has been added. -/
theorem failed_call_ne_self :
    let blueprint := ofCalls "s" [.root "view"]
    let call := SchemaCall.rootWith "view" (.ofDeclarations [⟨"label", .string⟩])
    (blueprint.call call).2 = some (.duplicateProperty "view" "(root)") ∧
      (blueprint.call call).1 ≠ blueprint := by
  decide +kernel

end Blueprint

end Lookml
