import Lookml.Proofs.Schema.Built
import Lookml.Schema.Blueprint

/-!
Calls and steps. A blueprint holds each property with its own name and the keyword of its
type, but after any calls it holds no more than a schema does: some steps declare that
schema, whatever the closures of the calls did on their way. Hence what is known of
schemas that are built is known of whatever calls can build.
-/

namespace Lookml

namespace Table

variable {α β : Type} {table : Table α} {name : String}

/-- The values of a table made anew, each with its name. -/
def mapEntries (f : String → α → β) (table : Table α) : Table β where
  toList := table.toList.map fun entry => (entry.1, f entry.1 entry.2)
  sorted := List.pairwise_map.mpr table.sorted

section MapEntries
variable (f : String → α → β)

@[simp] theorem toList_mapEntries :
    (table.mapEntries f).toList = table.toList.map fun entry => (entry.1, f entry.1 entry.2) := rfl

@[simp] theorem get?_mapEntries :
    (table.mapEntries f).get? name = (table.get? name).map (f name) := by
  rw [get?, get?, toList_mapEntries]
  induction table.toList with
  | nil => rfl
  | cons first entries ih =>
      obtain ⟨key, value⟩ := first
      by_cases h : name = key
      · subst h
        simp
      · have hne : (name == key) = false := by simpa using h
        simpa [List.lookup_cons, hne] using ih

@[simp] theorem contains_mapEntries : (table.mapEntries f).contains name = table.contains name := by
  simp [contains]

theorem mapEntries_insert (value : α) :
    (table.insert name value).mapEntries f = (table.mapEntries f).insert name (f name value) := by
  apply ext
  simp only [toList_mapEntries, insert]
  induction table.toList with
  | nil => rfl
  | cons first entries ih =>
      simp only [insertInto, List.map_cons]
      split
      · rfl
      · split
        · rw [List.map_cons, ih]
        · rfl

end MapEntries

/-- What stands under a name already makes no difference when it is put there again. -/
theorem insert_of_get? {value : α} (h : table.get? name = some value) :
    table.insert name value = table := by
  have hlists (entries : List (String × α))
      (hsorted : entries.Pairwise fun left right => left.1 < right.1)
      (hlookup : entries.lookup name = some value) : insertInto name value entries = entries := by
    induction entries with
    | nil => cases hlookup
    | cons first entries ih =>
        obtain ⟨hfirst, hentries⟩ := List.pairwise_cons.mp hsorted
        obtain ⟨key, old⟩ := first
        by_cases hkey : name = key
        · subst hkey
          obtain rfl : old = value := by simpa using hlookup
          simp [insertInto]
        · have hne : (name == key) = false := by simpa using hkey
          rw [List.lookup_cons, hne] at hlookup
          obtain ⟨front, back, hsplit, _⟩ := List.lookup_eq_some_iff.mp hlookup
          have hlt : key < name :=
            hfirst (name, value) (hsplit ▸ List.mem_append_right _ List.mem_cons_self)
          have hge : ¬name < key := fun h => String.lt_irrefl _ (String.lt_trans h hlt)
          rw [insertInto, if_neg hge, if_pos hlt, ih hentries hlookup]
  exact ext (hlists table.toList table.sorted h)

end Table

/-! The records that a schema stands for. -/

def ObjectType.records (type : ObjectType) : Table Property :=
  type.properties.mapEntries .ofType

def Schema.blueprint (schema : Schema) : Blueprint where
  name := schema.name
  enums := schema.enums
  objects := schema.objects.mapEntries fun _ type => type.records
  roots := schema.roots.mapEntries fun name _ => .root name

/-! Configuring an object type. -/

namespace TypeDraft

variable {draft : TypeDraft} {enums : Table EnumType}

def addAll (draft : TypeDraft) (declarations : List Declaration) : TypeDraft :=
  declarations.foldl
    (fun draft declaration => draft.add (.ofType declaration.name declaration.type)) draft

theorem repeated_addAll {seen : List String} (declarations : List Declaration)
    (hseen : ∀ name, draft.properties.contains name = seen.contains name) :
    (draft.addAll declarations).repeated =
      draft.repeated.or (Schema.repeated? seen (declarations.map Declaration.name)) := by
  induction declarations generalizing draft seen with
  | nil => simp [addAll, Schema.repeated?]
  | cons declaration declarations ih =>
      have hnext : ∀ name,
          (draft.add (.ofType declaration.name declaration.type)).properties.contains name =
            (declaration.name :: seen).contains name := by
        intro name
        rw [Bool.eq_iff_iff, add, Table.contains_insert, hseen, List.contains_cons]
        simp [Property.ofType]
      rw [addAll, List.foldl_cons, ← addAll, ih hnext, add, Option.or_assoc, hseen, List.map_cons,
        Schema.repeated?]
      split <;> simp_all [Property.ofType]

theorem properties_addAll (type : ObjectType) (declarations : List Declaration)
    (htype : draft.properties = type.records) :
    (draft.addAll declarations).properties =
      ObjectType.records ⟨declarations.foldl
        (fun table declaration => table.insert declaration.name declaration.type)
        type.properties⟩ := by
  induction declarations generalizing draft type with
  | nil => exact htype
  | cons declaration declarations ih =>
      refine ih ⟨type.properties.insert declaration.name declaration.type⟩ ?_
      show draft.properties.insert declaration.name (.ofType declaration.name declaration.type) = _
      rw [htype]
      exact (Table.mapEntries_insert Property.ofType declaration.type).symm

theorem addAll_start (declarations : List Declaration) :
    start.addAll declarations =
      ⟨(Schema.typeOf declarations).records,
        Schema.repeated? [] (declarations.map Declaration.name)⟩ := by
  have hproperties : (start.addAll declarations).properties = _ :=
    properties_addAll .empty declarations rfl
  have hrepeated : (start.addAll declarations).repeated =
      none.or (Schema.repeated? [] (declarations.map Declaration.name)) :=
    repeated_addAll declarations fun _ => rfl
  rw [Schema.typeOf, Table.ofList, List.foldl_map]
  exact TypeDraft.ext hproperties hrepeated

end TypeDraft

namespace Configuration

variable {enums : Table EnumType} {draft last : TypeDraft}

theorem run_ofDeclarations (declarations : List Declaration) :
    (ofDeclarations declarations).run enums draft =
      match declarations.findSome? (Declaration.refusal? enums) with
      | some error => .error error
      | none => .ok (draft.addAll declarations) := by
  induction declarations generalizing draft with
  | nil => rfl
  | cons declaration declarations ih =>
      rw [ofDeclarations, run, List.findSome?_cons]
      cases declaration.refusal? enums with
      | some error => rfl
      | none => exact ih

/-- Whatever a configuration does on its way, it has declared some properties in the end,
none of them refused. -/
theorem exists_of_run {configuration : Configuration}
    (h : configuration.run enums draft = .ok last) :
    ∃ declarations : List Declaration,
      declarations.findSome? (Declaration.refusal? enums) = none ∧
        last = draft.addAll declarations := by
  induction configuration generalizing draft with
  | finish error =>
      cases error with
      | some error => cases h
      | none => exact ⟨[], rfl, (Except.ok.inj h).symm⟩
  | declare declaration next ih =>
      rw [run] at h
      cases hrefusal : declaration.refusal? enums with
      | some error =>
          rw [hrefusal] at h
          exact ih (some error) h
      | none =>
          rw [hrefusal] at h
          obtain ⟨declarations, hadmitted, hlast⟩ := ih none h
          refine ⟨declaration :: declarations, ?_, hlast⟩
          rw [List.findSome?_cons, hrefusal]
          exact hadmitted

end Configuration

/-! Calls on the blueprint of a schema. -/

namespace Schema

variable {schema : Schema} {name : String} {error : SchemaError}

theorem undeclaredEnum?_eq (declarations : List Declaration) :
    schema.undeclaredEnum? declarations =
      declarations.findSome? (Declaration.refusal? schema.enums) := rfl

theorem contains_blueprint_objects (name : String) :
    schema.blueprint.objects.contains name = schema.objects.contains name :=
  Table.contains_mapEntries _

theorem contains_blueprint_roots (name : String) :
    schema.blueprint.roots.contains name = schema.roots.contains name :=
  Table.contains_mapEntries _

theorem blueprint_addEnum (values : List String) :
    schema.blueprint.addEnum name values =
      ((schema.declare (.enum name values)).1.blueprint,
        (schema.declare (.enum name values)).2) := by
  have henums : schema.blueprint.enums = schema.enums := rfl
  rw [Blueprint.addEnum, declare, addEnum, henums]
  split <;> rfl

/-- A property that is at the top already is put there again as it is. -/
theorem blueprint_addRoot : schema.blueprint.addRoot name =
    ((schema.declare (.root name)).1.blueprint, (schema.declare (.root name)).2) := by
  cases hroot : schema.roots.contains name with
  | false =>
      have hdeclared : schema.declare (.root name) =
          ({ schema with roots := schema.roots.insert name () }, none) := by
        rw [declare, addRoot, hroot]
        rfl
      rw [Blueprint.addRoot, contains_blueprint_roots, hroot, hdeclared]
      refine congrArg (fun roots => ({ schema.blueprint with roots }, none)) ?_
      exact (Table.mapEntries_insert (fun name _ => Property.root name) ()).symm
  | true =>
      have hdeclared : schema.declare (.root name) =
          (schema, some (.duplicateProperty name rootOwner)) := by
        rw [declare, addRoot, hroot]
        rfl
      rw [Blueprint.addRoot, contains_blueprint_roots, hroot, hdeclared]
      refine congrArg (fun roots => ({ schema.blueprint with roots }, _)) ?_
      obtain ⟨_, hget⟩ := Table.contains_iff_get?.mp hroot
      exact Table.insert_of_get? (by simp [blueprint, hget])

theorem blueprint_addObjectType (declarations : List Declaration) :
    schema.blueprint.addObjectType name (.ofDeclarations declarations) =
      ((schema.declare (.objectType name declarations)).1.blueprint,
        (schema.declare (.objectType name declarations)).2) := by
  have henums : schema.blueprint.enums = schema.enums := rfl
  rw [Blueprint.addObjectType, contains_blueprint_objects, declare, addObjectType,
    Configuration.run_ofDeclarations, henums, ← undeclaredEnum?_eq, TypeDraft.addAll_start]
  split
  · rfl
  · cases schema.undeclaredEnum? declarations with
    | some error => rfl
    | none =>
        cases repeated? [] (declarations.map Declaration.name) with
        | some property => rfl
        | none =>
            refine congrArg (fun objects => ({ schema.blueprint with objects }, none)) ?_
            exact (Table.mapEntries_insert (fun _ type => type.records) (typeOf declarations)).symm

/-- A step does to a schema what its call does to the blueprint, and fails as the call
does. -/
theorem blueprint_call (step : SchemaStep) :
    schema.blueprint.call step.call =
      ((schema.declare step).1.blueprint, (schema.declare step).2) := by
  cases step with
  | enum name values => exact blueprint_addEnum values
  | objectType name declarations => exact blueprint_addObjectType declarations
  | root name => exact blueprint_addRoot
  | rootWith name declarations =>
      rw [SchemaStep.call, Blueprint.call, Blueprint.addRootWith, blueprint_addObjectType]
      simp only [declare]
      cases schema.addObjectType name declarations with
      | error error => rfl
      | ok next => exact blueprint_addRoot

/-- An object type is added by a call only if it is by a step. -/
theorem exists_step_of_addObjectType {configuration : Configuration}
    (h : (schema.blueprint.addObjectType name configuration).2 = none) :
    ∃ declarations, (schema.blueprint.addObjectType name configuration).1 =
      (schema.declare (.objectType name declarations)).1.blueprint := by
  rw [Blueprint.addObjectType] at h ⊢
  cases hcontains : schema.blueprint.objects.contains name with
  | true => simp [hcontains] at h
  | false =>
      cases hrun : configuration.run schema.blueprint.enums .start with
      | error error => simp [hcontains, hrun] at h
      | ok draft =>
          obtain ⟨declarations, hadmitted, rfl⟩ := Configuration.exists_of_run hrun
          refine ⟨declarations, ?_⟩
          have hstep : (schema.blueprint.addObjectType name (.ofDeclarations declarations)).1 = _ :=
            congrArg Prod.fst (blueprint_addObjectType declarations)
          rw [Blueprint.addObjectType, Configuration.run_ofDeclarations, hadmitted] at hstep
          simpa [hcontains, hrun] using hstep

end Schema

namespace Blueprint

variable {name : String} {error : SchemaError}

theorem addObjectType_eq_self {blueprint : Blueprint} {configuration : Configuration}
    (h : (blueprint.addObjectType name configuration).2 = some error) :
    (blueprint.addObjectType name configuration).1 = blueprint := by
  rw [addObjectType] at h ⊢
  split
  · rfl
  · rename_i hnew
    rw [if_neg hnew] at h
    cases hrun : configuration.run blueprint.enums .start with
    | error error => rfl
    | ok draft =>
        rw [hrun] at h
        obtain ⟨properties, repeated⟩ := draft
        cases repeated with
        | none => cases h
        | some property => rfl

/-- The owner of a name is the one noted before, or else the first that declares it as
code. -/
theorem get?_foldl_noteCode (owners : Table String) (entries : List (String × Property)) :
    (entries.foldl noteCode owners).get? name =
      (owners.get? name).or
        ((entries.find? fun owned => owned.2.name == name && owned.2.keyword == .code).map
          Prod.fst) := by
  induction entries generalizing owners with
  | nil => simp
  | cons owned entries ih =>
      have hnoted : (noteCode owners owned).get? name = (owners.get? name).or
          (if owned.2.name = name ∧ owned.2.keyword = .code then some owned.1 else none) := by
        unfold noteCode
        cases hget : owners.get? owned.2.name with
        | none => grind [Table.contains, Table.get?_insert]
        | some owner => grind [Table.contains]
      rw [List.foldl_cons, ih, hnoted, List.find?_cons, Option.or_assoc]
      congr 1
      by_cases h : owned.2.name = name ∧ owned.2.keyword = .code
      · simp [h]
      · have hother : (owned.2.name == name && owned.2.keyword == .code) = false := by simpa using h
        rw [if_neg h, hother, Option.none_or]

end Blueprint

namespace Schema

variable {schema : Schema} {name : String} {error : SchemaError}

/-- What a call leaves is the blueprint that some steps leave. -/
theorem exists_steps_of_call (schema : Schema) (call : SchemaCall) :
    ∃ steps : List SchemaStep, (schema.blueprint.call call).1 =
      (steps.foldl (fun schema step => (schema.declare step).1) schema).blueprint := by
  cases call with
  | enum name values => exact ⟨[.enum name values], congrArg Prod.fst (blueprint_addEnum values)⟩
  | root name => exact ⟨[.root name], congrArg Prod.fst blueprint_addRoot⟩
  | objectType name configuration =>
      cases hfails : (schema.blueprint.addObjectType name configuration).2 with
      | some error => exact ⟨[], Blueprint.addObjectType_eq_self hfails⟩
      | none =>
          obtain ⟨declarations, hstep⟩ := exists_step_of_addObjectType hfails
          exact ⟨[.objectType name declarations], hstep⟩
  | rootWith name configuration =>
      rw [Blueprint.call, Blueprint.addRootWith]
      cases hcall : schema.blueprint.addObjectType name configuration with
      | mk next failure =>
          cases failure with
          | some error =>
              have hsame := Blueprint.addObjectType_eq_self (congrArg Prod.snd hcall)
              rw [hcall] at hsame
              exact ⟨[], hsame⟩
          | none =>
              obtain ⟨declarations, hstep⟩ := exists_step_of_addObjectType (congrArg Prod.snd hcall)
              rw [hcall] at hstep
              obtain rfl := hstep
              exact ⟨[.objectType name declarations, .root name],
                congrArg Prod.fst blueprint_addRoot⟩

/-- Whatever calls are made, some steps declare what they leave. -/
theorem exists_steps_of_calls (name : String) (calls : List SchemaCall) :
    ∃ steps, Blueprint.ofCalls name calls = (ofSteps name steps).blueprint := by
  have hrun (schema : Schema) : ∃ steps : List SchemaStep,
      calls.foldl (fun blueprint call => (blueprint.call call).1) schema.blueprint =
        (steps.foldl (fun schema step => (schema.declare step).1) schema).blueprint := by
    induction calls generalizing schema with
    | nil => exact ⟨[], rfl⟩
    | cons call calls ih =>
        obtain ⟨first, hfirst⟩ := exists_steps_of_call schema call
        obtain ⟨others, hothers⟩ :=
          ih (first.foldl (fun schema step => (schema.declare step).1) schema)
        refine ⟨first ++ others, ?_⟩
        rw [List.foldl_cons, hfirst, hothers, List.foldl_append]
  exact hrun (empty name)

/-- Steps leave what their calls leave. -/
theorem blueprint_ofSteps (name : String) (steps : List SchemaStep) :
    (ofSteps name steps).blueprint = Blueprint.ofCalls name (steps.map SchemaStep.call) := by
  have hrun (schema : Schema) :
      (steps.foldl (fun schema step => (schema.declare step).1) schema).blueprint =
        (steps.map SchemaStep.call).foldl (fun blueprint call => (blueprint.call call).1)
          schema.blueprint := by
    induction steps generalizing schema with
    | nil => rfl
    | cons step steps ih =>
        rw [List.foldl_cons, ih, List.map_cons, List.foldl_cons, blueprint_call]
  exact hrun (empty name)

/-! A finished blueprint. -/

theorem allProperties_blueprint (schema : Schema) :
    schema.blueprint.allProperties =
      schema.allProperties.map fun entry => (entry.1, .ofType entry.2.1 entry.2.2) := by
  simp only [Blueprint.allProperties, allProperties, properties, blueprint, ObjectType.records,
    Table.values, Table.keys, Table.toList_mapEntries, List.map_append, List.map_map,
    List.map_flatMap, List.flatMap_map]
  rfl

theorem unresolved?_blueprint (schema : Schema) (name : String) (type : PropertyType) :
    schema.blueprint.unresolved? (.ofType name type) = schema.unresolved? name type := by
  have henums : schema.blueprint.enums = schema.enums := rfl
  cases type with
  | list elements => rfl
  | object typeName | named typeName =>
      simp [Blueprint.unresolved?, Property.ofType, PropertyType.typeName?, PropertyType.keyword,
        unresolved?, contains_blueprint_objects]
  | enum typeName =>
      simp [Blueprint.unresolved?, Property.ofType, PropertyType.typeName?, PropertyType.keyword,
        unresolved?, henums]
  | _ => rfl

theorem keyword_eq_code_iff {type : PropertyType} : type.keyword = .code ↔ type = .code := by
  cases type with
  | list elements => cases elements <;> simp [PropertyType.keyword, ListType.keyword]
  | _ => simp [PropertyType.keyword]

theorem keyword_beq_code (type : PropertyType) : (type.keyword == .code) = (type == .code) := by
  rw [Bool.eq_iff_iff, beq_iff_eq, beq_iff_eq, keyword_eq_code_iff]

theorem get?_codeOwners (schema : Schema) (name : String) :
    schema.blueprint.codeOwners.get? name = schema.codeOwner? name := by
  rw [Blueprint.codeOwners, allProperties_blueprint, Blueprint.get?_foldl_noteCode,
    Table.get?_empty, Option.none_or, List.find?_map, Option.map_map, codeOwner?]
  simp only [Function.comp_def, Property.ofType, keyword_beq_code]
  rw [allProperties, List.find?_append, List.find?_eq_none.mpr, Option.none_or]
  -- No root property is code.
  simp

theorem clash?_blueprint (schema : Schema) (owner name : String) (type : PropertyType) :
    Blueprint.clash? schema.blueprint.codeOwners owner (.ofType name type) =
      schema.clash? owner name type := by
  simp only [Blueprint.clash?, clash?, Property.ofType, keyword_eq_code_iff, get?_codeOwners]

theorem flaw?_blueprint (schema : Schema) : schema.blueprint.flaw? = schema.flaw? := by
  simp only [Blueprint.flaw?, flaw?, allProperties_blueprint, List.findSome?_map, Function.comp_def,
    unresolved?_blueprint, clash?_blueprint]

theorem codeNames_blueprint (schema : Schema) :
    Names.ofList schema.blueprint.codeOwners.keys = schema.codeNames := by
  refine Names.eq_of_contains fun name => ?_
  rw [Names.contains_ofList, ← Table.contains_iff_mem_keys, Table.contains, get?_codeOwners,
    contains_codeNames_iff]
  constructor
  · intro h
    obtain ⟨owner, howner⟩ := Option.isSome_iff_exists.mp h
    obtain ⟨entry, hentry, rfl⟩ := Option.map_eq_some_iff.mp howner
    obtain ⟨owner, other, type⟩ := entry
    obtain ⟨rfl, rfl⟩ : other = name ∧ type = .code := by simpa using List.find?_some hentry
    exact ⟨owner, List.mem_of_find?_eq_some hentry⟩
  · rintro ⟨owner, hmem⟩
    exact codeOwner?_isSome hmem

/-- A blueprint is finished as its schema is, and names the code that the schema has. -/
theorem build_blueprint (schema : Schema) :
    schema.blueprint.build = schema.build.map fun built => (built.blueprint, built.codeNames) := by
  rw [Blueprint.build, build, flaw?_blueprint, codeNames_blueprint]
  cases schema.flaw? <;> rfl

end Schema

end Lookml
