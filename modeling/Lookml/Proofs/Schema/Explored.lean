import Lookml.Node.Registry
import Lookml.Proofs.Conformance.Judging
import Lookml.Proofs.Conformance.Marking
import Lookml.Proofs.Schema.Reachable

/-!
The object types that a document can have objects of, found with a stack of those that
wait. The search comes to an end also where object types hold one another: a type is
looked into once, and only a declared one adds to the stack. What it finds is the least
set of object types with those at the top in which the objects of each hold only objects
of the others; a checker enters no other object type, and a registry that fits the schema
knows these.
-/

namespace Lookml

namespace Schema

variable {schema : Schema} {reached : Names} {pending : List String} {typeName inner : String}
  {names : String → Prop}

/-- How many of the declared object types are not reached. -/
def unseen (schema : Schema) (reached : Names) : Nat :=
  schema.objects.keys.countP fun typeName => !reached.contains typeName

theorem unseen_insert_le (schema : Schema) (reached : Names) (typeName : String) :
    schema.unseen (reached.insert typeName ()) ≤ schema.unseen reached :=
  countP_unreached_le (fun _ hold => Table.contains_insert.mpr (.inr hold)) schema.objects.keys

theorem unseen_insert_lt (hdeclared : schema.objects.contains typeName = true)
    (hnew : reached.contains typeName = false) :
    schema.unseen (reached.insert typeName ()) < schema.unseen reached :=
  countP_unreached_lt (fun _ hold => Table.contains_insert.mpr (.inr hold))
    (Table.contains_iff_mem_keys.mp hdeclared) hnew (Table.contains_insert.mpr (.inl rfl))

/-- A search goes on with fewer declared types to see, or with a shorter stack. -/
theorem explore_decreases (hnew : ¬reached.contains typeName = true) :
    Prod.Lex (· < ·) (· < ·)
      (schema.unseen (reached.insert typeName ()),
        ((schema.successors typeName).reverse ++ pending).length)
      (schema.unseen reached, (typeName :: pending).length) := by
  cases hdeclared : schema.objects.contains typeName with
  | true => exact .left _ _ (unseen_insert_lt hdeclared (Bool.eq_false_iff.mpr hnew))
  | false =>
      have hnone : schema.successors typeName = [] :=
        List.eq_nil_iff_forall_not_mem.mpr fun inner hinner => by
          obtain ⟨type, _, _, htype, _⟩ := mem_successors_iff.mp hinner
          exact Bool.false_ne_true
            (hdeclared.symm.trans (Table.contains_iff_get?.mpr ⟨type, htype⟩))
      rcases Nat.lt_or_eq_of_le (unseen_insert_le schema reached typeName) with hless | hsame
      · exact .left _ _ hless
      · rw [hnone, hsame]
        exact .right _ (Nat.lt_succ_self _)

/-- What is found from a stack of object types that wait: on a new one, those that its
objects may hold are put. -/
def explore (schema : Schema) (reached : Names) (pending : List String) : Names :=
  match pending with
  | [] => reached
  | typeName :: pending =>
      if reached.contains typeName then schema.explore reached pending
      else schema.explore (reached.insert typeName ())
        ((schema.successors typeName).reverse ++ pending)
termination_by (schema.unseen reached, pending.length)
decreasing_by
  · exact .right _ (Nat.lt_succ_self _)
  · exact explore_decreases ‹_›

def explored (schema : Schema) : Names := schema.explore .empty schema.roots.keys.reverse

/-- The search finds nothing outside of a set that encloses what it starts with. -/
theorem Encloses.of_explore (h : schema.Encloses names)
    (hreached : ∀ typeName, reached.contains typeName = true → names typeName)
    (hpending : ∀ typeName ∈ pending, names typeName) :
    ∀ typeName, (schema.explore reached pending).contains typeName = true → names typeName := by
  fun_induction explore schema reached pending with
  | case1 reached => exact hreached
  | case2 reached first pending hseen ih =>
      exact ih hreached fun typeName hmem => hpending typeName (List.mem_cons_of_mem _ hmem)
  | case3 reached first pending hnew ih =>
      have hfirst : names first := hpending first List.mem_cons_self
      refine ih (fun typeName hcontains => ?_) (fun typeName hmem => ?_)
      · rcases Table.contains_insert.mp hcontains with rfl | hold
        · exact hfirst
        · exact hreached typeName hold
      · rcases List.mem_append.mp hmem with hsuccessor | hold
        · exact h.successor hfirst (List.mem_reverse.mp hsuccessor)
        · exact hpending typeName (List.mem_cons_of_mem _ hold)

/-- What is reached holds only objects of what is reached or waits, so in the end of what
is reached. -/
theorem closedUnder_explore
    (h : ∀ typeName inner, reached.contains typeName = true → inner ∈ schema.successors typeName →
      reached.contains inner = true ∨ inner ∈ pending) :
    schema.ClosedUnder (schema.explore reached pending) ∧
      ∀ typeName, reached.contains typeName = true ∨ typeName ∈ pending →
        (schema.explore reached pending).contains typeName = true := by
  fun_induction explore schema reached pending with
  | case1 reached =>
      refine ⟨fun typeName inner hreached hinner => ?_, fun typeName hmem => ?_⟩
      · exact (h typeName inner hreached hinner).resolve_right List.not_mem_nil
      · exact hmem.resolve_right List.not_mem_nil
  | case2 reached first pending hseen ih =>
      have hdrop {typeName : String} (hmem : reached.contains typeName = true ∨
          typeName ∈ first :: pending) : reached.contains typeName = true ∨ typeName ∈ pending := by
        rcases hmem with hreached | hmem
        · exact .inl hreached
        · rcases List.mem_cons.mp hmem with rfl | hmem
          · exact .inl hseen
          · exact .inr hmem
      obtain ⟨hclosed, hfinds⟩ := ih fun typeName inner hreached hinner =>
        hdrop (h typeName inner hreached hinner)
      exact ⟨hclosed, fun typeName hmem => hfinds typeName (hdrop hmem)⟩
  | case3 reached first pending hnew ih =>
      have hmove {typeName : String} (hmem : reached.contains typeName = true ∨
          typeName ∈ first :: pending) : (reached.insert first ()).contains typeName = true ∨
            typeName ∈ (schema.successors first).reverse ++ pending := by
        rcases hmem with hreached | hmem
        · exact .inl (Table.contains_insert.mpr (.inr hreached))
        · rcases List.mem_cons.mp hmem with rfl | hmem
          · exact .inl (Table.contains_insert.mpr (.inl rfl))
          · exact .inr (List.mem_append_right _ hmem)
      obtain ⟨hclosed, hfinds⟩ := ih fun typeName inner hreached hinner => by
        rcases Table.contains_insert.mp hreached with rfl | hold
        · exact .inr (List.mem_append_left _ (List.mem_reverse.mpr hinner))
        · exact hmove (h typeName inner hold hinner)
      exact ⟨hclosed, fun typeName hmem => hfinds typeName (hmove hmem)⟩

theorem encloses_explored (schema : Schema) :
    schema.Encloses fun typeName => schema.explored.contains typeName = true := by
  have hstart : ∀ typeName inner, (Table.empty : Names).contains typeName = true →
      inner ∈ schema.successors typeName → (Table.empty : Names).contains inner = true ∨
        inner ∈ schema.roots.keys.reverse := fun _ _ hreached _ => by cases hreached
  obtain ⟨hclosed, hfinds⟩ := closedUnder_explore hstart
  refine ⟨fun hroot => ?_, fun houter htype hproperty hinner => ?_⟩
  · exact hfinds _ (.inr (List.mem_reverse.mpr (Table.contains_iff_mem_keys.mp hroot)))
  · exact hclosed _ _ houter (mem_successors_iff.mpr ⟨_, _, _, htype, hproperty, hinner⟩)

theorem Encloses.of_explored (h : schema.Encloses names)
    (hname : schema.explored.contains typeName = true) : names typeName := by
  refine h.of_explore (fun _ hreached => ?_) (fun name hmem => ?_) typeName hname
  · cases hreached
  · exact h.root (Table.contains_iff_mem_keys.mpr (List.mem_reverse.mp hmem))

/-- The search with a stack finds what the rounds find: both are the least set that
encloses. -/
theorem explored_eq_reachable (schema : Schema) : schema.explored = schema.reachable :=
  Names.eq_of_contains fun _ =>
    ⟨(encloses_reachable schema).of_explored, (encloses_explored schema).of_reachable⟩

end Schema

/-! A checker enters reachable object types only. -/

namespace Checker

variable {schema : Schema} {type : Option (String × ObjectType)} {taken : List String}
  {name typeName : String} {level : Level}

/-- The object type of the level is one that the schema declares and that is reachable. -/
def Level.Reached (schema : Schema) : Level → Prop
  | .object (some (typeName, type)) _ =>
      schema.reachable.contains typeName = true ∧ schema.objects.get? typeName = some type
  | _ => True

def Judgement.Reached (schema : Schema) : Judgement → Prop
  | .keep level => level.Reached schema
  | .enter level inner => level.Reached schema ∧ inner.Reached schema
  | .refuse _ | .ignore => True

theorem reached_levelOf (hschema : schema.IsClosed)
    (h : schema.reachable.contains typeName = true) : (levelOf schema typeName).Reached schema := by
  obtain ⟨type, htype⟩ := Table.contains_iff_get?.mp (hschema.contains_object_of_reachable h)
  exact ⟨h, by rw [Schema.objectType, htype, Option.getD_some]⟩

/-- An object type that a property of a reachable one is required to name. -/
theorem reachable_of_requires {parent : String × ObjectType} {required : Except Violation String}
    {made : String → PropertyType} (h : (Level.object (some parent) taken).Reached schema)
    (hmade : ∀ typeName, (made typeName).objectType? = some typeName)
    (hrequired : Requires (fun typeName => ∃ property, parent.2.property? name = some property ∧
      property = made typeName) required)
    (htype : required = .ok typeName) : schema.reachable.contains typeName = true := by
  rw [htype] at hrequired
  obtain ⟨property, hproperty, rfl⟩ := hrequired.1
  exact (Schema.encloses_reachable schema).property h.1 h.2 hproperty (hmade typeName)

theorem reachable_of_namedType (h : (Level.object type taken).Reached schema)
    (htype : namedType schema type name = .ok typeName) :
    schema.reachable.contains typeName = true := by
  cases type with
  | none =>
      simp only [namedType] at htype
      split at htype
      · obtain rfl := Except.ok.inj htype
        exact Schema.contains_reachable_of_root ‹_›
      · cases htype
  | some parent =>
      have hrequired := (requires_declared parent.1 parent.2 name).bind fun property _ =>
        requires_named property name
      exact reachable_of_requires h (fun _ => rfl) hrequired htype

theorem reachable_of_plainType (h : (Level.object type taken).Reached schema)
    (htype : plainType schema type name = .ok typeName) :
    schema.reachable.contains typeName = true := by
  cases type with
  | none =>
      simp only [plainType] at htype
      split at htype <;> cases htype
  | some parent =>
      have hrequired := (requires_declared parent.1 parent.2 name).bind fun property _ =>
        requires_object property name
      exact reachable_of_requires h (fun _ => rfl) hrequired htype

/-- Which names are taken makes no difference. -/
theorem Level.Reached.retake (h : (Level.object type taken).Reached schema) (names : List String) :
    (Level.object type names).Reached schema := by
  cases type <;> exact h

theorem reached_judgeScalar {event : Event} (h : (Level.object type taken).Reached schema) :
    (judgeScalar schema type taken name event).Reached schema := by
  rw [judgeScalar]
  split
  · exact h.retake _
  · trivial

theorem reached_judgeList (h : (Level.object type taken).Reached schema) :
    (judgeList type taken name).Reached schema := by
  simp only [judgeList]
  split
  · exact ⟨h.retake _, trivial⟩
  · trivial

/-- What becomes of an opening, where the types that it may be of are reachable. -/
theorem reached_opening (hschema : schema.IsClosed) (h : (Level.object type taken).Reached schema)
    {required : Except Violation String} {took : Except Violation (List String)}
    (hrequired : ∀ typeName, required = .ok typeName →
      schema.reachable.contains typeName = true) :
    (opening type (levelOf schema) (do return (← required, ← took))).Reached schema := by
  cases required with
  | error violation => trivial
  | ok typeName =>
      cases took with
      | error violation => trivial
      | ok names => exact ⟨h.retake names, reached_levelOf hschema (hrequired typeName rfl)⟩

theorem reached_judge (hschema : schema.IsClosed) (event : Event) (h : level.Reached schema) :
    (judge schema level event).Reached schema := by
  cases level with
  | refused => trivial
  | list name elements =>
      cases event with
      | comment text => exact h
      | _ =>
          simp only [judge]
          split
          · exact h
          · trivial
  | object type taken =>
      cases event with
      | comment text => exact h
      | close => exact h
      | list name => exact reached_judgeList h
      | object name =>
          rw [judge, judgeObject_eq_opening]
          exact reached_opening hschema h fun _ => reachable_of_plainType h
      | named name instanceName =>
          rw [judge, judgeNamed_eq_opening]
          exact reached_opening hschema h fun _ => reachable_of_namedType h
      | _ => exact reached_judgeScalar h

/-- One delivery: the types of the open objects stay reachable ones. -/
theorem reached_step (hschema : schema.IsClosed) {levels : List Level} (delivery : Delivery)
    (h : ∀ level ∈ levels, level.Reached schema) :
    ∃ next, (step ⟨schema, levels⟩ delivery).1 = ⟨schema, next⟩ ∧
      ∀ level ∈ next, level.Reached schema := by
  have hleave : ∃ next, (leave ⟨schema, levels⟩ delivery).1 = ⟨schema, next⟩ ∧
      ∀ level ∈ next, level.Reached schema := by
    cases levels with
    | nil => exact ⟨[], rfl, h⟩
    | cons level outer =>
        obtain ⟨_, houter⟩ := List.forall_mem_cons.mp h
        cases level <;> exact ⟨outer, rfl, houter⟩
  cases delivery with
  | abandon => exact hleave
  | event event =>
      by_cases hclose : event = .close
      · subst hclose
        exact hleave
      cases levels with
      | nil => exact ⟨[], by cases event <;> rfl, h⟩
      | cons level outer =>
          obtain ⟨hlevel, houter⟩ := List.forall_mem_cons.mp h
          have hrefused : ∀ other ∈ refusedLevels event ++ level :: outer,
              other.Reached schema := fun other hmem => by
            rcases List.mem_append.mp hmem with hrefused | hold
            · obtain ⟨_, _, rfl⟩ := List.mem_map.mp hrefused
              trivial
            · exact h other hold
          have hjudge := reached_judge hschema event hlevel
          cases hjudged : judge schema level event with
          | keep next =>
              rw [hjudged] at hjudge
              rw [step_keep hclose hjudged]
              exact ⟨_, rfl, List.forall_mem_cons.mpr ⟨hjudge, houter⟩⟩
          | enter next inside =>
              rw [hjudged] at hjudge
              rw [step_enter hclose hjudged]
              refine ⟨_, rfl, List.forall_mem_cons.mpr ⟨hjudge.2, ?_⟩⟩
              exact List.forall_mem_cons.mpr ⟨hjudge.1, houter⟩
          | refuse violation =>
              rw [step_refuse hclose hjudged]
              exact ⟨_, rfl, hrefused⟩
          | ignore =>
              refine ⟨refusedLevels event ++ level :: outer, ?_, hrefused⟩
              cases event <;> first | contradiction | simp [step, hjudged]

/-- The types of the objects that are open after some deliveries. -/
theorem reached_run (hschema : schema.IsClosed) {levels : List Level} (deliveries : List Delivery)
    (h : ∀ level ∈ levels, level.Reached schema) :
    ∀ level ∈ (run ⟨schema, levels⟩ deliveries).levels, level.Reached schema := by
  induction deliveries generalizing levels with
  | nil => exact h
  | cons delivery deliveries ih =>
      obtain ⟨next, hstep, hnext⟩ := reached_step hschema delivery h
      rw [run, List.foldl_cons, hstep]
      exact ih hnext

end Checker

namespace Registry

variable {ν : Type} {registry : Registry ν} {schema : Schema} {typeName : String}

theorem missing?_eq_none_iff : registry.missing? schema = none ↔
    ∀ typeName, schema.reachable.contains typeName = true → registry.contains typeName = true := by
  simp [missing?, List.find?_eq_none, Table.contains_iff_mem_keys]

/-- The first object type that is missed in the order of the names. -/
theorem missing?_eq_some_iff : registry.missing? schema = some typeName ↔
    schema.reachable.contains typeName = true ∧ registry.contains typeName = false ∧
      ∀ smaller, smaller < typeName → schema.reachable.contains smaller = true →
        registry.contains smaller = true := by
  simp only [missing?, List.find?_eq_some_iff_append, Bool.not_eq_true',
    Table.contains_iff_mem_keys]
  constructor
  · rintro ⟨hmissing, front, back, hkeys, hfront⟩
    refine ⟨hkeys ▸ List.mem_append_right _ List.mem_cons_self, hmissing,
      fun smaller hless hmem => ?_⟩
    have hsorted := schema.reachable.keys_sorted
    rw [hkeys] at hsorted hmem
    rcases List.mem_append.mp hmem with hbefore | hafter
    · simpa using hfront smaller hbefore
    · have hnot : ¬smaller < typeName := by
        rcases List.mem_cons.mp hafter with rfl | hback
        · exact String.lt_irrefl _
        · have hback :=
            (List.pairwise_cons.mp (List.pairwise_append.mp hsorted).2.1).1 smaller hback
          exact fun hless => String.lt_irrefl _ (String.lt_trans hless hback)
      exact absurd hless hnot
  · rintro ⟨hmem, hmissing, hsmaller⟩
    obtain ⟨front, back, hkeys⟩ := List.append_of_mem hmem
    refine ⟨hmissing, front, back, hkeys, fun smaller hbefore => ?_⟩
    have hsorted := schema.reachable.keys_sorted
    rw [hkeys] at hsorted
    have hless := (List.pairwise_append.mp hsorted).2.2 smaller hbefore typeName List.mem_cons_self
    simpa using hsmaller smaller hless (hkeys ▸ List.mem_append_left _ hbefore)

end Registry

/-- For every schema that was built, also where its object types hold one another: the
search with a stack finds the least set of object types with those of the properties at
the top in which each has all that its properties name; after any deliveries, the object
types of the open objects are in that set; and a registry misses nothing exactly if it
knows the whole set, and else the first of the set that it does not know. -/
theorem Schema.IsBuilt.reachable_least {schema : Schema} (hschema : schema.IsBuilt) :
    schema.explored = schema.reachable ∧
    schema.Encloses (fun typeName => schema.reachable.contains typeName = true) ∧
    (∀ names : String → Prop, schema.Encloses names →
      ∀ typeName, schema.reachable.contains typeName = true → names typeName) ∧
    (∀ (deliveries : List Delivery) (typeName : String) (type : ObjectType) (taken : List String),
      .object (some (typeName, type)) taken ∈ ((Checker.start schema).run deliveries).levels →
      schema.reachable.contains typeName = true ∧ schema.objects.get? typeName = some type) ∧
    ∀ {ν : Type} (registry : Registry ν),
      (registry.missing? schema = none ↔ ∀ typeName,
        schema.reachable.contains typeName = true → registry.contains typeName = true) ∧
      ∀ typeName, registry.missing? schema = some typeName ↔
        schema.reachable.contains typeName = true ∧ registry.contains typeName = false ∧
          ∀ smaller, smaller < typeName → schema.reachable.contains smaller = true →
            registry.contains smaller = true := by
  refine ⟨explored_eq_reachable schema, encloses_reachable schema, ?_, ?_, ?_⟩
  · exact fun names hnames typeName => hnames.of_reachable
  · intro deliveries typeName type taken hmem
    have hstart : ∀ level ∈ (Checker.start schema).levels, level.Reached schema :=
      List.forall_mem_singleton.mpr trivial
    exact Checker.reached_run hschema.isClosed deliveries hstart _ hmem
  · exact fun registry => ⟨Registry.missing?_eq_none_iff, fun _ => Registry.missing?_eq_some_iff⟩

/-- Dimensions hold views again; the object type that has its name from an enum is not
reached through it. -/
theorem Schema.IsBuilt.reachable_least_cyclic :
    let dim : ObjectType :=
      ⟨.ofList [("kind", .enum "spare"), ("of", .named "view"), ("part", .object "dim")]⟩
    let spare : ObjectType := ⟨.ofList [("view", .named "view")]⟩
    let view : ObjectType := ⟨.ofList [("dimension", .named "dim")]⟩
    let schema : Schema := ⟨"s", .ofList [("spare", ⟨.ofList ["a"]⟩)],
      .ofList [("dim", dim), ("spare", spare), ("view", view)], .ofList ["view"]⟩
    let registry : Registry Unit :=
      (Registry.empty.register "spare" fun _ _ => ()).register "view" fun _ _ => ()
    let deliveries : List Delivery := [.event (.named "view" "v"), .event (.named "dimension" "d"),
      .event (.object "part"), .event (.object "kind"), .event .close, .event (.named "of" "w")]
    schema.IsBuilt ∧ schema.explored.keys = ["dim", "view"] ∧
      (((Checker.start schema).run deliveries).levels.all fun level => match level with
          | .object (some (typeName, _)) _ => schema.explored.contains typeName
          | _ => true) = true ∧
      registry.contains "dim" = false ∧ registry.missing? schema = some "dim" := by
  intro dim spare view schema registry deliveries
  have hbuilt : schema.IsBuilt := by
    refine ⟨"s", [.enum "spare" ["a"],
      .objectType "dim" [⟨"kind", .enum "spare"⟩, ⟨"of", .named "view"⟩, ⟨"part", .object "dim"⟩],
      .objectType "spare" [⟨"view", .named "view"⟩],
      .rootWith "view" [⟨"dimension", .named "dim"⟩]], ?_⟩
    decide +kernel
  obtain ⟨hexplored, _, _, hentered, hregistry⟩ := hbuilt.reachable_least
  have hkeys : schema.reachable.keys = ["dim", "view"] := by decide +kernel
  have hmissing : registry.missing? schema = some "dim" := by decide +kernel
  rw [hexplored]
  refine ⟨hbuilt, hkeys, List.all_eq_true.mpr fun level hlevel => ?_,
    (((hregistry registry).2 "dim").mp hmissing).2.1, hmissing⟩
  split
  · exact (hentered deliveries _ _ _ hlevel).1
  · rfl

end Lookml
