import Lookml.Proofs.Project.Projected

/-!
What a project keeps of its tree. A part says what its object says under every property
that the schema has for it, and the parts that may be repeated beside one another are told
apart by their names.
-/

namespace Lookml.Project

/-- What can be said under a property. -/
inductive Said
  | number (number : Option Number)
  | text (text : Option String)
  | truth (value : Bool)
  | texts (texts : List String)
  | pairs (pairs : List (String × String))
  | part (part : Option Part)
  | parts (parts : List (String × Part))

/-- What an object says under a property of a type. A list that is absent says what an
empty one says, as do filters; so does a truth value that is absent and one that is `no`.
Objects with instance names come with these, in their order. -/
def said (members : Members) (name : String) : PropertyType → Said
  | .number => .number (members.number? name)
  | .string | .code | .ref => .text (members.text? name)
  | .enum typeName =>
      if typeName = "boolean" then .truth (members.truth name) else .text (members.text? name)
  | .list .pairs => .pairs (members.pairs name)
  | .list .refs | .list .strings => .texts (members.texts name)
  | .object typeName =>
      if typeName = "filters" then
        .pairs (((members.inner? name).map (·.pairs "filters")).getD [])
      else .part ((members.inner? name).map fun inner => .ofMembers typeName "" inner)
  | .named typeName => .parts ((members.instances name).map fun (instanceName, inner) =>
      (instanceName, .ofMembers typeName instanceName inner))

section Repeated
variable {α : Type} {make : String → Members → α} (nameOf : α → String) (part : α → Part)

/-- Parts that carry their names tell all that their objects do. -/
theorem map_part_eq (hname : ∀ name members, nameOf (make name members) = name)
    {entries entries' : List (String × Members)}
    (h : entries.map (fun (name, members) => make name members) =
      entries'.map fun (name, members) => make name members) :
    entries.map (fun (name, members) => (name, part (make name members))) =
      entries'.map fun (name, members) => (name, part (make name members)) := by
  have hmade := congrArg (List.map fun made => (nameOf made, part made)) h
  simpa [Function.comp_def, hname] using hmade

end Repeated

/-- Parts that are the same say the same under each property that the schema has for their
objects. -/
theorem said_eq {typeName property : String} {type : PropertyType}
    (hdeclared : (typeName, property, type) ∈ schema.properties) {name name' : String}
    {members members' : Members}
    (h : Part.ofMembers typeName name members = Part.ofMembers typeName name' members') :
    said members property type = said members' property type := by
  obtain ⟨object, hobject, hproperty⟩ := Schema.mem_properties_iff.mp hdeclared
  suffices hall : ∀ entry ∈ object.properties.toList,
      said members entry.1 entry.2 = said members' entry.1 entry.2 from hall _ hproperty
  -- One case for each object type: the components of its part are compared with its
  -- properties.
  have hobject := Table.mem_ofList hobject
  simp only [List.mem_cons, Prod.mk.injEq, List.not_mem_nil, or_false] at hobject
  rcases hobject with ⟨rfl, rfl⟩ | ⟨rfl, rfl⟩ | ⟨rfl, rfl⟩ | ⟨rfl, rfl⟩ | ⟨rfl, rfl⟩ | ⟨rfl, rfl⟩ |
    ⟨rfl, rfl⟩ | ⟨rfl, rfl⟩ <;> refine Table.forall_mem_ofList ?_
  · have hmodel := Part.model.inj h
    have hexplores :=
      map_part_eq Explore.name .explore (fun _ _ => rfl) (congrArg Model.explores hmodel)
    simp only [Model.ofMembers, Model.mk.injEq] at hmodel
    simp [said, Part.ofMembers, hmodel, hexplores]
  · have hexplore := Part.explore.inj h
    have hjoins := map_part_eq Join.name .join (fun _ _ => rfl) (congrArg Explore.joins hexplore)
    simp only [Explore.ofMembers, Explore.mk.injEq] at hexplore
    simp [said, Part.ofMembers, hexplore, hjoins]
  · have hjoin := Part.join.inj h
    simp only [Join.ofMembers, Join.mk.injEq] at hjoin
    simp [said, hjoin]
  · have hfilters := Part.filters.inj h
    simp [said, hfilters]
  · have hview := Part.view.inj h
    have hdimensions :=
      map_part_eq Dimension.name .dimension (fun _ _ => rfl) (congrArg View.dimensions hview)
    have hgroups :=
      map_part_eq Dimension.name .dimension (fun _ _ => rfl) (congrArg View.dimensionGroups hview)
    have hmeasures :=
      map_part_eq Measure.name .measure (fun _ _ => rfl) (congrArg View.measures hview)
    have htable := congrArg (fun view => view.derivedTable.map Part.derivedTable) hview
    simp only [View.ofMembers, View.mk.injEq, Option.map_map, Function.comp_def] at hview htable
    simp [said, Part.ofMembers, hview, hdimensions, hgroups, hmeasures, htable]
  · have htable := Part.derivedTable.inj h
    simp only [DerivedTable.ofMembers, DerivedTable.mk.injEq] at htable
    simp [said, htable]
  · have hdimension := Part.dimension.inj h
    simp only [Dimension.ofMembers, Dimension.mk.injEq] at hdimension
    simp [said, hdimension]
  · have hmeasure := Part.measure.inj h
    simp only [Measure.ofMembers, Measure.mk.injEq] at hmeasure
    simp [said, hmeasure]

/-- Models and views have names of their own, and so have the parts of one property inside
another part. -/
structure HasDistinctNames (project : Project) : Prop where
  models : (project.models.map Model.name).Nodup
  views : (project.views.map View.name).Nodup
  explores : ∀ model ∈ project.models, (model.explores.map Explore.name).Nodup
  joins : ∀ model ∈ project.models, ∀ explore ∈ model.explores, (explore.joins.map Join.name).Nodup
  dimensions : ∀ view ∈ project.views, (view.dimensions.map Dimension.name).Nodup
  dimensionGroups : ∀ view ∈ project.views, (view.dimensionGroups.map Dimension.name).Nodup
  measures : ∀ view ∈ project.views, (view.measures.map Measure.name).Nodup

section Names
variable {α : Type} {ground : Ground} {members : Members} {make : String → Members → α}

theorem names_nodup (h : members.Suits schema ground) (property : String) (nameOf : α → String)
    (hname : ∀ name inner, nameOf (make name inner) = name) :
    (((members.instances property).map fun (name, inner) => make name inner).map nameOf).Nodup := by
  have hnames := h.instances_nodup property
  simpa [Function.comp_def, hname] using hnames

theorem exists_of_mem_instances (h : members.Suits schema ground) {property : String} {made : α}
    (hmade : made ∈ (members.instances property).map fun (name, inner) => make name inner) :
    ∃ name inner type, inner.Suits schema (.object type) ∧ make name inner = made := by
  obtain ⟨⟨name, inner⟩, hmem, hmake⟩ := List.mem_map.mp hmade
  obtain ⟨_, type, _, _, hinner⟩ := h.of_mem_instances hmem
  exact ⟨name, inner, type, hinner, hmake⟩

end Names

theorem hasDistinctNames_ofDocument {document : Document}
    (h : Members.Suits schema .document document) : (ofDocument document).HasDistinctNames where
  models := names_nodup h "model" Model.name fun _ _ => rfl
  views := names_nodup h "view" View.name fun _ _ => rfl
  explores := by
    intro model hmodel
    obtain ⟨_, _, _, hinner, rfl⟩ := exists_of_mem_instances h hmodel
    exact names_nodup hinner "explore" Explore.name fun _ _ => rfl
  joins := by
    intro model hmodel explore hexplore
    obtain ⟨_, _, _, hinner, rfl⟩ := exists_of_mem_instances h hmodel
    obtain ⟨_, _, _, hinmost, rfl⟩ := exists_of_mem_instances hinner hexplore
    exact names_nodup hinmost "join" Join.name fun _ _ => rfl
  dimensions := by
    intro view hview
    obtain ⟨_, _, _, hinner, rfl⟩ := exists_of_mem_instances h hview
    exact names_nodup hinner "dimension" Dimension.name fun _ _ => rfl
  dimensionGroups := by
    intro view hview
    obtain ⟨_, _, _, hinner, rfl⟩ := exists_of_mem_instances h hview
    exact names_nodup hinner "dimension_group" Dimension.name fun _ _ => rfl
  measures := by
    intro view hview
    obtain ⟨_, _, _, hinner, rfl⟩ := exists_of_mem_instances h hview
    exact names_nodup hinner "measure" Measure.name fun _ _ => rfl

end Lookml.Project
