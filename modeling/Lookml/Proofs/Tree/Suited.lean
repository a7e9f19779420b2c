import Lookml.Proofs.Schema.Loaded
import Lookml.Proofs.Tree.Kept

/-!
What suited members have under one name. A property that has no instance names has one
value at most; one that has them has named objects only, and no two of one instance name.
-/

namespace Lookml

/-- The values of this type are named objects. -/
def PropertyType.isNamed : PropertyType → Bool
  | .named _ => true
  | _ => false

theorem Value.Suits.isSome_instanceName? {schema : Schema} {property : PropertyType} {value : Value}
    (h : value.Suits schema property) : value.instanceName?.isSome = property.isNamed := by
  cases h <;> rfl

namespace Members

variable {schema : Schema} {ground : Ground} {members : Members} {name : String}
  {property : PropertyType} {value : Value}

theorem Suits.exists_of_getAll (h : members.Suits schema ground)
    (hvalue : value ∈ members.getAll name) :
    ∃ property, ground.property? schema name = some property ∧ value.Suits schema property := by
  have hmem := mem_toList_of_getAll hvalue
  clear hvalue
  induction members using toList.induct with
  | case1 comments => cases hmem
  | case2 comments other first rest ih =>
      cases h with
      | member hdeclared hfirst _ hrest =>
          rcases List.mem_cons.mp hmem with heq | hmem
          · obtain ⟨rfl, rfl⟩ := Prod.mk.inj heq
            exact ⟨_, hdeclared, hfirst⟩
          · exact ih hrest hmem

theorem Suits.distinct (h : members.Suits schema ground) :
    members.toList.Pairwise fun left right =>
      ¬(right.1 = left.1 ∧ right.2.instanceName? = left.2.instanceName?) := by
  induction members using toList.induct with
  | case1 comments => exact .nil
  | case2 comments other first rest ih =>
      cases h with
      | member _ _ hfresh hrest => exact List.pairwise_cons.mpr ⟨hfresh, ih hrest⟩

/-- Values of one name differ in their instance names, and one at most has none. -/
theorem Suits.getAll_distinct (h : members.Suits schema ground) (name : String) :
    (members.getAll name).Pairwise fun left right => right.instanceName? ≠ left.instanceName? := by
  refine h.distinct.filterMap _ fun left right hdiffers found hfound found' hfound' hsame => ?_
  split at hfound <;> cases hfound
  split at hfound' <;> cases hfound'
  rename_i hname hname'
  exact hdiffers ⟨hname'.trans hname.symm, hsame⟩

/-- A property without instance names has one value at most. -/
theorem Suits.getAll_eq_toList (h : members.Suits schema ground)
    (hplain : ∀ property, ground.property? schema name = some property → property.isNamed = false) :
    members.getAll name = (members.get? name).toList := by
  have hnone : ∀ value ∈ members.getAll name, value.instanceName? = none := fun value hvalue => by
    obtain ⟨property, hproperty, hsuits⟩ := h.exists_of_getAll hvalue
    simpa [hplain property hproperty] using hsuits.isSome_instanceName?
  have hdistinct := h.getAll_distinct name
  rw [get?]
  cases hall : members.getAll name with
  | nil => rfl
  | cons first rest =>
      cases rest with
      | nil => rfl
      | cons second rest =>
          rw [hall] at hnone hdistinct
          have hdiffers := (List.pairwise_cons.mp hdistinct).1 second List.mem_cons_self
          exact absurd ((hnone second (by simp)).trans (hnone first (by simp)).symm) hdiffers

/-- A property with instance names has named objects only. -/
theorem Suits.getAll_eq_map (h : members.Suits schema ground)
    (hnamed : ∀ property, ground.property? schema name = some property → property.isNamed = true) :
    members.getAll name =
      (members.instances name).map fun entry => .named entry.1 entry.2 := by
  have hsuits : ∀ value ∈ members.getAll name, value.instanceName?.isSome = true := by
    intro value hvalue
    obtain ⟨property, hproperty, hsuits⟩ := h.exists_of_getAll hvalue
    exact hsuits.isSome_instanceName?.trans (hnamed property hproperty)
  rw [instances]
  generalize members.getAll name = values at hsuits
  induction values with
  | nil => rfl
  | cons first rest ih =>
      obtain ⟨hfirst, hrest⟩ := List.forall_mem_cons.mp hsuits
      cases first with
      | named instanceName inner =>
          exact congrArg (Value.named instanceName inner :: ·) (ih hrest)
      | _ => cases hfirst

theorem Suits.instances_nodup (h : members.Suits schema ground) (name : String) :
    ((members.instances name).map Prod.fst).Nodup := by
  refine List.pairwise_map.mpr ((h.getAll_distinct name).filterMap _ ?_)
  intro left right hdiffers found hfound found' hfound'
  cases left <;> cases hfound
  cases right <;> cases hfound'
  exact fun hsame => hdiffers (congrArg some hsame.symm)

/-- Under a name for lists there is one list at most. -/
theorem Suits.elementsOf_eq (h : members.Suits schema ground) {listed : ListType}
    {elements : Elements} (hproperty : ground.property? schema name = some (.list listed))
    (hlist : (name, .list elements) ∈ members.toList) :
    members.elementsOf name = elements.toList := by
  have hvalue := mem_getAll.mpr hlist
  rw [h.getAll_eq_toList fun found hfound => by
    obtain rfl := Option.some.inj (hproperty.symm.trans hfound)
    rfl] at hvalue
  rw [elementsOf, Option.mem_toList.mp hvalue]
  rfl

theorem Suits.mem_elementsOf (h : members.Suits schema ground) {listed : ListType}
    (hproperty : ground.property? schema name = some (.list listed)) :
    value ∈ members.elementsOf name ↔
      ∃ elements, (name, .list elements) ∈ members.toList ∧ value ∈ elements.toList := by
  constructor
  · intro hvalue
    cases hget : members.get? name with
    | none =>
        rw [elementsOf, hget] at hvalue
        cases hvalue
    | some first =>
        have hfirst := mem_toList_of_get? hget
        cases first with
        | list elements => exact ⟨elements, hfirst, h.elementsOf_eq hproperty hfirst ▸ hvalue⟩
        | _ =>
            rw [elementsOf, hget] at hvalue
            cases hvalue
  · rintro ⟨elements, hlist, hmem⟩
    exact h.elementsOf_eq hproperty hlist ▸ hmem

theorem Suits.isElementOf (h : members.Suits schema ground) {listed : ListType}
    {elements : Elements} (hproperty : ground.property? schema name = some (.list listed))
    (hlist : (name, .list elements) ∈ members.toList) :
    ∀ element ∈ elements.toList, element.IsElementOf listed := by
  obtain ⟨property, hfound, hsuits⟩ := h.exists_of_getAll (mem_getAll.mpr hlist)
  obtain rfl := Option.some.inj (hproperty.symm.trans hfound)
  cases hsuits with
  | list helements => exact helements

/-- Under a name for references there is one identifier at most. -/
theorem Suits.getAll_eq_identifier (h : members.Suits schema ground)
    (hproperty : ground.property? schema name = some .ref) :
    members.getAll name = (Schema.identifierOf? members name).toList.map .identifier := by
  have hall := h.getAll_eq_toList fun found hfound => by
    obtain rfl := Option.some.inj (hproperty.symm.trans hfound)
    rfl
  cases hget : members.get? name with
  | none => rw [hall, Schema.identifierOf?, hget]; rfl
  | some value =>
      obtain ⟨property, hfound, hsuits⟩ := h.exists_of_getAll (List.mem_of_head? hget)
      obtain rfl := Option.some.inj (hproperty.symm.trans hfound)
      cases hsuits
      rw [hall, Schema.identifierOf?, hget]
      rfl

theorem Suits.identifierOf?_eq_some (h : members.Suits schema ground)
    (hproperty : ground.property? schema name = some .ref) {text : String} :
    Schema.identifierOf? members name = some text ↔ (name, .identifier text) ∈ members.toList := by
  rw [← mem_getAll, h.getAll_eq_identifier hproperty]
  simp [eq_comm]

theorem Suits.identifierOf?_eq_none (h : members.Suits schema ground)
    (hproperty : ground.property? schema name = some .ref) :
    Schema.identifierOf? members name = none ↔ ∀ value, (name, value) ∉ members.toList := by
  simp only [← mem_getAll, ← List.eq_nil_iff_forall_not_mem, h.getAll_eq_identifier hproperty,
    List.map_eq_nil_iff, Option.toList_eq_nil_iff]

theorem Suits.of_mem_instances (h : members.Suits schema ground) {instanceName : String}
    {inner : Members} (hmem : (instanceName, inner) ∈ members.instances name) :
    ∃ typeName type, ground.property? schema name = some (.named typeName) ∧
      schema.objects.get? typeName = some type ∧ inner.Suits schema (.object type) := by
  obtain ⟨property, hproperty, hsuits⟩ :=
    h.exists_of_getAll (mem_getAll.mpr (mem_instances.mp hmem))
  cases hsuits with
  | named htype hmembers => exact ⟨_, _, hproperty, htype, hmembers⟩

theorem Suits.instance (h : members.Suits schema ground) {instanceName typeName : String}
    {inner : Members} (hproperty : ground.property? schema name = some (.named typeName))
    (hmem : (name, .named instanceName inner) ∈ members.toList) :
    inner.Suits schema (.object (schema.objectType typeName)) := by
  obtain ⟨_, type, hfound, htype, hinner⟩ := h.of_mem_instances (mem_instances.mpr hmem)
  obtain rfl := PropertyType.named.inj (Option.some.inj (hproperty.symm.trans hfound))
  rwa [Schema.objectType, htype]

end Members

end Lookml
