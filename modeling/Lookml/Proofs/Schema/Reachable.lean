import Lookml.Proofs.Schema.Built

/-!
The object types that a document can have objects of. Each round of the search that finds
something new leaves fewer object types to be found, and no more of them are named than
there are properties; so the last round finds nothing new, and what is found is the least
set that has with an object type those that its objects may hold.
-/

namespace Lookml.Schema

variable {schema : Schema} {reached : Names} {typeName inner : String} {names : String → Prop}

theorem mem_successors_iff : inner ∈ schema.successors typeName ↔
    ∃ type name property, schema.objects.get? typeName = some type ∧
      type.property? name = some property ∧ property.objectType? = some inner := by
  rw [successors, Table.values, List.mem_filterMap, objectType]
  constructor
  · rintro ⟨property, hproperty, hinner⟩
    obtain ⟨⟨name, property⟩, hentry, rfl⟩ := List.mem_map.mp hproperty
    cases htype : schema.objects.get? typeName with
    | none => rw [htype] at hentry; cases hentry
    | some type =>
        rw [htype] at hentry
        exact ⟨type, name, property, rfl, Table.get?_of_mem hentry, hinner⟩
  · rintro ⟨type, name, property, htype, hproperty, hinner⟩
    rw [htype, Option.getD_some]
    exact ⟨property, List.mem_map.mpr ⟨_, Table.mem_of_get? hproperty, rfl⟩, hinner⟩

/-- What objects of these types may hold is of these types as well. -/
def ClosedUnder (schema : Schema) (reached : Names) : Prop :=
  ∀ typeName inner, reached.contains typeName = true → inner ∈ schema.successors typeName →
    reached.contains inner = true

theorem contains_grow_iff : (schema.grow reached).contains inner = true ↔
    reached.contains inner = true ∨
      ∃ typeName, reached.contains typeName = true ∧ inner ∈ schema.successors typeName := by
  have hfold (names : List String) (reached : Names) :
      (names.foldl (fun names name => names.insert name ()) reached).contains inner = true ↔
        reached.contains inner = true ∨ inner ∈ names := by
    induction names generalizing reached with
    | nil => simp
    | cons name names ih =>
        rw [List.foldl_cons, ih, Table.contains_insert, List.mem_cons]
        grind
  rw [grow, hfold, List.mem_flatMap]
  simp only [Table.contains_iff_mem_keys]

theorem ClosedUnder.grow (h : schema.ClosedUnder reached) :
    schema.ClosedUnder (schema.grow reached) := by
  have hsame {name : String} (hname : (schema.grow reached).contains name = true) :
      reached.contains name = true := by
    rcases contains_grow_iff.mp hname with hreached | ⟨_, hreached, hsuccessor⟩
    · exact hreached
    · exact h _ _ hreached hsuccessor
  intro typeName inner hreached hsuccessor
  exact contains_grow_iff.mpr (.inl (h _ _ (hsame hreached) hsuccessor))

/-- The object types that properties name. -/
def namedTypes (schema : Schema) : List String :=
  schema.properties.filterMap fun (_, _, property) => property.objectType?

theorem mem_namedTypes_of_successor (h : inner ∈ schema.successors typeName) :
    inner ∈ schema.namedTypes := by
  obtain ⟨type, name, property, htype, hproperty, hinner⟩ := mem_successors_iff.mp h
  exact List.mem_filterMap.mpr ⟨(typeName, name, property), mem_properties htype hproperty, hinner⟩

section Unreached
variable {reached' : Names} {names : List String}

/-- Where no name is lost, no more of some names are not reached. -/
theorem countP_unreached_le
    (hmono : ∀ name, reached.contains name = true → reached'.contains name = true)
    (names : List String) :
    names.countP (fun name => !reached'.contains name) ≤
      names.countP fun name => !reached.contains name := by
  refine List.countP_mono_left fun name _ hname => ?_
  have hnot : ¬reached'.contains name = true := by simpa using hname
  simpa using fun hold => hnot (hmono name hold)

theorem countP_unreached_lt
    (hmono : ∀ name, reached.contains name = true → reached'.contains name = true)
    (hmem : typeName ∈ names) (hnew : reached.contains typeName = false)
    (hfound : reached'.contains typeName = true) :
    names.countP (fun name => !reached'.contains name) <
      names.countP fun name => !reached.contains name := by
  obtain ⟨front, back, rfl⟩ := List.append_of_mem hmem
  have hfront := countP_unreached_le hmono front
  have hback := countP_unreached_le hmono back
  simp only [List.countP_append, List.countP_cons, hfound, hnew]
  simp only [Bool.not_true, Bool.not_false, if_true, Bool.false_eq_true, if_false]
  omega

end Unreached

/-- How many of the named types are not reached. -/
def left (schema : Schema) (reached : Names) : Nat :=
  schema.namedTypes.countP fun typeName => !reached.contains typeName

theorem left_grow_lt (h : ¬schema.ClosedUnder reached) :
    schema.left (schema.grow reached) < schema.left reached := by
  obtain ⟨typeName, inner, hreached, hsuccessor, hnew⟩ : ∃ typeName inner,
      reached.contains typeName = true ∧ inner ∈ schema.successors typeName ∧
        ¬reached.contains inner = true := by
    simpa [ClosedUnder] using h
  have hfound : (schema.grow reached).contains inner = true :=
    contains_grow_iff.mpr (.inr ⟨typeName, hreached, hsuccessor⟩)
  exact countP_unreached_lt (fun name hold => contains_grow_iff.mpr (.inl hold))
    (mem_namedTypes_of_successor hsuccessor) (by simpa using hnew) hfound

theorem closedUnder_reachable (schema : Schema) : schema.ClosedUnder schema.reachable := by
  have hrounds (rounds : Nat) :
      schema.ClosedUnder (Nat.repeat schema.grow rounds schema.roots) ∨
        schema.left (Nat.repeat schema.grow rounds schema.roots) + rounds ≤
          schema.left schema.roots := by
    induction rounds with
    | zero => exact .inr (Nat.le_refl _)
    | succ rounds ih =>
        rw [Nat.repeat]
        rcases ih with hclosed | hleft
        · exact .inl hclosed.grow
        · by_cases hclosed : schema.ClosedUnder (Nat.repeat schema.grow rounds schema.roots)
          · exact .inl hclosed.grow
          · have hless := left_grow_lt hclosed
            exact .inr (by omega)
  rcases hrounds schema.properties.length with hclosed | hleft
  · exact hclosed
  · have hbound : schema.left schema.roots ≤ schema.properties.length :=
      Nat.le_trans List.countP_le_length (List.length_filterMap_le _ _)
    refine Classical.byContradiction fun hopen => ?_
    have hless := left_grow_lt hopen
    rw [← reachable] at hleft
    omega

theorem contains_reachable_of_root (h : schema.roots.contains typeName = true) :
    schema.reachable.contains typeName = true := by
  rw [reachable]
  induction schema.properties.length with
  | zero => exact h
  | succ rounds ih =>
      rw [Nat.repeat]
      exact contains_grow_iff.mpr (.inl ih)

/-- A set of object types has those at the top, and with one all that its properties
name. -/
structure Encloses (schema : Schema) (names : String → Prop) : Prop where
  root : ∀ {typeName}, schema.roots.contains typeName = true → names typeName
  property : ∀ {outer type name property inner}, names outer →
    schema.objects.get? outer = some type → type.property? name = some property →
    property.objectType? = some inner → names inner

theorem Encloses.successor (h : schema.Encloses names) (houter : names typeName)
    (hinner : inner ∈ schema.successors typeName) : names inner := by
  obtain ⟨type, name, property, htype, hproperty, hnamed⟩ := mem_successors_iff.mp hinner
  exact h.property houter htype hproperty hnamed

theorem encloses_reachable (schema : Schema) :
    schema.Encloses fun typeName => schema.reachable.contains typeName = true where
  root := contains_reachable_of_root
  property houter htype hproperty hinner := closedUnder_reachable schema _ _ houter
    (mem_successors_iff.mpr ⟨_, _, _, htype, hproperty, hinner⟩)

theorem Encloses.of_reachable (h : schema.Encloses names)
    (hname : schema.reachable.contains typeName = true) : names typeName := by
  rw [reachable] at hname
  generalize schema.properties.length = rounds at hname
  induction rounds generalizing typeName with
  | zero => exact h.root hname
  | succ rounds ih =>
      rw [Nat.repeat, contains_grow_iff] at hname
      rcases hname with hreached | ⟨outer, hreached, hsuccessor⟩
      · exact ih hreached
      · exact h.successor (ih hreached) hsuccessor

/-- Where the object types that are named are declared, no others are reached. -/
theorem IsClosed.contains_object_of_reachable (hschema : schema.IsClosed)
    (h : schema.reachable.contains typeName = true) : schema.objects.contains typeName = true := by
  have hobjects : schema.Encloses fun typeName => schema.objects.contains typeName = true :=
    ⟨fun hroot => Table.contains_iff_get?.mpr (hschema.root hroot),
      fun _ htype hproperty hinner =>
        Table.contains_iff_get?.mpr (hschema.property htype hproperty hinner)⟩
  exact hobjects.of_reachable h

end Lookml.Schema
