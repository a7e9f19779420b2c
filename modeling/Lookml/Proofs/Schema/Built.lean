import Lookml.Proofs.Table
import Lookml.Schema.Declaration

/-!
Schemas as they come out of a declaration step by step. All properties are listed where
their types declare them, and the object types that they name are declared.
-/

namespace Lookml.Schema

deriving instance DecidableEq for Except

/-- The schema of some steps, found without a flaw. -/
def IsBuilt (schema : Schema) : Prop :=
  ∃ name steps, (ofSteps name steps).build = .ok schema

/-- Every object type that a property names is declared. -/
structure IsClosed (schema : Schema) : Prop where
  root : ∀ {name}, schema.roots.contains name = true →
    ∃ type, schema.objects.get? name = some type
  property : ∀ {typeName type name property inner}, schema.objects.get? typeName = some type →
    type.property? name = some property → property.objectType? = some inner →
    ∃ innerType, schema.objects.get? inner = some innerType

theorem mem_allProperties_of_root {schema : Schema} {name : String}
    (h : schema.roots.contains name = true) :
    (rootOwner, name, .named name) ∈ schema.allProperties :=
  List.mem_append_left _ (List.mem_map.mpr ⟨name, Table.contains_iff_mem_keys.mp h, rfl⟩)

theorem mem_properties_of_mem {schema : Schema} {owned : String × ObjectType}
    {entry : String × PropertyType} (howned : owned ∈ schema.objects.toList)
    (hentry : entry ∈ owned.2.properties.toList) :
    (owned.1, entry.1, entry.2) ∈ schema.properties :=
  List.mem_flatMap.mpr ⟨owned, howned, List.mem_map.mpr ⟨entry, hentry, rfl⟩⟩

theorem mem_properties {schema : Schema} {typeName name : String} {type : ObjectType}
    {property : PropertyType} (htype : schema.objects.get? typeName = some type)
    (hproperty : type.property? name = some property) :
    (typeName, name, property) ∈ schema.properties :=
  mem_properties_of_mem (Table.mem_of_get? htype) (Table.mem_of_get? hproperty)

theorem mem_allProperties {schema : Schema} {typeName name : String} {type : ObjectType}
    {property : PropertyType} (htype : schema.objects.get? typeName = some type)
    (hproperty : type.property? name = some property) :
    (typeName, name, property) ∈ schema.allProperties :=
  List.mem_append_right _ (mem_properties htype hproperty)

theorem build_eq_ok {schema built : Schema} (h : schema.build = .ok built) :
    schema = built ∧ schema.flaw? = none := by
  unfold build at h
  cases hflaw : schema.flaw? with
  | some error => simp [hflaw] at h
  | none => exact ⟨by simpa [hflaw] using h, rfl⟩

theorem exists_of_unresolved? {schema : Schema} {name inner : String} {property : PropertyType}
    (h : schema.unresolved? name property = none) (hinner : property.objectType? = some inner) :
    ∃ type, schema.objects.get? inner = some type := by
  cases property with
  | object typeName | named typeName =>
      obtain rfl : typeName = inner := Option.some.inj hinner
      simp only [unresolved?] at h
      split at h
      · exact Table.contains_iff_get?.mp ‹_›
      · cases h
  | _ => cases hinner

theorem IsBuilt.flaw?_eq_none {schema : Schema} (h : schema.IsBuilt) : schema.flaw? = none := by
  obtain ⟨name, steps, hbuild⟩ := h
  obtain ⟨rfl, hflaw⟩ := build_eq_ok hbuild
  exact hflaw

section Resolved
variable {schema : Schema} {owner name typeName : String} {property : PropertyType}

theorem IsBuilt.unresolved?_eq_none (h : schema.IsBuilt)
    (hmem : (owner, name, property) ∈ schema.allProperties) :
    schema.unresolved? name property = none :=
  List.findSome?_eq_none_iff.mp (Option.or_eq_none_iff.mp h.flaw?_eq_none).1 _ hmem

theorem IsBuilt.contains_enum (h : schema.IsBuilt)
    (hmem : (owner, name, .enum typeName) ∈ schema.allProperties) :
    schema.enums.contains typeName = true := by
  have hresolved := h.unresolved?_eq_none hmem
  rw [unresolved?] at hresolved
  split at hresolved
  · assumption
  · cases hresolved

theorem IsBuilt.contains_object (h : schema.IsBuilt)
    (hmem : (owner, name, property) ∈ schema.allProperties)
    (htype : property.objectType? = some typeName) : schema.objects.contains typeName = true :=
  Table.contains_iff_get?.mpr (exists_of_unresolved? (h.unresolved?_eq_none hmem) htype)

theorem IsBuilt.isClosed (h : schema.IsBuilt) : schema.IsClosed := by
  refine ⟨fun {name} hroot => ?_, fun htype hproperty hinner => ?_⟩
  · have hmem := mem_allProperties_of_root hroot
    exact exists_of_unresolved? (h.unresolved?_eq_none hmem) rfl
  · have hmem := mem_allProperties htype hproperty
    exact exists_of_unresolved? (h.unresolved?_eq_none hmem) hinner

end Resolved

/-! The names of code. -/

theorem contains_codeNames_iff {schema : Schema} {name : String} :
    schema.codeNames.contains name = true ↔ ∃ owner, (owner, name, .code) ∈ schema.properties := by
  rw [codeNames, Names.contains_ofList, List.mem_filterMap]
  constructor
  · rintro ⟨⟨owner, other, property⟩, hmem, hname⟩
    by_cases hproperty : property = .code
    · subst hproperty
      obtain rfl : other = name := by simpa using hname
      exact ⟨owner, hmem⟩
    · simp [hproperty] at hname
  · rintro ⟨owner, hmem⟩
    exact ⟨_, hmem, if_pos rfl⟩

theorem codeOwner?_isSome {schema : Schema} {owner name : String}
    (h : (owner, name, .code) ∈ schema.properties) : (schema.codeOwner? name).isSome = true := by
  rw [codeOwner?, Option.isSome_map, List.find?_isSome]
  exact ⟨_, h, by simp⟩

/-- A name of code is declared as code wherever it is declared. -/
theorem IsBuilt.eq_code {schema : Schema} (h : schema.IsBuilt) {owner name : String}
    {property : PropertyType} (hcode : schema.codeNames.contains name = true)
    (hproperty : (owner, name, property) ∈ schema.allProperties) : property = .code := by
  have hclash : schema.clash? owner name property = none :=
    List.findSome?_eq_none_iff.mp (Option.or_eq_none_iff.mp h.flaw?_eq_none).2 _ hproperty
  obtain ⟨codeIn, hmem⟩ := contains_codeNames_iff.mp hcode
  by_cases hother : property = .code
  · exact hother
  rw [clash?, if_neg hother, Option.map_eq_none_iff] at hclash
  have howner := codeOwner?_isSome hmem
  rw [hclash] at howner
  cases howner

end Lookml.Schema
