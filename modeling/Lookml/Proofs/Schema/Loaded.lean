import Lookml.Proofs.Conformance.Keys
import Lookml.Proofs.Reader.Sound
import Lookml.Proofs.Schema.Built
import Lookml.Proofs.Tree.Assembled
import Lookml.Schema.Document

/-!
Schemas that are loaded. Loading declares types and properties one by one, as a
declaration by hand does, and all names are words of the document, so no property has one
with a colon in it.
-/

namespace Lookml

section Runs
variable {α β σ ε : Type}

theorem exists_of_bind_eq_ok {first : Except ε α} {next : α → Except ε β} {result : β}
    (h : first >>= next = .ok result) : ∃ value, first = .ok value ∧ next value = .ok result := by
  cases first with
  | error error => cases h
  | ok value => exact ⟨value, rfl, h⟩

theorem bind_eq_error {first : Except ε α} {next : α → Except ε β} {error : ε}
    (h : first >>= next = .error error) :
    first = .error error ∨ ∃ value, first = .ok value ∧ next value = .error error := by
  cases first with
  | error found =>
      obtain rfl : found = error := Except.error.inj h
      exact .inl rfl
  | ok value => exact .inr ⟨value, rfl, h⟩

/-- What holds at first and after each step that succeeds holds in the end. -/
theorem foldlM_holds {holds : σ → Prop} {step : σ → α → Except ε σ} {items : List α}
    {first last : σ} (hfirst : holds first) (hstep : ∀ item ∈ items, ∀ state next, holds state →
      step state item = .ok next → holds next)
    (h : items.foldlM step first = .ok last) : holds last := by
  induction items generalizing first with
  | nil =>
      obtain rfl : first = last := Except.ok.inj h
      exact hfirst
  | cons item items ih =>
      obtain ⟨hitem, hitems⟩ := List.forall_mem_cons.mp hstep
      rw [List.foldlM_cons] at h
      obtain ⟨next, hnext, h⟩ := exists_of_bind_eq_ok h
      exact ih (hitem first next hfirst hnext) hitems h

theorem exists_of_mapM_cons {make : α → Except ε β} {item : α} {items : List α} {made : List β}
    (h : (item :: items).mapM make = .ok made) :
    ∃ value rest, make item = .ok value ∧ items.mapM make = .ok rest ∧ made = value :: rest := by
  rw [List.mapM_cons] at h
  obtain ⟨value, hvalue, h⟩ := exists_of_bind_eq_ok h
  obtain ⟨rest, hrest, h⟩ := exists_of_bind_eq_ok h
  exact ⟨value, rest, hvalue, hrest, (Except.ok.inj h).symm⟩

theorem exists_of_mem_mapM {make : α → Except ε β} {items : List α} {made : List β}
    (h : items.mapM make = .ok made) {value : β} (hvalue : value ∈ made) :
    ∃ item ∈ items, make item = .ok value := by
  induction items generalizing made with
  | nil =>
      obtain rfl : [] = made := Except.ok.inj h
      cases hvalue
  | cons item items ih =>
      obtain ⟨first, rest, hfirst, hrest, rfl⟩ := exists_of_mapM_cons h
      rcases List.mem_cons.mp hvalue with rfl | hvalue
      · exact ⟨item, List.mem_cons_self, hfirst⟩
      · obtain ⟨other, hother, hmade⟩ := ih hrest hvalue
        exact ⟨other, List.mem_cons_of_mem _ hother, hmade⟩

theorem exists_mem_of_mapM {make : α → Except ε β} {items : List α} {made : List β}
    (h : items.mapM make = .ok made) {item : α} (hitem : item ∈ items) :
    ∃ value ∈ made, make item = .ok value := by
  induction items generalizing made with
  | nil => cases hitem
  | cons first items ih =>
      obtain ⟨value, rest, hvalue, hrest, rfl⟩ := exists_of_mapM_cons h
      rcases List.mem_cons.mp hitem with rfl | hitem
      · exact ⟨value, List.mem_cons_self, hvalue⟩
      · obtain ⟨other, hother, hmade⟩ := ih hrest hitem
        exact ⟨other, List.mem_cons_of_mem _ hother, hmade⟩

/-- What is made of items in turn has their keys in turn, where each has that of its
item. -/
theorem map_eq_of_mapM {γ : Type} {make : α → Except ε β} {items : List α} {made : List β}
    {key : α → γ} {keyOf : β → γ}
    (hkey : ∀ item ∈ items, ∀ value, make item = .ok value → keyOf value = key item)
    (h : items.mapM make = .ok made) : made.map keyOf = items.map key := by
  induction items generalizing made with
  | nil =>
      obtain rfl : [] = made := Except.ok.inj h
      rfl
  | cons first items ih =>
      obtain ⟨hfirst, hitems⟩ := List.forall_mem_cons.mp hkey
      obtain ⟨value, rest, hvalue, hrest, rfl⟩ := exists_of_mapM_cons h
      rw [List.map_cons, List.map_cons, hfirst value hvalue, ih hitems hrest]

theorem exists_of_mapM_eq_error {make : α → Except ε β} {items : List α} {error : ε}
    (h : items.mapM make = .error error) : ∃ item ∈ items, make item = .error error := by
  induction items with
  | nil => cases h
  | cons first items ih =>
      rw [List.mapM_cons] at h
      rcases bind_eq_error h with hfirst | ⟨value, _, h⟩
      · exact ⟨first, List.mem_cons_self, hfirst⟩
      · rcases bind_eq_error h with hrest | ⟨rest, _, ⟨⟩⟩
        obtain ⟨item, hitem, hmade⟩ := ih hrest
        exact ⟨item, List.mem_cons_of_mem _ hitem, hmade⟩

end Runs

namespace Members

variable {members inner : Members} {name instanceName : String} {value : Value}

theorem mem_toList_of_getAll (h : value ∈ members.getAll name) :
    (name, value) ∈ members.toList := by
  obtain ⟨⟨other, found⟩, hmem, hfound⟩ := List.mem_filterMap.mp h
  split at hfound
  · rename_i hname
    obtain rfl : other = name := hname
    obtain rfl : found = value := Option.some.inj hfound
    exact hmem
  · cases hfound

theorem mem_getAll : value ∈ members.getAll name ↔ (name, value) ∈ members.toList :=
  ⟨mem_toList_of_getAll, fun h => List.mem_filterMap.mpr ⟨_, h, if_pos rfl⟩⟩

theorem mem_toList_of_get? (h : members.get? name = some value) : (name, value) ∈ members.toList :=
  mem_getAll.mp (List.mem_of_head? h)

theorem mem_instances : (instanceName, inner) ∈ members.instances name ↔
    (name, .named instanceName inner) ∈ members.toList := by
  refine ⟨fun h => ?_, fun h => List.mem_filterMap.mpr ⟨_, mem_getAll.mpr h, rfl⟩⟩
  obtain ⟨value, hvalue, hnamed⟩ := List.mem_filterMap.mp h
  cases value with
  | named found members =>
      obtain ⟨rfl, rfl⟩ := Prod.mk.inj (Option.some.inj hnamed)
      exact mem_getAll.mp hvalue
  | _ => cases hnamed

theorem Worded.of_mem_instances (h : members.Worded)
    (hmem : (instanceName, inner) ∈ members.instances name) :
    isWord instanceName.toList = true ∧ inner.Worded := by
  have hworded := h.of_mem_toList (mem_instances.mp hmem)
  exact ⟨hworded.head, hworded.inside⟩

theorem Worded.of_mem_elementsOf (h : members.Worded) (hmem : value ∈ members.elementsOf name) :
    value.Worded := by
  unfold elementsOf at hmem
  cases hfirst : members.get? name with
  | none => rw [hfirst] at hmem; cases hmem
  | some first =>
      have hworded : first.Worded := h.of_mem_toList (mem_toList_of_get? hfirst)
      rw [hfirst] at hmem
      cases first with
      | list elements => exact Elements.Worded.of_mem_toList hworded.inside hmem
      | _ => cases hmem

end Members

/-- An object type is named as the property is, or by a word that tells no truth value. -/
def PropertyType.IsWorded (name : String) : PropertyType → Prop
  | .object typeName | .named typeName => typeName = name ∨ isBareWord typeName.toList = true
  | _ => True

namespace Schema

variable {schema next : Schema} {name : String}

/-- The names of a schema are words, and those of the properties at the top tell no truth
value. -/
structure IsWorded (schema : Schema) : Prop where
  name : isWord schema.name.toList = true
  enums : ∀ entry ∈ schema.enums.toList, isWord entry.1.toList = true
  objects : ∀ entry ∈ schema.objects.toList, isWord entry.1.toList = true
  properties : ∀ owned ∈ schema.objects.toList, ∀ entry ∈ owned.2.properties.toList,
    isWord entry.1.toList = true ∧ entry.2.IsWorded entry.1
  roots : ∀ entry ∈ schema.roots.toList, isBareWord entry.1.toList = true

theorem IsWorded.isColonFree (h : schema.IsWorded) : schema.IsColonFree := by
  refine isColonFree_iff.mpr ⟨fun entry hentry => ?_, fun owned howned entry hentry => ?_⟩
  · exact colon_not_mem_of_isWord (isWord_of_isBareWord (h.roots entry hentry))
  · exact colon_not_mem_of_isWord (h.properties owned howned entry hentry).1

/-- The schema of some steps, with words for its names. -/
structure IsWellNamed (schema : Schema) : Prop where
  steps : ∃ name steps, ofSteps name steps = schema
  worded : schema.IsWorded

namespace IsWellNamed

theorem empty (hname : isWord name.toList = true) : (empty name).IsWellNamed :=
  ⟨⟨name, [], rfl⟩, hname, nofun, nofun, nofun, nofun⟩

/-- A schema has one step more when a step succeeds. -/
theorem of_declare (h : schema.IsWellNamed) (step : SchemaStep)
    (hstep : schema.declare step = (next, none)) (hworded : next.IsWorded) :
    next.IsWellNamed := by
  obtain ⟨⟨name, steps, rfl⟩, _⟩ := h
  refine ⟨⟨name, steps ++ [step], ?_⟩, hworded⟩
  rw [ofSteps, List.foldl_append]
  exact congrArg Prod.fst hstep

theorem addEnum (h : schema.IsWellNamed) (hname : isWord name.toList = true)
    {values : List String} (hnext : schema.addEnum name values = .ok next) :
    next.IsWellNamed := by
  refine h.of_declare (.enum name values) (by rw [declare, hnext]; rfl) ?_
  unfold Schema.addEnum at hnext
  split at hnext
  · cases hnext
  · obtain rfl := Except.ok.inj hnext
    refine { h.worded with enums := fun entry hentry => ?_ }
    rcases Table.mem_insert hentry with rfl | hold
    · exact hname
    · exact h.worded.enums entry hold

theorem addRoot (h : schema.IsWellNamed) (hname : isBareWord name.toList = true)
    (hnext : schema.addRoot name = .ok next) : next.IsWellNamed := by
  refine h.of_declare (.root name) (by rw [declare, hnext]; rfl) ?_
  unfold Schema.addRoot at hnext
  split at hnext
  · cases hnext
  · obtain rfl := Except.ok.inj hnext
    refine { h.worded with roots := fun entry hentry => ?_ }
    rcases Table.mem_insert hentry with rfl | hold
    · exact hname
    · exact h.worded.roots entry hold

theorem addObjectType (h : schema.IsWellNamed) (hname : isWord name.toList = true)
    {declarations : List Declaration}
    (hdeclarations : ∀ declaration ∈ declarations, isWord declaration.name.toList = true ∧
      declaration.type.IsWorded declaration.name)
    (hnext : schema.addObjectType name declarations = .ok next) : next.IsWellNamed := by
  refine h.of_declare (.objectType name declarations) (by rw [declare, hnext]; rfl) ?_
  unfold Schema.addObjectType at hnext
  split at hnext
  · cases hnext
  · split at hnext
    · cases hnext
    · cases hnext
    · obtain rfl := Except.ok.inj hnext
      refine { h.worded with
        objects := fun owned howned => ?_, properties := fun owned howned => ?_ }
      · rcases Table.mem_insert howned with rfl | hold
        · exact hname
        · exact h.worded.objects owned hold
      · rcases Table.mem_insert howned with rfl | hold
        · intro entry hentry
          obtain ⟨declaration, hdeclared, rfl⟩ := List.mem_map.mp (Table.mem_ofList hentry)
          exact hdeclarations declaration hdeclared
        · exact h.worded.properties owned hold

end IsWellNamed

theorem isBareWord_of_identifierOf? {body : Members} {text : String} (hworded : body.Worded)
    (h : identifierOf? body name = some text) : isBareWord text.toList = true := by
  obtain ⟨value, hvalue, htext⟩ := Option.bind_eq_some_iff.mp h
  have hhead := (hworded.of_mem_toList (Members.mem_toList_of_get? hvalue)).head
  cases value with
  | identifier found =>
      obtain rfl : found = text := Option.some.inj htext
      exact hhead
  | _ => cases htext

theorem declarationOf_worded {body : Members} {declaration : Declaration} (hworded : body.Worded)
    (h : schema.declarationOf name body = .ok declaration) :
    declaration.name = name ∧ declaration.type.IsWorded name := by
  have htypeName : (identifierOf? body "type_name").getD name = name ∨
      isBareWord ((identifierOf? body "type_name").getD name).toList = true := by
    cases hgiven : identifierOf? body "type_name" with
    | none => exact .inl rfl
    | some typeName => exact .inr (isBareWord_of_identifierOf? hworded hgiven)
  unfold declarationOf at h
  split at h
  · cases h
  · grind [PropertyType.IsWorded]

section Loading
variable {declared : String × Members} {body : Members}

theorem IsWellNamed.loadObjectType (h : schema.IsWellNamed)
    (hname : isWord declared.1.toList = true) (hworded : declared.2.Worded)
    (hnext : schema.loadObjectType declared = .ok next) : next.IsWellNamed := by
  unfold Schema.loadObjectType at hnext
  split at hnext
  · cases hnext
  obtain ⟨declarations, hmade, hnext⟩ := exists_of_bind_eq_ok hnext
  refine h.addObjectType hname (fun declaration hmem => ?_) hnext
  obtain ⟨⟨name, body⟩, hproperty, hdeclaration⟩ := exists_of_mem_mapM hmade hmem
  obtain ⟨hinstance, hbody⟩ := hworded.of_mem_instances hproperty
  obtain ⟨rfl, htype⟩ := declarationOf_worded hbody hdeclaration
  exact ⟨hinstance, htype⟩

theorem isBuilt_of_ofBody (hname : isWord name.toList = true) (hworded : body.Worded)
    (h : ofBody name body = .ok schema) : schema.IsBuilt ∧ schema.IsWorded := by
  obtain ⟨withEnums, henums, h⟩ := exists_of_bind_eq_ok h
  obtain ⟨withObjects, hobjects, h⟩ := exists_of_bind_eq_ok h
  obtain ⟨built, hroots, h⟩ := exists_of_bind_eq_ok h
  have henums : withEnums.IsWellNamed :=
    foldlM_holds (.empty hname) (fun declared hmem schema next hschema hnext =>
      hschema.addEnum (hworded.of_mem_instances hmem).1 hnext) henums
  have hobjects : withObjects.IsWellNamed :=
    foldlM_holds henums (fun declared hmem schema next hschema hnext =>
      hschema.loadObjectType (hworded.of_mem_instances hmem).1 (hworded.of_mem_instances hmem).2
        hnext) hobjects
  have hroots : built.IsWellNamed :=
    foldlM_holds hobjects (fun root hmem schema next hschema hnext => by
      obtain ⟨value, hvalue, hroot⟩ := List.mem_filterMap.mp hmem
      have hword := (hworded.of_mem_elementsOf hvalue).head
      cases value with
      | identifier text =>
          obtain rfl : text = root := Option.some.inj hroot
          exact hschema.addRoot hword hnext
      | _ => cases hroot) hroots
  obtain ⟨rfl, _⟩ := build_eq_ok h
  obtain ⟨⟨name, steps, rfl⟩, hworded⟩ := hroots
  exact ⟨⟨name, steps, h⟩, hworded⟩

/-- The tree of what conforms in a text has words where they are read. -/
theorem worded_of_readValid {checked : Schema} {source : List Char} {document : Document}
    {violations : List Violation} (h : checked.readValid source = .ok (document, violations)) :
    document.Worded := by
  obtain ⟨marking, hmarking⟩ :=
    exists_marksDocument checked (Reading.balanced checked.codeNames source)
  have hkept : ∀ event ∈ marking.kept.events, event.IsWorded := fun event hmem =>
    Reading.worded _ _ event (hmarking.events_eq ▸ marking.kept_sublist.subset hmem)
  unfold readValid check at h
  cases hfailure : (checked.read source).failure with
  | some error =>
      simp only [hfailure] at h
      cases h
  | none =>
      simp only [hfailure] at h
      obtain ⟨hdocument, -⟩ := Prod.mk.inj (Except.ok.inj h)
      have hforwarded : Verdict.forwarded (checked.verdicts
          (wholeDocument (checked.read source).events)) = wholeDocument marking.kept.events :=
        hmarking.forwarded_eq
      rw [← hdocument, hforwarded]
      exact Document.ofEvents_worded hkept

theorem isWorded_of_load {source : List Char} (h : load source = .ok schema) :
    schema.IsBuilt ∧ schema.IsWorded := by
  unfold load at h
  split at h
  · cases h
  · rename_i document hread
    split at h
    · cases h
    · rename_i name body rest hinstances
      have hmem : (name, body) ∈ document.instances "schema" := hinstances ▸ List.mem_cons_self
      obtain ⟨hname, hbody⟩ := (worded_of_readValid hread).of_mem_instances hmem
      exact isBuilt_of_ofBody hname hbody h
  · cases h

theorem isBuilt_of_load {source : List Char} (h : load source = .ok schema) :
    schema.IsBuilt ∧ schema.IsColonFree :=
  ⟨(isWorded_of_load h).1, (isWorded_of_load h).2.isColonFree⟩

end Loading

end Schema

end Lookml
