import Lookml.Proofs.Conformance.Items

/-!
The keys of items. The key of an object with an instance name has a colon between both
names, so that it tells them apart where one of them has no colon in it; and it is never
the name of a property that has none.
-/

namespace Lookml

namespace Schema

/-- No property has a name with a colon in it. -/
def IsColonFree (schema : Schema) : Prop :=
  ∀ owner name property, (owner, name, property) ∈ schema.allProperties → ':' ∉ name.toList

theorem isColonFree_iff {schema : Schema} : schema.IsColonFree ↔
    (∀ entry ∈ schema.roots.toList, ':' ∉ entry.1.toList) ∧
      ∀ owned ∈ schema.objects.toList, ∀ entry ∈ owned.2.properties.toList,
        ':' ∉ entry.1.toList := by
  simp only [IsColonFree, allProperties, properties, Table.keys, List.mem_append, List.mem_map,
    List.mem_flatMap]
  constructor
  · intro h
    exact ⟨fun entry hentry => h _ _ _ (.inl ⟨_, ⟨entry, hentry, rfl⟩, rfl⟩),
      fun owned howned entry hentry => h _ _ _ (.inr ⟨owned, howned, entry, hentry, rfl⟩)⟩
  · rintro ⟨hroots, hobjects⟩ owner name property
      (⟨_, ⟨entry, hentry, rfl⟩, heq⟩ | ⟨owned, howned, entry, hentry, heq⟩)
    · obtain ⟨-, rfl, -⟩ := heq
      exact hroots entry hentry
    · obtain ⟨-, rfl, -⟩ := heq
      exact hobjects owned howned entry hentry

instance (schema : Schema) : Decidable schema.IsColonFree :=
  decidable_of_iff _ isColonFree_iff.symm

end Schema

theorem colon_not_mem_of_isWord {text : List Char} (h : isWord text = true) : ':' ∉ text := by
  intro hmem
  cases text with
  | nil => cases hmem
  | cons first rest =>
      obtain ⟨hfirst, hrest⟩ := Bool.and_eq_true_iff.mp h
      have hpart : isWordPart ':' = true := by
        rcases List.mem_cons.mp hmem with rfl | hmem
        · exact isWordPart_of_isWordStart hfirst
        · exact List.all_eq_true.mp hrest _ hmem
      exact absurd hpart (by decide)

/-- What stands before the first place of a separator and what stands behind it are known
from the whole. -/
theorem append_cons_inj_of_not_mem {α : Type} {separator : α} {front front' back back' : List α}
    (hfront : separator ∉ front) (hfront' : separator ∉ front')
    (h : front ++ separator :: back = front' ++ separator :: back') :
    front = front' ∧ back = back' := by
  induction front generalizing front' with
  | nil =>
      cases front' with
      | nil => exact ⟨rfl, (List.cons.inj h).2⟩
      | cons first rest =>
          obtain ⟨rfl, _⟩ := List.cons.inj h
          exact absurd List.mem_cons_self hfront'
  | cons first rest ih =>
      cases front' with
      | nil =>
          obtain ⟨rfl, _⟩ := List.cons.inj h
          exact absurd List.mem_cons_self hfront
      | cons first' rest' =>
          obtain ⟨rfl, hrest⟩ := List.cons.inj h
          obtain ⟨rfl, hback⟩ := ih (List.not_mem_of_not_mem_cons hfront)
            (List.not_mem_of_not_mem_cons hfront') hrest
          exact ⟨rfl, hback⟩

namespace Checker

theorem toList_pairedName (name instanceName : String) :
    (pairedName name instanceName).toList = name.toList ++ ':' :: instanceName.toList := by
  simp [pairedName, String.toList_append]

theorem pairedName_inj_of_name {name name' instanceName instanceName' : String}
    (hname : ':' ∉ name.toList) (hname' : ':' ∉ name'.toList)
    (h : pairedName name instanceName = pairedName name' instanceName') :
    name = name' ∧ instanceName = instanceName' := by
  have hlist := congrArg String.toList h
  rw [toList_pairedName, toList_pairedName] at hlist
  obtain ⟨hfront, hback⟩ := append_cons_inj_of_not_mem hname hname' hlist
  exact ⟨String.toList_inj.mp hfront, String.toList_inj.mp hback⟩

theorem pairedName_inj_of_instanceName {name name' instanceName instanceName' : String}
    (hinstance : ':' ∉ instanceName.toList) (hinstance' : ':' ∉ instanceName'.toList)
    (h : pairedName name instanceName = pairedName name' instanceName') :
    name = name' ∧ instanceName = instanceName' := by
  have hlist := congrArg (fun name => name.toList.reverse) h
  simp only [toList_pairedName, List.reverse_append, List.reverse_cons, List.append_assoc,
    List.singleton_append] at hlist
  obtain ⟨hback, hfront⟩ := append_cons_inj_of_not_mem
    (fun hmem => hinstance (List.mem_reverse.mp hmem))
    (fun hmem => hinstance' (List.mem_reverse.mp hmem)) hlist
  exact ⟨String.toList_inj.mp (List.reverse_inj.mp hfront),
    String.toList_inj.mp (List.reverse_inj.mp hback)⟩

end Checker

namespace Event

theorem key?_eq_some_iff {event : Event} {key : String} :
    event.key? = some key ↔ event.plainName? = some key ∨
      ∃ name instanceName, event = .named name instanceName ∧
        Checker.pairedName name instanceName = key := by
  cases event with
  | named name instanceName =>
      constructor
      · intro hkey
        exact .inr ⟨name, instanceName, rfl, Option.some.inj hkey⟩
      · rintro (hplain | ⟨_, _, ⟨⟩, hkey⟩)
        · cases hplain
        · exact congrArg some hkey
  | _ => simp [key?, plainName?]

theorem propertyName?_of_plainName? {event : Event} {name : String}
    (h : event.plainName? = some name) : event.propertyName? = some name := by
  cases event with
  | named found instanceName => cases h
  | _ => exact h

theorem Repeats.sharesKey {event other : Event} (h : event.Repeats other) :
    event.SharesKey other := by
  rcases h with ⟨name, hevent, hother⟩ | ⟨name, instanceName, rfl, rfl⟩
  · exact ⟨name, key?_eq_some_iff.mpr (.inl hevent), key?_eq_some_iff.mpr (.inl hother)⟩
  · exact ⟨_, rfl, rfl⟩

/-- A property has the key of an object for its name. -/
def Resembles (event object : Event) : Prop :=
  ∃ name instanceName, object = .named name instanceName ∧
    event.plainName? = some (Checker.pairedName name instanceName)

theorem SharesKey.repeats {event other : Event} (h : event.SharesKey other)
    (hevent : ¬event.Resembles other) (hother : ¬other.Resembles event)
    (hpaired : ∀ {name name' instanceName instanceName'}, event = .named name instanceName →
      other = .named name' instanceName' →
      Checker.pairedName name instanceName = Checker.pairedName name' instanceName' →
      name = name' ∧ instanceName = instanceName') : event.Repeats other := by
  obtain ⟨key, hkey, hkey'⟩ := h
  rcases key?_eq_some_iff.mp hkey with hplain | ⟨name, instanceName, rfl, rfl⟩
  · rcases key?_eq_some_iff.mp hkey' with hplain' | ⟨name, instanceName, rfl, rfl⟩
    · exact .inl ⟨key, hplain, hplain'⟩
    · exact absurd ⟨name, instanceName, rfl, hplain⟩ hevent
  · rcases key?_eq_some_iff.mp hkey' with hplain' | ⟨name', instanceName', rfl, heq⟩
    · exact absurd ⟨name, instanceName, rfl, hplain'⟩ hother
    · obtain ⟨rfl, rfl⟩ := hpaired rfl rfl heq.symm
      exact .inr ⟨name, instanceName, rfl, rfl⟩

end Event

section ColonFree
variable {schema : Schema} {ground : Ground} {event other : Event} {name : String}

theorem Ground.Accepts.property_of_object {type : ObjectType}
    (h : (Ground.object type).Accepts schema event)
    (hname : event.propertyName? = some name) :
    ∃ property, type.property? name = some property ∧
      (property.Takes schema event ∨ ∃ inside, property.Opens schema event inside) := by
  rcases h with htakes | ⟨inside, hopens⟩
  · obtain ⟨property, hproperty, htakes⟩ := (takes_object_iff hname).mp htakes
    exact ⟨property, hproperty, .inl htakes⟩
  · obtain ⟨property, hproperty, hopens⟩ := (opens_object_iff hname).mp hopens
    exact ⟨property, hproperty, .inr ⟨inside, hopens⟩⟩

theorem Ground.Accepts.propertyName?_mem (h : ground.Accepts schema event)
    (hground : ground.Declared schema) (hname : event.propertyName? = some name) :
    ∃ owner property, (owner, name, property) ∈ schema.allProperties := by
  cases ground with
  | document =>
      rcases h with htakes | ⟨inside, hopens⟩
      · cases event <;> first | exact htakes.elim | cases hname
      · cases event with
        | named name' instanceName =>
            obtain rfl : name' = name := Option.some.inj hname
            cases inside with
            | object type => exact ⟨_, _, Schema.mem_allProperties_of_root hopens.1⟩
            | _ => exact hopens.elim
        | _ => exact hopens.elim
  | object type =>
      obtain ⟨typeName, htype⟩ := hground
      obtain ⟨property, hproperty, _⟩ := h.property_of_object hname
      exact ⟨typeName, property, Schema.mem_allProperties htype hproperty⟩
  | list elements =>
      rcases h with htakes | ⟨inside, hopens⟩
      · cases event with
        | identifier given text | string given text =>
            cases given with
            | none => cases hname
            | some word => cases elements <;> exact htakes.elim
        | comment text | pair reference text | close => cases hname
        | _ => cases elements <;> exact htakes.elim
      · exact hopens.elim

/-- Where names have no colon, items of one key are the same property or the same
object. -/
theorem Event.SharesKey.repeats_of_isColonFree (hschema : schema.IsColonFree)
    (hground : ground.Declared schema) (hevent : ground.Accepts schema event)
    (hother : ground.Accepts schema other) (h : event.SharesKey other) : event.Repeats other := by
  have hfree {event : Event} (haccepts : ground.Accepts schema event) {name : String}
      (hname : event.propertyName? = some name) : ':' ∉ name.toList := by
    obtain ⟨owner, property, hmem⟩ := haccepts.propertyName?_mem hground hname
    exact hschema _ _ _ hmem
  have hresembles {event object : Event} (haccepts : ground.Accepts schema event) :
      ¬event.Resembles object := by
    rintro ⟨name, instanceName, rfl, hplain⟩
    refine hfree haccepts (Event.propertyName?_of_plainName? hplain) ?_
    simp [Checker.toList_pairedName]
  refine h.repeats (hresembles hevent) (hresembles hother) ?_
  rintro name name' instanceName instanceName' rfl rfl heq
  exact Checker.pairedName_inj_of_name (hfree hevent rfl) (hfree hother rfl) heq

end ColonFree

end Lookml
