import Lookml.Proofs.Conformance.Keys
import Lookml.Proofs.Reader.Sound

/-!
Duplicates in documents that are read. Instance names are words there, so the keys of
objects tell both of their names; a property without an instance name is mistaken for an
object only where its own name is such a key.
-/

namespace Lookml

/-- No property without instance names has a name that is the key of an object beside
it. -/
def Schema.KeysApart (schema : Schema) : Prop :=
  ∀ {typeName type name inner instanceName property}, schema.objects.get? typeName = some type →
    type.property? name = some (.named inner) → isWord instanceName.toList = true →
    type.property? (Checker.pairedName name instanceName) = some property →
    ∃ other, property = .named other

theorem Schema.IsColonFree.keysApart {schema : Schema} (h : schema.IsColonFree) :
    schema.KeysApart := by
  intro typeName type name inner instanceName property htype _ _ hproperty
  refine absurd ?_ (h _ _ _ (mem_allProperties htype hproperty))
  simp [Checker.toList_pairedName]

section Accepted
variable {schema : Schema} {ground : Ground} {type : ObjectType} {event other : Event}
  {name instanceName : String}

theorem Ground.Accepts.named_of_object
    (h : (Ground.object type).Accepts schema (.named name instanceName)) :
    ∃ inner, type.property? name = some (.named inner) := by
  obtain ⟨property, hproperty, htakes | ⟨inside, hopens⟩⟩ := h.property_of_object rfl
  · exact htakes.elim
  · cases inside with
    | object found =>
        obtain ⟨inner, rfl, _⟩ := hopens
        exact ⟨inner, hproperty⟩
    | _ => exact hopens.elim

theorem PropertyType.not_named_of_plainName? {property : PropertyType} {inner : String}
    (h : property.Takes schema event ∨ ∃ inside, property.Opens schema event inside)
    (hplain : event.plainName? = some name) : property ≠ .named inner := by
  rintro rfl
  rcases h with htakes | ⟨inside, hopens⟩
  · cases event <;> simp [PropertyType.Takes] at htakes
  · cases event with
    | named found instanceName => cases hplain
    | _ => cases inside <;> simp [PropertyType.Opens] at hopens

/-- Where keys are apart, no property is mistaken for an object with words for instance
names. -/
theorem Schema.KeysApart.not_resembles (hschema : schema.KeysApart)
    (hground : ground.Declared schema) (hevent : ground.Accepts schema event)
    (hother : ground.Accepts schema other) (hworded : other.IsWorded) :
    ¬event.Resembles other := by
  rintro ⟨name, instanceName, rfl, hplain⟩
  have hname := Event.propertyName?_of_plainName? hplain
  cases ground with
  | document =>
      rcases hevent with htakes | ⟨inside, hopens⟩
      · cases event <;> first | exact htakes.elim | cases hname
      · cases event with
        | named found instanceName => cases hplain
        | _ => exact hopens.elim
  | list elements =>
      rcases hother with htakes | ⟨inside, hopens⟩
      · cases elements <;> exact htakes.elim
      · exact hopens.elim
  | object type =>
      obtain ⟨typeName, htype⟩ := hground
      obtain ⟨inner, hnamed⟩ := hother.named_of_object
      obtain ⟨property, hproperty, haccepts⟩ := hevent.property_of_object hname
      obtain ⟨found, rfl⟩ := hschema htype hnamed hworded hproperty
      exact PropertyType.not_named_of_plainName? haccepts hplain rfl

theorem Event.SharesKey.repeats_of_keysApart (h : event.SharesKey other)
    (hschema : schema.KeysApart) (hground : ground.Declared schema)
    (hevent : ground.Accepts schema event) (hother : ground.Accepts schema other)
    (hworded : event.IsWorded) (hworded' : other.IsWorded) : event.Repeats other := by
  refine h.repeats (hschema.not_resembles hground hevent hother hworded')
    (hschema.not_resembles hground hother hevent hworded) ?_
  rintro name name' instanceName instanceName' rfl rfl heq
  exact Checker.pairedName_inj_of_instanceName (colon_not_mem_of_isWord hworded)
    (colon_not_mem_of_isWord hworded') heq

end Accepted

theorem Event.duplicate_of_plainName? {event : Event} {name : String}
    (hplain : event.plainName? = some name) : event.duplicate = .duplicateProperty name := by
  cases event with
  | named found instanceName => cases hplain
  | _ => simp_all [duplicate, plainName?]

/-- A duplicate is reported of an item only if it repeats one that is kept before it in
its scope, and of every item that repeats one and may stand otherwise. -/
structure DuplicatesExactly (schema : Schema) (ground : Ground) (earlier : List Event)
    (event : Event) (mark : Option Violation) : Prop where
  property : ∀ name, mark = some (.duplicateProperty name) →
    event.plainName? = some name ∧ ∃ other ∈ earlier, other.plainName? = some name
  named : ∀ name instanceName, mark = some (.duplicateNamed name instanceName) →
    event = .named name instanceName ∧ .named name instanceName ∈ earlier
  repeated : ground.Accepts schema event → (∃ other ∈ earlier, event.Repeats other) →
    mark = some event.duplicate

theorem Fares.duplicatesExactly {schema : Schema} {ground : Ground} {earlier : List Event}
    {event : Event} {mark : Option Violation} (h : Fares schema ground earlier event mark)
    (hrepeats : ∀ other ∈ earlier, ground.Accepts schema event → event.SharesKey other →
      event.Repeats other) : DuplicatesExactly schema ground earlier event mark := by
  cases h with
  | kept haccepts hfresh =>
      refine ⟨nofun, nofun, fun _ ⟨other, hmem, hrepeated⟩ => ?_⟩
      exact absurd hrepeated.sharesKey (hfresh other hmem)
  | unacceptable hnot hother =>
      refine ⟨?_, ?_, fun haccepts => absurd haccepts hnot⟩
      · rintro name ⟨⟩
        cases hother
      · rintro name instanceName ⟨⟩
        cases hother
  | @duplicate other haccepts hmem hshares =>
      rcases hrepeats other hmem haccepts hshares with
        ⟨name, hevent, hother⟩ | ⟨name, instanceName, rfl, rfl⟩
      · have hmark : event.duplicate = .duplicateProperty name :=
          Event.duplicate_of_plainName? hevent
        refine ⟨fun found heq => ?_, fun found instanceName heq => ?_, fun _ _ => rfl⟩
        · obtain rfl : name = found :=
            Violation.duplicateProperty.inj (hmark.symm.trans (Option.some.inj heq))
          exact ⟨hevent, other, hmem, hother⟩
        · exact absurd (hmark.symm.trans (Option.some.inj heq)) nofun
      · refine ⟨nofun, ?_, fun _ _ => rfl⟩
        rintro _ _ ⟨⟩
        exact ⟨rfl, hmem⟩

namespace Schema

variable {schema : Schema}

/-- Where keys are apart, the items of a document that is read can be marked so that the
marks are what a check reports of it, and are duplicates exactly where items repeat one
that is kept before them in their scope. -/
theorem reports_duplicates_exactly (hbuilt : schema.IsBuilt) (hkeys : schema.KeysApart)
    (source : List Char) :
    let events := (schema.read source).events
    ∃ marking : Marking,
      (marking.whole.Fits .object ∧ marking.whole.events = events) ∧
      schema.verdicts (wholeDocument events) = marking.verdicts ++ [.forward (.event .close)] ∧
      marking.EachItem schema (DuplicatesExactly schema) .document [] := by
  intro events
  have hworded : ∀ event ∈ events, event.IsWorded := Reading.worded schema.codeNames source
  obtain ⟨marking, hmarking⟩ :=
    exists_marksDocument schema (Reading.balanced schema.codeNames source)
  refine ⟨marking, ⟨hmarking.fits, hmarking.events_eq⟩, hmarking.verdicts_eq, ?_⟩
  refine (hmarking.eachItem hbuilt.isClosed).mono Event.IsWorded
    (fun ground event => ground.Accepts schema event ∧ event.IsWorded)
    (fun _ hevent hfares => ⟨hfares.accepts, hevent⟩) ?_ trivial (by simp)
    (hmarking.events_eq ▸ hworded)
  intro ground earlier event mark hground hevent hearlier hfares
  refine hfares.duplicatesExactly fun other hmem haccepts hshares => ?_
  obtain ⟨hother, hworded'⟩ := hearlier other hmem
  exact hshares.repeats_of_keysApart hkeys hground haccepts hother hevent hworded'

theorem reports_duplicates_exactly_view :
    let schema : Schema := ⟨"s", .empty, .ofList [("dim", .empty),
      ("view", ⟨.ofList [("dimension", .named "dim"), ("label", .string)]⟩)], .ofList ["view"]⟩
    let source :=
      "view: v \x7b label: a label: \"b\" label: \"c\" dimension: d \x7b\x7d dimension: d \x7b\x7d \x7d"
    let events := (schema.read source.toList).events
    Verdict.violations (schema.verdicts (wholeDocument events)) =
        [.invalidType "label" .string .identifier, .duplicateProperty "label",
          .duplicateNamed "dimension" "d"] ∧
      ∃ marking : Marking,
        (marking.whole.Fits .object ∧ marking.whole.events = events) ∧
        schema.verdicts (wholeDocument events) =
          marking.verdicts ++ [.forward (.event .close)] ∧
        marking.EachItem schema (DuplicatesExactly schema) .document [] := by
  intro schema source events
  have hbuilt : schema.IsBuilt := by
    refine ⟨"s", [.objectType "dim" [], .rootWith "view" [⟨"dimension", .named "dim"⟩,
      ⟨"label", .string⟩]], ?_⟩
    decide +kernel
  have hcolons : schema.IsColonFree := by decide +kernel
  exact ⟨by decide +kernel, reports_duplicates_exactly hbuilt hcolons.keysApart source.toList⟩

/-- Where a property has the key of an object for its name, it is reported as a duplicate
though it is the only property of its name in the document. -/
theorem reports_duplicate_of_object :
    let schema : Schema := ⟨"s", .empty, .ofList [("dim", .empty),
      ("view", ⟨.ofList [("dimension", .named "dim"), ("dimension:id", .string)]⟩)],
      .ofList ["view"]⟩
    let source := "view: v \x7b dimension: id \x7b\x7d \"dimension:id\": \"x\" \x7d"
    let events := (schema.read source.toList).events
    schema.IsBuilt ∧
      events = [.named "view" "v", .named "dimension" "id", .close,
        .string (some "dimension:id") "x", .close] ∧
      Verdict.violations (schema.verdicts (wholeDocument events)) =
        [.duplicateProperty "dimension:id"] := by
  intro schema source events
  have hbuilt : schema.IsBuilt := by
    refine ⟨"s", [.objectType "dim" [], .rootWith "view" [⟨"dimension:id", .string⟩,
      ⟨"dimension", .named "dim"⟩]], ?_⟩
    decide +kernel
  exact ⟨hbuilt, by decide +kernel, by decide +kernel⟩

end Schema

end Lookml
