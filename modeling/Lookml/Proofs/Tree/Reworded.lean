import Lookml.Proofs.Event.ReadBack
import Lookml.Proofs.Tree.Respelled

/-!
Identifiers that are written like truth values, and so are read as truth values.
-/

namespace Lookml

/-- An event as a reader tells it of the same word. -/
def Event.reworded : Event → Event
  | .identifier name text => Reader.wordEvent name text
  | event => event

mutual
def Value.reworded : Value → Value
  | .identifier text =>
      match truthOfWord? text.toList with
      | some value => .boolean value
      | none => .identifier text
  | .list elements => .list elements.reworded
  | .object members => .object members.reworded
  | .named instanceName members => .named instanceName members.reworded
  | .number value => .number value
  | .string text => .string text
  | .boolean value => .boolean value
  | .code text => .code text
  | .pair reference text => .pair reference text

def Members.reworded : Members → Members
  | .ending comments => .ending comments
  | .member comments name value rest => .member comments name value.reworded rest.reworded

def Elements.reworded : Elements → Elements
  | .ending comments => .ending comments
  | .element comments value rest => .element comments value.reworded rest.reworded
end

theorem eq_wordOfTruth {text : String} {value : Bool} (h : truthOfWord? text.toList = some value) :
    text = wordOfTruth value := by
  rw [← String.toList_inj]
  unfold truthOfWord? at h
  split at h
  · rename_i htext
    rw [htext, ← Option.some.inj h]
    decide
  · rename_i htext
    rw [htext, ← Option.some.inj h]
    decide
  · cases h

mutual
theorem Value.reworded_eq_respelled (value : Value) :
    value.reworded = value.respelled id Value.reworded := by
  cases value with
  | list elements => exact congrArg Value.list (Elements.reworded_eq_respelled elements)
  | object members => exact congrArg Value.object (Members.reworded_eq_respelled members)
  | named instanceName members =>
      exact congrArg (Value.named instanceName) (Members.reworded_eq_respelled members)
  | _ => rfl

theorem Members.reworded_eq_respelled (members : Members) :
    members.reworded = members.respelled id Value.reworded := by
  cases members with
  | ending comments => rw [Members.reworded, Members.respelled, List.map_id]
  | member comments name value rest =>
      rw [Members.reworded, Members.respelled, List.map_id, Value.reworded_eq_respelled value,
        Members.reworded_eq_respelled rest]

theorem Elements.reworded_eq_respelled (elements : Elements) :
    elements.reworded = elements.respelled id Value.reworded := by
  cases elements with
  | ending comments => rw [Elements.reworded, Elements.respelled, List.map_id]
  | element comments value rest =>
      rw [Elements.reworded, Elements.respelled, List.map_id, Value.reworded_eq_respelled value,
        Elements.reworded_eq_respelled rest]
end

theorem keepsScalars_reworded : KeepsScalars Value.reworded := by
  intro value hvalue
  cases value with
  | identifier text =>
      rw [Value.reworded]
      split <;> rfl
  | list elements => cases hvalue
  | object members => cases hvalue
  | named instanceName members => cases hvalue
  | _ => rfl

theorem respelling_reworded : Respelling id Value.reworded Event.reworded where
  comment _ := rfl
  opens {event _} hopens := by cases event <;> first | rfl | cases hopens
  close := rfl
  property name value hvalue := by
    cases value with
    | identifier text =>
        simp only [Value.reworded, Value.asProperty, List.map, Event.reworded, Reader.wordEvent]
        cases truthOfWord? text.toList <;> rfl
    | list elements => cases hvalue
    | object members => cases hvalue
    | named instanceName members => cases hvalue
    | _ => rfl
  element {value} hvalue := by
    cases value with
    | identifier text =>
        simp only [Value.reworded, Value.asElement, List.map, Event.reworded, Reader.wordEvent]
        cases truthOfWord? text.toList <;> rfl
    | list elements => cases hvalue
    | object members => cases hvalue
    | named instanceName members => cases hvalue
    | _ => rfl

theorem Members.events_reworded (members : Members) :
    members.reworded.events = members.events.map Event.reworded := by
  rw [Members.reworded_eq_respelled, respelling_reworded.memberEvents]

/-- An identifier is written as its word, whatever the word tells a reader. -/
theorem Draft.step_reworded (draft : Draft) (event : Event) :
    draft.step (.event event.reworded) = draft.step (.event event) := by
  cases event with
  | identifier name text =>
      rw [Event.reworded, Reader.wordEvent]
      cases htruth : truthOfWord? text.toList with
      | none => rfl
      | some value =>
          obtain rfl := eq_wordOfTruth htruth
          rfl
  | _ => rfl

theorem Members.format_reworded (layout : Layout) (document : Document) :
    Members.format layout document.reworded = Members.format layout document := by
  rw [Members.format, Members.events_reworded]
  exact textOfStream_map fun event _ draft => draft.step_reworded event

theorem Members.All.reworded {property : String → Value → Prop} {element : Value → Prop}
    {members : Members} (h : members.All (fun name value => property name value.reworded)
      (fun value => element value.reworded)) : members.reworded.All property element := by
  simp only [Value.reworded_eq_respelled] at h
  rw [Members.reworded_eq_respelled]
  exact Members.All.respelled keepsScalars_reworded h

theorem Members.height_reworded (members : Members) : members.reworded.height = members.height := by
  rw [Members.reworded_eq_respelled, Members.height_respelled keepsScalars_reworded]

end Lookml
