import Lookml.Proofs.Event.Forest
import Lookml.Tree.Emission

/-!
Trees as forests. Comments are items of the scope that they stand in, and so is each value
that can be told there; the events of the forest are those of the tree, which are
therefore balanced, whatever the tree holds.
-/

namespace Lookml

/-- Comments in front of the other items of a scope. -/
def Forest.commented : List String → Forest → Forest
  | [], rest => rest
  | text :: texts, rest => .leaf (.comment text) (commented texts rest)

mutual
/-- The item of a value that has a name, in front of the rest. -/
def Value.property (name : String) (rest : Forest) : Value → Forest
  | .number value => .leaf (.number (some name) value) rest
  | .string text => .leaf (.string (some name) text) rest
  | .boolean value => .leaf (.truth (some name) value) rest
  | .identifier text => .leaf (.identifier (some name) text) rest
  | .code text => .leaf (.code name text) rest
  | .pair _ _ => rest
  | .list elements => .nest (.list (some name)) elements.forest rest
  | .object members => .nest (.object name) members.forest rest
  | .named instanceName members => .nest (.named name instanceName) members.forest rest

def Value.element (rest : Forest) : Value → Forest
  | .number value => .leaf (.number none value) rest
  | .string text => .leaf (.string none text) rest
  | .boolean value => .leaf (.truth none value) rest
  | .identifier text => .leaf (.identifier none text) rest
  | .pair reference text => .leaf (.pair reference text) rest
  | .list elements => .nest (.list none) elements.forest rest
  | .code _ | .object _ | .named _ _ => rest

def Members.forest : Members → Forest
  | .ending comments => Forest.commented comments .nil
  | .member comments name value rest =>
      Forest.commented comments (value.property name rest.forest)

def Elements.forest : Elements → Forest
  | .ending comments => Forest.commented comments .nil
  | .element comments value rest => Forest.commented comments (value.element rest.forest)
end

namespace Forest

theorem events_commented (texts : List String) (rest : Forest) :
    (commented texts rest).events = Event.comments texts ++ rest.events := by
  induction texts with
  | nil => rfl
  | cons text texts ih => rw [commented, events_leaf, ih]; rfl

theorem Fits.commented {scope : Scope} {rest : Forest} (h : rest.Fits scope)
    (texts : List String) : (commented texts rest).Fits scope := by
  induction texts with
  | nil => exact h
  | cons text texts ih => exact ⟨⟨by simp, rfl, Event.fit?_comment scope text⟩, ih⟩

end Forest

mutual
theorem Value.events_property (name : String) (rest : Forest) (value : Value) :
    (value.property name rest).events = value.asProperty name ++ rest.events := by
  cases value with
  | list elements => simp [Value.property, Value.asProperty, Elements.events_forest elements]
  | object members => simp [Value.property, Value.asProperty, Members.events_forest members]
  | named instanceName members =>
      simp [Value.property, Value.asProperty, Members.events_forest members]
  | number value => rfl
  | string text => rfl
  | boolean value => rfl
  | identifier text => rfl
  | code text => rfl
  | pair reference text => rfl

theorem Value.events_element (rest : Forest) (value : Value) :
    (value.element rest).events = value.asElement ++ rest.events := by
  cases value with
  | list elements => simp [Value.element, Value.asElement, Elements.events_forest elements]
  | number value => rfl
  | string text => rfl
  | boolean value => rfl
  | identifier text => rfl
  | pair reference text => rfl
  | code text => rfl
  | object members => rfl
  | named instanceName members => rfl

theorem Members.events_forest (members : Members) : members.forest.events = members.events := by
  cases members with
  | ending comments => simp [Members.forest, Members.events, Forest.events_commented]
  | member comments name value rest =>
      rw [Members.forest, Members.events, Forest.events_commented,
        Value.events_property name rest.forest value, Members.events_forest rest]

theorem Elements.events_forest (elements : Elements) :
    elements.forest.events = elements.events := by
  cases elements with
  | ending comments => simp [Elements.forest, Elements.events, Forest.events_commented]
  | element comments value rest =>
      rw [Elements.forest, Elements.events, Forest.events_commented,
        Value.events_element rest.forest value, Elements.events_forest rest]
end

mutual
theorem Value.property_fits (name : String) {rest : Forest} (hrest : rest.Fits .object)
    (value : Value) : (value.property name rest).Fits .object := by
  cases value with
  | list elements => exact ⟨rfl, ⟨_, rfl, Elements.forest_fits elements⟩, hrest⟩
  | object members => exact ⟨rfl, ⟨_, rfl, Members.forest_fits members⟩, hrest⟩
  | named instanceName members => exact ⟨rfl, ⟨_, rfl, Members.forest_fits members⟩, hrest⟩
  | number value => exact ⟨⟨by simp, rfl, rfl⟩, hrest⟩
  | string text => exact ⟨⟨by simp, rfl, rfl⟩, hrest⟩
  | boolean value => exact ⟨⟨by simp, rfl, rfl⟩, hrest⟩
  | identifier text => exact ⟨⟨by simp, rfl, rfl⟩, hrest⟩
  | code text => exact ⟨⟨by simp, rfl, rfl⟩, hrest⟩
  | pair reference text => exact hrest

theorem Value.element_fits {rest : Forest} (hrest : rest.Fits .list) (value : Value) :
    (value.element rest).Fits .list := by
  cases value with
  | list elements => exact ⟨rfl, ⟨_, rfl, Elements.forest_fits elements⟩, hrest⟩
  | number value => exact ⟨⟨by simp, rfl, rfl⟩, hrest⟩
  | string text => exact ⟨⟨by simp, rfl, rfl⟩, hrest⟩
  | boolean value => exact ⟨⟨by simp, rfl, rfl⟩, hrest⟩
  | identifier text => exact ⟨⟨by simp, rfl, rfl⟩, hrest⟩
  | pair reference text => exact ⟨⟨by simp, rfl, rfl⟩, hrest⟩
  | code text => exact hrest
  | object members => exact hrest
  | named instanceName members => exact hrest

/-- What cannot be told where it stands is left out of the forest, so that the rest
fits. -/
theorem Members.forest_fits (members : Members) : members.forest.Fits .object := by
  cases members with
  | ending comments =>
      have hnil : Forest.nil.Fits .object := trivial
      exact hnil.commented comments
  | member comments name value rest =>
      exact (Value.property_fits name (Members.forest_fits rest) value).commented comments

theorem Elements.forest_fits (elements : Elements) : elements.forest.Fits .list := by
  cases elements with
  | ending comments =>
      have hnil : Forest.nil.Fits .list := trivial
      exact hnil.commented comments
  | element comments value rest =>
      exact (Value.element_fits (Elements.forest_fits rest) value).commented comments
end

theorem Members.balanced_events (members : Members) : Balanced members.events :=
  members.events_forest ▸ members.forest_fits.balanced

end Lookml
