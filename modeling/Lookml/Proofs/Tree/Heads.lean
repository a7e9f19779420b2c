import Lookml.Proofs.Conformance.Ground
import Lookml.Proofs.Tree.Forest
import Lookml.Proofs.Tree.Rebuild

/-!
The items of an object as the events that they begin with. Two of them repeat one another
just where they have one name and the same instance name, if any.
-/

namespace Lookml

/-- The event that a property starts with. -/
def Value.head? (name : String) : Value → Option Event
  | .number value => some (.number (some name) value)
  | .string text => some (.string (some name) text)
  | .boolean value => some (.truth (some name) value)
  | .identifier text => some (.identifier (some name) text)
  | .code text => some (.code name text)
  | .pair _ _ => none
  | .list _ => some (.list (some name))
  | .object _ => some (.object name)
  | .named instanceName _ => some (.named name instanceName)

theorem Value.heads_property (name : String) (rest : Forest) (value : Value) :
    (value.property name rest).heads = (value.head? name).toList ++ rest.heads := by
  cases value <;> rfl

theorem Value.exists_head {value : Value} (h : value.isProperty = true) (name : String) :
    ∃ event, value.head? name = some event := by
  cases value <;> first | exact ⟨_, rfl⟩ | cases h

theorem Value.head?_plainName? {name found : String} {value : Value} {event : Event}
    (h : value.head? name = some event) (hplain : event.plainName? = some found) :
    name = found ∧ value.instanceName? = none := by
  cases value with
  | pair reference text => cases h
  | named instanceName members =>
      obtain rfl := Option.some.inj h
      cases hplain
  | _ =>
      obtain rfl := Option.some.inj h
      exact ⟨Option.some.inj hplain, rfl⟩

theorem Value.head?_named {name found instanceName : String} {value : Value}
    (h : value.head? name = some (.named found instanceName)) :
    name = found ∧ value.instanceName? = some instanceName := by
  cases value <;> cases h
  exact ⟨rfl, rfl⟩

/-- Items repeat one another only if they have one name, and the same instance name if
any. -/
theorem Value.eq_of_repeats {name name' : String} {value value' : Value} {event event' : Event}
    (h : value.head? name = some event) (h' : value'.head? name' = some event')
    (hrepeats : event'.Repeats event) :
    (name, value.instanceName?) = (name', value'.instanceName?) := by
  rcases hrepeats with ⟨found, hplain', hplain⟩ | ⟨found, instanceName, rfl, rfl⟩
  · obtain ⟨rfl, hnone⟩ := head?_plainName? h hplain
    obtain ⟨rfl, hnone'⟩ := head?_plainName? h' hplain'
    rw [hnone, hnone']
  · obtain ⟨rfl, hsome⟩ := head?_named h
    obtain ⟨rfl, hsome'⟩ := head?_named h'
    rw [hsome, hsome']

theorem Value.plainName?_of_head? {name : String} {value : Value} {event : Event}
    (h : value.head? name = some event) (hplain : value.instanceName? = none) :
    event.plainName? = some name := by
  cases value with
  | named instanceName members => cases hplain
  | _ => cases h <;> rfl

theorem Value.eq_named_of_head? {name instanceName : String} {value : Value} {event : Event}
    (h : value.head? name = some event) (hnamed : value.instanceName? = some instanceName) :
    event = .named name instanceName := by
  cases value <;> cases hnamed
  exact (Option.some.inj h).symm

theorem Value.repeats_of_eq {name : String} {value value' : Value} {event event' : Event}
    (h : value.head? name = some event) (h' : value'.head? name = some event')
    (hsame : value'.instanceName? = value.instanceName?) : event'.Repeats event := by
  cases hinstance : value.instanceName? with
  | none =>
      exact .inl
        ⟨name, plainName?_of_head? h' (hsame.trans hinstance), plainName?_of_head? h hinstance⟩
  | some instanceName =>
      exact .inr ⟨name, instanceName, eq_named_of_head? h' (hsame.trans hinstance),
        eq_named_of_head? h hinstance⟩

theorem Forest.heads_commented (texts : List String) (rest : Forest) :
    (commented texts rest).heads = Event.comments texts ++ rest.heads := by
  induction texts with
  | nil => rfl
  | cons text texts ih => exact congrArg (Event.comment text :: ·) ih

theorem Members.mem_heads_of_head? {members : Members} {name : String} {value : Value}
    {event : Event} (hmem : (name, value) ∈ members.toList) (h : value.head? name = some event) :
    event ∈ members.forest.heads := by
  induction members using Members.toList.induct with
  | case1 comments => cases hmem
  | case2 comments name' value' rest ih =>
      rw [Members.forest, Forest.heads_commented, Value.heads_property]
      rcases List.mem_cons.mp hmem with heq | hmem
      · obtain ⟨rfl, rfl⟩ := Prod.mk.inj heq
        simp [h]
      · exact List.mem_append_right _ (List.mem_append_right _ (ih hmem))

end Lookml
