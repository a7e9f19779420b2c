import Lookml.Event.Stream
import Lookml.Proofs.Event.Spelled
import Lookml.Proofs.Tree.Pointwise
import Lookml.Tree.Assembly

/-!
The words of a tree that was built from a stream. Instance names and identifiers come from
single events, and so are words wherever those of the events are.
-/

namespace Lookml

def Value.IsWorded : Value → Prop
  | .identifier text => isBareWord text.toList = true
  | .named instanceName _ => isWord instanceName.toList = true
  | _ => True

/-- All instance names in a tree are words, and all identifiers are words that tell no
truth value. -/
def Members.Worded (members : Members) : Prop :=
  members.All (fun _ value => value.IsWorded) Value.IsWorded

def Elements.Worded (elements : Elements) : Prop :=
  elements.All (fun _ value => value.IsWorded) Value.IsWorded

structure Value.Worded (value : Value) : Prop where
  head : value.IsWorded
  inside : value.All (fun _ value => value.IsWorded) Value.IsWorded

theorem Members.Worded.of_mem_toList {members : Members} {item : String × Value}
    (h : members.Worded) (hmem : item ∈ members.toList) : item.2.Worded := by
  obtain ⟨hvalue, hinside⟩ := All.of_mem_toList h hmem
  exact ⟨hvalue, hinside⟩

theorem Elements.Worded.of_mem_toList {elements : Elements} {value : Value}
    (h : elements.Worded) (hmem : value ∈ elements.toList) : value.Worded := by
  obtain ⟨hvalue, hinside⟩ := All.of_mem_toList h hmem
  exact ⟨hvalue, hinside⟩

namespace Assembly

section Collected
variable {property : String → Value → Prop} {element : Value → Prop} {items : List Item}

theorem membersOf_all (ending : List String)
    (h : ∀ item ∈ items, property item.name item.value ∧ item.value.All property element) :
    (membersOf items ending).All property element := by
  have hfold (rest : Members) (hrest : rest.All property element) :
      (items.foldl (fun rest item => Members.member item.comments item.name item.value rest)
        rest).All property element := by
    induction items generalizing rest with
    | nil => exact hrest
    | cons item items ih =>
        obtain ⟨hitem, hitems⟩ := List.forall_mem_cons.mp h
        exact ih hitems _ ⟨hitem.1, hitem.2, hrest⟩
  exact hfold _ trivial

theorem elementsOf_all (ending : List String)
    (h : ∀ item ∈ items, element item.value ∧ item.value.All property element) :
    (elementsOf items ending).All property element := by
  have hfold (rest : Elements) (hrest : rest.All property element) :
      (items.foldl (fun rest item => Elements.element item.comments item.value rest)
        rest).All property element := by
    induction items generalizing rest with
    | nil => exact hrest
    | cons item items ih =>
        obtain ⟨hitem, hitems⟩ := List.forall_mem_cons.mp h
        exact ih hitems _ ⟨hitem.1, hitem.2, hrest⟩
  exact hfold _ trivial

end Collected

def Shape.IsWorded : Shape → Prop
  | .named instanceName => isWord instanceName.toList = true
  | _ => True

structure Frame.IsWorded (frame : Frame) : Prop where
  shape : frame.shape.IsWorded
  items : ∀ item ∈ frame.items, item.value.Worded

structure IsWorded (assembly : Assembly) : Prop where
  frames : ∀ frame ∈ assembly.frames, frame.IsWorded
  document : ∀ document, assembly.document = some document → document.Worded

section Steps
variable {frame : Frame} {assembly : Assembly} {event : Event}

theorem Frame.IsWorded.members (h : frame.IsWorded) : frame.members.Worded :=
  membersOf_all _ fun item hitem => ⟨(h.items item hitem).head, (h.items item hitem).inside⟩

theorem Frame.IsWorded.value (h : frame.IsWorded) : frame.value.Worded := by
  have hmembers := h.members
  obtain ⟨hshape, hitems⟩ := h
  unfold Frame.value
  cases hframe : frame.shape with
  | list =>
      exact ⟨trivial, elementsOf_all _ fun item hitem =>
        ⟨(hitems item hitem).head, (hitems item hitem).inside⟩⟩
  | object => exact ⟨trivial, hmembers⟩
  | named instanceName =>
      rw [hframe] at hshape
      exact ⟨hshape, hmembers⟩

theorem Frame.IsWorded.scalar (h : frame.IsWorded) (name : Option String) {value : Value}
    (hvalue : value.Worded) : (frame.scalar name value).IsWorded :=
  ⟨h.shape, List.forall_mem_cons.mpr ⟨hvalue, h.items⟩⟩

theorem Frame.IsWorded.openScope (h : frame.IsWorded) (name : String) (shape : Shape)
    (hshape : shape.IsWorded) : ∀ next ∈ frame.openScope name shape, next.IsWorded := by
  intro next hnext
  rcases List.mem_cons.mp hnext with rfl | hnext
  · exact ⟨hshape, by simp⟩
  · obtain rfl := List.mem_singleton.mp hnext
    exact ⟨h.shape, h.items⟩

theorem Frame.IsWorded.take (h : frame.IsWorded) (hevent : event.IsWorded) :
    ∀ next ∈ frame.take event, next.IsWorded := by
  cases event with
  | comment text =>
      intro next hnext
      obtain rfl := List.mem_singleton.mp hnext
      exact ⟨h.shape, h.items⟩
  | list name => exact h.openScope _ .list trivial
  | object name => exact h.openScope _ .object trivial
  | named name instanceName => exact h.openScope _ (.named instanceName) hevent
  | close =>
      intro next hnext
      obtain rfl := List.mem_singleton.mp hnext
      exact h
  | number name value | truth name value | string name text | code name text
  | pair reference text =>
      intro next hnext
      obtain rfl := List.mem_singleton.mp hnext
      exact h.scalar _ ⟨trivial, trivial⟩
  | identifier name text =>
      intro next hnext
      obtain rfl := List.mem_singleton.mp hnext
      exact h.scalar _ ⟨hevent, trivial⟩

theorem IsWorded.close (h : assembly.IsWorded) : assembly.close.IsWorded := by
  obtain ⟨frames, document⟩ := assembly
  obtain ⟨hframes, hdocument⟩ := h
  match frames, hframes with
  | [], hframes => exact ⟨hframes, hdocument⟩
  | [frame], hframes =>
      refine ⟨by simp [Assembly.close], fun closed hclosed => ?_⟩
      obtain rfl := Option.some.inj hclosed
      exact (List.forall_mem_singleton.mp hframes).members
  | inner :: outer :: frames, hframes =>
      obtain ⟨hinner, hothers⟩ := List.forall_mem_cons.mp hframes
      obtain ⟨houter, hframes⟩ := List.forall_mem_cons.mp hothers
      have hput : (outer.put inner.item).IsWorded :=
        ⟨houter.shape, List.forall_mem_cons.mpr ⟨hinner.value, houter.items⟩⟩
      exact ⟨List.forall_mem_cons.mpr ⟨hput, hframes⟩, hdocument⟩

theorem IsWorded.tell (h : assembly.IsWorded) (hevent : event.IsWorded) :
    (assembly.step (.event event)).IsWorded := by
  by_cases hclose : event = .close
  · subst hclose
    exact h.close
  obtain ⟨frames, document⟩ := assembly
  obtain ⟨hframes, hdocument⟩ := h
  cases frames with
  | nil =>
      have hstep : step ⟨[], document⟩ (.event event) = ⟨[], document⟩ := by
        cases event <;> rfl
      rw [hstep]
      exact ⟨hframes, hdocument⟩
  | cons frame frames =>
      have hstep : step ⟨frame :: frames, document⟩ (.event event) =
          ⟨frame.take event ++ frames, document⟩ := by
        cases event <;> first | rfl | exact absurd rfl hclose
      rw [hstep]
      obtain ⟨hframe, hothers⟩ := List.forall_mem_cons.mp hframes
      refine ⟨fun next hnext => ?_, hdocument⟩
      rcases List.mem_append.mp hnext with htaken | hother
      · exact hframe.take hevent next htaken
      · exact hothers next hother

theorem IsWorded.run (h : assembly.IsWorded) {deliveries : List Delivery}
    (hevents : ∀ event, .event event ∈ deliveries → event.IsWorded) :
    (assembly.run deliveries).IsWorded := by
  induction deliveries generalizing assembly with
  | nil => exact h
  | cons delivery deliveries ih =>
      have hothers (event : Event) (hmem : .event event ∈ deliveries) : event.IsWorded :=
        hevents event (List.mem_cons_of_mem _ hmem)
      refine ih ?_ hothers
      cases delivery with
      | event told => exact h.tell (hevents told List.mem_cons_self)
      | abandon => exact ⟨fun frame hmem => h.frames frame (List.mem_of_mem_tail hmem), h.document⟩

theorem start_isWorded : start.IsWorded :=
  ⟨fun frame hframe => List.mem_singleton.mp hframe ▸ ⟨trivial, by simp [Frame.root]⟩, nofun⟩

end Steps

end Assembly

/-- A document has words where its events have them. -/
theorem Document.ofEvents_worded {events : List Event} (h : ∀ event ∈ events, event.IsWorded) :
    (Document.ofEvents events).Worded := by
  have hdeliveries (event : Event) (hmem : .event event ∈ wholeDocument events) :
      event.IsWorded := by
    rcases List.mem_append.mp hmem with htold | hclosing
    · obtain ⟨told, htold, heq⟩ := List.mem_map.mp htold
      exact Delivery.event.inj heq ▸ h told htold
    · obtain rfl := Delivery.event.inj (List.mem_singleton.mp hclosing)
      trivial
  have hbuilt := (Assembly.start_isWorded.run hdeliveries).document
  unfold Document.ofEvents
  cases hdocument : Document.ofStream? (wholeDocument events) with
  | none => trivial
  | some document => exact hbuilt document hdocument

end Lookml
