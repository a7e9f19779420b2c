import Lookml.Proofs.Tree.Pointwise

/-!
Trees with other comments and other scalars in the same places. What a tree has but its
scalars and comments stays: how deep it is, and the events that open and close its scopes.
-/

namespace Lookml

def Value.isScalar : Value → Bool
  | .list _ | .object _ | .named _ _ => false
  | .number _ | .string _ | .boolean _ | .identifier _ | .code _ | .pair _ _ => true

/-- Scalars are put for scalars. -/
def KeepsScalars (scalar : Value → Value) : Prop :=
  ∀ value : Value, value.isScalar = true → (scalar value).isScalar = true

section Respelled
variable (comment : String → String) (scalar : Value → Value)

mutual
/-- A value in which each comment, and each scalar, is another one. -/
def Value.respelled : Value → Value
  | .list elements => .list elements.respelled
  | .object members => .object members.respelled
  | .named instanceName members => .named instanceName members.respelled
  | value => scalar value

def Members.respelled : Members → Members
  | .ending comments => .ending (comments.map comment)
  | .member comments name value rest =>
      .member (comments.map comment) name value.respelled rest.respelled

def Elements.respelled : Elements → Elements
  | .ending comments => .ending (comments.map comment)
  | .element comments value rest =>
      .element (comments.map comment) value.respelled rest.respelled
end

variable {comment scalar} {property : String → Value → Prop} {element : Value → Prop}

theorem Value.All.of_isScalar {value : Value} (h : value.isScalar = true) :
    value.All property element := by
  cases value with
  | list elements => cases h
  | object members => cases h
  | named instanceName members => cases h
  | _ => trivial

theorem Value.height_of_isScalar {value : Value} (h : value.isScalar = true) :
    value.height = 0 := by
  cases value with
  | list elements => cases h
  | object members => cases h
  | named instanceName members => cases h
  | _ => rfl

mutual
theorem Value.All.respelled (hscalar : KeepsScalars scalar) {value : Value}
    (h : value.All (fun name value => property name (value.respelled comment scalar))
      (fun value => element (value.respelled comment scalar))) :
    (value.respelled comment scalar).All property element := by
  cases value with
  | list elements => exact Elements.All.respelled hscalar h
  | object members => exact Members.All.respelled hscalar h
  | named instanceName members => exact Members.All.respelled hscalar h
  | _ => exact .of_isScalar (hscalar _ rfl)

theorem Members.All.respelled (hscalar : KeepsScalars scalar) {members : Members}
    (h : members.All (fun name value => property name (value.respelled comment scalar))
      (fun value => element (value.respelled comment scalar))) :
    (members.respelled comment scalar).All property element := by
  cases members with
  | ending comments => trivial
  | member comments name value rest =>
      obtain ⟨hvalue, hinside, hrest⟩ := h
      exact ⟨hvalue, Value.All.respelled hscalar hinside, Members.All.respelled hscalar hrest⟩

theorem Elements.All.respelled (hscalar : KeepsScalars scalar) {elements : Elements}
    (h : elements.All (fun name value => property name (value.respelled comment scalar))
      (fun value => element (value.respelled comment scalar))) :
    (elements.respelled comment scalar).All property element := by
  cases elements with
  | ending comments => trivial
  | element comments value rest =>
      obtain ⟨hvalue, hinside, hrest⟩ := h
      exact ⟨hvalue, Value.All.respelled hscalar hinside, Elements.All.respelled hscalar hrest⟩
end

mutual
theorem Value.height_respelled (hscalar : KeepsScalars scalar) (value : Value) :
    (value.respelled comment scalar).height = value.height := by
  cases value with
  | list elements => exact congrArg (· + 1) (Elements.height_respelled hscalar elements)
  | object members => exact congrArg (· + 1) (Members.height_respelled hscalar members)
  | named instanceName members =>
      exact congrArg (· + 1) (Members.height_respelled hscalar members)
  | _ => exact Value.height_of_isScalar (hscalar _ rfl)

theorem Members.height_respelled (hscalar : KeepsScalars scalar) (members : Members) :
    (members.respelled comment scalar).height = members.height := by
  cases members with
  | ending comments => rfl
  | member comments name value rest =>
      rw [Members.respelled, Members.height, Members.height, Value.height_respelled hscalar value,
        Members.height_respelled hscalar rest]

theorem Elements.height_respelled (hscalar : KeepsScalars scalar) (elements : Elements) :
    (elements.respelled comment scalar).height = elements.height := by
  cases elements with
  | ending comments => rfl
  | element comments value rest =>
      rw [Elements.respelled, Elements.height, Elements.height,
        Value.height_respelled hscalar value, Elements.height_respelled hscalar rest]
end

theorem Value.comments_of_isScalar {value : Value} (h : value.isScalar = true) :
    value.comments = [] := by
  cases value with
  | list elements => cases h
  | object members => cases h
  | named instanceName members => cases h
  | _ => rfl

mutual
theorem Value.comments_respelled (hscalar : KeepsScalars scalar) (value : Value) :
    (value.respelled comment scalar).comments = value.comments.map comment := by
  cases value with
  | list elements => exact Elements.comments_respelled hscalar elements
  | object members => exact Members.comments_respelled hscalar members
  | named instanceName members => exact Members.comments_respelled hscalar members
  | _ => exact Value.comments_of_isScalar (hscalar _ rfl)

theorem Members.comments_respelled (hscalar : KeepsScalars scalar) (members : Members) :
    (members.respelled comment scalar).comments = members.comments.map comment := by
  cases members with
  | ending comments => rfl
  | member comments name value rest =>
      rw [Members.respelled, Members.comments, Members.comments, List.map_append, List.map_append,
        Value.comments_respelled hscalar value, Members.comments_respelled hscalar rest]

theorem Elements.comments_respelled (hscalar : KeepsScalars scalar) (elements : Elements) :
    (elements.respelled comment scalar).comments = elements.comments.map comment := by
  cases elements with
  | ending comments => rfl
  | element comments value rest =>
      rw [Elements.respelled, Elements.comments, Elements.comments, List.map_append,
        List.map_append, Value.comments_respelled hscalar value,
        Elements.comments_respelled hscalar rest]
end

/-- With other comments and scalars every event of a tree is another one, but for those
that open and close. -/
structure Respelling (comment : String → String) (scalar : Value → Value) (retell : Event → Event) :
    Prop where
  comment (text : String) : retell (.comment text) = .comment (comment text)
  opens {event : Event} {scope : Scope} : event.opens? = some scope → retell event = event
  close : retell .close = .close
  property (name : String) {value : Value} : value.isScalar = true →
    (scalar value).asProperty name = (value.asProperty name).map retell
  element {value : Value} : value.isScalar = true →
    (scalar value).asElement = value.asElement.map retell

namespace Respelling
variable {retell : Event → Event} (h : Respelling comment scalar retell)
include h

theorem comments (texts : List String) :
    (Event.comments texts).map retell = Event.comments (texts.map comment) := by
  simp [Event.comments, h.comment]

theorem scope {event : Event} {scope : Scope} (hopens : event.opens? = some scope)
    (events : List Event) :
    (event :: (events ++ [.close])).map retell = event :: (events.map retell ++ [.close]) := by
  simp [h.opens hopens, h.close]

mutual
theorem asProperty (name : String) (value : Value) :
    (value.respelled comment scalar).asProperty name = (value.asProperty name).map retell := by
  cases value with
  | list elements =>
      rw [Value.respelled, Value.asProperty, Value.asProperty, h.scope rfl, elementEvents elements]
  | object members =>
      rw [Value.respelled, Value.asProperty, Value.asProperty, h.scope rfl, memberEvents members]
  | named instanceName members =>
      rw [Value.respelled, Value.asProperty, Value.asProperty, h.scope rfl, memberEvents members]
  | _ => exact h.property name rfl

theorem asElement (value : Value) :
    (value.respelled comment scalar).asElement = value.asElement.map retell := by
  cases value with
  | list elements =>
      rw [Value.respelled, Value.asElement, Value.asElement, h.scope rfl, elementEvents elements]
  | object members => rfl
  | named instanceName members => rfl
  | _ => exact h.element rfl

theorem memberEvents (members : Members) :
    (members.respelled comment scalar).events = members.events.map retell := by
  cases members with
  | ending comments => exact (h.comments comments).symm
  | member comments name value rest =>
      simp [Members.respelled, Members.events, h.comments, asProperty name value, memberEvents rest]

theorem elementEvents (elements : Elements) :
    (elements.respelled comment scalar).events = elements.events.map retell := by
  cases elements with
  | ending comments => exact (h.comments comments).symm
  | element comments value rest =>
      simp [Elements.respelled, Elements.events, h.comments, asElement value, elementEvents rest]
end

end Respelling

end Respelled

/-! Trees with other comments and numbers in the same places. -/

section Map
variable (comment : String → String) (number : Number → Number)

mutual
def Value.map : Value → Value
  | .number value => .number (number value)
  | .list elements => .list elements.map
  | .object members => .object members.map
  | .named instanceName members => .named instanceName members.map
  | .string text => .string text
  | .boolean value => .boolean value
  | .identifier text => .identifier text
  | .code text => .code text
  | .pair reference text => .pair reference text

def Members.map : Members → Members
  | .ending comments => .ending (comments.map comment)
  | .member comments name value rest =>
      .member (comments.map comment) name value.map rest.map

def Elements.map : Elements → Elements
  | .ending comments => .ending (comments.map comment)
  | .element comments value rest => .element (comments.map comment) value.map rest.map
end

mutual
theorem Value.map_eq_respelled (value : Value) :
    value.map comment number = value.respelled comment (Value.map comment number) := by
  cases value with
  | list elements => exact congrArg Value.list (Elements.map_eq_respelled elements)
  | object members => exact congrArg Value.object (Members.map_eq_respelled members)
  | named instanceName members =>
      exact congrArg (Value.named instanceName) (Members.map_eq_respelled members)
  | _ => rfl

theorem Members.map_eq_respelled (members : Members) :
    members.map comment number = members.respelled comment (Value.map comment number) := by
  cases members with
  | ending comments => rfl
  | member comments name value rest =>
      rw [Members.map, Members.respelled, Value.map_eq_respelled value,
        Members.map_eq_respelled rest]

theorem Elements.map_eq_respelled (elements : Elements) :
    elements.map comment number = elements.respelled comment (Value.map comment number) := by
  cases elements with
  | ending comments => rfl
  | element comments value rest =>
      rw [Elements.map, Elements.respelled, Value.map_eq_respelled value,
        Elements.map_eq_respelled rest]
end

variable {comment number} {property : String → Value → Prop} {element : Value → Prop}

theorem keepsScalars_map : KeepsScalars (Value.map comment number) := by
  intro value hvalue
  cases value <;> first | rfl | cases hvalue

theorem Members.All.map {members : Members}
    (h : members.All (fun name value => property name (value.map comment number))
      (fun value => element (value.map comment number))) :
    (members.map comment number).All property element := by
  simp only [Value.map_eq_respelled] at h
  rw [Members.map_eq_respelled]
  exact Members.All.respelled keepsScalars_map h

private theorem map_eq_self_of_forall {comments : List String}
    (h : ∀ text ∈ comments, comment text = text) : comments.map comment = comments :=
  (List.map_congr_left h).trans (List.map_id' comments)

mutual
theorem Value.map_eq_self {value : Value} (h : ∀ text ∈ value.comments, comment text = text) :
    value.map comment id = value := by
  cases value with
  | list elements => exact congrArg Value.list (Elements.map_eq_self h)
  | object members => exact congrArg Value.object (Members.map_eq_self h)
  | named instanceName members =>
      exact congrArg (Value.named instanceName) (Members.map_eq_self h)
  | _ => rfl

theorem Members.map_eq_self {members : Members}
    (h : ∀ text ∈ members.comments, comment text = text) : members.map comment id = members := by
  cases members with
  | ending comments => exact congrArg Members.ending (map_eq_self_of_forall h)
  | member comments name value rest =>
      rw [Members.comments, List.forall_mem_append, List.forall_mem_append] at h
      obtain ⟨hcomments, hvalue, hrest⟩ := h
      rw [Members.map, map_eq_self_of_forall hcomments, Value.map_eq_self hvalue,
        Members.map_eq_self hrest]

theorem Elements.map_eq_self {elements : Elements}
    (h : ∀ text ∈ elements.comments, comment text = text) : elements.map comment id = elements := by
  cases elements with
  | ending comments => exact congrArg Elements.ending (map_eq_self_of_forall h)
  | element comments value rest =>
      rw [Elements.comments, List.forall_mem_append, List.forall_mem_append] at h
      obtain ⟨hcomments, hvalue, hrest⟩ := h
      rw [Elements.map, map_eq_self_of_forall hcomments, Value.map_eq_self hvalue,
        Elements.map_eq_self hrest]
end

end Map

end Lookml
