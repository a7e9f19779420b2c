import Lookml.Tree.Emission

/-!
What holds of every property and of every element of a tree, however deep it stands, how
deep that is, and which comments stand in it.
-/

namespace Lookml

section Pointwise
variable (property : String → Value → Prop) (element : Value → Prop)

mutual
def Value.All : Value → Prop
  | .list elements => elements.All
  | .object members => members.All
  | .named _ members => members.All
  | .number _ | .string _ | .boolean _ | .identifier _ | .code _ | .pair _ _ => True

/-- Every property in a tree has a value of one sort, and every element is one of
another. -/
def Members.All : Members → Prop
  | .ending _ => True
  | .member _ name value rest => property name value ∧ value.All ∧ rest.All

def Elements.All : Elements → Prop
  | .ending _ => True
  | .element _ value rest => element value ∧ value.All ∧ rest.All
end

end Pointwise

section Mono
variable {property property' : String → Value → Prop} {element element' : Value → Prop}

mutual
theorem Value.All.mono (hproperty : ∀ name value, property name value → property' name value)
    (helement : ∀ value, element value → element' value) {value : Value}
    (h : value.All property element) : value.All property' element' := by
  cases value with
  | list elements => exact Elements.All.mono hproperty helement h
  | object members => exact Members.All.mono hproperty helement h
  | named instanceName members => exact Members.All.mono hproperty helement h
  | number value => trivial
  | string text => trivial
  | boolean value => trivial
  | identifier text => trivial
  | code text => trivial
  | pair reference text => trivial

theorem Members.All.mono (hproperty : ∀ name value, property name value → property' name value)
    (helement : ∀ value, element value → element' value) {members : Members}
    (h : members.All property element) : members.All property' element' := by
  cases members with
  | ending comments => trivial
  | member comments name value rest =>
      obtain ⟨hvalue, hinside, hrest⟩ := h
      exact ⟨hproperty name value hvalue, Value.All.mono hproperty helement hinside,
        Members.All.mono hproperty helement hrest⟩

theorem Elements.All.mono (hproperty : ∀ name value, property name value → property' name value)
    (helement : ∀ value, element value → element' value) {elements : Elements}
    (h : elements.All property element) : elements.All property' element' := by
  cases elements with
  | ending comments => trivial
  | element comments value rest =>
      obtain ⟨hvalue, hinside, hrest⟩ := h
      exact ⟨helement value hvalue, Value.All.mono hproperty helement hinside,
        Elements.All.mono hproperty helement hrest⟩
end

end Mono

section Items
variable {property : String → Value → Prop} {element : Value → Prop}

theorem Members.All.of_mem_toList {members : Members} {name : String} {value : Value}
    (h : members.All property element) (hmem : (name, value) ∈ members.toList) :
    property name value ∧ value.All property element := by
  induction members using Members.toList.induct with
  | case1 comments => cases hmem
  | case2 comments name' value' rest ih =>
      obtain ⟨hvalue, hinside, hrest⟩ := h
      rcases List.mem_cons.mp hmem with heq | hmem
      · obtain ⟨rfl, rfl⟩ := Prod.mk.inj heq
        exact ⟨hvalue, hinside⟩
      · exact ih hrest hmem

theorem Elements.All.of_mem_toList {elements : Elements} {value : Value}
    (h : elements.All property element) (hmem : value ∈ elements.toList) :
    element value ∧ value.All property element := by
  induction elements using Elements.toList.induct with
  | case1 comments => cases hmem
  | case2 comments first rest ih =>
      obtain ⟨hvalue, hinside, hrest⟩ := h
      rcases List.mem_cons.mp hmem with rfl | hmem
      · exact ⟨hvalue, hinside⟩
      · exact ih hrest hmem

end Items

/-! How deep objects and lists nest. -/

mutual
def Value.height : Value → Nat
  | .list elements => elements.height + 1
  | .object members => members.height + 1
  | .named _ members => members.height + 1
  | .number _ | .string _ | .boolean _ | .identifier _ | .code _ | .pair _ _ => 0

def Members.height : Members → Nat
  | .ending _ => 0
  | .member _ _ value rest => max value.height rest.height

def Elements.height : Elements → Nat
  | .ending _ => 0
  | .element _ value rest => max value.height rest.height
end

/-! Comments wherever they stand. -/

mutual
def Value.comments : Value → List String
  | .list elements => elements.comments
  | .object members => members.comments
  | .named _ members => members.comments
  | .number _ | .string _ | .boolean _ | .identifier _ | .code _ | .pair _ _ => []

def Members.comments : Members → List String
  | .ending comments => comments
  | .member comments _ value rest => comments ++ (value.comments ++ rest.comments)

def Elements.comments : Elements → List String
  | .ending comments => comments
  | .element comments value rest => comments ++ (value.comments ++ rest.comments)
end

end Lookml
