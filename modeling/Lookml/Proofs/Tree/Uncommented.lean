import Lookml.Proofs.Grammar.Derivation
import Lookml.Proofs.Tree.RoundTrip

/-!
Trees without their comments. Telling such a tree leaves out the comments and nothing
else; and since neither the sorts of the values nor their nesting change, it is written
and read as the tree with them is.
-/

namespace Lookml

theorem withoutComments_scope {opening : Event} (h : opening.isComment = false)
    (events : List Event) :
    withoutComments (opening :: (events ++ [.close])) =
      opening :: (withoutComments events ++ [.close]) := by
  rw [withoutComments_cons h, withoutComments_append]
  rfl

mutual
theorem Value.asProperty_withoutComments (name : String) (value : Value) :
    value.withoutComments.asProperty name = Lookml.withoutComments (value.asProperty name) := by
  cases value with
  | list elements =>
      rw [Value.withoutComments, Value.asProperty, Value.asProperty, withoutComments_scope rfl,
        Elements.events_withoutComments elements]
  | object members =>
      rw [Value.withoutComments, Value.asProperty, Value.asProperty, withoutComments_scope rfl,
        Members.events_withoutComments members]
  | named instanceName members =>
      rw [Value.withoutComments, Value.asProperty, Value.asProperty, withoutComments_scope rfl,
        Members.events_withoutComments members]
  | _ => rfl

theorem Value.asElement_withoutComments (value : Value) :
    value.withoutComments.asElement = Lookml.withoutComments value.asElement := by
  cases value with
  | list elements =>
      rw [Value.withoutComments, Value.asElement, Value.asElement, withoutComments_scope rfl,
        Elements.events_withoutComments elements]
  | _ => rfl

theorem Members.events_withoutComments (members : Members) :
    members.withoutComments.events = Lookml.withoutComments members.events := by
  cases members with
  | ending comments => exact (withoutComments_comments comments).symm
  | member comments name value rest =>
      rw [Members.withoutComments, Members.events, Members.events, withoutComments_append,
        withoutComments_append, withoutComments_comments,
        Value.asProperty_withoutComments name value, Members.events_withoutComments rest]
      rfl

theorem Elements.events_withoutComments (elements : Elements) :
    elements.withoutComments.events = Lookml.withoutComments elements.events := by
  cases elements with
  | ending comments => exact (withoutComments_comments comments).symm
  | element comments value rest =>
      rw [Elements.withoutComments, Elements.events, Elements.events, withoutComments_append,
        withoutComments_append, withoutComments_comments,
        Value.asElement_withoutComments value, Elements.events_withoutComments rest]
      rfl
end

section Map
variable (comment : String → String) (number : Number → Number)

mutual
/-- With other comments in their places, the same tree is left. -/
theorem Value.withoutComments_map (value : Value) :
    (value.map comment number).withoutComments = value.withoutComments.map comment number := by
  cases value with
  | list elements => exact congrArg Value.list (Elements.withoutComments_map elements)
  | object members => exact congrArg Value.object (Members.withoutComments_map members)
  | named instanceName members =>
      exact congrArg (Value.named instanceName) (Members.withoutComments_map members)
  | _ => rfl

theorem Members.withoutComments_map (members : Members) :
    (members.map comment number).withoutComments = members.withoutComments.map comment number := by
  cases members with
  | ending comments => rfl
  | member comments name value rest =>
      rw [Members.map, Members.withoutComments, Members.withoutComments, Members.map,
        Value.withoutComments_map value, Members.withoutComments_map rest]
      rfl

theorem Elements.withoutComments_map (elements : Elements) :
    (elements.map comment number).withoutComments =
      elements.withoutComments.map comment number := by
  cases elements with
  | ending comments => rfl
  | element comments value rest =>
      rw [Elements.map, Elements.withoutComments, Elements.withoutComments, Elements.map,
        Value.withoutComments_map value, Elements.withoutComments_map rest]
      rfl
end

end Map

section Sorts
variable {property : String → Value → Prop} {element : Value → Prop}

mutual
theorem Value.All.withoutComments
    (hproperty : ∀ name value, property name value → property name value.withoutComments)
    (helement : ∀ value, element value → element value.withoutComments) {value : Value}
    (h : value.All property element) : value.withoutComments.All property element := by
  cases value with
  | list elements => exact Elements.All.withoutComments hproperty helement h
  | object members => exact Members.All.withoutComments hproperty helement h
  | named instanceName members => exact Members.All.withoutComments hproperty helement h
  | _ => trivial

theorem Members.All.withoutComments
    (hproperty : ∀ name value, property name value → property name value.withoutComments)
    (helement : ∀ value, element value → element value.withoutComments) {members : Members}
    (h : members.All property element) : members.withoutComments.All property element := by
  cases members with
  | ending comments => trivial
  | member comments name value rest =>
      obtain ⟨hvalue, hinside, hrest⟩ := h
      exact ⟨hproperty name value hvalue, Value.All.withoutComments hproperty helement hinside,
        Members.All.withoutComments hproperty helement hrest⟩

theorem Elements.All.withoutComments
    (hproperty : ∀ name value, property name value → property name value.withoutComments)
    (helement : ∀ value, element value → element value.withoutComments) {elements : Elements}
    (h : elements.All property element) : elements.withoutComments.All property element := by
  cases elements with
  | ending comments => trivial
  | element comments value rest =>
      obtain ⟨hvalue, hinside, hrest⟩ := h
      exact ⟨helement value hvalue, Value.All.withoutComments hproperty helement hinside,
        Elements.All.withoutComments hproperty helement hrest⟩
end

end Sorts

mutual
theorem Value.height_withoutComments (value : Value) :
    value.withoutComments.height = value.height := by
  cases value with
  | list elements => exact congrArg (· + 1) (Elements.height_withoutComments elements)
  | object members => exact congrArg (· + 1) (Members.height_withoutComments members)
  | named instanceName members => exact congrArg (· + 1) (Members.height_withoutComments members)
  | _ => rfl

theorem Members.height_withoutComments (members : Members) :
    members.withoutComments.height = members.height := by
  cases members with
  | ending comments => rfl
  | member comments name value rest =>
      rw [Members.withoutComments, Members.height, Members.height,
        Value.height_withoutComments value, Members.height_withoutComments rest]

theorem Elements.height_withoutComments (elements : Elements) :
    elements.withoutComments.height = elements.height := by
  cases elements with
  | ending comments => rfl
  | element comments value rest =>
      rw [Elements.withoutComments, Elements.height, Elements.height,
        Value.height_withoutComments value, Elements.height_withoutComments rest]
end

theorem Members.IsWritable.withoutComments {code : Names} {document : Document}
    (h : Members.IsWritable code document) :
    Members.IsWritable code (Members.withoutComments document) where
  values := by
    refine Members.All.withoutComments ?_ ?_ h.values
    · intro name value hvalue
      cases value <;> exact hvalue
    · intro value hvalue
      cases value <;> exact hvalue
  height := (Members.height_withoutComments document).symm ▸ h.height

/-- The events of a document without its comments are the other events of the document;
and where the document can be written, in any layout with quoted strings and an indent of
blanks, it is read without comments as what is read with them is without them. -/
theorem Document.withoutComments_commutes :
    (∀ document : Document, Members.events (Members.withoutComments document) =
      (Members.events document).filter fun event => !event.isComment) ∧
    ∀ {code : Names} {layout : Layout} {document : Document}, layout.bareStrings = false →
      (∀ c ∈ layout.indent.toList, c = ' ' ∨ c = '\t') → Members.IsWritable code document →
      ∃ read, Document.read code (Members.format layout document).toList = .ok read ∧
        Document.read code (Members.format layout (Members.withoutComments document)).toList =
          .ok (Members.withoutComments read) := by
  refine ⟨Members.events_withoutComments, fun hbare hindent hdocument => ?_⟩
  have hplain : Layout.IsPlain _ := .of_blanks hbare hindent
  refine ⟨_, read_format_eq hplain hdocument, ?_⟩
  rw [read_format_eq hplain hdocument.withoutComments, Members.withoutComments_map]

theorem Document.withoutComments_commutes_view :
    let document : Document := .member ["a\nb"] "view" (.named "users"
      (.member ["c"] "tags" (.list (.element ["d"] (.pair "no" "1") (.ending ["e"])))
        (.member [] "sql" (.code "x ; y") (.ending ["f"])))) (.ending ["end"])
    let bare : Document := .member [] "view" (.named "users"
      (.member [] "tags" (.list (.element [] (.pair "no" "1") (.ending [])))
        (.member [] "sql" (.code "x ; y") (.ending [])))) (.ending [])
    Members.IsWritable (Names.ofList ["sql"]) document ∧ Members.withoutComments document = bare ∧
      ∃ read, Document.read (Names.ofList ["sql"])
          (Members.format Layout.standard document).toList = .ok read ∧
        Document.read (Names.ofList ["sql"]) (Members.format Layout.standard bare).toList =
          .ok (Members.withoutComments read) := by
  intro document bare
  have htags : (Names.ofList ["sql"]).contains "tags" = false := by decide
  have hreference : isWord "no".toList = true := by decide
  have hdocument : Members.IsWritable (Names.ofList ["sql"]) document := by
    refine ⟨⟨⟨by decide, by decide⟩, ⟨htags, ⟨hreference, trivial, trivial⟩, ?_⟩, trivial⟩,
      by decide⟩
    exact ⟨⟨by decide, by decide, by decide⟩, trivial, trivial⟩
  exact ⟨hdocument, rfl,
    Document.withoutComments_commutes.2 rfl (by simp [Layout.standard]) hdocument⟩

end Lookml
