import Lookml.Proofs.Tree.Rebuild
import Lookml.Proofs.Tree.Respelled
import Lookml.Proofs.Writer.RoundTrip

/-!
A tree that is written and read. Which trees can be written depends on the names that
stand for code; their events can be written, and what is read back is built again as a
tree.
-/

namespace Lookml

/-- What can be written as the value of a property: code under the names of code, and
nothing else there. -/
def Value.WritableUnder (code : Names) (name : String) : Value → Prop
  | .code text => code.contains name = true ∧ IsCode text.toList
  | .number value => code.contains name = false ∧ value.IsFinite
  | .identifier text => code.contains name = false ∧ isBareWord text.toList = true
  | .named instanceName _ => code.contains name = false ∧ isWord instanceName.toList = true
  | .string _ | .boolean _ | .list _ | .object _ => code.contains name = false
  | .pair _ _ => False

def Value.WritableInList : Value → Prop
  | .number value => value.IsFinite
  | .identifier text => isBareWord text.toList = true
  | .pair reference _ => isWord reference.toList = true
  | .string _ | .boolean _ | .list _ => True
  | .code _ | .object _ | .named _ _ => False

structure Members.IsWritable (code : Names) (document : Members) : Prop where
  values : document.All (Value.WritableUnder code) Value.WritableInList
  height : document.height ≤ maxDepth

section Events
variable {code : Names} {scopes : OpenScopes} {event : Event}

private theorem Writable.leads_scalar (hdepth : scopes.length ≤ maxDepth)
    (hopens : event.opens? = none) (hclose : event ≠ .close)
    (hfit : event.fit? scopes.current = some event) (hspelled : event.Spelled code)
    (hfinite : event.IsFinite) : Leads (Writable code) scopes [event] scopes := by
  have hafter := OpenScopes.after_eq_self hopens hclose scopes
  refine ⟨⟨.of_fit? hclose hfit, ?_, hspelled, hfinite⟩, hafter⟩
  rw [hafter]
  exact hdepth

private theorem Writable.leads_scope {events : List Event} {scope : Scope}
    (hdepth : scopes.length < maxDepth) (hopens : event.opens? = some scope)
    (hfit : event.fit? scopes.current = some event) (hspelled : event.Spelled code)
    (hfinite : event.IsFinite)
    (hevents : Leads (Writable code) (scope :: scopes) events (scope :: scopes)) :
    Leads (Writable code) scopes (event :: (events ++ [.close])) scopes := by
  have hafter := OpenScopes.after_eq_cons hopens scopes
  have hclose : event ≠ .close := by
    rintro rfl
    cases hopens
  have hend : Leads (Writable code) (scope :: scopes) [.close] scopes :=
    ⟨⟨⟨by simp, Event.fit?_close _⟩, Nat.le_of_lt hdepth, trivial, trivial⟩, rfl⟩
  refine ⟨⟨.of_fit? hclose hfit, ?_, hspelled, hfinite⟩, ?_⟩
  · rw [hafter]
    exact hdepth
  · rw [hafter]
    exact hevents.append hend

private theorem Writable.leads_comments (hdepth : scopes.length ≤ maxDepth)
    (texts : List String) : Leads (Writable code) scopes (Event.comments texts) scopes := by
  induction texts with
  | nil => rfl
  | cons text texts ih =>
      have hcomment : Leads (Writable code) scopes [.comment text] scopes :=
        Writable.leads_scalar hdepth rfl (by simp) (Event.fit?_comment _ text) trivial trivial
      exact hcomment.append ih

end Events

section Trees
variable {code : Names}

mutual
private theorem leads_asProperty {scopes : OpenScopes} {name : String} {value : Value}
    (hscope : scopes.current = .object) (hdepth : scopes.length + value.height ≤ maxDepth)
    (hvalue : value.WritableUnder code name)
    (hinside : value.All (Value.WritableUnder code) Value.WritableInList) :
    Leads (Writable code) scopes (value.asProperty name) scopes := by
  cases value with
  | number value =>
      exact Writable.leads_scalar hdepth rfl (by simp) (by rw [hscope]; rfl)
        (Event.named_spelled hvalue.1) hvalue.2
  | string text =>
      exact Writable.leads_scalar hdepth rfl (by simp) (by rw [hscope]; rfl)
        (Event.named_spelled hvalue) trivial
  | boolean value =>
      exact Writable.leads_scalar hdepth rfl (by simp) (by rw [hscope]; rfl)
        (Event.named_spelled hvalue) trivial
  | identifier text =>
      exact Writable.leads_scalar hdepth rfl (by simp) (by rw [hscope]; rfl)
        ⟨Event.named_spelled hvalue.1, hvalue.2⟩ trivial
  | code text =>
      exact Writable.leads_scalar hdepth rfl (by simp) (by rw [hscope]; rfl) hvalue trivial
  | pair reference text => exact hvalue.elim
  | list elements =>
      rw [Value.height] at hdepth
      refine Writable.leads_scope (by omega) rfl (by rw [hscope]; rfl)
        (Event.named_spelled hvalue) trivial ?_
      refine leads_elements rfl ?_ hinside
      rw [List.length_cons]
      omega
  | object members =>
      rw [Value.height] at hdepth
      refine Writable.leads_scope (by omega) rfl (by rw [hscope]; rfl) hvalue trivial ?_
      refine leads_members rfl ?_ hinside
      rw [List.length_cons]
      omega
  | named instanceName members =>
      rw [Value.height] at hdepth
      refine Writable.leads_scope (by omega) rfl (by rw [hscope]; rfl) hvalue trivial ?_
      refine leads_members rfl ?_ hinside
      rw [List.length_cons]
      omega

private theorem leads_asElement {scopes : OpenScopes} {value : Value}
    (hscope : scopes.current = .list) (hdepth : scopes.length + value.height ≤ maxDepth)
    (hvalue : value.WritableInList)
    (hinside : value.All (Value.WritableUnder code) Value.WritableInList) :
    Leads (Writable code) scopes value.asElement scopes := by
  cases value with
  | number value =>
      exact Writable.leads_scalar hdepth rfl (by simp) (by rw [hscope]; rfl)
        (Event.unnamed_spelled code) hvalue
  | string text =>
      exact Writable.leads_scalar hdepth rfl (by simp) (by rw [hscope]; rfl)
        (Event.unnamed_spelled code) trivial
  | boolean value =>
      exact Writable.leads_scalar hdepth rfl (by simp) (by rw [hscope]; rfl)
        (Event.unnamed_spelled code) trivial
  | identifier text =>
      exact Writable.leads_scalar hdepth rfl (by simp) (by rw [hscope]; rfl)
        ⟨Event.unnamed_spelled code, hvalue⟩
        trivial
  | pair reference text =>
      exact Writable.leads_scalar hdepth rfl (by simp) (by rw [hscope]; rfl) hvalue trivial
  | list elements =>
      rw [Value.height] at hdepth
      refine Writable.leads_scope (by omega) rfl (by rw [hscope]; rfl)
        (Event.unnamed_spelled code) trivial ?_
      refine leads_elements rfl ?_ hinside
      rw [List.length_cons]
      omega
  | code text => exact hvalue.elim
  | object members => exact hvalue.elim
  | named instanceName members => exact hvalue.elim

theorem leads_members {scopes : OpenScopes} {members : Members}
    (hscope : scopes.current = .object) (hdepth : scopes.length + members.height ≤ maxDepth)
    (hmembers : members.All (Value.WritableUnder code) Value.WritableInList) :
    Leads (Writable code) scopes members.events scopes := by
  cases members with
  | ending comments => exact Writable.leads_comments hdepth comments
  | member comments name value rest =>
      obtain ⟨hvalue, hinside, hrest⟩ := hmembers
      rw [Members.height] at hdepth
      rw [Members.events]
      have hvalues := leads_asProperty hscope (by omega) hvalue hinside
      have hrests := leads_members hscope (by omega) hrest
      exact (Writable.leads_comments (by omega) comments).append (hvalues.append hrests)

theorem leads_elements {scopes : OpenScopes} {elements : Elements}
    (hscope : scopes.current = .list) (hdepth : scopes.length + elements.height ≤ maxDepth)
    (helements : elements.All (Value.WritableUnder code) Value.WritableInList) :
    Leads (Writable code) scopes elements.events scopes := by
  cases elements with
  | ending comments => exact Writable.leads_comments hdepth comments
  | element comments value rest =>
      obtain ⟨hvalue, hinside, hrest⟩ := helements
      rw [Elements.height] at hdepth
      rw [Elements.events]
      have hvalues := leads_asElement hscope (by omega) hvalue hinside
      have hrests := leads_elements hscope (by omega) hrest
      exact (Writable.leads_comments (by omega) comments).append (hvalues.append hrests)
end

end Trees

/-! What is read back of a tree is told of the tree with its comments on one line and its
zeros without sign. -/

private theorem respelling_readBack :
    Respelling onOneLine (Value.map onOneLine Number.readBack) Event.readBack where
  comment _ := rfl
  opens {event _} hopens := by cases event <;> first | rfl | cases hopens
  close := rfl
  property name value hvalue := by cases value <;> first | rfl | cases hvalue
  element {value} hvalue := by cases value <;> first | rfl | cases hvalue

theorem Members.events_readBack (members : Members) :
    members.events.map Event.readBack = (members.map onOneLine Number.readBack).events := by
  rw [Members.map_eq_respelled, respelling_readBack.memberEvents]

section Same
variable {code : Names} (comment : String → String)

mutual
theorem Value.same_readBack {value : Value}
    (hvalue : (∃ name, value.WritableUnder code name) ∨ value.WritableInList)
    (hinside : value.All (Value.WritableUnder code) Value.WritableInList) :
    (value.map comment Number.readBack).same (value.map comment id) = true := by
  cases value with
  | number value =>
      have hfinite : value.IsFinite := by
        rcases hvalue with ⟨name, hvalue⟩ | hvalue
        · exact hvalue.2
        · exact hvalue
      exact Number.same_readBack hfinite
  | list elements => exact Elements.same_readBack hinside
  | object members => exact Members.same_readBack hinside
  | named instanceName members =>
      rw [Value.map, Value.map, Value.same, beq_self_eq_true, Bool.true_and]
      exact Members.same_readBack hinside
  | string text => simp [Value.map, Value.same]
  | boolean value => simp [Value.map, Value.same]
  | identifier text => simp [Value.map, Value.same]
  | code text => simp [Value.map, Value.same]
  | pair reference text => simp [Value.map, Value.same]

theorem Members.same_readBack {members : Members}
    (hmembers : members.All (Value.WritableUnder code) Value.WritableInList) :
    (members.map comment Number.readBack).same (members.map comment id) = true := by
  cases members with
  | ending comments => simp [Members.map, Members.same]
  | member comments name value rest =>
      obtain ⟨hvalue, hinside, hrest⟩ := hmembers
      simp [Members.map, Members.same, Value.same_readBack (.inl ⟨name, hvalue⟩) hinside,
        Members.same_readBack hrest]

theorem Elements.same_readBack {elements : Elements}
    (helements : elements.All (Value.WritableUnder code) Value.WritableInList) :
    (elements.map comment Number.readBack).same (elements.map comment id) = true := by
  cases elements with
  | ending comments => simp [Elements.map, Elements.same]
  | element comments value rest =>
      obtain ⟨hvalue, hinside, hrest⟩ := helements
      simp [Elements.map, Elements.same, Value.same_readBack (.inr hvalue) hinside,
        Elements.same_readBack hrest]
end

end Same

theorem Members.IsWritable.placed {code : Names} {document : Document}
    (h : Members.IsWritable code document) (comment : String → String)
    (number : Number → Number) : Members.Placed (document.map comment number) := by
  refine Members.All.map (Members.All.mono ?_ ?_ h.values)
  · intro name value hvalue
    cases value with
    | pair reference text => exact hvalue.elim
    | _ => rfl
  · intro value hvalue
    cases value with
    | code text => exact hvalue.elim
    | object members => exact hvalue.elim
    | named instanceName members => exact hvalue.elim
    | _ => rfl

theorem Reading.ofText_format {code : Names} {layout : Layout} (hplain : layout.IsPlain)
    {document : Document} (hdocument : Members.IsWritable code document) :
    Reading.ofText code (Members.format layout document).toList =
      ⟨Members.events (document.map onOneLine Number.readBack), none⟩ := by
  have hevents : Leads (Writable code) [] (Members.events document) [] :=
    leads_members rfl (by simpa using hdocument.height) hdocument.values
  have hread := read_textOfStream hplain hevents
  rw [Members.events_readBack] at hread
  exact hread

theorem Document.read_format_eq {code : Names} {layout : Layout} (hplain : layout.IsPlain)
    {document : Document} (hdocument : Members.IsWritable code document) :
    Document.read code (Members.format layout document).toList =
      .ok (document.map onOneLine Number.readBack) := by
  rw [Document.read]
  simp only [Reading.ofText_format hplain hdocument]
  rw [Document.ofEvents_events (hdocument.placed _ _)]

/-- A writable document that is written in any layout with quoted strings and an indent of
blanks is read back as it was, but for the line ends in its comments. -/
theorem Document.read_format {code : Names} {layout : Layout} {document : Document}
    (hbare : layout.bareStrings = false)
    (hindent : ∀ c ∈ layout.indent.toList, c = ' ' ∨ c = '\t')
    (hdocument : Members.IsWritable code document) :
    ∃ read, Document.read code (Members.format layout document).toList = .ok read ∧
      read.same (document.map onOneLine id) = true := by
  have hplain : layout.IsPlain := .of_blanks hbare hindent
  exact ⟨_, read_format_eq hplain hdocument, Members.same_readBack onOneLine hdocument.values⟩

theorem Document.read_format_view :
    ∃ read, Document.read (Names.ofList ["sql"]) (Members.format Layout.standard
        (.member ["a\nb"] "view" (.named "users"
          (.member [] "sql" (.code "x ; y")
            (.member [] "a b" (.number (.finite true ⟨0, by decide⟩))
            (.member [] "tags" (.list (.element [] (.pair "no" "1") (.ending ["c"])))
              (.ending []))))) (.ending ["end"]))).toList = .ok read ∧
      read.same
        (.member ["a b"] "view" (.named "users"
          (.member [] "sql" (.code "x ; y")
            (.member [] "a b" (.number (.finite true ⟨0, by decide⟩))
            (.member [] "tags" (.list (.element [] (.pair "no" "1") (.ending ["c"])))
              (.ending []))))) (.ending ["end"])) = true := by
  have htags : (Names.ofList ["sql"]).contains "tags" = false := by decide
  have hreference : isWord "no".toList = true := by decide
  refine Document.read_format rfl (by simp [Layout.standard]) ⟨?_, by decide⟩
  refine ⟨⟨by decide, by decide⟩, ⟨⟨by decide, by decide, by decide⟩, trivial, ?_⟩, trivial⟩
  exact ⟨⟨by decide, _, _, rfl⟩, trivial, htags, ⟨hreference, trivial, trivial⟩, trivial⟩

end Lookml
