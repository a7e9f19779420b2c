import Lookml.Proofs.Tree.Pointwise
import Lookml.Tree.Assembly

/-!
A tree that is told and built again. Items are put on the frame of the scope that they
stand in, each with the comments that waited for it, so a scope that is told to its end
leaves the frame with its items in reverse.
-/

namespace Lookml

def Value.isProperty : Value → Bool
  | .pair _ _ => false
  | _ => true

def Value.isElement : Value → Bool
  | .code _ | .object _ | .named _ _ => false
  | _ => true

/-- Pairs stand in lists only, and code and objects under names only. -/
def Members.Placed (members : Members) : Prop :=
  members.All (fun _ value => value.isProperty = true) (fun value => value.isElement = true)

def Elements.Placed (elements : Elements) : Prop :=
  elements.All (fun _ value => value.isProperty = true) (fun value => value.isElement = true)

def Value.Placed (value : Value) : Prop :=
  value.All (fun _ value => value.isProperty = true) (fun value => value.isElement = true)

def Members.items : Members → List Assembly.Item
  | .ending _ => []
  | .member comments name value rest => ⟨comments, name, value⟩ :: rest.items

def Members.lastComments : Members → List String
  | .ending comments => comments
  | .member _ _ _ rest => rest.lastComments

def Elements.items : Elements → List Assembly.Item
  | .ending _ => []
  | .element comments value rest => ⟨comments, "", value⟩ :: rest.items

def Elements.lastComments : Elements → List String
  | .ending comments => comments
  | .element _ _ rest => rest.lastComments

namespace Assembly

theorem membersOf_items (members : Members) :
    membersOf members.items.reverse members.lastComments = members := by
  rw [membersOf, List.foldl_reverse]
  induction members using Members.toList.induct with
  | case1 comments => rfl
  | case2 comments name value rest ih =>
      rw [Members.items, List.foldr_cons, Members.lastComments, ih]

theorem elementsOf_items (elements : Elements) :
    elementsOf elements.items.reverse elements.lastComments = elements := by
  rw [elementsOf, List.foldl_reverse]
  induction elements using Elements.toList.induct with
  | case1 comments => rfl
  | case2 comments value rest ih =>
      rw [Elements.items, List.foldr_cons, Elements.lastComments, ih]

def told (assembly : Assembly) (events : List Event) : Assembly :=
  assembly.run (events.map .event)

section Told
variable {frame : Frame} {frames : List Frame} {document : Option Document}

theorem told_append (assembly : Assembly) (events events' : List Event) :
    assembly.told (events ++ events') = (assembly.told events).told events' := by
  simp only [told, run, List.map_append, List.foldl_append]

theorem told_cons (assembly : Assembly) (event : Event) (events : List Event) :
    assembly.told (event :: events) = (assembly.step (.event event)).told events := rfl

theorem told_comments (texts : List String) :
    told ⟨frame :: frames, document⟩ (Event.comments texts) =
      ⟨{ frame with waiting := texts.reverse ++ frame.waiting } :: frames, document⟩ := by
  induction texts generalizing frame with
  | nil => rfl
  | cons text texts ih =>
      have hstep : step ⟨frame :: frames, document⟩ (.event (.comment text)) =
          ⟨frame.comment text :: frames, document⟩ := rfl
      rw [Event.comments, List.map_cons, told_cons, hstep]
      refine ih.trans ?_
      simp [Frame.comment]

end Told

mutual
theorem told_asProperty {frame : Frame} {frames : List Frame} {document : Option Document}
    {name : String} {value : Value} (hproperty : value.isProperty = true) (hplaced : value.Placed) :
    told ⟨frame :: frames, document⟩ (value.asProperty name) =
      ⟨{ frame with
          items := ⟨frame.waiting.reverse, name, value⟩ :: frame.items
          waiting := [] } :: frames, document⟩ := by
  cases value with
  | pair reference text => cases hproperty
  | list elements =>
      have hopen : step ⟨frame :: frames, document⟩ (.event (.list (some name))) =
          ⟨⟨frame.waiting.reverse, name, .list, [], []⟩ :: { frame with waiting := [] } :: frames,
            document⟩ := rfl
      rw [Value.asProperty, told_cons, told_append, hopen, told_elements rfl hplaced]
      simp [told, run, step, close, Frame.put, Frame.item, Frame.value, elementsOf_items]
  | object members =>
      have hopen : step ⟨frame :: frames, document⟩ (.event (.object name)) =
          ⟨⟨frame.waiting.reverse, name, .object, [], []⟩ :: { frame with waiting := [] } :: frames,
            document⟩ := rfl
      rw [Value.asProperty, told_cons, told_append, hopen, told_members rfl hplaced]
      simp [told, run, step, close, Frame.put, Frame.item, Frame.value, Frame.members,
        membersOf_items]
  | named instanceName members =>
      have hopen : step ⟨frame :: frames, document⟩ (.event (.named name instanceName)) =
          ⟨⟨frame.waiting.reverse, name, .named instanceName, [], []⟩ ::
            { frame with waiting := [] } :: frames, document⟩ := rfl
      rw [Value.asProperty, told_cons, told_append, hopen, told_members rfl hplaced]
      simp [told, run, step, close, Frame.put, Frame.item, Frame.value, Frame.members,
        membersOf_items]
  | number value => rfl
  | string text => rfl
  | boolean value => rfl
  | identifier text => rfl
  | code text => rfl

theorem told_asElement {frame : Frame} {frames : List Frame} {document : Option Document}
    {value : Value} (helement : value.isElement = true) (hplaced : value.Placed) :
    told ⟨frame :: frames, document⟩ value.asElement =
      ⟨{ frame with
          items := ⟨frame.waiting.reverse, "", value⟩ :: frame.items
          waiting := [] } :: frames, document⟩ := by
  cases value with
  | code text => cases helement
  | object members => cases helement
  | named instanceName members => cases helement
  | list elements =>
      have hopen : step ⟨frame :: frames, document⟩ (.event (.list none)) =
          ⟨⟨frame.waiting.reverse, "", .list, [], []⟩ :: { frame with waiting := [] } :: frames,
            document⟩ := rfl
      rw [Value.asElement, told_cons, told_append, hopen, told_elements rfl hplaced]
      simp [told, run, step, close, Frame.put, Frame.item, Frame.value, elementsOf_items]
  | number value => rfl
  | string text => rfl
  | boolean value => rfl
  | identifier text => rfl
  | pair reference text => rfl

theorem told_members {frame : Frame} {frames : List Frame} {document : Option Document}
    {members : Members} (hwaiting : frame.waiting = []) (hplaced : members.Placed) :
    told ⟨frame :: frames, document⟩ members.events =
      ⟨{ frame with
          items := members.items.reverse ++ frame.items
          waiting := members.lastComments.reverse } :: frames, document⟩ := by
  cases members with
  | ending comments =>
      rw [Members.events, told_comments, hwaiting, List.append_nil]
      rfl
  | member comments name value rest =>
      obtain ⟨hproperty, hinside, hrest⟩ := hplaced
      rw [Members.events, told_append, told_append, told_comments,
        told_asProperty hproperty hinside, told_members rfl hrest]
      simp [Members.items, Members.lastComments, hwaiting]

theorem told_elements {frame : Frame} {frames : List Frame} {document : Option Document}
    {elements : Elements} (hwaiting : frame.waiting = []) (hplaced : elements.Placed) :
    told ⟨frame :: frames, document⟩ elements.events =
      ⟨{ frame with
          items := elements.items.reverse ++ frame.items
          waiting := elements.lastComments.reverse } :: frames, document⟩ := by
  cases elements with
  | ending comments =>
      rw [Elements.events, told_comments, hwaiting, List.append_nil]
      rfl
  | element comments value rest =>
      obtain ⟨helement, hinside, hrest⟩ := hplaced
      rw [Elements.events, told_append, told_append, told_comments,
        told_asElement helement hinside, told_elements rfl hrest]
      simp [Elements.items, Elements.lastComments, hwaiting]
end

end Assembly

/-- A tree whose values stand where they can be told is built again from its events. -/
theorem Document.ofStream?_events {document : Document} (hplaced : Members.Placed document) :
    Document.ofStream? (wholeDocument (Members.events document)) = some document := by
  have htold : Assembly.start.told (Members.events document) =
      ⟨[⟨[], "", .object, document.items.reverse ++ [], document.lastComments.reverse⟩], none⟩ :=
    Assembly.told_members rfl hplaced
  rw [Assembly.told, Assembly.run] at htold
  rw [Document.ofStream?, wholeDocument, Assembly.run, List.foldl_append, htold]
  simp [Assembly.step, Assembly.close, Assembly.Frame.members, Assembly.membersOf_items]

theorem Document.ofEvents_events {document : Document} (hplaced : Members.Placed document) :
    Document.ofEvents (Members.events document) = document := by
  rw [Document.ofEvents, ofStream?_events hplaced, Option.getD_some]

end Lookml
