import Lookml.Proofs.Tree.Assembled
import Lookml.Proofs.Tree.Forest
import Lookml.Proofs.Tree.Rebuild

/-!
A stream that is built as a tree and told again. At any time the open frames tell what
they were told: the items and comments of the outer frames, then the comments before the
inner scope and its opening, then the inner frame. Each event adds itself to that, so the
tree of a whole stream tells the stream.
-/

namespace Lookml

def Value.toldIn : Scope → String → Value → List Event
  | .object, name, value => value.asProperty name
  | .list, _, value => value.asElement

/-- A value can be told in a scope. -/
def Value.fitsIn : Scope → Value → Bool
  | .object, value => value.isProperty
  | .list, value => value.isElement

namespace Assembly

structure Item.Placed (scope : Scope) (item : Item) : Prop where
  value : item.value.fitsIn scope = true
  inside : item.value.Placed

def Item.told (scope : Scope) (item : Item) : List Event :=
  Event.comments item.comments ++ item.value.toldIn scope item.name

def Shape.scope : Shape → Scope
  | .list => .list
  | .object | .named _ => .object

/-- The event that opens a scope of a shape inside another scope. -/
def Shape.opening : Scope → String → Shape → Event
  | .object, name, .list => .list (some name)
  | .list, _, .list => .list none
  | _, name, .object => .object name
  | _, name, .named instanceName => .named name instanceName

theorem Shape.opening_object (scope : Scope) (name : String) :
    Shape.object.opening scope name = .object name := by
  cases scope <;> rfl

theorem Shape.opening_named (scope : Scope) (name instanceName : String) :
    (Shape.named instanceName).opening scope name = .named name instanceName := by
  cases scope <;> rfl

/-- A list that fits has a name in an object and none in a list. -/
theorem Shape.opening_list {scope : Scope} {name : Option String}
    (hfit : (Event.list name).fit? scope = some (.list name)) :
    Shape.list.opening scope (name.getD "") = .list name := by
  cases scope with
  | object =>
      cases name with
      | none => cases hfit
      | some name => rfl
  | list =>
      cases name with
      | none => rfl
      | some name => cases hfit

namespace Frame

def scope (frame : Frame) : Scope := frame.shape.scope

def opening (outer : Scope) (frame : Frame) : Event := frame.shape.opening outer frame.name

/-- What a frame has been told since its scope was opened. -/
def told (frame : Frame) : List Event :=
  frame.items.reverse.flatMap (Item.told frame.scope) ++ Event.comments frame.waiting.reverse

def Placed (frame : Frame) : Prop := ∀ item ∈ frame.items, item.Placed frame.scope

/-- The same frame with other items and comments in it. -/
def holding (frame : Frame) (items : List Item) (waiting : List String) : Frame :=
  { frame with items, waiting }

@[simp] theorem scope_holding (frame : Frame) (items : List Item) (waiting : List String) :
    (frame.holding items waiting).scope = frame.scope := rfl

@[simp] theorem told_holding (frame : Frame) (items : List Item) (waiting : List String) :
    (frame.holding items waiting).told =
      items.reverse.flatMap (Item.told frame.scope) ++ Event.comments waiting.reverse := rfl

end Frame

/-- What was told before the innermost frame, its opening included. -/
def toldBefore : List Frame → List Event
  | [] | [_] => []
  | inner :: outer :: frames =>
      toldBefore (outer :: frames) ++
        (outer.told ++ (Event.comments inner.comments ++ [inner.opening outer.scope]))

/-- What the open frames have been told, where the innermost frame stands first. -/
def toldBy : List Frame → List Event
  | [] => []
  | frame :: frames => toldBefore (frame :: frames) ++ frame.told

/-- The frames stand for these open scopes. Comments wait in the innermost frame only. -/
inductive Stand : OpenScopes → List Frame → Prop
  | document {frame : Frame} (hscope : frame.scope = .object) (hplaced : frame.Placed) :
      Stand [] [frame]
  | inner {scopes : OpenScopes} {inner outer : Frame} {frames : List Frame}
      (hfit : (inner.opening outer.scope).fit? outer.scope = some (inner.opening outer.scope))
      (hplaced : inner.Placed) (hwaiting : outer.waiting = [])
      (houter : Stand scopes (outer :: frames)) :
      Stand (inner.scope :: scopes) (inner :: outer :: frames)

section Told
variable {frame inner outer : Frame} {frames : List Frame} {scopes : OpenScopes} {scope : Scope}
  {event : Event}

theorem events_membersOf (items : List Item) (ending : List String) :
    (membersOf items ending).events =
      items.reverse.flatMap (Item.told .object) ++ Event.comments ending := by
  rw [membersOf, List.foldl_eq_foldr_reverse]
  induction items.reverse with
  | nil => rfl
  | cons item items ih =>
      rw [List.foldr_cons, Members.events, ih, List.flatMap_cons, Item.told, List.append_assoc,
        List.append_assoc]
      rfl

theorem events_elementsOf (items : List Item) (ending : List String) :
    (elementsOf items ending).events =
      items.reverse.flatMap (Item.told .list) ++ Event.comments ending := by
  rw [elementsOf, List.foldl_eq_foldr_reverse]
  induction items.reverse with
  | nil => rfl
  | cons item items ih =>
      rw [List.foldr_cons, Elements.events, ih, List.flatMap_cons, Item.told, List.append_assoc,
        List.append_assoc]
      rfl

theorem Frame.Placed.members (hplaced : frame.Placed) (hscope : frame.scope = .object) :
    frame.members.Placed ∧ frame.members.events = frame.told := by
  rw [told, Frame.members, events_membersOf, hscope]
  refine ⟨membersOf_all _ fun item hitem => ?_, rfl⟩
  obtain ⟨hvalue, hinside⟩ := hplaced item hitem
  rw [hscope] at hvalue
  exact ⟨hvalue, hinside⟩

theorem Frame.Placed.elements (hplaced : frame.Placed) (hscope : frame.scope = .list) :
    (elementsOf frame.items frame.waiting.reverse).Placed ∧
      (elementsOf frame.items frame.waiting.reverse).events = frame.told := by
  rw [told, events_elementsOf, hscope]
  refine ⟨elementsOf_all _ fun item hitem => ?_, rfl⟩
  obtain ⟨hvalue, hinside⟩ := hplaced item hitem
  rw [hscope] at hvalue
  exact ⟨hvalue, hinside⟩

/-- A frame that is closed is an item that tells what the frame was told, from the
comments before its opening on. -/
theorem Frame.Placed.item (hplaced : inner.Placed)
    (hfit : (inner.opening scope).fit? scope = some (inner.opening scope)) :
    inner.item.Placed scope ∧ inner.item.told scope =
      Event.comments inner.comments ++ inner.opening scope :: (inner.told ++ [.close]) := by
  rw [Item.told]
  obtain ⟨comments, name, shape, items, waiting⟩ := inner
  cases shape with
  | list =>
      obtain ⟨hvalue, htold⟩ := hplaced.elements rfl
      rw [← htold]
      cases scope with
      | object => exact ⟨⟨rfl, hvalue⟩, rfl⟩
      | list => exact ⟨⟨rfl, hvalue⟩, rfl⟩
  | object =>
      obtain ⟨hvalue, htold⟩ := hplaced.members rfl
      rw [← htold]
      cases scope with
      | object => exact ⟨⟨rfl, hvalue⟩, rfl⟩
      | list => cases hfit
  | named instanceName =>
      obtain ⟨hvalue, htold⟩ := hplaced.members rfl
      rw [← htold]
      cases scope with
      | object => exact ⟨⟨rfl, hvalue⟩, rfl⟩
      | list => cases hfit

/-! What is in the innermost frame makes no difference to what stands around it. -/

@[simp] theorem toldBy_holding (items : List Item) (waiting : List String) :
    toldBy (frame.holding items waiting :: frames) =
      toldBefore (frame :: frames) ++ (frame.holding items waiting).told := by
  cases frames <;> rfl

theorem Stand.holding (h : Stand scopes (frame :: frames)) {items : List Item}
    (waiting : List String) (hplaced : ∀ item ∈ items, item.Placed frame.scope) :
    Stand scopes (frame.holding items waiting :: frames) := by
  cases h with
  | document hscope _ => exact .document hscope hplaced
  | @inner scopes _ outer _ hfit _ hwaiting houter =>
      have hinner : (frame.holding items waiting).Placed := hplaced
      exact @Stand.inner _ (frame.holding items waiting) _ _ hfit hinner hwaiting houter

theorem Stand.head (h : Stand scopes (frame :: frames)) :
    frame.scope = scopes.current ∧ frame.Placed := by
  cases h with
  | document hscope hplaced => exact ⟨hscope, hplaced⟩
  | inner hfit hplaced hwaiting houter => exact ⟨rfl, hplaced⟩

/-! One event. -/

/-- Frames that have been told an event more than others. -/
structure Tells (scopes : OpenScopes) (frames : List Frame) (event : Event)
    (frames' : List Frame) : Prop where
  stand : Stand (scopes.after event) frames'
  told : toldBy frames' = toldBy frames ++ [event]

theorem Stand.comment (h : Stand scopes (frame :: frames)) (text : String) :
    Tells scopes (frame :: frames) (.comment text) (frame.comment text :: frames) := by
  have heq : frame.comment text = frame.holding frame.items (text :: frame.waiting) := rfl
  rw [heq]
  refine ⟨h.holding _ h.head.2, ?_⟩
  rw [toldBy_holding, Frame.told_holding, toldBy, Frame.told]
  simp [Event.comments]

theorem scalar_told {name : Option String} {value : Value}
    (hscalar : event.scalar? = some (name, value)) (hfit : event.fit? scope = some event) :
    (value.fitsIn scope = true ∧ value.Placed) ∧ value.toldIn scope (name.getD "") = [event] := by
  cases event with
  | number given value | truth given value | string given text | identifier given text =>
      obtain ⟨rfl, rfl⟩ := Prod.mk.inj (Option.some.inj hscalar)
      cases scope <;> cases given <;>
        first | exact ⟨⟨rfl, trivial⟩, rfl⟩ | cases hfit
  | code given text | pair reference text =>
      obtain ⟨rfl, rfl⟩ := Prod.mk.inj (Option.some.inj hscalar)
      cases scope <;> first | exact ⟨⟨rfl, trivial⟩, rfl⟩ | cases hfit
  | _ => cases hscalar

theorem Stand.scalar (h : Stand scopes (frame :: frames)) {name : Option String} {value : Value}
    (hscalar : event.scalar? = some (name, value))
    (hfit : event.fit? scopes.current = some event) :
    Tells scopes (frame :: frames) event (frame.scalar name value :: frames) := by
  have heq : frame.scalar name value =
      frame.holding (⟨frame.waiting.reverse, name.getD "", value⟩ :: frame.items) [] := rfl
  have hafter : scopes.after event = scopes := by
    cases event <;> first | rfl | cases hscalar
  rw [← h.head.1] at hfit
  obtain ⟨⟨hvalue, hinside⟩, htold⟩ := scalar_told hscalar hfit
  rw [heq]
  refine ⟨?_, ?_⟩
  · rw [hafter]
    exact h.holding _ (List.forall_mem_cons.mpr ⟨⟨hvalue, hinside⟩, h.head.2⟩)
  · rw [toldBy_holding, Frame.told_holding, toldBy, Frame.told]
    simp [Item.told, htold, Event.comments]

theorem Stand.openScope (h : Stand scopes (frame :: frames)) {name : String} {shape : Shape}
    (hfit : (shape.opening scopes.current name).fit? scopes.current =
      some (shape.opening scopes.current name)) :
    Tells scopes (frame :: frames) (shape.opening scopes.current name)
      (frame.openScope name shape ++ frames) := by
  have heq : frame.openScope name shape ++ frames =
      ⟨frame.waiting.reverse, name, shape, [], []⟩ :: frame.holding frame.items [] :: frames := rfl
  have hafter : scopes.after (shape.opening scopes.current name) = shape.scope :: scopes := by
    cases scopes.current <;> cases shape <;> rfl
  have houter : Stand scopes (frame.holding frame.items [] :: frames) := h.holding _ h.head.2
  rw [heq]
  refine ⟨?_, ?_⟩
  · rw [hafter]
    rw [← h.head.1] at hfit
    have hinner : Frame.Placed ⟨frame.waiting.reverse, name, shape, [], []⟩ := by
      simp [Frame.Placed]
    exact .inner hfit hinner rfl houter
  · have hbefore : toldBefore (frame.holding frame.items [] :: frames) =
        toldBefore (frame :: frames) := by
      cases frames <;> rfl
    rw [toldBy, toldBefore, hbefore, toldBy, ← h.head.1, Frame.told_holding]
    simp [Frame.told, Frame.opening, Event.comments]

theorem Stand.close (h : Stand (scope :: scopes) frames) (document : Option Document) :
    ∃ frames', close ⟨frames, document⟩ = ⟨frames', document⟩ ∧
      Tells (scope :: scopes) frames .close frames' := by
  cases h with
  | @inner _ inner outer frames hfit hplaced hwaiting houter =>
      obtain ⟨hitem, htold⟩ := hplaced.item hfit
      have heq : outer.put inner.item = outer.holding (inner.item :: outer.items) [] := by
        rw [Frame.put, Frame.holding, hwaiting]
      refine ⟨outer.put inner.item :: frames, rfl, ?_⟩
      rw [heq]
      refine ⟨houter.holding _ (List.forall_mem_cons.mpr ⟨hitem, houter.head.2⟩), ?_⟩
      rw [toldBy_holding, Frame.told_holding, toldBy, toldBefore, Frame.told]
      simp [htold, hwaiting, Event.comments]

theorem Stand.tell {frames : List Frame} (h : Stand scopes frames) (htakes : scopes.Takes event)
    (document : Option Document) :
    ∃ frames', step ⟨frames, document⟩ (.event event) = ⟨frames', document⟩ ∧
      Tells scopes frames event frames' := by
  obtain ⟨hopened, hfit⟩ := htakes
  obtain ⟨frame, frames, rfl⟩ : ∃ frame others, frames = frame :: others := by
    cases h <;> exact ⟨_, _, rfl⟩
  cases event with
  | close =>
      cases scopes with
      | nil => exact absurd rfl (hopened rfl)
      | cons scope scopes => exact h.close document
  | comment text => exact ⟨_, rfl, h.comment text⟩
  | list name =>
      have hopening := Shape.opening_list hfit
      rw [← hopening] at hfit
      have htells := h.openScope hfit
      rw [hopening] at htells
      exact ⟨_, rfl, htells⟩
  | object name =>
      rw [← Shape.opening_object scopes.current name] at hfit
      have htells := h.openScope hfit
      rw [Shape.opening_object] at htells
      exact ⟨_, rfl, htells⟩
  | named name instanceName =>
      rw [← Shape.opening_named scopes.current name instanceName] at hfit
      have htells := h.openScope hfit
      rw [Shape.opening_named] at htells
      exact ⟨_, rfl, htells⟩
  | number name value | truth name value | string name text | identifier name text | code name text
  | pair reference text => exact ⟨_, rfl, h.scalar rfl hfit⟩

/-- Frames that stand for some scopes stand for those that a stream leads to, and have
been told the stream. -/
theorem Stand.run {frames : List Frame} {events : List Event} {last : OpenScopes}
    (h : Stand scopes frames) (hevents : Leads OpenScopes.Takes scopes events last) :
    ∃ frames', run ⟨frames, none⟩ (events.map .event) = ⟨frames', none⟩ ∧
      Stand last frames' ∧ toldBy frames' = toldBy frames ++ events := by
  induction events generalizing scopes frames with
  | nil =>
      obtain rfl := hevents
      exact ⟨frames, rfl, h, (List.append_nil _).symm⟩
  | cons event events ih =>
      obtain ⟨htakes, hevents⟩ := hevents
      obtain ⟨middle, hstep, hstand, htold⟩ := h.tell htakes none
      obtain ⟨frames', hrun, hstand', htold'⟩ := ih hstand hevents
      refine ⟨frames', ?_, hstand', ?_⟩
      · rw [List.map_cons, Assembly.run, List.foldl_cons, hstep]
        exact hrun
      · rw [htold', htold, List.append_assoc]
        rfl

theorem start_stand : Stand [] start.frames := by
  refine .document rfl ?_
  rintro item ⟨⟩

end Told

end Assembly

/-- The tree of a balanced stream has each value where it can be told, and tells the
stream. -/
theorem Document.ofStream?_retold {events : List Event} (h : Balanced events) :
    ∃ document, Document.ofStream? (wholeDocument events) = some document ∧
      Members.Placed document ∧ Members.events document = events := by
  obtain ⟨frames, hrun, hstand, htold⟩ := Assembly.start_stand.run h
  cases hstand with
  | @document frame hscope hplaced =>
      obtain ⟨hmembers, hevents⟩ := hplaced.members hscope
      refine ⟨frame.members, ?_, hmembers, hevents.trans htold⟩
      rw [Document.ofStream?, wholeDocument, Assembly.run, List.foldl_append]
      exact congrArg (fun assembly => (assembly.step (.event .close)).document) hrun

theorem recorded_of_leads {scopes last : OpenScopes} {events : List Event}
    (h : Leads OpenScopes.Takes scopes events last) (deliveries : List Delivery) :
    recorded scopes.length (events.map .event ++ deliveries) =
      events ++ recorded last.length deliveries := by
  induction events generalizing scopes with
  | nil =>
      obtain rfl := h
      rfl
  | cons event events ih =>
      obtain ⟨⟨hopened, hfit⟩, hevents⟩ := h
      rw [List.cons_append, ← ih hevents]
      by_cases hclose : event = .close
      · subst hclose
        cases scopes with
        | nil => exact absurd rfl (hopened rfl)
        | cons scope scopes => rfl
      · have hlength : (scopes.after event).length =
            scopes.length + event.opens?.toList.length := by
          cases event <;>
            first | exact absurd rfl hclose | simp [OpenScopes.after, Event.opens?]
        rw [hlength]
        cases event <;> first | exact absurd rfl hclose | (cases scopes.length <;> rfl)

/-- A balanced document that is told whole and recorded is itself, without the closing of
the document. -/
theorem recorded_wholeDocument {events : List Event} (h : Balanced events) :
    recorded 0 (wholeDocument events) = events := by
  have hrecorded := recorded_of_leads h [.event .close]
  exact hrecorded.trans (List.append_nil events)

/-- Trees and streams are one another's images. A document is built again from what it
tells just when every value stands where it can be told, and a balanced stream is what its
tree tells, comments in their places. -/
theorem Document.rebuilt_and_retold :
    (∀ document : Document,
      Document.ofEvents (Members.events document) = document ↔ Members.Placed document) ∧
    ∀ events : List Event, Balanced events →
      ∃ document, Document.ofStream? (wholeDocument events) = some document ∧
        recorded 0 (wholeDocument (Members.events document)) = events := by
  constructor
  · intro document
    constructor
    · intro hrebuilt
      obtain ⟨_, hstream, hplaced, _⟩ := ofStream?_retold (Members.balanced_events document)
      rw [Document.ofEvents, hstream, Option.getD_some] at hrebuilt
      exact hrebuilt ▸ hplaced
    · exact Document.ofEvents_events
  · intro events hbalanced
    obtain ⟨document, hstream, _, hevents⟩ := ofStream?_retold hbalanced
    refine ⟨document, hstream, ?_⟩
    rw [hevents]
    exact recorded_wholeDocument hbalanced

theorem Document.rebuilt_and_retold_view :
    (∃ document, Document.ofStream? (wholeDocument [.comment "first", .named "view" "users",
        .comment "tags of a user", .list (some "tags"), .comment "one", .pair "key" "1",
        .comment "no more", .close, .close, .comment "last"]) = some document ∧
      recorded 0 (wholeDocument (Members.events document)) =
        [.comment "first", .named "view" "users",
          .comment "tags of a user", .list (some "tags"), .comment "one", .pair "key" "1",
          .comment "no more", .close, .close, .comment "last"]) ∧
    Document.ofEvents (Members.events (.member ["lost"] "tag" (.pair "key" "1") (.ending []))) ≠
      .member ["lost"] "tag" (.pair "key" "1") (.ending []) := by
  refine ⟨Document.rebuilt_and_retold.2 _ (by decide), fun hrebuilt => ?_⟩
  obtain ⟨hproperty, _⟩ := (Document.rebuilt_and_retold.1 _).mp hrebuilt
  cases hproperty

end Lookml
