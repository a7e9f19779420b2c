import Lookml.Node.Assembly
import Lookml.Node.Outline
import Lookml.Node.Tree
import Lookml.Proofs.Schema.Reachable
import Lookml.Proofs.Tree.Kept

/-!
Nodes made from a stream and nodes made from its tree. What a check passes on is assembled
without passing over any scope: each object finds its type and its factory, for the types
of a schema that is built are closed under what their objects may hold. So the open node
has the fields of the members told so far, and the document the nodes of its objects.
-/

namespace Lookml

variable {ν : Type} {schema : Schema} {registry : Registry ν}

/-! What a registry without gaps knows. -/

/-- An object type that a document can have an object of. -/
def Schema.Reaches (schema : Schema) (type : ObjectType) : Prop :=
  ∃ typeName, schema.reachable.contains typeName = true ∧ schema.objects.get? typeName = some type

section Known
variable {type inner : ObjectType} {name typeName : String} {property : PropertyType}

theorem Registry.exists_known (hregistry : registry.missing? schema = none)
    (hreached : schema.reachable.contains typeName = true)
    (htype : schema.objects.get? typeName = some type) :
    ∃ factory, registry.known? schema typeName = some (type, factory) := by
  have hpresent :=
    List.find?_eq_none.mp hregistry typeName (Table.contains_iff_mem_keys.mp hreached)
  obtain ⟨factory, hfactory⟩ : ∃ factory, registry.factories.get? typeName = some factory :=
    Table.contains_iff_get?.mp (by simpa [contains] using hpresent)
  exact ⟨factory, by simp [known?, htype, hfactory]⟩

theorem Registry.exists_knownOf (hregistry : registry.missing? schema = none)
    (htype : schema.Reaches type) (hproperty : type.property? name = some property)
    (hinner : property.objectType? = some typeName)
    (hdeclared : schema.objects.get? typeName = some inner) :
    (∃ factory, registry.knownOf? schema type name = some (inner, factory)) ∧
      schema.Reaches inner := by
  obtain ⟨outerName, houter, hobject⟩ := htype
  have hreached := schema.encloses_reachable.property houter hobject hproperty hinner
  obtain ⟨factory, hknown⟩ := exists_known hregistry hreached hdeclared
  exact ⟨⟨factory, by simp [knownOf?, hproperty, hinner, hknown]⟩, typeName, hreached, hdeclared⟩

end Known

namespace NodeAssembly

/-- Events lead from some frames to others, and no scope on the way is passed over. -/
def Makes (schema : Schema) (registry : Registry ν) :
    List (Frame ν) → List Event → List (Frame ν) → Prop
  | frames, [], last => frames = last
  | frames, event :: events, last =>
      .passed ∉ step schema registry frames (.event event) ∧
        Makes schema registry (step schema registry frames (.event event)) events last

namespace Makes

variable {frames middle last : List (Frame ν)} {events events' front : List Event}

theorem append (hfront : Makes schema registry frames events middle)
    (hback : Makes schema registry middle events' last) :
    Makes schema registry frames (events ++ events') last := by
  induction events generalizing frames with
  | nil =>
      obtain rfl := hfront
      exact hback
  | cons event events ih => exact ⟨hfront.1, ih hfront.2⟩

theorem foldl_eq (h : Makes schema registry frames events last) :
    (events.map .event).foldl (step schema registry) frames = last := by
  induction events generalizing frames with
  | nil => exact h
  | cons event events ih => exact ih h.2

theorem not_mem_passed (h : Makes schema registry frames events last) (hframes : .passed ∉ frames)
    (hfront : front <+: events) :
    .passed ∉ (front.map .event).foldl (step schema registry) frames := by
  induction front generalizing events frames with
  | nil => exact hframes
  | cons event front ih =>
      obtain ⟨back, rfl⟩ := hfront
      exact ih h.2 h.1 (List.prefix_append front back)

end Makes

section Telling
variable {frame : Frame ν} {outer : List (Frame ν)} {event : Event} {events : List Event}

theorem step_cons (hclose : event ≠ .close) :
    step schema registry (frame :: outer) (.event event) =
      frame.take schema registry event ++ outer := by
  cases event <;> first | exact absurd rfl hclose | (cases outer <;> rfl)

theorem Makes.cons {frames last : List (Frame ν)} (hclose : event ≠ .close)
    (htake : frame.take schema registry event ++ outer = frames) (hframes : .passed ∉ frames)
    (hrest : Makes schema registry frames events last) :
    Makes schema registry (frame :: outer) (event :: events) last := by
  subst htake
  rw [Makes, step_cons hclose]
  exact ⟨hframes, hrest⟩

theorem makes_comments (texts : List String) (hframes : .passed ∉ frame :: outer)
    (htake : ∀ text, frame.take schema registry (.comment text) = [frame]) :
    Makes schema registry (frame :: outer) (Event.comments texts) (frame :: outer) := by
  induction texts with
  | nil => rfl
  | cons text texts ih =>
      exact .cons nofun (congrArg (· ++ outer) (htake text)) hframes ih

/-- A list is built as in a tree, as long as nothing opens in it. -/
theorem exists_makes_list (schema : Schema) (registry : Registry ν) (frame : Assembly.Frame)
    (houter : .passed ∉ outer)
    (hevents : ∀ event ∈ events, event.opens? = none ∧ event ≠ .close) :
    ∃ last, Makes schema registry (.list frame :: outer) events (.list last :: outer) ∧
      Assembly.told ⟨[frame], none⟩ events = ⟨[last], none⟩ := by
  induction events generalizing frame with
  | nil => exact ⟨frame, rfl, rfl⟩
  | cons event events ih =>
      obtain ⟨⟨hopens, hclose⟩, hothers⟩ := List.forall_mem_cons.mp hevents
      obtain ⟨next, hnext⟩ : ∃ next, frame.take event = [next] := by
        cases event <;> first | exact ⟨_, rfl⟩ | cases hopens
      have htold : Assembly.step ⟨[frame], none⟩ (.event event) = ⟨[next], none⟩ := by
        have htake :
            Assembly.step ⟨[frame], none⟩ (.event event) = ⟨frame.take event ++ [], none⟩ := by
          cases event <;> first | rfl | exact absurd rfl hclose
        rw [htake, hnext]
        rfl
      obtain ⟨last, hmakes, hlast⟩ := ih next hothers
      refine ⟨last, .cons hclose ?_ ?_ hmakes, ?_⟩
      · rw [Frame.take, hnext]
        rfl
      · exact List.not_mem_cons_of_ne_of_not_mem nofun houter
      · rw [Assembly.told_cons, htold]
        exact hlast

theorem Makes.scope {inner last : Frame ν} {opening : Event} (hclose : opening ≠ .close)
    (htake : frame.take schema registry opening = [inner, frame])
    (hopened : .passed ∉ inner :: frame :: outer)
    (hinner : Makes schema registry (inner :: frame :: outer) events (last :: frame :: outer))
    (hclosed : .passed ∉ last.close frame :: outer) :
    Makes schema registry (frame :: outer) (opening :: (events ++ [.close]))
      (last.close frame :: outer) :=
  .cons hclose (congrArg (· ++ outer) htake) hopened (hinner.append ⟨hclosed, rfl⟩)

end Telling

/-- Events add fields to whatever open node of an object type they are told to. -/
def Gives (schema : Schema) (registry : Registry ν) (type : ObjectType) (events : List Event)
    (made : List (String × Field ν)) : Prop :=
  ∀ (property : String) (factory : Factory ν) (instanceName : Option String)
    (fields : List (String × Field ν)) (outer : List (Frame ν)), .passed ∉ outer →
    Makes schema registry (.node property type factory instanceName fields :: outer) events
      (.node property type factory instanceName (made.reverse ++ fields) :: outer)

section Giving
variable {type inner : ObjectType} {name : String} {events events' : List Event}
  {made made' : List (String × Field ν)} {factory : Factory ν}

theorem Gives.append (hfront : Gives schema registry type events made)
    (hback : Gives schema registry type events' made') :
    Gives schema registry type (events ++ events') (made ++ made') := by
  intro property factory instanceName fields outer houter
  rw [List.reverse_append, List.append_assoc]
  exact (hfront _ _ _ _ _ houter).append (hback _ _ _ _ _ houter)

theorem gives_comments (texts : List String) :
    Gives schema registry type (Event.comments texts) [] :=
  fun _ _ _ _ _ houter =>
    makes_comments texts (List.not_mem_cons_of_ne_of_not_mem nofun houter) fun _ => rfl

theorem gives_scalar {event : Event} {value : Value} (h : event.scalar? = some (some name, value)) :
    Gives schema registry type [event] [(name, .value value)] := by
  intro property factory instanceName fields outer houter
  have hclose : event ≠ .close := by
    rintro rfl
    cases h
  have htake : Frame.take schema registry (.node property type factory instanceName fields) event ++
      outer =
        .node property type factory instanceName ((name, .value value) :: fields) :: outer := by
    cases event <;> cases h <;> rfl
  exact .cons hclose htake (List.not_mem_cons_of_ne_of_not_mem nofun houter) rfl

theorem gives_list {elements : Elements} (hplaced : elements.Placed)
    (hevents : ∀ event ∈ elements.events, event.opens? = none ∧ event ≠ .close) :
    Gives schema registry type ((Value.list elements).asProperty name)
      [(name, .value (.list elements))] := by
  intro property factory instanceName fields outer houter
  have hframes : .passed ∉ Frame.node property type factory instanceName fields :: outer :=
    List.not_mem_cons_of_ne_of_not_mem nofun houter
  obtain ⟨last, hmakes, htold⟩ :=
    exists_makes_list schema registry ⟨[], name, .list, [], []⟩ hframes hevents
  rw [Assembly.told_elements rfl hplaced] at htold
  obtain rfl := (List.cons.inj (Assembly.mk.inj htold).1).1
  have hclosed : Makes schema registry _ ((Value.list elements).asProperty name) _ :=
    hmakes.scope nofun rfl (List.not_mem_cons_of_ne_of_not_mem (by nofun) hframes)
      (List.not_mem_cons_of_ne_of_not_mem (by nofun) houter)
  simpa [Frame.close, Frame.put, Assembly.Frame.value, Assembly.elementsOf_items] using hclosed

theorem Gives.child (h : Gives schema registry inner events made) {opening : Event}
    {instanceName : Option String} (hclose : opening ≠ .close)
    (htake : ∀ property factory' instanceName' (fields : List (String × Field ν)),
      Frame.take schema registry (.node property type factory' instanceName' fields) opening =
        [.node name inner factory instanceName [],
          .node property type factory' instanceName' fields]) :
    Gives schema registry type (opening :: (events ++ [.close]))
      [(name, .node (factory instanceName made))] := by
  intro property factory' instanceName' fields outer houter
  have hframes : .passed ∉ Frame.node property type factory' instanceName' fields :: outer :=
    List.not_mem_cons_of_ne_of_not_mem nofun houter
  have hclosed := (h name factory instanceName [] _ hframes).scope hclose
    (htake property factory' instanceName' fields)
    (List.not_mem_cons_of_ne_of_not_mem nofun hframes)
    (List.not_mem_cons_of_ne_of_not_mem nofun houter)
  simpa [Frame.close, Frame.put] using hclosed

theorem openNode_eq (property typeName : String) (instanceName : Option String) :
    openNode schema registry property typeName instanceName =
      ((registry.known? schema typeName).map fun (type, factory) =>
        Frame.node property type factory instanceName []).getD .passed := by
  rw [openNode, Registry.known?]
  cases schema.objects.get? typeName <;> cases registry.factories.get? typeName <;> rfl

theorem openNode_of_known {property : String} {instanceName : Option String}
    (h : registry.known? schema name = some (inner, factory)) :
    openNode schema registry property name instanceName =
      .node property inner factory instanceName [] := by
  rw [openNode_eq, h]
  rfl

theorem openChild_of_knownOf {instanceName : Option String}
    (h : registry.knownOf? schema type name = some (inner, factory)) :
    openChild schema registry type name instanceName =
      .node name inner factory instanceName [] := by
  simp only [Registry.knownOf?, Option.bind_eq_bind, Option.bind_eq_some_iff] at h
  obtain ⟨property, hproperty, typeName, hinner, hknown⟩ := h
  have hnamed : property.typeName? = some typeName := by
    cases property <;> first | exact hinner | cases hinner
  simp [openChild, hproperty, hnamed, openNode_of_known hknown]

theorem openRoot_of_known {instanceName : String} (hroot : schema.roots.contains name = true)
    (h : registry.known? schema name = some (inner, factory)) :
    openRoot schema registry name instanceName =
      .node name inner factory (some instanceName) [] := by
  rw [openRoot, if_pos hroot, openNode_of_known h]

theorem Gives.root (h : Gives schema registry inner events made) {instanceName : String}
    (hroot : schema.roots.contains name = true)
    (hknown : registry.known? schema name = some (inner, factory)) (before : List (String × ν)) :
    Makes schema registry [.document before] (.named name instanceName :: (events ++ [.close]))
      [.document ((name, factory (some instanceName) made) :: before)] := by
  have htake : Frame.take schema registry (.document before) (.named name instanceName) =
      [.node name inner factory (some instanceName) [], .document before] := by
    rw [← openRoot_of_known hroot hknown]
    rfl
  have hclosed := (h name factory (some instanceName) [] [.document before] (by simp)).scope
    (by nofun) htake (by simp) (by simp [Frame.close, Frame.put])
  simpa [Frame.close, Frame.put] using hclosed

end Giving

end NodeAssembly

theorem Elements.opens_nothing {elements : Elements} {listed : ListType}
    (h : ∀ element ∈ elements.toList, element.IsElementOf listed) :
    ∀ event ∈ elements.events, event.opens? = none ∧ event ≠ .close := by
  have hcomments (texts : List String) :
      ∀ event ∈ Event.comments texts, event.opens? = none ∧ event ≠ .close := by
    intro event hmem
    obtain ⟨text, _, rfl⟩ := List.mem_map.mp hmem
    exact ⟨rfl, by simp⟩
  induction elements using Elements.toList.induct with
  | case1 comments => exact hcomments comments
  | case2 comments value rest ih =>
      obtain ⟨hvalue, hothers⟩ := List.forall_mem_cons.mp h
      rw [Elements.events]
      refine List.forall_mem_append.mpr
        ⟨hcomments comments, List.forall_mem_append.mpr ⟨?_, ih hothers⟩⟩
      cases value <;> cases listed <;>
        first | exact hvalue.elim | exact List.forall_mem_singleton.mpr ⟨rfl, by simp⟩

mutual
/-- A value that suits its property has a field, which an open node takes when it is told
the value. -/
theorem Value.exists_field (hregistry : registry.missing? schema = none) {type : ObjectType}
    {name : String} {property : PropertyType} {value : Value} (htype : schema.Reaches type)
    (hproperty : type.property? name = some property) (hvalue : value.Suits schema property)
    (hplaced : value.Placed) :
    ∃ field, value.field? schema registry type name = some field ∧
      NodeAssembly.Gives schema registry type (value.asProperty name) [(name, field)] := by
  cases hvalue with
  | number value => exact ⟨_, rfl, NodeAssembly.gives_scalar rfl⟩
  | string text => exact ⟨_, rfl, NodeAssembly.gives_scalar rfl⟩
  | code text => exact ⟨_, rfl, NodeAssembly.gives_scalar rfl⟩
  | reference text => exact ⟨_, rfl, NodeAssembly.gives_scalar rfl⟩
  | literal henum htext => exact ⟨_, rfl, NodeAssembly.gives_scalar rfl⟩
  | truth value henum htruth => exact ⟨_, rfl, NodeAssembly.gives_scalar rfl⟩
  | list helements =>
      exact ⟨_, rfl, NodeAssembly.gives_list hplaced (Elements.opens_nothing helements)⟩
  | @object typeName inner members hdeclared hmembers =>
      obtain ⟨⟨factory, hknown⟩, hinner⟩ :=
        Registry.exists_knownOf hregistry htype hproperty rfl hdeclared
      obtain ⟨made, hmade, hgives⟩ := Members.exists_fields hregistry hinner hmembers hplaced
      refine ⟨.node (factory none made), by simp [Value.field?, hknown, hmade], ?_⟩
      refine hgives.child nofun fun _ _ _ _ => ?_
      rw [← NodeAssembly.openChild_of_knownOf hknown]
      rfl
  | @named typeName instanceName inner members hdeclared hmembers =>
      obtain ⟨⟨factory, hknown⟩, hinner⟩ :=
        Registry.exists_knownOf hregistry htype hproperty rfl hdeclared
      obtain ⟨made, hmade, hgives⟩ := Members.exists_fields hregistry hinner hmembers hplaced
      refine ⟨.node (factory (some instanceName) made), by simp [Value.field?, hknown, hmade], ?_⟩
      refine hgives.child nofun fun _ _ _ _ => ?_
      rw [← NodeAssembly.openChild_of_knownOf hknown]
      rfl

theorem Members.exists_fields (hregistry : registry.missing? schema = none) {type : ObjectType}
    {members : Members} (htype : schema.Reaches type)
    (hmembers : members.Suits schema (.object type)) (hplaced : members.Placed) :
    ∃ made, members.fields? schema registry type = some made ∧
      NodeAssembly.Gives schema registry type members.events made := by
  cases members with
  | ending comments => exact ⟨[], rfl, NodeAssembly.gives_comments comments⟩
  | member comments name value rest =>
      obtain ⟨_, hinside, hothers⟩ := hplaced
      cases hmembers with
      | member hproperty hvalue hfresh hrest =>
          obtain ⟨field, hfield, hgives⟩ :=
            Value.exists_field hregistry htype hproperty hvalue hinside
          obtain ⟨made, hmade, hmakes⟩ := Members.exists_fields hregistry htype hrest hothers
          exact ⟨(name, field) :: made, by simp [Members.fields?, hfield, hmade],
            (NodeAssembly.gives_comments comments).append (hgives.append hmakes)⟩
end

/-- The document has the nodes of its objects when it has been told the tree. -/
theorem Members.exists_nodes (hregistry : registry.missing? schema = none) {document : Members}
    (hdocument : document.Suits schema .document) (hplaced : document.Placed) :
    ∃ nodes, document.nodes? schema registry = some nodes ∧
      ∀ before, NodeAssembly.Makes schema registry [.document before] document.events
        [.document (nodes.reverse ++ before)] := by
  induction document using Members.toList.induct with
  | case1 comments =>
      exact ⟨[], rfl, fun _ => NodeAssembly.makes_comments comments (by simp) fun _ => rfl⟩
  | case2 comments name value rest ih =>
      obtain ⟨_, hinside, hothers⟩ := hplaced
      cases hdocument with
      | @member _ _ _ property _ _ hproperty hvalue hfresh hrest =>
          obtain ⟨hroot, rfl⟩ : schema.roots.contains name = true ∧ .named name = property := by
            simpa [Ground.property?] using hproperty
          obtain ⟨nodes, hnodes, hmakes⟩ := ih hrest hothers
          cases hvalue with
          | @named _ instanceName type members hdeclared hmembers =>
              have hreached := Schema.contains_reachable_of_root hroot
              obtain ⟨factory, hknown⟩ := Registry.exists_known hregistry hreached hdeclared
              obtain ⟨made, hmade, hgives⟩ :=
                Members.exists_fields hregistry ⟨name, hreached, hdeclared⟩ hmembers hinside
              have hnode : members.rootNode? schema registry name instanceName =
                  some (factory (some instanceName) made) := by
                simp [rootNode?, hroot, hknown, hmade]
              refine ⟨(name, factory (some instanceName) made) :: nodes,
                by simp [nodes?, hnode, hnodes], fun before => ?_⟩
              have hcomments : NodeAssembly.Makes schema registry [.document before]
                  (Event.comments comments) [.document before] :=
                NodeAssembly.makes_comments comments (by simp) fun _ => rfl
              rw [List.reverse_cons, List.append_assoc]
              exact hcomments.append ((hgives.root hroot hknown before).append (hmakes _))

namespace NodeAssembly

variable {events : List Event} {nodes : List (String × ν)}

/-- The closing of the document leaves its frame as it is. -/
theorem Makes.whole (h : Makes schema registry [.document []] events [.document nodes]) :
    Makes schema registry [.document []] (events ++ [.close]) [.document nodes] :=
  h.append ⟨by simp [step], rfl⟩

theorem Makes.nodesOfStream_eq (h : Makes schema registry [.document []] events [.document nodes]) :
    nodesOfStream schema registry (wholeDocument events) = nodes.reverse := by
  rw [nodesOfStream, wholeDocument_eq_map, h.whole.foldl_eq]
  rfl

theorem Makes.not_mem_passed_whole
    (h : Makes schema registry [.document []] events [.document nodes]) {front : List Delivery}
    (hfront : front <+: wholeDocument events) :
    .passed ∉ front.foldl (step schema registry) [.document []] := by
  rw [wholeDocument_eq_map] at hfront
  rw [List.prefix_iff_eq_take.mp hfront, ← List.map_take]
  exact h.whole.not_mem_passed (by simp) (List.take_prefix _ _)

end NodeAssembly

/-- Whatever the text, its checked reading makes the nodes of the tree of what conforms,
each from the nodes inside it, and reports the same; no scope that the check passes on is
passed over. -/
theorem Schema.readNodes_eq_nodes (hschema : schema.IsBuilt)
    (hregistry : registry.missing? schema = none) (source : List Char) :
    (∀ error, schema.readNodes registry source = .error error ↔
      schema.readValid source = .error error) ∧
    (∀ document violations, schema.readValid source = .ok (document, violations) →
      ∃ nodes, Members.nodes? schema registry document = some nodes ∧
        schema.readNodes registry source = .ok (nodes, violations)) ∧
    ∀ front, front <+: Verdict.forwarded
        (schema.verdicts (wholeDocument (schema.read source).events)) →
      .passed ∉ front.foldl (NodeAssembly.step schema registry) [.document []] := by
  obtain ⟨document, hforwarded, hstream, hplaced, hsuits⟩ :=
    Schema.exists_kept hschema.isClosed (schema.balanced_read source)
  obtain ⟨nodes, hnodes, hmakes⟩ := Members.exists_nodes hregistry hsuits hplaced
  refine ⟨fun error => ?_, fun found violations hread => ?_, fun front hfront => ?_⟩
  · rw [readNodes, readValid]
    cases schema.check source <;> simp [Except.map]
  · cases hfailure : (schema.read source).failure with
    | some error => simp [readValid, check, hfailure, Except.map] at hread
    | none =>
        simp only [readValid, check, hfailure, Except.map, hforwarded, hstream, Option.getD_some]
          at hread
        obtain ⟨rfl, rfl⟩ := Prod.mk.inj (Except.ok.inj hread)
        refine ⟨nodes, hnodes, ?_⟩
        simp only [readNodes, check, hfailure, Except.map, hforwarded, (hmakes []).nodesOfStream_eq]
        simp
  · exact (hmakes []).not_mem_passed_whole (hforwarded ▸ hfront)

/-- The inner object of a type that holds itself has a node of its own, which the label
that does not conform is no part of. -/
theorem Schema.readNodes_eq_nodes_view :
    let view : ObjectType := ⟨.ofList [("join", .named "view"), ("label", .string),
      ("tags", .list .strings), ("with", .object "view")]⟩
    let schema : Schema := ⟨"s", .empty, .ofList [("view", view)], .ofList ["view"]⟩
    let registry : Registry (List String) :=
      Registry.empty.register "view" fun instanceName fields =>
        instanceName.getD "-" :: fields.flatMap fun field =>
          field.1 :: ((field.2.node?.getD field.2.texts) ++ field.2.text?.toList)
    let source :=
      "view: a \x7b with: \x7b tags: [\"t\"] join: b \x7b label: 3 \x7d \x7d # c\n label: \"x\" \x7d view: b \x7b \x7d"
    schema.IsBuilt ∧ registry.missing? schema = none ∧
      ∃ document, schema.readValid source.toList =
          .ok (document, [.invalidType "label" .string .number]) ∧
        Members.nodes? schema registry document =
          some [("view", ["a", "with", "-", "tags", "t", "join", "b", "label", "x"]),
            ("view", ["b"])] := by
  intro view schema registry source
  have hbuilt : schema.IsBuilt :=
    ⟨"s", [.rootWith "view" [⟨"join", .named "view"⟩, ⟨"label", .string⟩, ⟨"tags", .list .strings⟩,
      ⟨"with", .object "view"⟩]], by decide +kernel⟩
  have hregistry : registry.missing? schema = none := by decide +kernel
  obtain ⟨herror, hmade, _⟩ := Schema.readNodes_eq_nodes hbuilt hregistry source.toList
  have hread : schema.readNodes registry source.toList = .ok
      ([("view", ["a", "with", "-", "tags", "t", "join", "b", "label", "x"]), ("view", ["b"])],
        [.invalidType "label" .string .number]) := by
    decide +kernel
  refine ⟨hbuilt, hregistry, ?_⟩
  cases hvalid : schema.readValid source.toList with
  | error error =>
      have hfails := (herror error).mpr hvalid
      rw [hread] at hfails
      cases hfails
  | ok valid =>
      obtain ⟨document, violations⟩ := valid
      obtain ⟨nodes, hnodes, hsame⟩ := hmade document violations hvalid
      rw [hread] at hsame
      obtain ⟨rfl, rfl⟩ := Prod.mk.inj (Except.ok.inj hsame)
      exact ⟨document, rfl, hnodes⟩

end Lookml
