import Lookml.Proofs.Node.Made
import Lookml.Proofs.Schema.Explored

/-!
Nodes made from any document, also from one that no check has passed on. The items of an
object are the fields of its node: a value under its property, a list with its elements,
and an object inside it where the property names an object type that is known; everything
else adds nothing. Which properties name an object type makes a difference only where an
enum has the name of an object type.
-/

namespace Lookml

variable {ν : Type}

/-- The property of an object inside another, and its instance name if it has one. -/
def Event.child? : Event → Option (String × Option String)
  | .object name => some (name, none)
  | .named name instanceName => some (name, some instanceName)
  | _ => none

namespace Registry

/-- What is known of the object type under a property, where a property of some types
names one. -/
def opened? (registry : Registry ν) (schema : Schema) (named? : PropertyType → Option String)
    (type : ObjectType) (property : String) : Option (ObjectType × Factory ν) :=
  ((type.property? property).bind named?).bind (registry.known? schema)

def root? (registry : Registry ν) (schema : Schema) (property : String) :
    Option (ObjectType × Factory ν) :=
  if schema.roots.contains property then registry.known? schema property else none

end Registry

namespace Forest

/-- The elements that the items of a list tell, behind the comments that wait for the
first. -/
def elements (waiting : List String) : Forest → Elements
  | .nil => .ending waiting
  | .leaf (.comment text) rest => rest.elements (waiting ++ [text])
  | .leaf event rest =>
      match event.scalar? with
      | some (_, value) => .element waiting value (rest.elements [])
      | none => rest.elements waiting
  | .nest _ inner rest => .element waiting (.list (inner.elements [])) (rest.elements [])

/-- The fields that the items of an object give to its node. -/
def fields (named? : PropertyType → Option String) (schema : Schema) (registry : Registry ν)
    (type : ObjectType) : Forest → List (String × Field ν)
  | .nil => []
  | .leaf event rest =>
      (event.scalar?.map fun (name, value) => (name.getD "", .value value)).toList ++
        rest.fields named? schema registry type
  | .nest (.list name) inner rest =>
      (name.getD "", .value (.list (inner.elements []))) :: rest.fields named? schema registry type
  | .nest opening inner rest =>
      (opening.child?.bind fun (name, instanceName) =>
        (registry.opened? schema named? type name).map fun (inside, factory) =>
          (name,
            .node (factory instanceName (inner.fields named? schema registry inside)))).toList ++
        rest.fields named? schema registry type

/-- The nodes of the named objects at the top, each with its property. -/
def nodes (named? : PropertyType → Option String) (schema : Schema) (registry : Registry ν) :
    Forest → List (String × ν)
  | .nil => []
  | .leaf _ rest => rest.nodes named? schema registry
  | .nest (.named name instanceName) inner rest =>
      ((registry.root? schema name).map fun (type, factory) =>
        (name, factory (some instanceName) (inner.fields named? schema registry type))).toList ++
        rest.nodes named? schema registry
  | .nest _ _ rest => rest.nodes named? schema registry

theorem fields_child {named? : PropertyType → Option String} {schema : Schema}
    {registry : Registry ν} {type : ObjectType} {opening : Event} {name : String}
    {instanceName : Option String} (h : opening.child? = some (name, instanceName))
    (inner rest : Forest) :
    (nest opening inner rest).fields named? schema registry type =
      ((registry.opened? schema named? type name).map fun (inside, factory) =>
        (name, .node (factory instanceName (inner.fields named? schema registry inside)))).toList ++
        rest.fields named? schema registry type := by
  cases opening with
  | object name | named name instanceName => cases h; rfl
  | _ => cases h

end Forest

namespace NodeAssembly

variable {schema : Schema} {registry : Registry ν} {frame behind inner last : Frame ν}
  {outer : List (Frame ν)} {opening : Event} {events : List Event} {forest rest : Forest}

/-- The frames behind some events. -/
def run (schema : Schema) (registry : Registry ν) (frames : List (Frame ν)) (events : List Event) :
    List (Frame ν) :=
  (events.map .event).foldl (step schema registry) frames

theorem run_append (frames : List (Frame ν)) (events events' : List Event) :
    run schema registry frames (events ++ events') =
      run schema registry (run schema registry frames events) events' := by
  rw [run, List.map_append, List.foldl_append]
  rfl

theorem run_cons {event : Event} (hclose : event ≠ .close) :
    run schema registry (frame :: outer) (event :: events) =
      run schema registry (frame.take schema registry event ++ outer) events := by
  rw [← step_cons hclose]
  rfl

/-- A scope is opened, gone through and closed again. -/
theorem run_nest {inside : Forest} (hclose : opening ≠ .close)
    (htake : frame.take schema registry opening = [inner, behind])
    (hinner : run schema registry (inner :: behind :: outer) inside.events =
      last :: behind :: outer) :
    run schema registry (frame :: outer) (Forest.nest opening inside rest).events =
      run schema registry (last.close behind :: outer) rest.events := by
  rw [Forest.events_nest, run_cons hclose, htake, run_append]
  exact congrArg (run schema registry · (.close :: rest.events)) hinner

/-- Nothing is made of a scope that is passed over. -/
theorem run_passed {scope : Scope} (hfits : forest.Fits scope) (outer : List (Frame ν)) :
    run schema registry (.passed :: outer) forest.events = .passed :: outer := by
  induction forest generalizing scope outer with
  | nil => rfl
  | leaf event rest ih =>
      obtain ⟨⟨hclose, hopens, _⟩, hrest⟩ := hfits
      rw [Forest.events_leaf, run_cons hclose, Frame.take, hopens]
      exact ih hrest outer
  | nest opening inside rest ihinner ihrest =>
      obtain ⟨_, ⟨scope, hopens, hinner⟩, hrest⟩ := hfits
      have htake : Frame.take schema registry (.passed : Frame ν) opening = [.passed, .passed] := by
        rw [Frame.take, hopens]
        rfl
      rw [run_nest (Forest.ne_close_of_opens hopens) htake (ihinner hinner _)]
      exact ihrest hrest outer

/-- The items of a list's frame, the newest first, in front of other elements. -/
def elementsBefore (items : List Assembly.Item) (rest : Elements) : Elements :=
  items.foldl (fun rest item => .element item.comments item.value rest) rest

/-- A list goes on with the elements that its items tell. -/
theorem exists_run_list (schema : Schema) (registry : Registry ν) (hfits : forest.Fits .list)
    (frame : Assembly.Frame) (outer : List (Frame ν)) :
    ∃ items waiting, run schema registry (.list frame :: outer) forest.events =
        .list (frame.holding items waiting) :: outer ∧
      Assembly.elementsOf items waiting.reverse =
        elementsBefore frame.items (forest.elements frame.waiting.reverse) := by
  induction forest generalizing frame outer with
  | nil => exact ⟨frame.items, frame.waiting, rfl, rfl⟩
  | leaf event rest ih =>
      obtain ⟨⟨hclose, hopens, hfit⟩, hrest⟩ := hfits
      rw [Forest.events_leaf, run_cons hclose]
      cases event with
      | comment text =>
          obtain ⟨items, waiting, hrun, helements⟩ := ih hrest (frame.comment text) outer
          refine ⟨items, waiting, hrun, helements.trans ?_⟩
          rw [Assembly.Frame.comment, List.reverse_cons]
          rfl
      | list name => cases hopens
      | object name => cases hopens
      | named name instanceName => cases hopens
      | close => exact absurd rfl hclose
      | code name text => cases hfit
      | number name value => exact ih hrest (frame.scalar name (.number value)) outer
      | truth name value => exact ih hrest (frame.scalar name (.boolean value)) outer
      | string name text => exact ih hrest (frame.scalar name (.string text)) outer
      | identifier name text => exact ih hrest (frame.scalar name (.identifier text)) outer
      | pair reference text => exact ih hrest (frame.scalar none (.pair reference text)) outer
  | nest opening inside rest ihinner ihrest =>
      obtain ⟨hfit, ⟨scope, hopens, hinner⟩, hrest⟩ := hfits
      have hclose := Forest.ne_close_of_opens hopens
      cases opening with
      | list name =>
          obtain rfl : Scope.list = scope := Option.some.inj hopens
          let opened : Assembly.Frame := ⟨frame.waiting.reverse, name.getD "", .list, [], []⟩
          let behind : Assembly.Frame := { frame with waiting := [] }
          obtain ⟨items, waiting, hrun, helements⟩ := ihinner hinner opened (.list behind :: outer)
          have hvalue : (opened.holding items waiting).value = .list (inside.elements []) :=
            congrArg Value.list helements
          obtain ⟨items', waiting', hrun', helements'⟩ :=
            ihrest hrest (behind.put (opened.holding items waiting).item) outer
          refine ⟨items', waiting', (run_nest hclose rfl hrun).trans hrun', helements'.trans ?_⟩
          rw [Forest.elements, ← hvalue]
          rfl
      | object name => cases hfit
      | named name instanceName => cases hfit
      | _ => cases hopens

theorem openChild_eq (type : ObjectType) (property : String) (instanceName : Option String) :
    openChild schema registry type property instanceName =
      ((registry.opened? schema PropertyType.typeName? type property).map fun (inside, factory) =>
        Frame.node property inside factory instanceName []).getD .passed := by
  rw [openChild, Registry.opened?]
  cases (type.property? property).bind PropertyType.typeName? with
  | none => rfl
  | some typeName => exact openNode_eq property typeName instanceName

theorem openRoot_eq (property instanceName : String) :
    openRoot schema registry property instanceName =
      ((registry.root? schema property).map fun (type, factory) =>
        Frame.node property type factory (some instanceName) []).getD .passed := by
  rw [openRoot, Registry.root?]
  split
  · exact openNode_eq property property (some instanceName)
  · rfl

/-- A scope in which there is an object, if its type is known: its node goes to the frame
around it. -/
theorem run_object {inside : Forest} {name : String} {instanceName : Option String}
    {known : Option (ObjectType × Factory ν)} {made : ObjectType → List (String × Field ν)}
    (hclose : opening ≠ .close) (hfits : inside.Fits .object)
    (htake : frame.take schema registry opening = [(known.map fun (type, factory) =>
      Frame.node name type factory instanceName []).getD .passed, frame])
    (hinner : ∀ type factory,
      run schema registry (.node name type factory instanceName [] :: frame :: outer)
          inside.events =
        .node name type factory instanceName ((made type).reverse ++ []) :: frame :: outer) :
    run schema registry (frame :: outer) (Forest.nest opening inside rest).events =
      run schema registry ((known.map fun (type, factory) =>
        frame.put name (.node (factory instanceName (made type)))).getD frame :: outer)
        rest.events := by
  cases known with
  | none => exact run_nest hclose htake (run_passed hfits _)
  | some found =>
      obtain ⟨type, factory⟩ := found
      rw [run_nest hclose htake (hinner type factory), List.append_nil, Frame.close,
        List.reverse_reverse]
      rfl

/-- The open node of an object has the fields that the items told to it give. -/
theorem run_fields (hfits : forest.Fits .object) (property : String) (type : ObjectType)
    (factory : Factory ν) (instanceName : Option String) (before : List (String × Field ν))
    (outer : List (Frame ν)) :
    run schema registry (.node property type factory instanceName before :: outer) forest.events =
      .node property type factory instanceName
        ((forest.fields PropertyType.typeName? schema registry type).reverse ++ before) ::
          outer := by
  induction forest generalizing property type factory instanceName before outer with
  | nil => rfl
  | leaf event rest ih =>
      obtain ⟨⟨hclose, hopens, hfit⟩, hrest⟩ := hfits
      rw [Forest.events_leaf, run_cons hclose, Forest.fields, List.reverse_append,
        List.append_assoc]
      cases event with
      | list name => cases hopens
      | object name => cases hopens
      | named name instanceName => cases hopens
      | close => exact absurd rfl hclose
      | _ => exact ih hrest _ _ _ _ _ _
  | nest opening inside rest ihinner ihrest =>
      obtain ⟨hfit, ⟨scope, hopens, hinner⟩, hrest⟩ := hfits
      have hclose := Forest.ne_close_of_opens hopens
      have hchild {name : String} {given : Option String} (hscope : scope = .object)
          (hchild : opening.child? = some (name, given))
          (htake :
            Frame.take schema registry (.node property type factory instanceName before) opening =
              [openChild schema registry type name given,
                .node property type factory instanceName before]) :
          run schema registry (.node property type factory instanceName before :: outer)
              (Forest.nest opening inside rest).events =
            .node property type factory instanceName
              ((Forest.fields PropertyType.typeName? schema registry type
                (.nest opening inside rest)).reverse ++ before) :: outer := by
        subst hscope
        rw [openChild_eq] at htake
        rw [run_object hclose hinner htake fun _ _ => ihinner hinner _ _ _ _ _ _,
          Forest.fields_child hchild]
        cases registry.opened? schema PropertyType.typeName? type name with
        | none => exact ihrest hrest _ _ _ _ _ _
        | some found =>
            refine (ihrest hrest _ _ _ _ _ _).trans ?_
            simp
      cases opening with
      | object name => exact hchild (Option.some.inj hopens).symm rfl rfl
      | named name given => exact hchild (Option.some.inj hopens).symm rfl rfl
      | list name =>
          obtain rfl : Scope.list = scope := Option.some.inj hopens
          let opened : Assembly.Frame := ⟨[], name.getD "", .list, [], []⟩
          obtain ⟨items, waiting, hrun, helements⟩ := exists_run_list schema registry hinner opened
            (.node property type factory instanceName before :: outer)
          have hvalue : (opened.holding items waiting).value = .list (inside.elements []) :=
            congrArg Value.list helements
          refine ((run_nest hclose rfl hrun).trans (ihrest hrest _ _ _ _ _ _)).trans ?_
          rw [Forest.fields, hvalue, List.reverse_cons, List.append_assoc]
          rfl
      | _ => cases hopens

/-- The document has the nodes of the objects at its top. -/
theorem run_nodes (hfits : forest.Fits .object) (before : List (String × ν)) :
    run schema registry [.document before] forest.events =
      [.document ((forest.nodes PropertyType.typeName? schema registry).reverse ++ before)] := by
  induction forest generalizing before with
  | nil => rfl
  | leaf event rest ih =>
      obtain ⟨⟨hclose, hopens, hfit⟩, hrest⟩ := hfits
      rw [Forest.events_leaf, run_cons hclose, Forest.nodes]
      cases event with
      | list name => cases hopens
      | object name => cases hopens
      | named name instanceName => cases hopens
      | close => exact absurd rfl hclose
      | _ => exact ih hrest before
  | nest opening inside rest _ ihrest =>
      obtain ⟨hfit, ⟨scope, hopens, hinner⟩, hrest⟩ := hfits
      have hclose := Forest.ne_close_of_opens hopens
      cases opening with
      | named name instanceName =>
          obtain rfl : Scope.object = scope := Option.some.inj hopens
          have htake : Frame.take schema registry (.document before) (.named name instanceName) =
              [openRoot schema registry name instanceName, .document before] := rfl
          rw [openRoot_eq] at htake
          rw [run_object hclose hinner htake fun _ _ => run_fields hinner _ _ _ _ _ _, Forest.nodes]
          cases registry.root? schema name with
          | none => exact ihrest hrest before
          | some known =>
              refine (ihrest hrest _).trans ?_
              simp
      | object name => exact (run_nest hclose rfl (run_passed hinner _)).trans (ihrest hrest before)
      | list name => exact (run_nest hclose rfl (run_passed hinner _)).trans (ihrest hrest before)
      | _ => cases hopens

/-- The nodes of a document are told by its items alone. -/
theorem nodesOfStream_eq_nodes (schema : Schema) (registry : Registry ν)
    (hfits : forest.Fits .object) :
    nodesOfStream schema registry (wholeDocument forest.events) =
      forest.nodes PropertyType.typeName? schema registry := by
  rw [nodesOfStream, wholeDocument_eq_map]
  show nodesOf (run schema registry [.document []] (forest.events ++ [.close])) = _
  rw [run_append, run_nodes hfits, List.append_nil]
  exact List.reverse_reverse _

end NodeAssembly

/-! Where the properties of enums name no object type. -/

namespace Schema

variable {schema : Schema} {registry : Registry ν} {type inside : ObjectType} {factory : Factory ν}
  {name typeName : String}

/-- No property of a reachable object type is of an enum that has the name of an object
type. -/
def EnumsApart (schema : Schema) : Prop :=
  ∀ type name enumName, schema.Reaches type → type.property? name = some (.enum enumName) →
    schema.objects.contains enumName = false

theorem known?_eq_some (h : registry.known? schema typeName = some (type, factory)) :
    schema.objects.get? typeName = some type := by
  simp only [Registry.known?, Option.bind_eq_bind, Option.bind_eq_some_iff] at h
  obtain ⟨found, hfound, _, _, heq⟩ := h
  exact hfound.trans (congrArg some (Prod.mk.inj (Option.some.inj heq)).1)

theorem EnumsApart.opened?_eq (h : schema.EnumsApart) (htype : schema.Reaches type) :
    registry.opened? schema PropertyType.typeName? type name =
      registry.opened? schema PropertyType.objectType? type name := by
  rw [Registry.opened?, Registry.opened?]
  cases hproperty : type.property? name with
  | none => rfl
  | some property =>
      cases property with
      | enum enumName =>
          have hundeclared : schema.objects.get? enumName = none :=
            Option.isNone_iff_eq_none.mp
              (by simpa [Table.contains] using h type name enumName htype hproperty)
          simp [PropertyType.typeName?, PropertyType.objectType?, Registry.known?, hundeclared]
      | _ => rfl

theorem Reaches.opened (h : schema.Reaches type)
    (hopened : registry.opened? schema PropertyType.objectType? type name =
      some (inside, factory)) :
    schema.Reaches inside := by
  simp only [Registry.opened?, Option.bind_eq_some_iff] at hopened
  obtain ⟨inner, ⟨property, hproperty, hinner⟩, hknown⟩ := hopened
  obtain ⟨outer, houter, hobject⟩ := h
  exact ⟨inner, (encloses_reachable schema).property houter hobject hproperty hinner,
    known?_eq_some hknown⟩

theorem EnumsApart.fields_eq (h : schema.EnumsApart) (forest : Forest)
    (htype : schema.Reaches type) :
    forest.fields PropertyType.typeName? schema registry type =
      forest.fields PropertyType.objectType? schema registry type := by
  induction forest generalizing type with
  | nil => rfl
  | leaf event rest ih => rw [Forest.fields, Forest.fields, ih htype]
  | nest opening inner rest ihinner ihrest =>
      cases hchild : opening.child? with
      | none =>
          cases opening with
          | list name => exact congrArg (_ :: ·) (ihrest htype)
          | object name => cases hchild
          | named name instanceName => cases hchild
          | _ => exact ihrest htype
      | some child =>
          obtain ⟨name, instanceName⟩ := child
          rw [Forest.fields_child hchild, Forest.fields_child hchild, ihrest htype,
            h.opened?_eq htype]
          cases hopened : registry.opened? schema PropertyType.objectType? type name with
          | none => rfl
          | some found =>
              obtain ⟨inside, factory⟩ := found
              simp only [Option.map_some, ihinner (htype.opened hopened)]

theorem EnumsApart.nodes_eq (h : schema.EnumsApart) (registry : Registry ν) (forest : Forest) :
    forest.nodes PropertyType.typeName? schema registry =
      forest.nodes PropertyType.objectType? schema registry := by
  induction forest with
  | nil => rfl
  | leaf event rest ih => exact ih
  | nest opening inner rest _ ihrest =>
      cases opening with
      | named name instanceName =>
          rw [Forest.nodes, Forest.nodes, ihrest]
          cases hroot : registry.root? schema name with
          | none => rfl
          | some found =>
              obtain ⟨type, factory⟩ := found
              rw [Registry.root?] at hroot
              split at hroot
              · have htype : schema.Reaches type :=
                  ⟨name, contains_reachable_of_root ‹_›, known?_eq_some hroot⟩
                simp only [Option.map_some, h.fields_eq inner htype]
              · cases hroot
      | _ => exact ihrest

/-! Outlines of all declared object types keep apart what the nodes are made from. -/

theorem outline_factories (typeNames : List String) :
    ∀ typeName ∈ typeNames,
      (Outline.registry typeNames).factories.get? typeName = some (.node typeName) := by
  have hfold (typeNames : List String) (registry : Registry Outline) (typeName : String)
      (h : typeName ∈ typeNames ∨ registry.factories.get? typeName = some (.node typeName)) :
      (typeNames.foldl (fun registry typeName => registry.register typeName (.node typeName))
        registry).factories.get? typeName = some (.node typeName) := by
    induction typeNames generalizing registry with
    | nil => exact h.resolve_left List.not_mem_nil
    | cons first typeNames ih =>
        refine ih _ ?_
        show _ ∨ (registry.factories.insert first (.node first)).get? typeName = _
        rw [Table.get?_insert]
        by_cases hfirst : typeName = first
        · exact .inr (by rw [if_pos hfirst, hfirst])
        · rw [if_neg hfirst]
          exact h.imp_left fun hmem => (List.mem_cons.mp hmem).resolve_left hfirst
  exact fun typeName hmem => hfold typeNames .empty typeName (.inl hmem)

/-- Outlines of all object types of a schema. -/
def outlines (schema : Schema) : Registry Outline := Outline.registry schema.objects.keys

theorem outlines_known? (htype : schema.objects.get? typeName = some type) :
    schema.outlines.known? schema typeName = some (type, .node typeName) := by
  have hfactory := outline_factories schema.objects.keys typeName
    (Table.contains_iff_mem_keys.mp (Table.contains_iff_get?.mpr ⟨type, htype⟩))
  simp [Registry.known?, htype, outlines, hfactory]

theorem outlines_missing? (hschema : schema.IsClosed) : schema.outlines.missing? schema = none := by
  refine Registry.missing?_eq_none_iff.mpr fun typeName hreached => ?_
  obtain ⟨type, htype⟩ := Table.contains_iff_get?.mp (hschema.contains_object_of_reachable hreached)
  have hfactory := outline_factories schema.objects.keys typeName
    (Table.contains_iff_mem_keys.mp (Table.contains_iff_get?.mpr ⟨type, htype⟩))
  exact Table.contains_iff_get?.mpr ⟨_, hfactory⟩

theorem outlines_opened? {named? : PropertyType → Option String} {property : PropertyType}
    (hproperty : type.property? name = some property) (hnamed : named? property = some typeName)
    (hinside : schema.objects.get? typeName = some inside) :
    schema.outlines.opened? schema named? type name = some (inside, .node typeName) := by
  rw [Registry.opened?, hproperty, Option.bind_some, hnamed, Option.bind_some,
    outlines_known? hinside]

/-- Whatever stands in an object of this type, its outline is the same whether the
properties of enums name object types or not. -/
def OutlinedAlike (schema : Schema) (typeName : String) : Prop :=
  ∀ (forest : Forest) (type : ObjectType), forest.Fits .object →
    schema.objects.get? typeName = some type →
    forest.fields PropertyType.typeName? schema schema.outlines type =
      forest.fields PropertyType.objectType? schema schema.outlines type

/-- Where all documents have the same outlines either way, so has every object that they
can hold. -/
theorem encloses_outlinedAlike
    (h : ∀ forest : Forest, forest.Fits .object →
      forest.nodes PropertyType.typeName? schema schema.outlines =
        forest.nodes PropertyType.objectType? schema schema.outlines) :
    schema.Encloses schema.OutlinedAlike where
  root := by
    intro typeName hroot forest type hfits htype
    have hknown : schema.outlines.root? schema typeName = some (type, .node typeName) := by
      rw [Registry.root?, if_pos hroot, outlines_known? htype]
    have hnodes := h (.nest (.named typeName "") forest .nil)
      ⟨rfl, ⟨.object, rfl, hfits⟩, trivial⟩
    simpa [Forest.nodes, hknown] using hnodes
  property := by
    intro outer type name property inner houter htype hproperty hinner forest inside hfits hinside
    have hnamed : property.typeName? = some inner := by
      cases property <;> first | exact hinner | cases hinner
    have hfields := houter (.nest (.object name) forest .nil) type
      ⟨rfl, ⟨.object, rfl, hfits⟩, trivial⟩ htype
    rw [Forest.fields_child rfl, Forest.fields_child rfl, outlines_opened? hproperty hnamed hinside,
      outlines_opened? hproperty hinner hinside] at hfields
    simpa [Forest.fields] using hfields

theorem enumsApart_of_nodes_eq
    (h : ∀ forest : Forest, forest.Fits .object →
      forest.nodes PropertyType.typeName? schema schema.outlines =
        forest.nodes PropertyType.objectType? schema schema.outlines) : schema.EnumsApart := by
  rintro type name enumName ⟨typeName, hreached, htype⟩ hproperty
  refine Bool.eq_false_iff.mpr fun hdeclared => ?_
  obtain ⟨inside, hinside⟩ := Table.contains_iff_get?.mp hdeclared
  have halike := (encloses_outlinedAlike h).of_reachable hreached
  have hfields := halike (.nest (.object name) .nil .nil) type
    ⟨rfl, ⟨.object, rfl, trivial⟩, trivial⟩ htype
  have hopened : schema.outlines.opened? schema PropertyType.objectType? type name = none := by
    rw [Registry.opened?, hproperty]
    rfl
  rw [Forest.fields_child rfl, Forest.fields_child rfl, outlines_opened? hproperty rfl hinside,
    hopened] at hfields
  cases hfields

/-- The nodes of any document, checked or not, are made from its items, where the
properties of enums name an object type like those of objects. That only the properties of
objects do makes the same nodes of every document exactly if no reachable object type has
a property of an enum that has the name of an object type. -/
theorem IsBuilt.nodes_of_object_properties_iff (hschema : schema.IsBuilt) :
    (∀ {ν : Type} (registry : Registry ν) (forest : Forest), forest.Fits .object →
      nodesOfStream schema registry (wholeDocument forest.events) =
        forest.nodes PropertyType.typeName? schema registry) ∧
    ((∀ (ν : Type) (registry : Registry ν) (forest : Forest), registry.missing? schema = none →
      forest.Fits .object → nodesOfStream schema registry (wholeDocument forest.events) =
        forest.nodes PropertyType.objectType? schema registry) ↔ schema.EnumsApart) := by
  refine ⟨fun registry _ => NodeAssembly.nodesOfStream_eq_nodes schema registry,
    fun h => ?_, fun h => ?_⟩
  · refine enumsApart_of_nodes_eq fun forest hfits => ?_
    rw [← NodeAssembly.nodesOfStream_eq_nodes schema _ hfits]
    exact h Outline schema.outlines forest (outlines_missing? hschema.isClosed) hfits
  · intro ν registry forest _ hfits
    rw [NodeAssembly.nodesOfStream_eq_nodes schema registry hfits, h.nodes_eq registry forest]

/-- The object under the property of an enum and the one under no property are left out
with all that they hold. -/
theorem IsBuilt.nodes_of_object_properties_iff_view :
    let view : ObjectType := ⟨.ofList [("dimension", .named "dim"), ("kind", .enum "kinds")]⟩
    let schema : Schema := ⟨"s", .ofList [("kinds", ⟨.ofList ["a"]⟩)],
      .ofList [("dim", ⟨.ofList [("label", .string)]⟩), ("view", view)], .ofList ["view"]⟩
    let node (typeName : String) : Factory (List String) := fun instanceName fields =>
      typeName :: instanceName.getD "-" :: fields.flatMap fun field =>
        field.1 :: (field.2.node?.getD [] ++ field.2.text?.toList)
    let registry : Registry (List String) :=
      (Registry.empty.register "view" (node "view")).register "dim" (node "dim")
    let forest : Forest := .nest (.named "view" "v")
      (.nest (.object "kind") (.leaf (.string (some "label") "x") .nil)
        (.nest (.object "dimension") (.leaf (.string (some "label") "y") .nil)
          (.nest (.object "other") (.nest (.named "dimension" "e") .nil .nil) .nil))) .nil
    schema.IsBuilt ∧ schema.EnumsApart ∧ registry.missing? schema = none ∧ forest.Fits .object ∧
      nodesOfStream schema registry (wholeDocument forest.events) =
        forest.nodes PropertyType.objectType? schema registry ∧
      forest.nodes PropertyType.objectType? schema registry =
        [("view", ["view", "v", "dimension", "dim", "-", "label", "y"])] := by
  intro view schema node registry forest
  have hbuilt : schema.IsBuilt := by
    refine ⟨"s", [.enum "kinds" ["a"], .objectType "dim" [⟨"label", .string⟩],
      .rootWith "view" [⟨"dimension", .named "dim"⟩, ⟨"kind", .enum "kinds"⟩]], ?_⟩
    decide +kernel
  have hapart : schema.EnumsApart := by
    rintro type name enumName ⟨typeName, _, htype⟩ hproperty
    have henums : ∀ entry ∈ schema.properties,
        entry.2.2 = .enum "kinds" ∨ entry.2.2.keyword ≠ .enum := by
      decide +kernel
    rcases henums _ (mem_properties htype hproperty) with heq | hother
    · obtain rfl := PropertyType.enum.inj heq
      decide +kernel
    · exact absurd rfl hother
  have hregistry : registry.missing? schema = none := by decide +kernel
  have hfits : forest.Fits .object :=
    ⟨rfl, ⟨.object, rfl, ⟨rfl, ⟨.object, rfl, ⟨by decide, rfl, rfl⟩, trivial⟩,
      ⟨rfl, ⟨.object, rfl, ⟨by decide, rfl, rfl⟩, trivial⟩,
        ⟨rfl, ⟨.object, rfl, ⟨rfl, ⟨.object, rfl, trivial⟩, trivial⟩⟩, trivial⟩⟩⟩⟩, trivial⟩
  exact ⟨hbuilt, hapart, hregistry, hfits,
    (IsBuilt.nodes_of_object_properties_iff hbuilt).2.mpr hapart _ registry forest hregistry hfits,
    by decide +kernel⟩

/-- An object under the property of an enum has a node where the enum has the name of an
object type. -/
theorem node_under_enum_property :
    let view : ObjectType := ⟨.ofList [("dim", .named "dim"), ("kind", .enum "dim")]⟩
    let schema : Schema := ⟨"s", .ofList [("dim", ⟨.ofList ["a"]⟩)],
      .ofList [("dim", .empty), ("view", view)], .ofList ["view"]⟩
    let node (typeName : String) : Factory (List String) := fun instanceName fields =>
      typeName :: instanceName.getD "-" :: fields.flatMap fun field =>
        field.1 :: field.2.node?.getD []
    let registry : Registry (List String) :=
      (Registry.empty.register "view" (node "view")).register "dim" (node "dim")
    let events : List Event := [.named "view" "v", .object "kind", .close, .close]
    schema.IsBuilt ∧ registry.missing? schema = none ∧ Balanced events ∧
      schema.objects.get? "view" = some view ∧ view.property? "kind" = some (.enum "dim") ∧
      nodesOfStream schema registry (wholeDocument events) =
        [("view", ["view", "v", "kind", "dim", "-"])] := by
  intro view schema node registry events
  have hbuilt : schema.IsBuilt := by
    refine ⟨"s", [.enum "dim" ["a"], .objectType "dim" [],
      .rootWith "view" [⟨"kind", .enum "dim"⟩, ⟨"dim", .named "dim"⟩]], ?_⟩
    decide +kernel
  have hbalanced : Balanced events := balanced_iff_exists_forest.mpr
    ⟨.nest (.named "view" "v") (.nest (.object "kind") .nil .nil) .nil,
      ⟨rfl, ⟨.object, rfl, ⟨rfl, ⟨.object, rfl, trivial⟩, trivial⟩⟩, trivial⟩, rfl⟩
  exact ⟨hbuilt, by decide +kernel, hbalanced, by decide +kernel, by decide +kernel,
    by decide +kernel⟩

end Schema

end Lookml
