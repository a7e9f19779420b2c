import Lookml.Proofs.Schema.Declared

/-!
Schemas are loaded faithfully: what is loaded is what the document declares, nothing more
and nothing less, and what it declares twice is complained about before anything is
loaded.
-/

namespace Lookml

/-- Two objects of one property share their instance name. -/
def Members.Repeats (members : Members) (name instanceName : String) : Prop :=
  ∃ first second, [(name, .named instanceName first), (name, .named instanceName second)].Sublist
    members.toList

/-- A schema body declares an enum type twice, or an object type, or a property of an
object type. -/
inductive Members.DeclaresTwice (body : Members) : Prop
  | enumType {name : String} (hrepeats : body.Repeats "enum_type" name)
  | objectType {name : String} (hrepeats : body.Repeats "object_type" name)
  | property {typeName name : String} {inner : Members}
      (htype : ("object_type", .named typeName inner) ∈ body.toList)
      (hrepeats : inner.Repeats "property" name)

theorem Members.Suits.not_repeats {schema : Schema} {ground : Ground} {members : Members}
    (h : members.Suits schema ground) (name instanceName : String) :
    ¬members.Repeats name instanceName := by
  rintro ⟨first, second, hsub⟩
  have hpair := h.distinct.sublist hsub
  exact (List.pairwise_cons.mp hpair).1 _ List.mem_cons_self ⟨rfl, rfl⟩

/-- What complains of something that is declared twice. -/
def SchemaError.tellsRepetition : SchemaError → Bool
  | .duplicateEnumType _ | .duplicateObjectType _ | .duplicateProperty _ _ => true
  | _ => false

namespace Schema

theorem tellsRepetition_of_declarationOf {schema : Schema} {name : String} {body : Members}
    {error : SchemaError}
    (h : schema.declarationOf name body = .error error) : error.tellsRepetition = false := by
  unfold declarationOf at h
  grind [SchemaError.tellsRepetition]

theorem tellsRepetition_of_declarationsOf {schema : Schema} {body : Members} {error : SchemaError}
    (h : schema.declarationsOf body = .error error) : error.tellsRepetition = false := by
  obtain ⟨declared, _, hdeclared⟩ := exists_of_mapM_eq_error h
  exact tellsRepetition_of_declarationOf hdeclared

theorem tellsRepetition_of_build {schema : Schema} {error : SchemaError}
    (h : schema.build = .error error) : error.tellsRepetition = false := by
  have hflaw : schema.flaw? = some error := by
    unfold build at h
    split at h
    · rename_i found hfound
      obtain rfl : found = error := Except.error.inj h
      exact hfound
    · cases h
  rcases Option.or_eq_some_iff.mp hflaw with hunresolved | ⟨_, hclash⟩
  · obtain ⟨⟨owner, name, type⟩, _, hunresolved⟩ := List.exists_of_findSome?_eq_some hunresolved
    unfold unresolved? at hunresolved
    grind [SchemaError.tellsRepetition]
  · obtain ⟨⟨owner, name, type⟩, _, hclash⟩ := List.exists_of_findSome?_eq_some hclash
    simp only [clash?] at hclash
    split at hclash
    · cases hclash
    · obtain ⟨codeIn, _, rfl⟩ := Option.map_eq_some_iff.mp hclash
      rfl

theorem loadObjectType_eq {schema : Schema} {declared : String × Members}
    (hbody : declared.2.Suits metaSchema (bodyGround "object_type"))
    (hfresh : schema.objects.contains declared.1 = false) :
    schema.loadObjectType declared = (schema.declarationsOf declared.2).map fun declarations =>
      { schema with objects := schema.objects.insert declared.1 (typeOf declarations) } := by
  rw [loadObjectType, if_neg (by simp [hfresh])]
  show (schema.declarationsOf declared.2 >>= schema.addObjectType declared.1) = _
  cases hmade : schema.declarationsOf declared.2 with
  | error error => rfl
  | ok declarations =>
      have hundeclared : schema.undeclaredEnum? declarations = none :=
        undeclaredEnum?_eq_none fun declaration hmem typeName htype => by
          obtain ⟨_, _, hdeclared⟩ := exists_of_mem_mapM hmade hmem
          exact contains_of_declarationOf hdeclared htype
      have hrepeated : repeated? [] (declarations.map Declaration.name) = none :=
        repeated?_eq_none (declarationsOf_nodup hbody hmade) (by simp)
      show schema.addObjectType declared.1 declarations = .ok _
      simp only [addObjectType, hfresh, Bool.false_eq_true, if_false, hundeclared, hrepeated]

section Roots
variable {schema next : Schema} {names : List String}

theorem foldlM_addRoot_ok (h : names.foldlM addRoot schema = .ok next) :
    (next.name = schema.name ∧ next.enums = schema.enums ∧ next.objects = schema.objects) ∧
      ∀ name, next.roots.contains name = true ↔
        schema.roots.contains name = true ∨ name ∈ names := by
  induction names generalizing schema with
  | nil =>
      obtain rfl : schema = next := Except.ok.inj h
      simp
  | cons first names ih =>
      rw [List.foldlM_cons, addRoot] at h
      split at h
      · cases h
      · obtain ⟨hsame, hroots⟩ := ih h
        refine ⟨hsame, fun name => ?_⟩
        rw [hroots, Table.contains_insert, List.mem_cons, or_comm (a := name = first), or_assoc]

theorem foldlM_addRoot_error {error : SchemaError}
    (h : names.foldlM addRoot schema = .error error) :
    ∃ name, error = .duplicateProperty name rootOwner ∧
      (schema.roots.contains name = true ∧ name ∈ names ∨ [name, name].Sublist names) := by
  induction names generalizing schema with
  | nil => cases h
  | cons first names ih =>
      rw [List.foldlM_cons, addRoot] at h
      split at h
      · rename_i hcontains
        obtain rfl := Except.error.inj h
        exact ⟨first, rfl, .inl ⟨hcontains, List.mem_cons_self⟩⟩
      · obtain ⟨name, rfl, ⟨hcontains, hmem⟩ | hsub⟩ := ih h
        · refine ⟨name, rfl, ?_⟩
          rcases Table.contains_insert.mp hcontains with rfl | hcontains
          · exact .inr ((List.singleton_sublist.mpr hmem).cons_cons _)
          · exact .inl ⟨hcontains, List.mem_cons_of_mem _ hmem⟩
        · exact ⟨name, rfl, .inr (hsub.cons _)⟩

end Roots

section Body
variable {body : Members} {name : String}

def enumOf (declared : String × Members) : String × EnumType :=
  (declared.1, ⟨.ofList ((declared.2.elementsOf "values").filterMap Value.text?)⟩)

def enumsOf (body : Members) : Table EnumType :=
  .ofList ((body.instances "enum_type").map enumOf)

def objectOf (schema : Schema) (declared : String × Members) :
    Except SchemaError (String × ObjectType) :=
  (schema.declarationsOf declared.2).map fun declarations => (declared.1, typeOf declarations)

def rootsOf (body : Members) : List String :=
  (body.elementsOf "root_properties").filterMap Value.identifier?

theorem enumOf_isDeclaredBy {declared : String × Members}
    (hbody : declared.2.Suits metaSchema (bodyGround "enum_type")) :
    (enumOf declared).2.IsDeclaredBy declared.2 := by
  have hproperty :
      (bodyGround "enum_type").property? metaSchema "values" = some (.list .strings) := by
    decide +kernel
  intro text
  have hcontains : (enumOf declared).2.contains text = true ↔
      ∃ value ∈ declared.2.elementsOf "values", value.text? = some text :=
    Names.contains_ofList.trans List.mem_filterMap
  rw [hcontains]
  constructor
  · rintro ⟨value, hvalue, htext⟩
    obtain ⟨elements, hlist, hmem⟩ := (hbody.mem_elementsOf hproperty).mp hvalue
    have helement := hbody.isElementOf hproperty hlist value hmem
    cases value with
    | string found =>
        obtain rfl : found = text := Option.some.inj htext
        exact ⟨elements, hlist, hmem⟩
    | _ => exact helement.elim
  · rintro ⟨elements, hlist, hmem⟩
    exact ⟨.string text, (hbody.mem_elementsOf hproperty).mpr ⟨elements, hlist, hmem⟩, rfl⟩

theorem exists_of_objectOf {schema : Schema} {declared : String × Members}
    {entry : String × ObjectType} (h : schema.objectOf declared = .ok entry) :
    ∃ declarations, schema.declarationsOf declared.2 = .ok declarations ∧
      entry = (declared.1, typeOf declarations) := by
  rw [objectOf] at h
  cases hmade : schema.declarationsOf declared.2 with
  | error error =>
      rw [hmade] at h
      cases h
  | ok declarations =>
      rw [hmade] at h
      exact ⟨declarations, rfl, (Except.ok.inj h).symm⟩

theorem tellsRepetition_of_objectOf {schema : Schema} {declared : String × Members}
    {error : SchemaError} (h : schema.objectOf declared = .error error) :
    error.tellsRepetition = false := by
  rw [objectOf] at h
  cases hmade : schema.declarationsOf declared.2 with
  | ok declarations =>
      rw [hmade] at h
      cases h
  | error found =>
      rw [hmade] at h
      obtain rfl : found = error := Except.error.inj h
      exact tellsRepetition_of_declarationsOf hmade

variable (hbody : body.Suits metaSchema (bodyGround "schema"))
include hbody

theorem suits_enumType {declared : String × Members}
    (hdeclared : declared ∈ body.instances "enum_type") :
    declared.2.Suits metaSchema (bodyGround "enum_type") :=
  hbody.instance (by decide +kernel) (Members.mem_instances.mp hdeclared)

theorem suits_objectType {declared : String × Members}
    (hdeclared : declared ∈ body.instances "object_type") :
    declared.2.Suits metaSchema (bodyGround "object_type") :=
  hbody.instance (by decide +kernel) (Members.mem_instances.mp hdeclared)

theorem foldlM_loadEnum : (body.instances "enum_type").foldlM loadEnum (empty name) =
    .ok ⟨name, enumsOf body, .empty, .empty⟩ := by
  have hmake : (body.instances "enum_type").mapM (fun declared => Except.ok (enumOf declared)) =
      (.ok ((body.instances "enum_type").map enumOf) : Except SchemaError _) :=
    mapM_eq_ok fun _ _ => rfl
  refine (Table.foldlM_make (Schema.mk name · .empty .empty) Prod.fst
    (fun declared => .ok (enumOf declared)) ?_ ?_ (hbody.instances_nodup "enum_type")
    fun _ _ => rfl).trans (hmake ▸ rfl)
  · intro declared _ table hfresh
    rw [loadEnum, addEnum, if_neg (by simpa using hfresh)]
    rfl
  · rintro declared _ entry ⟨⟩
    rfl

theorem foldlM_loadObjectType (enums : Table EnumType) :
    (body.instances "object_type").foldlM loadObjectType ⟨name, enums, .empty, .empty⟩ =
      ((body.instances "object_type").mapM (objectOf ⟨name, enums, .empty, .empty⟩)).map
        fun objects => ⟨name, enums, .ofList objects, .empty⟩ := by
  refine Table.foldlM_make (Schema.mk name enums · .empty) Prod.fst
    (objectOf ⟨name, enums, .empty, .empty⟩) ?_ ?_ (hbody.instances_nodup "object_type")
    fun _ _ => rfl
  · intro declared hdeclared table hfresh
    rw [loadObjectType_eq (suits_objectType hbody hdeclared) hfresh, objectOf]
    show (declarationsOf ⟨name, enums, .empty, .empty⟩ declared.2).map _ = _
    cases declarationsOf ⟨name, enums, .empty, .empty⟩ declared.2 <;> rfl
  · intro declared _ entry hentry
    obtain ⟨declarations, _, rfl⟩ := exists_of_objectOf hentry
    rfl

/-- No declaration of a type in a body that suits finds the type declared. -/
theorem ofBody_eq : ofBody name body =
    ((body.instances "object_type").mapM (objectOf ⟨name, enumsOf body, .empty, .empty⟩) >>=
      fun objects => (rootsOf body).foldlM addRoot ⟨name, enumsOf body, .ofList objects, .empty⟩ >>=
        build) := by
  rw [ofBody, foldlM_loadEnum hbody]
  show (List.foldlM loadObjectType _ _ >>= _) = _
  rw [foldlM_loadObjectType hbody]
  cases (body.instances "object_type").mapM (objectOf ⟨name, enumsOf body, .empty, .empty⟩) <;> rfl

theorem enumsOf_isDeclaredBy :
    (enumsOf body).IsDeclaredBy body "enum_type" fun _ inner type => type.IsDeclaredBy inner := by
  have hmade : (body.instances "enum_type").mapM pure =
      (.ok (body.instances "enum_type") : Except SchemaError _) :=
    List.mapM_pure.trans (congrArg Except.ok (List.map_id' _))
  refine Table.IsDeclaredBy.of_mapM (hbody.instances_nodup "enum_type") hmade ?_
  rintro declared hmem value ⟨⟩
  have hdeclared := enumOf_isDeclaredBy (suits_enumType hbody hmem)
  exact ⟨rfl, fun other => ⟨fun hother => hother.unique hdeclared, fun heq => heq ▸ hdeclared⟩⟩

theorem objects_isDeclaredBy {schema : Schema} {objects : List (String × ObjectType)}
    (hmade : (body.instances "object_type").mapM schema.objectOf = .ok objects) :
    (Table.ofList objects).IsDeclaredBy body "object_type" fun _ inner type =>
      type.IsDeclaredBy schema.enums inner := by
  rw [← List.map_id objects]
  refine Table.IsDeclaredBy.of_mapM (hbody.instances_nodup "object_type") hmade ?_
  intro declared hmem entry hentry
  obtain ⟨declarations, hdeclarations, rfl⟩ := exists_of_objectOf hentry
  have hdeclared := typeOf_isDeclaredBy (suits_objectType hbody hmem) hdeclarations
  exact ⟨rfl, fun other => ⟨fun hother => hother.unique hdeclared, fun heq => heq ▸ hdeclared⟩⟩

theorem map_rootsOf {elements : Elements}
    (hlist : ("root_properties", .list elements) ∈ body.toList) :
    (rootsOf body).map .identifier = elements.toList := by
  have helements := hbody.isElementOf property?_rootProperties hlist
  rw [rootsOf, hbody.elementsOf_eq property?_rootProperties hlist]
  generalize elements.toList = values at helements
  induction values with
  | nil => rfl
  | cons first values ih =>
      obtain ⟨hfirst, hvalues⟩ := List.forall_mem_cons.mp helements
      cases first with
      | identifier text => exact congrArg (Value.identifier text :: ·) (ih hvalues)
      | _ => exact hfirst.elim

theorem mem_rootsOf : name ∈ rootsOf body ↔ ∃ elements,
    ("root_properties", .list elements) ∈ body.toList ∧ .identifier name ∈ elements.toList := by
  rw [rootsOf, List.mem_filterMap]
  constructor
  · rintro ⟨value, hvalue, hname⟩
    obtain ⟨elements, hlist, hmem⟩ := (hbody.mem_elementsOf property?_rootProperties).mp hvalue
    cases value with
    | identifier found =>
        obtain rfl : found = name := Option.some.inj hname
        exact ⟨elements, hlist, hmem⟩
    | _ => cases hname
  · rintro ⟨elements, hlist, hmem⟩
    exact ⟨_, (hbody.mem_elementsOf property?_rootProperties).mpr ⟨elements, hlist, hmem⟩, rfl⟩

theorem isDeclaredBy_of_ofBody {schema : Schema} (h : ofBody name body = .ok schema) :
    schema.name = name ∧ schema.IsDeclaredBy body := by
  rw [ofBody_eq hbody] at h
  obtain ⟨objects, hmade, h⟩ := exists_of_bind_eq_ok h
  obtain ⟨built, hroots, h⟩ := exists_of_bind_eq_ok h
  obtain ⟨rfl, _⟩ := build_eq_ok h
  obtain ⟨⟨hname, henums, hobjects⟩, hroots⟩ := foldlM_addRoot_ok hroots
  refine ⟨hname, ?_, ?_, ?_⟩
  · rw [henums]
    exact enumsOf_isDeclaredBy hbody
  · rw [henums, hobjects]
    exact objects_isDeclaredBy hbody hmade
  · intro name
    rw [hroots]
    exact (or_iff_right nofun).trans (mem_rootsOf hbody)

/-- Of what is declared twice only a property at the top is complained about. -/
theorem repeated_of_ofBody {error : SchemaError} (h : ofBody name body = .error error)
    (hrepetition : error.tellsRepetition = true) :
    ∃ property elements, error = .duplicateProperty property rootOwner ∧
      ("root_properties", .list elements) ∈ body.toList ∧
      [.identifier property, .identifier property].Sublist elements.toList := by
  rw [ofBody_eq hbody] at h
  rcases bind_eq_error h with hmade | ⟨objects, _, h⟩
  · obtain ⟨declared, _, hdeclared⟩ := exists_of_mapM_eq_error hmade
    rw [tellsRepetition_of_objectOf hdeclared] at hrepetition
    cases hrepetition
  rcases bind_eq_error h with hroots | ⟨built, _, hbuild⟩
  · obtain ⟨property, rfl, ⟨⟨⟩, _⟩ | hsub⟩ := foldlM_addRoot_error hroots
    obtain ⟨elements, hlist, _⟩ := (mem_rootsOf hbody).mp (hsub.subset List.mem_cons_self)
    exact ⟨property, elements, rfl, hlist, map_rootsOf hbody hlist ▸ hsub.map Value.identifier⟩
  · rw [tellsRepetition_of_build hbuild] at hrepetition
    cases hrepetition

theorem not_declaresTwice : ¬body.DeclaresTwice := by
  rintro (hrepeats | hrepeats | ⟨htype, hrepeats⟩)
  · exact hbody.not_repeats _ _ hrepeats
  · exact hbody.not_repeats _ _ hrepeats
  · exact (suits_objectType hbody (Members.mem_instances.mpr htype)).not_repeats _ _ hrepeats

end Body

/-- A text is not read at all, or read with violations, or the document that is read
declares no schema, or its first schema is loaded from a body that suits the schema of
schemas. -/
theorem load_cases (source : List Char) :
    (∃ error, Document.read metaSchema.codeNames source = .error error ∧
      load source = .error (.unreadable error)) ∨
    ∃ document, Document.read metaSchema.codeNames source = .ok document ∧
      ((∃ violations, violations ≠ [] ∧ load source = .error (.invalidDocument violations)) ∨
        Members.Suits metaSchema .document document ∧
          (load source = .error .noSchema ∨ ∃ name body,
            document.get? "schema" = some (.named name body) ∧
              load source = ofBody name body)) := by
  rcases readValid_cases metaSchema_isBuilt.isClosed source with
    ⟨error, hread, hvalid⟩ | ⟨document, kept, violations, hsome, hread, hvalid⟩ |
      ⟨document, hsuits, hread, hvalid⟩
  · exact .inl ⟨error, hread, by rw [load, hvalid]⟩
  · refine .inr ⟨document, hread, .inl ⟨violations, hsome, ?_⟩⟩
    rw [load, hvalid]
    cases violations with
    | nil => exact absurd rfl hsome
    | cons violation violations => rfl
  · refine .inr ⟨document, hread, .inr ⟨hsuits, ?_⟩⟩
    have hall : document.getAll "schema" =
        (document.instances "schema").map fun entry => .named entry.1 entry.2 :=
      hsuits.getAll_eq_map fun property hproperty => by
        obtain rfl := Option.some.inj (property?_schema.symm.trans hproperty)
        rfl
    rw [load, hvalid, Members.get?, hall]
    cases hinstances : document.instances "schema" with
    | nil => exact .inl (by simp only [hinstances])
    | cons first rest => exact .inr ⟨first.1, first.2, rfl, by simp only [hinstances]⟩

section Loading
variable {source : List Char}

theorem isDeclaredBy_of_load {schema : Schema} (h : load source = .ok schema) :
    ∃ document body, Document.read metaSchema.codeNames source = .ok document ∧
      document.get? "schema" = some (.named schema.name body) ∧ schema.IsDeclaredBy body := by
  rcases load_cases source with ⟨error, _, hload⟩ | ⟨document, hread, hcases⟩
  · cases hload.symm.trans h
  rcases hcases with ⟨violations, _, hload⟩ | ⟨hsuits, hload | ⟨name, body, hschema, hload⟩⟩
  · cases hload.symm.trans h
  · cases hload.symm.trans h
  · obtain ⟨rfl, hdeclared⟩ := isDeclaredBy_of_ofBody
      (hsuits.instance property?_schema (Members.mem_toList_of_get? hschema)) (hload.symm.trans h)
    exact ⟨document, body, hread, hschema, hdeclared⟩

theorem repeated_of_load {error : SchemaError} (h : load source = .error error)
    (hrepetition : error.tellsRepetition = true) : ∃ property document name body elements,
      error = .duplicateProperty property rootOwner ∧
      Document.read metaSchema.codeNames source = .ok document ∧
      document.get? "schema" = some (.named name body) ∧
      ("root_properties", .list elements) ∈ body.toList ∧
      [.identifier property, .identifier property].Sublist elements.toList := by
  have hother {found : SchemaError} (hload : load source = .error found) :
      found.tellsRepetition = true := Except.error.inj (hload.symm.trans h) ▸ hrepetition
  rcases load_cases source with ⟨found, _, hload⟩ | ⟨document, hread, hcases⟩
  · cases hother hload
  rcases hcases with ⟨violations, _, hload⟩ | ⟨hsuits, hload | ⟨name, body, hschema, hload⟩⟩
  · cases hother hload
  · cases hother hload
  · obtain ⟨property, elements, heq, hlist, hsub⟩ := repeated_of_ofBody
      (hsuits.instance property?_schema (Members.mem_toList_of_get? hschema)) (hload.symm.trans h)
      hrepetition
    exact ⟨property, document, name, body, elements, heq, hread, hschema, hlist, hsub⟩

theorem invalid_of_declaresTwice {document body : Members} {name : String}
    (hread : Document.read metaSchema.codeNames source = .ok document)
    (hschema : ("schema", .named name body) ∈ document.toList) (htwice : body.DeclaresTwice) :
    ∃ violations, violations ≠ [] ∧ load source = .error (.invalidDocument violations) := by
  rcases load_cases source with ⟨error, hfailed, _⟩ | ⟨found, hfound, hcases⟩
  · cases hfailed.symm.trans hread
  obtain rfl := Except.ok.inj (hfound.symm.trans hread)
  rcases hcases with hinvalid | ⟨hsuits, _⟩
  · exact hinvalid
  · exact absurd htwice (not_declaresTwice (hsuits.instance property?_schema hschema))

end Loading

/-- What is loaded of a text is what the first schema of its document declares. No
declaration of a type or of a property of a type is found to be a second one while it is
loaded, as a document with two of them does not conform to begin with; only a property
that is named twice for the top is complained about there. -/
theorem load_faithful (source : List Char) :
    (∀ schema, load source = .ok schema → ∃ document body,
      Document.read metaSchema.codeNames source = .ok document ∧
        document.get? "schema" = some (.named schema.name body) ∧ schema.IsDeclaredBy body) ∧
    (∀ name, load source ≠ .error (.duplicateEnumType name)) ∧
    (∀ name, load source ≠ .error (.duplicateObjectType name)) ∧
    (∀ property owner, load source = .error (.duplicateProperty property owner) →
      owner = rootOwner ∧ ∃ document name body elements,
        Document.read metaSchema.codeNames source = .ok document ∧
          document.get? "schema" = some (.named name body) ∧
          ("root_properties", .list elements) ∈ body.toList ∧
          [.identifier property, .identifier property].Sublist elements.toList) ∧
    ∀ document name body, Document.read metaSchema.codeNames source = .ok document →
      ("schema", .named name body) ∈ document.toList → body.DeclaresTwice →
        ∃ violations, violations ≠ [] ∧ load source = .error (.invalidDocument violations) := by
  refine ⟨fun schema => isDeclaredBy_of_load, fun name h => ?_, fun name h => ?_,
    fun property owner h => ?_, fun document name body => invalid_of_declaresTwice⟩
  · obtain ⟨_, _, _, _, _, ⟨⟩, _⟩ := repeated_of_load h rfl
  · obtain ⟨_, _, _, _, _, ⟨⟩, _⟩ := repeated_of_load h rfl
  · obtain ⟨_, document, name, body, elements, ⟨⟩, hrepeated⟩ := repeated_of_load h rfl
    exact ⟨rfl, document, name, body, elements, hrepeated⟩

/-- An enum type may have the name of a keyword; by that name alone a property has it only
if no property has the type of the keyword. -/
theorem load_faithful_keywords :
    let schema : Schema := ⟨"s",
      .ofList [("ref_string", ⟨.ofList ["x"]⟩), ("string", ⟨.ofList []⟩)],
      .ofList [("t", ⟨.ofList [("a", .enum "ref_string"), ("b", .string),
        ("string", .enum "string"), ("t", .named "t")]⟩)], .ofList ["t"]⟩
    let source :=
      "schema: s \x7b enum_type: string \x7b \x7d enum_type: ref_string \x7b values: [\"x\"] \x7d " ++
      "object_type: t \x7b property: a \x7b type: ref_string \x7d property: b \x7b type: string \x7d " ++
      "property: string \x7b type: enum \x7d property: t \x7b type: named_object \x7d \x7d " ++
      "root_properties: [t] \x7d"
    let twice := "schema: s \x7b enum_type: a \x7b \x7d enum_type: a \x7b \x7d \x7d"
    load source.toList = .ok schema ∧
      (∃ document body, Document.read metaSchema.codeNames source.toList = .ok document ∧
        document.get? "schema" = some (.named "s" body) ∧ schema.IsDeclaredBy body) ∧
      load twice.toList = .error (.invalidDocument [.duplicateNamed "enum_type" "a"]) ∧
      load twice.toList ≠ .error (.duplicateEnumType "a") := by
  intro schema source twice
  have hload : load source.toList = .ok schema := by decide +kernel
  exact ⟨hload, (load_faithful source.toList).1 schema hload, by decide +kernel,
    (load_faithful twice.toList).2.1 "a"⟩

end Schema

end Lookml
