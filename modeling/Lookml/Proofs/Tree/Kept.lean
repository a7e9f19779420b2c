import Lookml.Proofs.Conformance.Conforming
import Lookml.Proofs.Conformance.Pruning
import Lookml.Proofs.Pipeline
import Lookml.Proofs.Tree.Heads
import Lookml.Proofs.Tree.Retold

/-!
The tree of what a check passes on. Conformance, said of a forest of items, is said here
of the values of a tree: each suits the property that is declared under its name, and no
two of an object share their name and instance name.
-/

namespace Lookml

/-- The property that is declared on a ground under a name; at the top these are named
objects. -/
def Ground.property? (schema : Schema) : Ground → String → Option PropertyType
  | .document, name => if schema.roots.contains name then some (.named name) else none
  | .object type, name => type.property? name
  | .list _, _ => none

def Value.IsElementOf : ListType → Value → Prop
  | .refs, .identifier _ => True
  | .strings, .string _ => True
  | .pairs, .pair _ _ => True
  | _, _ => False

mutual
/-- A value that a property of this type may have. -/
inductive Value.Suits (schema : Schema) : PropertyType → Value → Prop
  | number (value : Number) : Value.Suits schema .number (.number value)
  | string (text : String) : Value.Suits schema .string (.string text)
  | code (text : String) : Value.Suits schema .code (.code text)
  | reference (text : String) : Value.Suits schema .ref (.identifier text)
  | literal {typeName text : String} {enumType : EnumType}
      (henum : schema.enums.get? typeName = some enumType)
      (htext : enumType.contains text = true) :
      Value.Suits schema (.enum typeName) (.identifier text)
  | truth {typeName : String} {enumType : EnumType} (value : Bool)
      (henum : schema.enums.get? typeName = some enumType) (htruth : enumType.IsOfTruth) :
      Value.Suits schema (.enum typeName) (.boolean value)
  | list {listed : ListType} {elements : Elements}
      (helements : ∀ element ∈ elements.toList, element.IsElementOf listed) :
      Value.Suits schema (.list listed) (.list elements)
  | object {typeName : String} {type : ObjectType} {members : Members}
      (htype : schema.objects.get? typeName = some type)
      (hmembers : Members.Suits schema (.object type) members) :
      Value.Suits schema (.object typeName) (.object members)
  | named {typeName instanceName : String} {type : ObjectType} {members : Members}
      (htype : schema.objects.get? typeName = some type)
      (hmembers : Members.Suits schema (.object type) members) :
      Value.Suits schema (.named typeName) (.named instanceName members)

/-- Members that may stand on this ground beside one another. -/
inductive Members.Suits (schema : Schema) : Ground → Members → Prop
  | ending {ground : Ground} (comments : List String) :
      Members.Suits schema ground (.ending comments)
  | member {ground : Ground} {comments : List String} {name : String} {property : PropertyType}
      {value : Value} {rest : Members} (hproperty : ground.property? schema name = some property)
      (hvalue : Value.Suits schema property value)
      (hfresh : ∀ item ∈ rest.toList,
        ¬(item.1 = name ∧ item.2.instanceName? = value.instanceName?))
      (hrest : Members.Suits schema ground rest) :
      Members.Suits schema ground (.member comments name value rest)
end

section Conforming
variable {schema : Schema} {ground inside : Ground} {event : Event} {name : String} {rest : Forest}

theorem Ground.exists_of_takes (hname : event.propertyName? = some name)
    (h : ground.Takes schema event) :
    ∃ property, ground.property? schema name = some property ∧ property.Takes schema event := by
  cases ground with
  | object type => exact (takes_object_iff hname).mp h
  | document => cases event <;> first | exact h.elim | cases hname
  | list elements =>
      cases event <;> cases hname <;> cases elements <;> exact h.elim

theorem Ground.exists_of_opens (hname : event.propertyName? = some name)
    (h : ground.Opens schema event inside) :
    ∃ property, ground.property? schema name = some property ∧
      property.Opens schema event inside := by
  cases ground with
  | object type => exact (opens_object_iff hname).mp h
  | list elements => exact h.elim
  | document =>
      cases event with
      | named opened instanceName =>
          obtain rfl : opened = name := Option.some.inj hname
          cases inside with
          | object type => exact ⟨.named opened, if_pos h.1, opened, rfl, h.2⟩
          | _ => exact h.elim
      | _ => exact h.elim

theorem Forest.conforms_commented (texts : List String) :
    (commented texts rest).Conforms schema ground ↔ rest.Conforms schema ground := by
  induction texts with
  | nil => rfl
  | cons text texts ih =>
      rw [commented, Conforms, ih]
      exact and_iff_right (by cases ground <;> trivial)

theorem Value.conforms_property (value : Value) :
    (value.property name rest).Conforms schema ground ↔
      (value.property name .nil).Conforms schema ground ∧ rest.Conforms schema ground := by
  cases value <;> simp [property, Forest.Conforms]

theorem Elements.isElementOf_of_conforms {elements : Elements} {listed : ListType}
    (hplaced : elements.Placed) (h : elements.forest.Conforms schema (.list listed)) :
    ∀ element ∈ elements.toList, element.IsElementOf listed := by
  induction elements using Elements.toList.induct with
  | case1 comments => simp
  | case2 comments value rest ih =>
      obtain ⟨helement, _, hrest⟩ := hplaced
      have hconforms := (Forest.conforms_commented comments).mp h
      have hvalue : value.IsElementOf listed ∧ rest.forest.Conforms schema (.list listed) := by
        cases value with
        | code text | object members | named instanceName members => cases helement
        | list elements =>
            obtain ⟨⟨inside, hopens, _⟩, _⟩ := hconforms
            exact hopens.elim
        | _ => exact ⟨by cases listed <;> first | trivial | exact hconforms.1, hconforms.2⟩
      exact List.forall_mem_cons.mpr ⟨hvalue.1, ih hrest hvalue.2⟩

end Conforming

mutual
theorem Value.suits_of_conforms {schema : Schema} {ground : Ground} {name : String} {value : Value}
    (hproperty : value.isProperty = true) (hplaced : value.Placed)
    (h : (value.property name .nil).Conforms schema ground) :
    ∃ property, ground.property? schema name = some property ∧ value.Suits schema property := by
  cases value with
  | pair reference text => cases hproperty
  | list elements =>
      obtain ⟨⟨inside, hopens, _, hinner⟩, _⟩ := h
      obtain ⟨property, hdeclared, hopens⟩ := Ground.exists_of_opens rfl hopens
      cases inside with
      | list listed =>
          obtain rfl : property = .list listed := hopens
          exact ⟨_, hdeclared, .list (Elements.isElementOf_of_conforms hplaced hinner)⟩
      | _ => exact hopens.elim
  | object members =>
      obtain ⟨⟨inside, hopens, hdistinct, hinner⟩, _⟩ := h
      obtain ⟨property, hdeclared, hopens⟩ := Ground.exists_of_opens rfl hopens
      cases inside with
      | object type =>
          obtain ⟨typeName, rfl, htype⟩ := hopens
          exact ⟨_, hdeclared, .object htype (Members.suits_of_conforms hplaced hdistinct hinner)⟩
      | _ => exact hopens.elim
  | named instanceName members =>
      obtain ⟨⟨inside, hopens, hdistinct, hinner⟩, _⟩ := h
      obtain ⟨property, hdeclared, hopens⟩ := Ground.exists_of_opens rfl hopens
      cases inside with
      | object type =>
          obtain ⟨typeName, rfl, htype⟩ := hopens
          exact ⟨_, hdeclared, .named htype (Members.suits_of_conforms hplaced hdistinct hinner)⟩
      | _ => exact hopens.elim
  | number value =>
      obtain ⟨property, hdeclared, rfl⟩ := Ground.exists_of_takes rfl h.1
      exact ⟨_, hdeclared, .number value⟩
  | string text =>
      obtain ⟨property, hdeclared, rfl⟩ := Ground.exists_of_takes rfl h.1
      exact ⟨_, hdeclared, .string text⟩
  | code text =>
      obtain ⟨property, hdeclared, rfl⟩ := Ground.exists_of_takes rfl h.1
      exact ⟨_, hdeclared, .code text⟩
  | boolean value =>
      obtain ⟨property, hdeclared, typeName, enumType, rfl, henum, htruth⟩ :=
        Ground.exists_of_takes rfl h.1
      exact ⟨_, hdeclared, .truth value henum htruth⟩
  | identifier text =>
      obtain ⟨property, hdeclared, htakes⟩ := Ground.exists_of_takes rfl h.1
      rcases htakes with rfl | ⟨typeName, enumType, rfl, henum, htext⟩
      · exact ⟨_, hdeclared, .reference text⟩
      · exact ⟨_, hdeclared, .literal henum htext⟩

theorem Members.suits_of_conforms {schema : Schema} {ground : Ground} {members : Members}
    (hplaced : members.Placed) (hdistinct : members.forest.Distinct)
    (h : members.forest.Conforms schema ground) : members.Suits schema ground := by
  cases members with
  | ending comments => exact .ending comments
  | member comments name value rest =>
      obtain ⟨hproperty, hinside, hrest⟩ := hplaced
      obtain ⟨hvalue, hothers⟩ :=
        (Value.conforms_property value).mp ((Forest.conforms_commented comments).mp h)
      obtain ⟨property, hdeclared, hsuits⟩ := Value.suits_of_conforms hproperty hinside hvalue
      obtain ⟨event, hevent⟩ := Value.exists_head hproperty name
      rw [Forest.Distinct, Members.forest, Forest.heads_commented, Value.heads_property, hevent]
        at hdistinct
      obtain ⟨hfirst, hbehind⟩ :=
        List.pairwise_cons.mp (List.pairwise_append.mp hdistinct).2.1
      refine .member hdeclared hsuits ?_ (Members.suits_of_conforms hrest hbehind hothers)
      rintro ⟨other, item⟩ hmem ⟨rfl, hsame⟩
      obtain ⟨event', hevent'⟩ := Value.exists_head (Members.All.of_mem_toList hrest hmem).1 other
      exact hfirst _ (Members.mem_heads_of_head? hmem hevent')
        (Value.repeats_of_eq hevent hevent' hsame)
end

namespace Schema

variable {schema : Schema}

theorem balanced_read (schema : Schema) (source : List Char) :
    Balanced (schema.read source).events :=
  (Reading.told schema.codeNames source).mono fun _ _ htold => htold.takes

/-- What a check passes on of a balanced document is told by a tree that suits the
schema. -/
theorem exists_kept (hschema : schema.IsClosed) {events : List Event} (hevents : Balanced events) :
    ∃ document : Document,
      Verdict.forwarded (schema.verdicts (wholeDocument events)) =
        wholeDocument (Members.events document) ∧
      Document.ofStream? (wholeDocument (Members.events document)) = some document ∧
      Members.Placed document ∧ Members.Suits schema .document document := by
  obtain ⟨marking, hmarking⟩ := exists_marksDocument schema hevents
  obtain ⟨document, hstream, hplaced, htold⟩ :=
    Document.ofStream?_retold (Marking.Fits.kept hmarking.fits).balanced
  have hforwarded := hmarking.forwarded_eq
  rw [← htold] at hforwarded hstream
  have hsilent := (forwarded_again schema hevents).1
  simp only [hforwarded] at hsilent
  -- The forest of the tree is marked anew: as nothing is reported of it, nothing in it is
  -- marked.
  obtain ⟨again, hagain, hwhole⟩ := Checker.Marks.exists_of_fits schema (.object none []) (by rfl)
    (Members.forest_fits document)
  have hmarks : schema.MarksDocument (Members.events document) again :=
    ⟨hwhole ▸ Members.forest_fits document, hwhole ▸ Members.events_forest document, hagain⟩
  have hitems :=
    (hmarks.eachItem hschema).conforms (hmarks.violations_eq.symm.trans hsilent) hmarks.fits
  rw [hwhole, Forest.distinctFrom_nil] at hitems
  exact ⟨document, hforwarded, hstream, hplaced,
    Members.suits_of_conforms hplaced hitems.1 hitems.2⟩

/-- Where nothing is reported, what is passed on tells the tree of the whole document. -/
theorem ofEvents_eq_of_silent {events : List Event} {document : Document}
    (hevents : Balanced events)
    (hsilent : Verdict.violations (schema.verdicts (wholeDocument events)) = [])
    (hforwarded : Verdict.forwarded (schema.verdicts (wholeDocument events)) =
      wholeDocument (Members.events document))
    (hstream : Document.ofStream? (wholeDocument (Members.events document)) = some document) :
    Document.ofEvents events = document := by
  rw [Document.ofEvents, ← forwarded_eq_of_silent hevents hsilent, hforwarded, hstream,
    Option.getD_some]

/-- A text is not read at all, or read with violations, or it is the text of a document
that suits the schema. -/
theorem readValid_cases (hschema : schema.IsClosed) (source : List Char) :
    (∃ error, Document.read schema.codeNames source = .error error ∧
      schema.readValid source = .error error) ∨
    (∃ document kept violations, violations ≠ [] ∧
      Document.read schema.codeNames source = .ok document ∧
      schema.readValid source = .ok (kept, violations)) ∨
    ∃ document, Members.Suits schema .document document ∧
      Document.read schema.codeNames source = .ok document ∧
      schema.readValid source = .ok (document, []) := by
  have hread : Reading.ofText schema.codeNames source = schema.read source := rfl
  cases hfailure : (schema.read source).failure with
  | some error =>
      refine .inl ⟨error, ?_, ?_⟩
      · simp [Document.read, hread, hfailure]
      · simp [readValid, check, hfailure, Except.map]
  | none =>
      have hbalanced := schema.balanced_read source
      obtain ⟨kept, hforwarded, hstream, -, hsuits⟩ := exists_kept hschema hbalanced
      have hvalid : schema.readValid source = .ok (kept,
          Verdict.violations (schema.verdicts (wholeDocument (schema.read source).events))) := by
        simp [readValid, check, hfailure, Except.map, hforwarded, hstream]
      have hdocument : Document.read schema.codeNames source =
          .ok (.ofEvents (schema.read source).events) := by
        simp [Document.read, hread, hfailure]
      by_cases hsilent :
          Verdict.violations (schema.verdicts (wholeDocument (schema.read source).events)) = []
      · have hkept := ofEvents_eq_of_silent hbalanced hsilent hforwarded hstream
        exact .inr (.inr ⟨kept, hsuits, hkept ▸ hdocument, hsilent ▸ hvalid⟩)
      · exact .inr (.inl ⟨_, kept, _, hsilent, hdocument, hvalid⟩)

end Schema

end Lookml
