import Lookml.Proofs.Conformance.Keys
import Lookml.Proofs.Schema.Loaded

/-!
The checker reports nothing exactly of the documents that conform. What it keeps may stand
where it does and repeats nothing, by what each item fares; and of a conforming document
no item can be marked, the first mark least of all.
-/

namespace Lookml

namespace Ground

variable {schema : Schema} {ground inside : Ground} {event : Event}

/-- The kind of scope that the ground is that of. -/
def scope : Ground → Scope
  | .document | .object _ => .object
  | .list _ => .list

theorem fit?_object {name : String} (hname : event.propertyName? = some name) :
    event.fit? .object = some event := by
  cases event with
  | number given value | truth given value | string given text | identifier given text
  | list given =>
      obtain rfl : given = some name := hname
      rfl
  | code given text | object given | named given instanceName => rfl
  | pair reference text | comment text | close => cases hname

theorem Takes.fits (h : ground.Takes schema event) :
    event ≠ .close ∧ event.opens? = none ∧ event.fit? ground.scope = some event := by
  cases ground with
  | document => cases event <;> first | exact h.elim | exact ⟨nofun, rfl, rfl⟩
  | list elements =>
      cases event with
      | comment text => exact ⟨nofun, rfl, rfl⟩
      | string given text | identifier given text =>
          cases given <;> cases elements <;> first | exact h.elim | exact ⟨nofun, rfl, rfl⟩
      | pair reference text => exact ⟨nofun, rfl, rfl⟩
      | _ => cases elements <;> exact h.elim
  | object type =>
      cases hname : event.propertyName? with
      | some name =>
          obtain ⟨property, _, htakes⟩ := (takes_object_iff hname).mp h
          refine ⟨?_, htakes.opens?, fit?_object hname⟩
          rintro rfl
          cases hname
      | none =>
          cases event with
          | comment text => exact ⟨nofun, rfl, rfl⟩
          | _ =>
              obtain ⟨name, _, hnamed, _⟩ := h
              exact absurd (hname.symm.trans hnamed) (by simp)

theorem Opens.fits (h : ground.Opens schema event inside) :
    event.fit? ground.scope = some event ∧ event.opens? = some inside.scope := by
  cases ground with
  | list elements => exact h.elim
  | document =>
      cases event <;> cases inside <;> first | exact h.elim | exact ⟨rfl, rfl⟩
  | object type =>
      obtain ⟨name, property, hname, _, hopens⟩ := h
      refine ⟨fit?_object hname, ?_⟩
      cases event <;> cases inside <;> first | exact hopens.elim | rfl

theorem Accepts.takes (h : ground.Accepts schema event) (hopens : event.opens? = none) :
    ground.Takes schema event := by
  rcases h with htakes | ⟨inside, hinside⟩
  · exact htakes
  · exact absurd (hopens.symm.trans hinside.fits.2) (by simp)

end Ground

namespace Forest

/-- What conforms is well-formed. -/
theorem Conforms.fits {schema : Schema} {ground : Ground} {forest : Forest}
    (h : forest.Conforms schema ground) : forest.Fits ground.scope := by
  induction forest generalizing ground with
  | nil => trivial
  | leaf event rest ih => exact ⟨h.1.fits, ih h.2⟩
  | nest opening inner rest ihinner ihrest =>
      obtain ⟨⟨inside, hopens, _, hinner⟩, hrest⟩ := h
      exact ⟨hopens.fits.1, ⟨inside.scope, hopens.fits.2, ihinner hinner⟩, ihrest hrest⟩

/-- No item of a scope repeats one before it, nor one of the items that stand before them
all. -/
def DistinctFrom (earlier : List Event) (forest : Forest) : Prop :=
  forest.Distinct ∧ ∀ event ∈ forest.heads, ∀ other ∈ earlier, ¬event.Repeats other

section DistinctFrom
variable {earlier : List Event} {event opening : Event} {inner rest : Forest}

theorem distinctFrom_nil {forest : Forest} : forest.DistinctFrom [] ↔ forest.Distinct := by
  simp [DistinctFrom]

theorem distinctFrom_cons_iff {forest : Forest} {heads : List Event}
    (hheads : forest.heads = event :: heads) (hrest : rest.heads = heads) :
    forest.DistinctFrom earlier ↔
      (∀ other ∈ earlier, ¬event.Repeats other) ∧ rest.DistinctFrom (event :: earlier) := by
  simp only [DistinctFrom, Distinct, hheads, hrest, List.pairwise_cons, List.forall_mem_cons]
  constructor
  · rintro ⟨⟨hfirst, hdistinct⟩, hevent, hothers⟩
    exact ⟨hevent, hdistinct, fun other hmem => ⟨hfirst other hmem, hothers other hmem⟩⟩
  · rintro ⟨hevent, hdistinct, hothers⟩
    exact ⟨⟨fun other hmem => (hothers other hmem).1, hdistinct⟩, hevent,
      fun other hmem => (hothers other hmem).2⟩

theorem distinctFrom_leaf : (leaf event rest).DistinctFrom earlier ↔
    (∀ other ∈ earlier, ¬event.Repeats other) ∧ rest.DistinctFrom (event :: earlier) :=
  distinctFrom_cons_iff rfl rfl

theorem distinctFrom_nest : (nest opening inner rest).DistinctFrom earlier ↔
    (∀ other ∈ earlier, ¬opening.Repeats other) ∧ rest.DistinctFrom (opening :: earlier) :=
  distinctFrom_cons_iff rfl rfl

end DistinctFrom

end Forest

namespace Fares

variable {schema : Schema} {ground : Ground} {earlier : List Event} {event : Event}

theorem not_repeats (h : Fares schema ground earlier event none) :
    ∀ other ∈ earlier, ¬event.Repeats other := by
  cases h with
  | kept _ hfresh => exact fun other hmem hrepeats => hfresh other hmem hrepeats.sharesKey

/-- Where names have no colon, an item that may stand and repeats nothing is not
marked. -/
theorem eq_none {mark : Option Violation} (h : Fares schema ground earlier event mark)
    (hschema : schema.IsColonFree) (hground : ground.Declared schema)
    (hearlier : ∀ other ∈ earlier, ground.Accepts schema other)
    (haccepts : ground.Accepts schema event) (hdistinct : ∀ other ∈ earlier, ¬event.Repeats other) :
    mark = none := by
  cases h with
  | kept => rfl
  | unacceptable hnot hother => exact absurd haccepts hnot
  | @duplicate other _ hmem hshares =>
      have hrepeats :=
        hshares.repeats_of_isColonFree hschema hground haccepts (hearlier other hmem)
      exact absurd hrepeats (hdistinct other hmem)

end Fares

namespace Marking

variable {schema : Schema} {marking : Marking} {ground : Ground} {earlier : List Event}

/-- What is checked without a mark conforms. -/
theorem EachItem.conforms (h : marking.EachItem schema (Fares schema) ground earlier)
    (hmarks : marking.violations = []) {scope : Scope} (hfits : marking.whole.Fits scope) :
    marking.whole.DistinctFrom earlier ∧ marking.whole.Conforms schema ground := by
  induction marking generalizing ground earlier scope with
  | nil => exact ⟨⟨.nil, by simp [whole, Forest.heads]⟩, trivial⟩
  | keep event rest ih =>
      obtain ⟨hevent, hrest⟩ := h
      obtain ⟨⟨_, hopens, _⟩, hfitsRest⟩ := hfits
      obtain ⟨hdistinct, hconforms⟩ := ih hrest hmarks hfitsRest
      exact ⟨Forest.distinctFrom_leaf.mpr ⟨hevent.not_repeats, hdistinct⟩,
        hevent.accepts.takes hopens, hconforms⟩
  | enter opening inner rest ihinner ihrest =>
      obtain ⟨hopening, ⟨inside, hopens, hinner⟩, hrest⟩ := h
      obtain ⟨_, ⟨opened, _, hfitsInner⟩, hfitsRest⟩ := hfits
      obtain ⟨hmarksInner, hmarksRest⟩ := List.append_eq_nil_iff.mp hmarks
      obtain ⟨hdistinctInner, hconformsInner⟩ := ihinner hinner hmarksInner hfitsInner
      obtain ⟨hdistinct, hconforms⟩ := ihrest hrest hmarksRest hfitsRest
      refine ⟨Forest.distinctFrom_nest.mpr ⟨hopening.not_repeats, hdistinct⟩, ?_, hconforms⟩
      exact ⟨inside, hopens, Forest.distinctFrom_nil.mp hdistinctInner, hconformsInner⟩
  | drop violation event rest ih => cases hmarks
  | prune violation opening inside rest ih => cases hmarks

/-- What conforms is checked without a mark, where no name has a colon. -/
theorem EachItem.violations_eq_nil (h : marking.EachItem schema (Fares schema) ground earlier)
    (hschema : schema.IsColonFree) (hground : ground.Declared schema)
    (hearlier : ∀ other ∈ earlier, ground.Accepts schema other)
    (hdistinct : marking.whole.DistinctFrom earlier)
    (hconforms : marking.whole.Conforms schema ground) : marking.violations = [] := by
  induction marking generalizing ground earlier with
  | nil => rfl
  | keep event rest ih =>
      obtain ⟨hevent, hrest⟩ := h
      have hkept := List.forall_mem_cons.mpr ⟨hevent.accepts, hearlier⟩
      exact ih hrest hground hkept (Forest.distinctFrom_leaf.mp hdistinct).2 hconforms.2
  | enter opening inner rest ihinner ihrest =>
      obtain ⟨hopening, ⟨inside, hopens, hinner⟩, hrest⟩ := h
      obtain ⟨⟨other, hother, hdistinctInner, hconformsInner⟩, hconformsRest⟩ := hconforms
      obtain rfl : inside = other := hopens.unique hother
      have hkept := List.forall_mem_cons.mpr ⟨hopening.accepts, hearlier⟩
      have hwithin : inner.violations = [] :=
        ihinner hinner hopens.declared (by simp) (Forest.distinctFrom_nil.mpr hdistinctInner)
          hconformsInner
      have hbehind : rest.violations = [] :=
        ihrest hrest hground hkept (Forest.distinctFrom_nest.mp hdistinct).2 hconformsRest
      rw [violations, hwithin, hbehind, List.nil_append]
  | drop violation event rest ih =>
      have hnever := h.1.eq_none hschema hground hearlier (.inl hconforms.1)
        (Forest.distinctFrom_leaf.mp hdistinct).1
      cases hnever
  | prune violation opening inside rest ih =>
      obtain ⟨⟨opened, hopens, _⟩, _⟩ := hconforms
      have hnever := h.1.eq_none hschema hground hearlier (.inr ⟨opened, hopens⟩)
        (Forest.distinctFrom_nest.mp hdistinct).1
      cases hnever

end Marking

namespace Schema

variable {schema : Schema} {events : List Event}

theorem Conforms.of_violations_eq_nil (hschema : schema.IsClosed) (hevents : Balanced events)
    (hmarks : Verdict.violations (schema.verdicts (wholeDocument events)) = []) :
    schema.Conforms events := by
  obtain ⟨marking, hmarking⟩ := exists_marksDocument schema hevents
  rw [hmarking.violations_eq] at hmarks
  obtain ⟨hdistinct, hconforms⟩ := (hmarking.eachItem hschema).conforms hmarks hmarking.fits
  exact ⟨marking.whole, hmarking.events_eq, Forest.distinctFrom_nil.mp hdistinct, hconforms⟩

theorem Conforms.violations_eq_nil (h : schema.Conforms events) (hschema : schema.IsClosed)
    (hcolons : schema.IsColonFree) :
    Verdict.violations (schema.verdicts (wholeDocument events)) = [] := by
  obtain ⟨forest, rfl, hdistinct, hconforms⟩ := h
  obtain ⟨marking, hmarks, rfl⟩ :=
    Checker.Marks.exists_of_fits schema (.object none []) (by rfl) hconforms.fits
  have hmarking : schema.MarksDocument marking.whole.events marking :=
    ⟨hconforms.fits, rfl, hmarks⟩
  rw [hmarking.violations_eq]
  exact (hmarking.eachItem hschema).violations_eq_nil hcolons trivial (by simp)
    (Forest.distinctFrom_nil.mpr hdistinct) hconforms

theorem Conforms.forwarded_eq (h : schema.Conforms events) (hschema : schema.IsClosed)
    (hcolons : schema.IsColonFree) :
    Verdict.forwarded (schema.verdicts (wholeDocument events)) = wholeDocument events := by
  have hsilent := h.violations_eq_nil hschema hcolons
  obtain ⟨forest, rfl, _, hconforms⟩ := h
  exact forwarded_eq_of_silent hconforms.fits.balanced hsilent

/-- A checker reports nothing of a balanced document exactly if the document conforms to
its schema, and then it passes all of it on, where no property has a name with a colon in
it. No loaded schema has such a name. -/
theorem reports_nothing_iff_conforms :
    (∀ source schema, load source = .ok schema → schema.IsBuilt ∧ schema.IsColonFree) ∧
      ∀ schema : Schema, schema.IsBuilt → schema.IsColonFree → ∀ events, Balanced events →
        (Verdict.violations (schema.verdicts (wholeDocument events)) = [] ↔
          schema.Conforms events) ∧
        (schema.Conforms events →
          Verdict.forwarded (schema.verdicts (wholeDocument events)) = wholeDocument events) := by
  refine ⟨fun source schema => isBuilt_of_load, fun schema hbuilt hcolons events hevents => ?_⟩
  have hsilent : Verdict.violations (schema.verdicts (wholeDocument events)) = [] ↔
      schema.Conforms events :=
    ⟨Conforms.of_violations_eq_nil hbuilt.isClosed hevents,
      fun h => h.violations_eq_nil hbuilt.isClosed hcolons⟩
  exact ⟨hsilent, fun hconforms => hconforms.forwarded_eq hbuilt.isClosed hcolons⟩

theorem reports_nothing_iff_conforms_view :
    let source := "schema:s\x7bobject_type:view\x7bproperty:label\x7btype:string\x7d\x7d" ++
      "root_properties:[view]\x7d"
    let schema : Schema :=
      ⟨"s", .empty, .ofList [("view", ⟨.ofList [("label", .string)]⟩)], .ofList ["view"]⟩
    let events := [.named "view" "v", .comment "c", .string (some "label") "a:b", .close]
    load source.toList = .ok schema ∧ schema.Conforms events ∧
      Verdict.forwarded (schema.verdicts (wholeDocument events)) = wholeDocument events := by
  intro source schema events
  have hload : load source.toList = .ok schema := by decide +kernel
  obtain ⟨hbuilt, hcolons⟩ := reports_nothing_iff_conforms.1 source.toList schema hload
  obtain ⟨hsilent, hpassed⟩ :=
    reports_nothing_iff_conforms.2 schema hbuilt hcolons events (by decide)
  have hconforms : schema.Conforms events := hsilent.mp (by decide +kernel)
  exact ⟨hload, hconforms, hpassed hconforms⟩

end Schema

end Lookml
