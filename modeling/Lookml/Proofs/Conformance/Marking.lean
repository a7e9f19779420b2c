import Lookml.Proofs.Conformance.Watching
import Lookml.Proofs.Event.Forest

/-!
A checked document as a forest in which what was refused is marked with the violation that
was reported of it. What is marked stays out as a whole, and all of a marking but the
inside of marked scopes is the checker's doing; hence the errors of a document account for
what is left out of it, and what is passed on is not checked in vain again.
-/

namespace Lookml

namespace Verdict

@[simp] theorem forwarded_forward (delivery : Delivery) (verdicts : List Verdict) :
    forwarded (.forward delivery :: verdicts) = delivery :: forwarded verdicts := rfl

theorem forwarded_append (verdicts verdicts' : List Verdict) :
    forwarded (verdicts ++ verdicts') = forwarded verdicts ++ forwarded verdicts' :=
  List.filterMap_append

@[simp] theorem violations_forward (delivery : Delivery) (verdicts : List Verdict) :
    violations (.forward delivery :: verdicts) = violations verdicts := rfl

theorem violations_append (verdicts verdicts' : List Verdict) :
    violations (verdicts ++ verdicts') = violations verdicts ++ violations verdicts' :=
  List.filterMap_append

end Verdict

/-- The items of a scope, where some may be marked with a violation; inside a marked one
nothing is. -/
inductive Marking
  | nil
  | keep (event : Event) (rest : Marking)
  | enter (opening : Event) (inner rest : Marking)
  | drop (violation : Violation) (event : Event) (rest : Marking)
  | prune (violation : Violation) (opening : Event) (inside : Forest) (rest : Marking)

namespace Marking

/-- All items, marked or not. -/
def whole : Marking → Forest
  | .nil => .nil
  | .keep event rest => .leaf event rest.whole
  | .enter opening inner rest => .nest opening inner.whole rest.whole
  | .drop _ event rest => .leaf event rest.whole
  | .prune _ opening inside rest => .nest opening inside rest.whole

/-- The items that are not marked and stand in no marked scope. -/
def kept : Marking → Forest
  | .nil => .nil
  | .keep event rest => .leaf event rest.kept
  | .enter opening inner rest => .nest opening inner.kept rest.kept
  | .drop _ _ rest => rest.kept
  | .prune _ _ _ rest => rest.kept

/-- The marks, in the order of the items that have them. -/
def violations : Marking → List Violation
  | .nil => []
  | .keep _ rest => rest.violations
  | .enter _ inner rest => inner.violations ++ rest.violations
  | .drop violation _ rest => violation :: rest.violations
  | .prune violation _ _ rest => violation :: rest.violations

/-- One verdict for each item that is kept, two if it opens a scope, and one for each that
is marked. -/
def verdicts : Marking → List Verdict
  | .nil => []
  | .keep event rest => .forward (.event event) :: rest.verdicts
  | .enter opening inner rest =>
      .forward (.event opening) :: (inner.verdicts ++ .forward (.event .close) :: rest.verdicts)
  | .drop violation _ rest => .report violation :: rest.verdicts
  | .prune violation _ _ rest => .report violation :: rest.verdicts

/-- No comment is marked. -/
def KeepsComments : Marking → Prop
  | .nil => True
  | .keep _ rest => rest.KeepsComments
  | .enter _ inner rest => inner.KeepsComments ∧ rest.KeepsComments
  | .drop _ event rest => event.isComment = false ∧ rest.KeepsComments
  | .prune _ _ _ rest => rest.KeepsComments

/-- Two markings that differ at most in what stands inside marked scopes. -/
inductive Alike : Marking → Marking → Prop
  | nil : Alike .nil .nil
  | keep {event : Event} {rest rest' : Marking} (hrest : Alike rest rest') :
      Alike (.keep event rest) (.keep event rest')
  | enter {opening : Event} {inner inner' rest rest' : Marking} (hinner : Alike inner inner')
      (hrest : Alike rest rest') : Alike (.enter opening inner rest) (.enter opening inner' rest')
  | drop {violation : Violation} {event : Event} {rest rest' : Marking} (hrest : Alike rest rest') :
      Alike (.drop violation event rest) (.drop violation event rest')
  | prune {violation : Violation} {opening : Event} {rest rest' : Marking} (inside inside' : Forest)
      (hrest : Alike rest rest') :
      Alike (.prune violation opening inside rest) (.prune violation opening inside' rest')

/-- The marking of a forest in which nothing is marked. -/
def ofForest : Forest → Marking
  | .nil => .nil
  | .leaf event rest => .keep event (ofForest rest)
  | .nest opening inner rest => .enter opening (ofForest inner) (ofForest rest)

@[simp] theorem whole_ofForest (forest : Forest) : (ofForest forest).whole = forest := by
  induction forest with
  | nil => rfl
  | leaf event rest ih => rw [ofForest, whole, ih]
  | nest opening inner rest ihinner ihrest => rw [ofForest, whole, ihinner, ihrest]

theorem forwarded_verdicts (marking : Marking) :
    Verdict.forwarded marking.verdicts = marking.kept.events.map .event := by
  induction marking with
  | nil => rfl
  | keep event rest ih => exact congrArg (Delivery.event event :: ·) ih
  | enter opening inner rest ihinner ihrest =>
      rw [verdicts, Verdict.forwarded_forward, Verdict.forwarded_append, Verdict.forwarded_forward,
        ihinner, ihrest, kept, Forest.events_nest, List.map_cons, List.map_append, List.map_cons]
  | drop violation event rest ih => exact ih
  | prune violation opening inside rest ih => exact ih

theorem violations_verdicts (marking : Marking) :
    Verdict.violations marking.verdicts = marking.violations := by
  induction marking with
  | nil => rfl
  | keep event rest ih => exact ih
  | enter opening inner rest ihinner ihrest =>
      rw [verdicts, Verdict.violations_forward, Verdict.violations_append,
        Verdict.violations_forward, ihinner, ihrest, violations]
  | drop violation event rest ih => exact congrArg (violation :: ·) ih
  | prune violation opening inside rest ih => exact congrArg (violation :: ·) ih

theorem Fits.kept {marking : Marking} {scope : Scope} (h : marking.whole.Fits scope) :
    marking.kept.Fits scope := by
  induction marking generalizing scope with
  | nil => trivial
  | keep event rest ih => exact ⟨h.1, ih h.2⟩
  | enter opening inner rest ihinner ihrest =>
      obtain ⟨hfit, ⟨inside, hopens, hinner⟩, hrest⟩ := h
      exact ⟨hfit, ⟨inside, hopens, ihinner hinner⟩, ihrest hrest⟩
  | drop violation event rest ih => exact ih h.2
  | prune violation opening inside rest ih => exact ih h.2.2

theorem kept_sublist (marking : Marking) : marking.kept.events.Sublist marking.whole.events := by
  induction marking with
  | nil => exact .slnil
  | keep event rest ih => exact ih.cons_cons event
  | enter opening inner rest ihinner ihrest =>
      exact (ihinner.append (ihrest.cons_cons .close)).cons_cons opening
  | drop violation event rest ih => exact ih.cons event
  | prune violation opening inside rest ih =>
      exact (((ih.cons .close).trans (List.sublist_append_right _ _))).cons opening

/-- Each mark leaves at least one event out. -/
theorem length_kept_add_length_violations_le (marking : Marking) :
    marking.kept.events.length + marking.violations.length ≤ marking.whole.events.length := by
  induction marking with
  | nil => exact Nat.le_refl _
  | keep event rest ih =>
      simp only [kept, whole, violations, Forest.events_leaf, List.length_cons]
      omega
  | enter opening inner rest ihinner ihrest =>
      simp only [kept, whole, violations, Forest.events_nest, List.length_cons, List.length_append]
      omega
  | drop violation event rest ih =>
      simp only [kept, whole, violations, Forest.events_leaf, List.length_cons]
      omega
  | prune violation opening inside rest ih =>
      simp only [kept, whole, violations, Forest.events_nest, List.length_cons, List.length_append]
      omega

theorem kept_eq_whole {marking : Marking} (h : marking.violations = []) :
    marking.kept = marking.whole := by
  induction marking with
  | nil => rfl
  | keep event rest ih => rw [kept, whole, ih h]
  | enter opening inner rest ihinner ihrest =>
      obtain ⟨hinner, hrest⟩ := List.append_eq_nil_iff.mp h
      rw [kept, whole, ihinner hinner, ihrest hrest]
  | drop violation event rest ih => cases h
  | prune violation opening inside rest ih => cases h

/-- Nothing is marked just where nothing is left out. -/
theorem violations_eq_nil_iff (marking : Marking) :
    marking.violations = [] ↔ marking.kept.events = marking.whole.events := by
  constructor
  · intro h
    rw [kept_eq_whole h]
  · intro h
    have hlength := marking.length_kept_add_length_violations_le
    rw [h] at hlength
    exact List.eq_nil_of_length_eq_zero (by omega)

theorem Alike.verdicts_eq {marking marking' : Marking} (h : Alike marking marking') :
    marking.verdicts = marking'.verdicts := by
  induction h with
  | nil => rfl
  | keep hrest ih => rw [verdicts, verdicts, ih]
  | enter hinner hrest ihinner ihrest => rw [verdicts, verdicts, ihinner, ihrest]
  | drop hrest ih => rw [verdicts, verdicts, ih]
  | prune inside inside' hrest ih => rw [verdicts, verdicts, ih]

end Marking

namespace Checker

/-- The marks are those of a checker that has come to this level. -/
inductive Marks (schema : Schema) : Level → Marking → Prop
  | nil {level : Level} : Marks schema level .nil
  | keep {level next : Level} {event : Event} {rest : Marking}
      (hjudge : judge schema level event = .keep next) (hrest : Marks schema next rest) :
      Marks schema level (.keep event rest)
  | enter {level next inside : Level} {opening : Event} {inner rest : Marking}
      (hjudge : judge schema level opening = .enter next inside)
      (hinner : Marks schema inside inner) (hrest : Marks schema next rest) :
      Marks schema level (.enter opening inner rest)
  | drop {level : Level} {violation : Violation} {event : Event} {rest : Marking}
      (hjudge : judge schema level event = .refuse violation) (hrest : Marks schema level rest) :
      Marks schema level (.drop violation event rest)
  | prune {level : Level} {violation : Violation} {opening : Event} {inside : Forest}
      {rest : Marking} (hjudge : judge schema level opening = .refuse violation)
      (hrest : Marks schema level rest) : Marks schema level (.prune violation opening inside rest)

namespace Marks

variable {schema : Schema} {level : Level} {scope : Scope} {marking marking' : Marking}

theorem exists_of_fits (schema : Schema) (level : Level) {forest : Forest}
    (hlevel : level.scope? = some scope) (hfits : forest.Fits scope) :
    ∃ marking, Marks schema level marking ∧ marking.whole = forest := by
  induction forest generalizing level scope with
  | nil => exact ⟨.nil, .nil, rfl⟩
  | leaf event rest ih =>
      obtain ⟨⟨_, hopens, _⟩, hrest⟩ := hfits
      have hsound : (judge schema level event).Sound scope event := judge_sound hlevel
      cases hjudge : judge schema level event with
      | ignore => rw [hjudge] at hsound; exact hsound.elim
      | enter next inside =>
          rw [hjudge] at hsound
          obtain ⟨_, opened, hopened, _⟩ := hsound
          exact absurd (hopens.symm.trans hopened) (by simp)
      | keep next =>
          rw [hjudge] at hsound
          obtain ⟨marking, hmarks, rfl⟩ := ih next hsound.1 hrest
          exact ⟨.keep event marking, .keep hjudge hmarks, rfl⟩
      | refuse violation =>
          obtain ⟨marking, hmarks, rfl⟩ := ih level hlevel hrest
          exact ⟨.drop violation event marking, .drop hjudge hmarks, rfl⟩
  | nest opening inner rest ihinner ihrest =>
      obtain ⟨_, ⟨inside, hopens, hinner⟩, hrest⟩ := hfits
      have hsound : (judge schema level opening).Sound scope opening := judge_sound hlevel
      cases hjudge : judge schema level opening with
      | ignore => rw [hjudge] at hsound; exact hsound.elim
      | keep next =>
          rw [hjudge] at hsound
          exact absurd (hopens.symm.trans hsound.2) (by simp)
      | enter next entered =>
          rw [hjudge] at hsound
          obtain ⟨hnext, opened, hopened, hentered⟩ := hsound
          obtain rfl : inside = opened := Option.some.inj (hopens.symm.trans hopened)
          obtain ⟨within, hwithin, rfl⟩ := ihinner entered hentered hinner
          obtain ⟨marking, hmarks, rfl⟩ := ihrest next hnext hrest
          exact ⟨.enter opening within marking, .enter hjudge hwithin hmarks, rfl⟩
      | refuse violation =>
          obtain ⟨marking, hmarks, rfl⟩ := ihrest level hlevel hrest
          exact ⟨.prune violation opening inner marking, .prune hjudge hmarks, rfl⟩

/-- What a checker marks does not depend on the inside of what it has marked. -/
theorem of_alike (h : Marks schema level marking) (halike : marking.Alike marking') :
    Marks schema level marking' := by
  induction halike generalizing level with
  | nil => exact .nil
  | keep hrest ih =>
      cases h with
      | keep hjudge h => exact .keep hjudge (ih h)
  | enter hinner hrest ihinner ihrest =>
      cases h with
      | enter hjudge hinner h => exact .enter hjudge (ihinner hinner) (ihrest h)
  | drop hrest ih =>
      cases h with
      | drop hjudge h => exact .drop hjudge (ih h)
  | prune inside inside' hrest ih =>
      cases h with
      | prune hjudge h => exact .prune hjudge (ih h)

/-- A refused item leaves the level as it was, so what is kept is kept again, with no
mark. -/
theorem kept (h : Marks schema level marking) : Marks schema level (.ofForest marking.kept) := by
  induction h with
  | nil => exact .nil
  | keep hjudge hrest ih => exact .keep hjudge ih
  | enter hjudge hinner hrest ihinner ihrest => exact .enter hjudge ihinner ihrest
  | drop hjudge hrest ih => exact ih
  | prune hjudge hrest ih => exact ih

theorem keepsComments (h : Marks schema level marking) (hlevel : level.scope? = some scope) :
    marking.KeepsComments := by
  induction h generalizing scope with
  | nil => trivial
  | @keep level next event rest hjudge hrest ih =>
      have hsound : (judge schema level event).Sound scope event := judge_sound hlevel
      rw [hjudge] at hsound
      exact ih hsound.1
  | @enter level next inside opening inner rest hjudge hinner hrest ihinner ihrest =>
      have hsound : (judge schema level opening).Sound scope opening := judge_sound hlevel
      rw [hjudge] at hsound
      obtain ⟨hnext, opened, _, hinside⟩ := hsound
      exact ⟨ihinner hinside, ihrest hnext⟩
  | @drop level violation event rest hjudge hrest ih =>
      refine ⟨?_, ih hlevel⟩
      cases event with
      | comment text => cases level <;> cases hjudge
      | _ => rfl
  | prune hjudge hrest ih => exact ih hlevel

end Marks

/-! The run of a checker over a forest. -/

section Run
variable {schema : Schema} {level : Level} {scope : Scope}

theorem verdicts_cons (checker : Checker) (delivery : Delivery) (deliveries : List Delivery) :
    checker.verdicts (delivery :: deliveries) =
      (checker.step delivery).2.toList ++ (checker.step delivery).1.verdicts deliveries := rfl

/-- The checker behind some deliveries. -/
def run (checker : Checker) (deliveries : List Delivery) : Checker :=
  deliveries.foldl (fun checker delivery => (checker.step delivery).1) checker

theorem run_append (checker : Checker) (deliveries deliveries' : List Delivery) :
    checker.run (deliveries ++ deliveries') = (checker.run deliveries).run deliveries' :=
  List.foldl_append

theorem verdicts_append (checker : Checker) (deliveries deliveries' : List Delivery) :
    checker.verdicts (deliveries ++ deliveries') =
      checker.verdicts deliveries ++ (checker.run deliveries).verdicts deliveries' := by
  induction deliveries generalizing checker with
  | nil => rfl
  | cons delivery deliveries ih =>
      rw [List.cons_append, verdicts_cons, ih, verdicts_cons, List.append_assoc]
      rfl

/-- In a refused scope nothing is looked at, and after it the refused scope goes on. -/
theorem verdicts_refused (levels : List Level) {forest : Forest} (hfits : forest.Fits scope)
    (deliveries : List Delivery) :
    verdicts ⟨schema, .refused :: levels⟩ (forest.events.map .event ++ deliveries) =
      verdicts ⟨schema, .refused :: levels⟩ deliveries := by
  induction forest generalizing scope levels deliveries with
  | nil => rfl
  | leaf event rest ih =>
      obtain ⟨⟨hclose, hopens, _⟩, hrest⟩ := hfits
      rw [Forest.events_leaf, List.map_cons, List.cons_append, verdicts_cons, step_refused hclose,
        refusedLevels, hopens]
      exact ih levels hrest deliveries
  | nest opening inner rest ihinner ihrest =>
      obtain ⟨_, ⟨inside, hopens, hinner⟩, hrest⟩ := hfits
      rw [Forest.events_nest, List.map_cons, List.map_append, List.map_cons, List.cons_append,
        List.append_assoc, verdicts_cons, step_refused (Forest.ne_close_of_opens hopens),
        refusedLevels, hopens]
      exact (ihinner (.refused :: levels) hinner _).trans (ihrest levels hrest deliveries)

/-- A checker gives the verdicts of its marks, and goes on at a level of the same
scope. -/
theorem Marks.verdicts_eq {marking : Marking} (h : Marks schema level marking)
    (hlevel : level.scope? = some scope) (hfits : marking.whole.Fits scope) (outer : List Level)
    (deliveries : List Delivery) :
    ∃ last : Level, last.scope? = some scope ∧
      verdicts ⟨schema, level :: outer⟩ (marking.whole.events.map .event ++ deliveries) =
        marking.verdicts ++ verdicts ⟨schema, last :: outer⟩ deliveries := by
  induction h generalizing scope outer deliveries with
  | @nil level => exact ⟨level, hlevel, rfl⟩
  | @keep level next event rest hjudge hrest ih =>
      obtain ⟨⟨hclose, _, _⟩, hfitsRest⟩ := hfits
      have hsound : (judge schema level event).Sound scope event := judge_sound hlevel
      rw [hjudge] at hsound
      obtain ⟨last, hlast, heq⟩ := ih hsound.1 hfitsRest outer deliveries
      refine ⟨last, hlast, ?_⟩
      rw [Marking.whole, Forest.events_leaf, List.map_cons, List.cons_append, verdicts_cons,
        step_keep hclose hjudge, heq]
      rfl
  | @enter level next inside opening inner rest hjudge hinner hrest ihinner ihrest =>
      obtain ⟨_, ⟨opened, hopens, hfitsInner⟩, hfitsRest⟩ := hfits
      have hsound : (judge schema level opening).Sound scope opening := judge_sound hlevel
      rw [hjudge] at hsound
      obtain ⟨hnext, other, hother, hinside⟩ := hsound
      obtain rfl : opened = other := Option.some.inj (hopens.symm.trans hother)
      obtain ⟨last, hlast, heq⟩ := ihrest hnext hfitsRest outer deliveries
      obtain ⟨ending, hending, heqInner⟩ := ihinner hinside hfitsInner (next :: outer)
        (.event .close :: (rest.whole.events.map .event ++ deliveries))
      refine ⟨last, hlast, ?_⟩
      rw [Marking.whole, Forest.events_nest, List.map_cons, List.map_append, List.map_cons,
        List.cons_append, List.append_assoc, List.cons_append, verdicts_cons,
        step_enter (Forest.ne_close_of_opens hopens) hjudge, heqInner, verdicts_cons,
        step_close hending, heq]
      simp [Marking.verdicts]
  | @drop level violation event rest hjudge hrest ih =>
      obtain ⟨⟨hclose, hopens, _⟩, hfitsRest⟩ := hfits
      obtain ⟨last, hlast, heq⟩ := ih hlevel hfitsRest outer deliveries
      refine ⟨last, hlast, ?_⟩
      rw [Marking.whole, Forest.events_leaf, List.map_cons, List.cons_append, verdicts_cons,
        step_refuse hclose hjudge, refusedLevels, hopens]
      exact congrArg (Verdict.report violation :: ·) heq
  | @prune level violation opening inside rest hjudge hrest ih =>
      obtain ⟨_, ⟨opened, hopens, hfitsInside⟩, hfitsRest⟩ := hfits
      obtain ⟨last, hlast, heq⟩ := ih hlevel hfitsRest outer deliveries
      refine ⟨last, hlast, ?_⟩
      rw [Marking.whole, Forest.events_nest, List.map_cons, List.map_append, List.map_cons,
        List.cons_append, List.append_assoc, verdicts_cons,
        step_refuse (Forest.ne_close_of_opens hopens) hjudge, refusedLevels, hopens]
      refine congrArg (Verdict.report violation :: ·) ?_
      exact (verdicts_refused (level :: outer) hfitsInside _).trans heq

end Run

end Checker

namespace Schema

/-- The marking of a document by the checker of a schema. -/
structure MarksDocument (schema : Schema) (events : List Event) (marking : Marking) : Prop where
  fits : marking.whole.Fits .object
  events_eq : marking.whole.events = events
  marks : Checker.Marks schema (.object none []) marking

variable {schema : Schema} {events : List Event} {marking : Marking}

theorem exists_marksDocument (schema : Schema) (hevents : Balanced events) :
    ∃ marking, schema.MarksDocument events marking := by
  obtain ⟨forest, hfits, hforest⟩ := balanced_iff_exists_forest.mp hevents
  obtain ⟨marking, hmarks, rfl⟩ :=
    Checker.Marks.exists_of_fits schema (.object none []) rfl hfits
  exact ⟨marking, hfits, hforest, hmarks⟩

theorem MarksDocument.verdicts_eq (h : schema.MarksDocument events marking) :
    schema.verdicts (wholeDocument events) = marking.verdicts ++ [.forward (.event .close)] := by
  obtain ⟨last, hlast, heq⟩ := h.marks.verdicts_eq rfl h.fits [] [.event .close]
  rw [h.events_eq] at heq
  refine heq.trans (congrArg (marking.verdicts ++ ·) ?_)
  rw [Checker.verdicts_cons, Checker.step_close hlast]
  rfl

theorem MarksDocument.forwarded_eq (h : schema.MarksDocument events marking) :
    Verdict.forwarded (schema.verdicts (wholeDocument events)) =
      wholeDocument marking.kept.events := by
  rw [h.verdicts_eq, Verdict.forwarded_append, marking.forwarded_verdicts]
  rfl

theorem MarksDocument.violations_eq (h : schema.MarksDocument events marking) :
    Verdict.violations (schema.verdicts (wholeDocument events)) = marking.violations := by
  rw [h.verdicts_eq, Verdict.violations_append, marking.violations_verdicts]
  exact List.append_nil _

/-- A check that reports nothing passes on all that it is told. -/
theorem forwarded_eq_of_silent (hevents : Balanced events)
    (h : Verdict.violations (schema.verdicts (wholeDocument events)) = []) :
    Verdict.forwarded (schema.verdicts (wholeDocument events)) = wholeDocument events := by
  obtain ⟨marking, hmarking⟩ := exists_marksDocument schema hevents
  have hmarks : marking.violations = [] := hmarking.violations_eq.symm.trans h
  rw [hmarking.forwarded_eq, Marking.kept_eq_whole hmarks, hmarking.events_eq]

end Schema

end Lookml
