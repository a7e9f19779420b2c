import Lookml.Conformance.Checker
import Lookml.Proofs.Event.Balanced

/-!
What a checker passes on is a document again. Its levels stand for the scopes open in the
stream it watches: the outer ones for scopes that it has passed on, the inner ones, if
any, for scopes inside one that it refused.
-/

namespace Lookml.Checker

/-- The kind of scope that a level has passed on; a refused one has passed on none. -/
def Level.scope? : Level → Option Scope
  | .object _ _ => some .object
  | .list _ _ => some .list
  | .refused => none

/-- Levels for scopes that were all passed on, with the document's level at the end. -/
inductive Keeps : OpenScopes → List Level → Prop
  | document {level : Level} (hlevel : level.scope? = some .object) : Keeps [] [level]
  | inner {level : Level} {scope : Scope} {scopes : OpenScopes} {levels : List Level}
      (hlevel : level.scope? = some scope) (outer : Keeps scopes levels) :
      Keeps (scope :: scopes) (level :: levels)

/-- Levels for open scopes of which the given outer ones were passed on. -/
inductive Watches (passed : OpenScopes) : OpenScopes → List Level → Prop
  | kept {levels : List Level} (levels_kept : Keeps passed levels) : Watches passed passed levels
  | refused {scope : Scope} {scopes : OpenScopes} {levels : List Level}
      (outer : Watches passed scopes levels) :
      Watches passed (scope :: scopes) (.refused :: levels)

theorem start_watches (schema : Schema) : Watches [] [] (start schema).levels :=
  .kept (.document rfl)

/-- What a judgement may say of an event in a scope that was passed on: the level goes on
as one of that scope, and with it the level of the scope that the event opens. -/
def Judgement.Sound (scope : Scope) (event : Event) : Judgement → Prop
  | .refuse _ => True
  | .keep level => level.scope? = some scope ∧ event.opens? = none
  | .enter level inner =>
      level.scope? = some scope ∧ ∃ opened, event.opens? = some opened ∧ inner.scope? = some opened
  | .ignore => False

section Judging
variable {schema : Schema} {type : Option (String × ObjectType)} {taken : List String}
  {name instanceName : String} {event : Event}

private theorem judgeScalar_sound (hopens : event.opens? = none) :
    (judgeScalar schema type taken name event).Sound .object event := by
  unfold judgeScalar
  split
  · exact ⟨rfl, hopens⟩
  · trivial

private theorem judgeList_sound (hopens : event.opens? = some .list) :
    (judgeList type taken name).Sound .object event := by
  unfold judgeList
  dsimp only
  split
  · exact ⟨rfl, .list, hopens, rfl⟩
  · trivial

private theorem judgeObject_sound (hopens : event.opens? = some .object) :
    (judgeObject schema type taken name).Sound .object event := by
  unfold judgeObject
  dsimp only
  split
  · exact ⟨rfl, .object, hopens, rfl⟩
  · trivial

private theorem judgeNamed_sound (hopens : event.opens? = some .object) :
    (judgeNamed schema type taken name instanceName).Sound .object event := by
  unfold judgeNamed
  dsimp only
  split
  · exact ⟨rfl, .object, hopens, rfl⟩
  · trivial

private theorem judgeElement_sound {elements : ListType} {violation : Violation} :
    (if elementKind event = admittedKind elements then Judgement.keep (.list name elements)
      else .refuse violation).Sound .list event := by
  split
  · rename_i hkind
    refine ⟨rfl, ?_⟩
    cases event <;> cases elements <;> first | rfl | cases hkind
  · trivial

theorem judge_sound {level : Level} {scope : Scope} (hlevel : level.scope? = some scope) :
    (judge schema level event).Sound scope event := by
  cases level with
  | refused => cases hlevel
  | object type taken =>
      obtain rfl : Scope.object = scope := Option.some.inj hlevel
      cases event with
      | comment text => exact ⟨rfl, rfl⟩
      | close => exact ⟨rfl, rfl⟩
      | number name value => exact judgeScalar_sound rfl
      | truth name value => exact judgeScalar_sound rfl
      | string name text => exact judgeScalar_sound rfl
      | identifier name text => exact judgeScalar_sound rfl
      | code name text => exact judgeScalar_sound rfl
      | pair reference text => exact judgeScalar_sound rfl
      | list name => exact judgeList_sound rfl
      | object name => exact judgeObject_sound rfl
      | named name instanceName => exact judgeNamed_sound rfl
  | list name elements =>
      obtain rfl : Scope.list = scope := Option.some.inj hlevel
      cases event with
      | comment text => exact ⟨rfl, rfl⟩
      | close => exact judgeElement_sound
      | number name value => exact judgeElement_sound
      | truth name value => exact judgeElement_sound
      | string name text => exact judgeElement_sound
      | identifier name text => exact judgeElement_sound
      | code name text => exact judgeElement_sound
      | pair reference text => exact judgeElement_sound
      | list name => exact judgeElement_sound
      | object name => exact judgeElement_sound
      | named name instanceName => exact judgeElement_sound

end Judging

/-! The steps of a checker, by what it judges of an event. -/

section Steps
variable {schema : Schema} {level : Level} {scope : Scope} {outer : List Level} {event : Event}

theorem step_keep {next : Level} (hclose : event ≠ .close)
    (hjudge : judge schema level event = .keep next) :
    step ⟨schema, level :: outer⟩ (.event event) =
      (⟨schema, next :: outer⟩, some (.forward (.event event))) := by
  cases event <;> simp_all [step]

theorem step_enter {next inside : Level} (hclose : event ≠ .close)
    (hjudge : judge schema level event = .enter next inside) :
    step ⟨schema, level :: outer⟩ (.event event) =
      (⟨schema, inside :: next :: outer⟩, some (.forward (.event event))) := by
  cases event <;> simp_all [step]

theorem step_refuse {violation : Violation} (hclose : event ≠ .close)
    (hjudge : judge schema level event = .refuse violation) :
    step ⟨schema, level :: outer⟩ (.event event) =
      (⟨schema, refusedLevels event ++ level :: outer⟩, some (.report violation)) := by
  cases event <;> simp_all [step]

theorem step_close (hlevel : level.scope? = some scope) :
    step ⟨schema, level :: outer⟩ (.event .close) =
      (⟨schema, outer⟩, some (.forward (.event .close))) := by
  cases level <;> first | rfl | cases hlevel

theorem step_refused (hclose : event ≠ .close) :
    step ⟨schema, .refused :: outer⟩ (.event event) =
      (⟨schema, refusedLevels event ++ .refused :: outer⟩, none) := by
  cases event <;> first | rfl | contradiction

end Steps

theorem Watches.refuse {passed scopes : OpenScopes} {levels : List Level} {event : Event}
    (h : Watches passed scopes levels) (hclose : event ≠ .close) :
    Watches passed (scopes.after event) (refusedLevels event ++ levels) := by
  cases hopens : event.opens? with
  | none =>
      rw [OpenScopes.after_eq_self hopens hclose, refusedLevels, hopens]
      exact h
  | some scope =>
      rw [OpenScopes.after_eq_cons hopens, refusedLevels, hopens]
      exact .refused h

theorem Keeps.exists_cons {scopes : OpenScopes} {levels : List Level} (h : Keeps scopes levels) :
    ∃ level outer, levels = level :: outer ∧ level.scope? = some scopes.current ∧
      ∀ next : Level, next.scope? = some scopes.current → Keeps scopes (next :: outer) := by
  cases h with
  | document hlevel => exact ⟨_, _, rfl, hlevel, fun _ hnext => .document hnext⟩
  | inner hlevel outer => exact ⟨_, _, rfl, hlevel, fun _ hnext => .inner hnext outer⟩

private theorem Watches.step_close {checker : Checker} {passed scopes : OpenScopes}
    (h : Watches passed scopes checker.levels) (hscopes : scopes ≠ []) :
    (∃ next, checker.step (.event .close) = (next, some (.forward (.event .close))) ∧
      passed = scopes ∧ Watches scopes.tail scopes.tail next.levels) ∨
    ∃ next, checker.step (.event .close) = (next, none) ∧
      Watches passed scopes.tail next.levels := by
  obtain ⟨schema, levels⟩ := checker
  cases h with
  | refused outer => exact .inr ⟨_, rfl, outer⟩
  | kept levels_kept =>
      cases levels_kept with
      | document hlevel => exact absurd rfl hscopes
      | @inner level scope scopes levels hlevel outer =>
          exact .inl ⟨⟨schema, levels⟩, Checker.step_close hlevel, rfl, .kept outer⟩

/-- One event: the checker passes it on where it stands in a scope that was passed on, or
keeps all of it back. -/
theorem Watches.step {checker : Checker} {passed scopes : OpenScopes} {event : Event}
    (h : Watches passed scopes checker.levels) (htakes : scopes.Takes event) :
    (∃ next, checker.step (.event event) = (next, some (.forward (.event event))) ∧
      passed = scopes ∧ Watches (scopes.after event) (scopes.after event) next.levels) ∨
    ∃ next verdict, checker.step (.event event) = (next, verdict) ∧
      verdict.bind Verdict.delivery? = none ∧ Watches passed (scopes.after event) next.levels := by
  by_cases hclose : event = .close
  · subst hclose
    rcases h.step_close (htakes.1 rfl) with hpassed | ⟨next, hstep, hnext⟩
    · exact .inl hpassed
    · exact .inr ⟨next, none, hstep, rfl, hnext⟩
  obtain ⟨schema, levels⟩ := checker
  cases h with
  | @refused scope scopes levels outer =>
      exact .inr ⟨_, _, step_refused hclose, rfl, (Watches.refused outer).refuse hclose⟩
  | kept levels_kept =>
      obtain ⟨level, outer, rfl, hlevel, hkept⟩ := levels_kept.exists_cons
      have hsound : (judge schema level event).Sound passed.current event := judge_sound hlevel
      cases hjudge : judge schema level event with
      | ignore => rw [hjudge] at hsound; exact hsound.elim
      | refuse violation =>
          have hrefused := (Watches.kept levels_kept).refuse hclose
          exact .inr ⟨_, _, step_refuse hclose hjudge, rfl, hrefused⟩
      | keep next =>
          rw [hjudge] at hsound
          rw [OpenScopes.after_eq_self hsound.2 hclose]
          exact .inl ⟨_, step_keep hclose hjudge, rfl, .kept (hkept next hsound.1)⟩
      | enter next inner =>
          rw [hjudge] at hsound
          obtain ⟨hnext, opened, hopens, hinner⟩ := hsound
          have hinside := Watches.kept (.inner hinner (hkept next hnext))
          rw [OpenScopes.after_eq_cons hopens]
          exact .inl ⟨_, step_enter hclose hjudge, rfl, hinside⟩

/-- Of a document whose scopes nest within a limit, a checker passes on a document within
the same limit. -/
theorem Watches.verdicts {limit : Nat} {events : List Event} {checker : Checker}
    {passed scopes : OpenScopes} (h : Watches passed scopes checker.levels)
    (hpassed : passed.length ≤ limit)
    (hevents : Leads (OpenScopes.TakesWithin limit) scopes events []) :
    ∃ told, Verdict.forwarded (checker.verdicts (wholeDocument events)) = wholeDocument told ∧
      Leads (OpenScopes.TakesWithin limit) passed told [] := by
  -- `passed` falls behind `scopes` where a scope is refused, and has caught up again
  -- where that one is closed.
  induction events generalizing checker passed scopes with
  | nil =>
      obtain rfl := hevents
      obtain ⟨schema, levels⟩ := checker
      cases h with
      | kept levels_kept =>
          cases levels_kept with
          | @document level hlevel =>
              refine ⟨[], ?_, rfl⟩
              cases level with
              | refused => cases hlevel
              | object type taken => rfl
              | list name elements => rfl
  | cons event events ih =>
      obtain ⟨⟨htakes, hdepth⟩, hevents⟩ := hevents
      rcases h.step htakes with ⟨next, hstep, rfl, hnext⟩ | ⟨next, verdict, hstep, hkept, hnext⟩
      · obtain ⟨told, hforwarded, htold⟩ := ih hnext hdepth hevents
        refine ⟨event :: told, ?_, ⟨htakes, hdepth⟩, htold⟩
        simp only [wholeDocument, Verdict.forwarded, List.map_cons,
          List.cons_append] at hforwarded ⊢
        rw [Checker.verdicts, hstep]
        simp only [Option.toList_some, List.cons_append, List.nil_append, List.filterMap_cons,
          Verdict.delivery?, hforwarded]
      · obtain ⟨told, hforwarded, htold⟩ := ih hnext hpassed hevents
        refine ⟨told, ?_, htold⟩
        simp only [wholeDocument, Verdict.forwarded, List.map_cons,
          List.cons_append] at hforwarded ⊢
        rw [Checker.verdicts, hstep]
        cases verdict with
        | none => exact hforwarded
        | some verdict =>
            have hnone : verdict.delivery? = none := hkept
            exact (List.filterMap_cons_none hnone).trans hforwarded

end Lookml.Checker
