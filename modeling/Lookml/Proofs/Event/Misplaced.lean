import Lookml.Proofs.Event.Replayed

/-!
Events that cannot stand where they do, in a list whose openings and closings are paired.
Replaying leaves such an event out. Of one that opens no scope this is all there is to it;
but where an opening is left out, the items behind it come to stand in the scope around
it, and its closing closes that one.
-/

namespace Lookml

namespace OpenScopes

/-- Only an opened scope is closed. -/
def CanClose (scopes : OpenScopes) (event : Event) : Prop := event = .close → scopes ≠ []

instance (scopes : OpenScopes) (event : Event) : Decidable (scopes.CanClose event) :=
  inferInstanceAs (Decidable (_ → _))

/-- An event that opens a scope can stand where it does. -/
def OpeningFits (scopes : OpenScopes) (event : Event) : Prop :=
  event.opens?.isSome = true → (event.fit? scopes.current).isSome = true

end OpenScopes

/-- Every closing closes a scope that was opened, and all of them are closed, wherever the
events stand. -/
def Paired (events : List Event) : Prop := Leads OpenScopes.CanClose [] events []

instance (events : List Event) : Decidable (Paired events) :=
  inferInstanceAs (Decidable (Leads _ _ _ _))

/-- Told inside some scopes, the events leave these others open, or have closed the
document. -/
def Leaves (scopes : OpenScopes) (events : List Event) (last : Option OpenScopes) : Prop :=
  ∃ told : List Delivery, ∀ deliveries : List Delivery,
    settle scopes (events.map .event ++ deliveries) =
      told ++ (last.map (settle · deliveries)).getD []

namespace Leaves

variable {scopes middle : OpenScopes} {last : Option OpenScopes} {event fitted : Event}
  {events events' : List Event}

theorem nil (scopes : OpenScopes) : Leaves scopes [] (some scopes) := ⟨[], fun _ => rfl⟩

theorem misplaced (hfit : event.fit? scopes.current = none) (h : Leaves scopes events last) :
    Leaves scopes (event :: events) last := by
  obtain ⟨told, htold⟩ := h
  refine ⟨told, fun deliveries => ?_⟩
  rw [List.map_cons, List.cons_append, settle_misplaced hfit, htold]

theorem placed (hopened : event = .close → scopes ≠ [])
    (hfit : event.fit? scopes.current = some fitted)
    (h : Leaves (scopes.after fitted) events last) :
    Leaves scopes (event :: events) last := by
  obtain ⟨told, htold⟩ := h
  refine ⟨.event fitted :: told, fun deliveries => ?_⟩
  rw [List.map_cons, List.cons_append, settle_placed hopened hfit, htold, List.cons_append]

theorem append (h : Leaves scopes events (some middle)) (h' : Leaves middle events' last) :
    Leaves scopes (events ++ events') last := by
  obtain ⟨told, htold⟩ := h
  obtain ⟨told', htold'⟩ := h'
  refine ⟨told ++ told', fun deliveries => ?_⟩
  rw [List.map_append, List.append_assoc, htold, Option.map_some, Option.getD_some, htold',
    List.append_assoc]

theorem ended (h : Leaves scopes events none) (events' : List Event) :
    Leaves scopes (events ++ events') none := by
  obtain ⟨told, htold⟩ := h
  refine ⟨told, fun deliveries => ?_⟩
  rw [List.map_append, List.append_assoc, htold]
  rfl

theorem close_document (events : List Event) : Leaves [] (.close :: events) none :=
  ⟨[], fun _ => rfl⟩

theorem close (scope : Scope) (h : Leaves scopes events last) :
    Leaves (scope :: scopes) (.close :: events) last :=
  .placed (fun _ => List.cons_ne_nil _ _) (Event.fit?_close _) h

/-- Where the document is still open, what is told afterwards is told besides. -/
theorem replay_append (h : Leaves [] events (some [])) {later : List Event}
    (hlater : Balanced later) :
    replay (events ++ later) = replay events ++ later := by
  obtain ⟨told, htold⟩ := h
  have hevents := htold []
  have hboth := htold (later.map .event)
  have hlast := settle_of_leads hlater []
  rw [List.append_nil] at hevents hlast
  rw [replay, List.map_append, hboth, replay, hevents]
  simp only [Option.map_some, Option.getD_some, hlast, List.filterMap_append, filterMap_event?]
  simp [settle]

/-- Where the document is closed, nothing is told afterwards. -/
theorem replay_ended (h : Leaves [] events none) (later : List Event) :
    replay (events ++ later) = replay events := by
  obtain ⟨told, htold⟩ := h
  have hevents := htold []
  have hboth := htold (later.map .event)
  rw [List.append_nil] at hevents
  rw [replay, List.map_append, hboth, replay, hevents]
  rfl

end Leaves

theorem Event.after_fitted {scopes : OpenScopes} {event fitted : Event}
    (hfit : event.fit? scopes.current = some fitted) (hopens : event.opens? = none)
    (hclose : event ≠ .close) : scopes.after fitted = scopes :=
  OpenScopes.after_eq_self ((Event.fit?_opens? hfit).trans hopens)
    (Event.ne_close_of_fit? hclose hfit) scopes

theorem Event.after_opened {scopes : OpenScopes} {event fitted : Event} {inside : Scope}
    (hfit : event.fit? scopes.current = some fitted) (hopens : event.opens? = some inside) :
    scopes.after fitted = inside :: scopes :=
  OpenScopes.after_eq_cons ((Event.fit?_opens? hfit).trans hopens) scopes

namespace Forest

/-- The items that can stand where they do. Of one that cannot, all that is inside it is
left out as well. -/
def pruned : Scope → Forest → Forest
  | _, .nil => .nil
  | scope, .leaf event rest =>
      if (event.fit? scope).isSome then .leaf event (rest.pruned scope) else rest.pruned scope
  | scope, .nest opening inner rest =>
      if (opening.fit? scope).isSome then
        .nest opening (inner.pruned (opening.opens?.getD scope)) (rest.pruned scope)
      else rest.pruned scope

theorem pruned_stands {forest : Forest} {scopes : OpenScopes}
    (h : forest.Stands OpenScopes.CanClose scopes) :
    (forest.pruned scopes.current).Stands OpenScopes.OpeningFits scopes := by
  induction forest generalizing scopes with
  | nil => trivial
  | leaf event rest ih =>
      obtain ⟨⟨hclose, hopens, _⟩, hrest⟩ := h
      rw [pruned]
      split
      · exact ⟨⟨hclose, hopens, fun _ => ‹_›⟩, ih hrest⟩
      · exact ih hrest
  | nest opening inner rest ihinner ihrest =>
      obtain ⟨_, ⟨inside, hopens, hinner⟩, hrest⟩ := h
      rw [pruned, hopens, Option.getD_some]
      split
      · exact ⟨fun _ => ‹_›, ⟨inside, hopens, ihinner hinner⟩, ihrest hrest⟩
      · exact ihrest hrest

/-- Behind a closing inside some of the scopes, not all of them are left open. -/
private theorem exists_leaves_behind {scopes opened : OpenScopes} {rest : Forest}
    (hopened : opened <:+ scopes)
    (hrest : ∀ outer : OpenScopes,
      ∃ last, Leaves outer rest.events last ∧ ∀ left ∈ last, left <:+ outer) :
    ∃ last, Leaves opened (.close :: rest.events) last ∧
      ∀ left ∈ last, left <:+ scopes ∧ left ≠ scopes := by
  cases opened with
  | nil => exact ⟨none, .close_document _, nofun⟩
  | cons scope outer =>
      obtain ⟨last, hleaves, hsuffix⟩ := hrest outer
      refine ⟨last, hleaves.close scope, fun left hleft => ?_⟩
      have hshorter : left.length < scopes.length :=
        Nat.lt_of_le_of_lt (hsuffix left hleft).length_le hopened.length_le
      refine ⟨(hsuffix left hleft).trans ((List.suffix_cons scope outer).trans hopened), ?_⟩
      rintro rfl
      exact Nat.lt_irrefl _ hshorter

/-- Items leave the scopes open that they stand in just where all openings fit; otherwise
they leave some outer ones open, or the document closed. -/
theorem exists_leaves {allowed : OpenScopes → Event → Prop} {forest : Forest} {around : OpenScopes}
    (h : forest.Stands allowed around) (scopes : OpenScopes) :
    ∃ last, Leaves scopes forest.events last ∧ (∀ left ∈ last, left <:+ scopes) ∧
      (last = some scopes ↔ forest.Stands OpenScopes.OpeningFits scopes) := by
  induction forest generalizing around scopes with
  | nil => exact ⟨some scopes, .nil scopes, by simp, by simp [Stands]⟩
  | leaf event rest ih =>
      obtain ⟨⟨hclose, hopens, _⟩, hrest⟩ := h
      obtain ⟨last, hleaves, hsuffix, hall⟩ := ih hrest scopes
      refine ⟨last, ?_, hsuffix, hall.trans ?_⟩
      · cases hfit : event.fit? scopes.current with
        | none => exact .misplaced hfit hleaves
        | some fitted =>
            refine .placed (fun heq => absurd heq hclose) hfit ?_
            rwa [Event.after_fitted hfit hopens hclose]
      · simp [Stands, OpenScopes.OpeningFits, hclose, hopens]
  | nest opening inner rest ihinner ihrest =>
      obtain ⟨_, ⟨inside, hopens, hinner⟩, hrest⟩ := h
      have hopened : opening = .close → scopes ≠ [] := fun heq =>
        absurd heq (ne_close_of_opens hopens)
      have hbehind : ∀ outer : OpenScopes, ∃ last, Leaves outer rest.events last ∧
          ∀ left ∈ last, left <:+ outer := fun outer => by
        obtain ⟨last, hleaves, hsuffix, _⟩ := ihrest hrest outer
        exact ⟨last, hleaves, hsuffix⟩
      have hstands : (nest opening inner rest).Stands OpenScopes.OpeningFits scopes ↔
          (opening.fit? scopes.current).isSome = true ∧
            inner.Stands OpenScopes.OpeningFits (inside :: scopes) ∧
            rest.Stands OpenScopes.OpeningFits scopes := by
        simp [Stands, OpenScopes.OpeningFits, hopens]
      rw [events_nest, hstands]
      cases hfit : opening.fit? scopes.current with
      | none =>
          obtain ⟨last, hleaves, hsuffix, _⟩ := ihinner hinner scopes
          cases last with
          | none => exact ⟨none, .misplaced hfit (hleaves.ended _), nofun, by simp⟩
          | some opened =>
              obtain ⟨last, hlast, hleft⟩ := exists_leaves_behind (hsuffix opened rfl) hbehind
              refine ⟨last, .misplaced hfit (hleaves.append hlast),
                fun left hmem => (hleft left hmem).1, ?_⟩
              simpa using fun heq => (hleft scopes heq).2 rfl
      | some fitted =>
          obtain ⟨last, hleaves, hsuffix, hall⟩ := ihinner hinner (inside :: scopes)
          rw [← Event.after_opened hfit hopens] at hleaves
          cases last with
          | none =>
              refine ⟨none, .placed hopened hfit (hleaves.ended _), nofun, ?_⟩
              simp [← hall]
          | some opened =>
              rcases List.suffix_cons_iff.mp (hsuffix opened rfl) with rfl | hshorter
              · obtain ⟨last, hlast, hsuffix, hrestAll⟩ := ihrest hrest scopes
                refine ⟨last, .placed hopened hfit (hleaves.append (hlast.close inside)),
                  hsuffix, ?_⟩
                simp [← hall, hrestAll]
              · obtain ⟨last, hlast, hleft⟩ := exists_leaves_behind hshorter hbehind
                refine ⟨last, .placed hopened hfit (hleaves.append hlast),
                  fun left hmem => (hleft left hmem).1, ?_⟩
                have hinnerNot : opened ≠ inside :: scopes := by
                  rintro rfl
                  exact Nat.not_succ_le_self _ hshorter.length_le
                simpa [← hall, hinnerNot] using fun heq => (hleft scopes heq).2 rfl

theorem Stands.leaves {forest : Forest} {scopes : OpenScopes}
    (h : forest.Stands OpenScopes.OpeningFits scopes) :
    Leaves scopes forest.events (some scopes) := by
  obtain ⟨last, hleaves, _, hall⟩ := exists_leaves h scopes
  rwa [hall.mpr h] at hleaves

/-- Where all openings fit, replaying leaves out what cannot stand where it does and
nothing else. -/
theorem settle_pruned {forest : Forest} {scopes : OpenScopes}
    (h : forest.Stands OpenScopes.OpeningFits scopes) (deliveries : List Delivery) :
    settle scopes ((forest.pruned scopes.current).events.map .event ++ deliveries) =
      settle scopes (forest.events.map .event ++ deliveries) := by
  induction forest generalizing scopes deliveries with
  | nil => rfl
  | leaf event rest ih =>
      obtain ⟨⟨hclose, hopens, _⟩, hrest⟩ := h
      have hopened : event = .close → scopes ≠ [] := fun heq => absurd heq hclose
      simp only [pruned, events_leaf, List.map_cons, List.cons_append]
      cases hfit : event.fit? scopes.current with
      | none =>
          rw [settle_misplaced hfit]
          exact ih hrest deliveries
      | some fitted =>
          simp only [Option.isSome_some, if_true, events_leaf, List.map_cons, List.cons_append]
          rw [settle_placed hopened hfit, settle_placed hopened hfit,
            Event.after_fitted hfit hopens hclose, ih hrest deliveries]
  | nest opening inner rest ihinner ihrest =>
      obtain ⟨hopening, ⟨inside, hopens, hinner⟩, hrest⟩ := h
      have hopened : opening = .close → scopes ≠ [] := fun heq =>
        absurd heq (ne_close_of_opens hopens)
      obtain ⟨fitted, hfit⟩ := Option.isSome_iff_exists.mp (hopening (by rw [hopens]; rfl))
      simp only [pruned, hfit, hopens, Option.isSome_some, if_true, Option.getD_some, events_nest,
        List.map_cons, List.map_append, List.cons_append, List.append_assoc]
      rw [settle_placed hopened hfit, settle_placed hopened hfit, Event.after_opened hfit hopens]
      refine congrArg (.event fitted :: ·) ((ihinner hinner _).trans ?_)
      obtain ⟨told, htold⟩ := hinner.leaves
      rw [htold, htold, Option.map_some, Option.map_some, Option.getD_some, Option.getD_some,
        settle_close, settle_close, ihrest hrest deliveries]

/-- Replaying leaves out what cannot stand where it does, with all that is inside it, and
disturbs nothing of what comes later, just where no scope is opened that cannot stand
where it is opened. -/
theorem replay_pruned_iff {events : List Event} (h : Paired events) :
    ∃ forest : Forest, forest.events = events ∧ forest.Stands OpenScopes.CanClose [] ∧
      ((∀ later, Balanced later → replay (events ++ later) =
          replay ((forest.pruned .object).events ++ later)) ↔
        forest.Stands OpenScopes.OpeningFits []) := by
  obtain ⟨forest, later, hstands, rfl, hlater, hends⟩ := exists_stands h
  obtain ⟨rfl, _⟩ : later = [] ∧ ([] : OpenScopes) = [] := by
    refine hends.resolve_right ?_
    rintro ⟨behind, rfl⟩
    exact hlater.1 rfl rfl
  rw [List.append_nil]
  refine ⟨forest, rfl, hstands, fun hsame => ?_, fun hfits later _ => ?_⟩
  · obtain ⟨last, hleaves, hsuffix, hall⟩ := exists_leaves hstands []
    cases last with
    | some left => exact hall.mp (congrArg some (List.suffix_nil.mp (hsuffix left rfl)))
    | none =>
        -- The document is closed too early, so a comment behind it is lost, which the
        -- pruned items would not lose.
        have hcomment : Balanced [.comment ""] := by decide
        have hpruned : replay ((forest.pruned .object).events ++ [.comment ""]) =
            replay (forest.pruned .object).events ++ [.comment ""] :=
          (pruned_stands hstands).leaves.replay_append hcomment
        have hnothing := hsame [] rfl
        have hlost := hsame _ hcomment
        rw [List.append_nil, List.append_nil] at hnothing
        rw [hleaves.replay_ended, hnothing, hpruned] at hlost
        simp at hlost
  · rw [replay, replay, List.map_append, List.map_append]
    exact congrArg (List.filterMap Delivery.event?) (settle_pruned hfits _).symm

theorem replay_pruned_iff_tags :
    let events := [.named "view" "v", .pair "a" "b", .list (some "tags"), .code "sql" "x",
      .string (some "name") "t", .close, .number none .zero, .close]
    Paired events ∧ ∃ forest : Forest, forest.events = events ∧
      forest.Stands OpenScopes.CanClose [] ∧
      ((∀ later, Balanced later → replay (events ++ later) =
          replay ((forest.pruned .object).events ++ later)) ↔
        forest.Stands OpenScopes.OpeningFits []) := by
  intro events
  have hpaired : Paired events := by decide
  exact ⟨hpaired, replay_pruned_iff hpaired⟩

/-- Where a list stands in an object under no name, its closing closes the object, and
what stands behind it in the object is told to the document and what stands behind the
object is lost. -/
theorem replay_loses_outer_events :
    let forest : Forest := .nest (.object "a")
      (.nest (.list none) .nil (.leaf (.string (some "b") "t") .nil))
      (.leaf (.string (some "c") "u") .nil)
    Paired forest.events ∧
      replay forest.events = [.object "a", .close, .string (some "b") "t"] ∧
      replay (forest.pruned .object).events =
        [.object "a", .string (some "b") "t", .close, .string (some "c") "u"] := by
  decide

end Forest

end Lookml
