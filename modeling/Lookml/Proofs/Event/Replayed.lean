import Lookml.Proofs.Tree.Retold

/-!
Any list of events replayed as a document. What is told of it is balanced whatever the
list: each event is told as it fits the scope that it comes to stand in, or not at all,
and the scopes that are left open are closed. A balanced list is told as it is.
-/

namespace Lookml

section Settle
variable {scopes : OpenScopes} {event fitted : Event} {deliveries : List Delivery}

theorem settle_misplaced (hfit : event.fit? scopes.current = none) :
    settle scopes (.event event :: deliveries) = settle scopes deliveries := by
  have hclose : event ≠ .close := by
    rintro rfl
    rw [Event.fit?_close] at hfit
    cases hfit
  cases scopes <;> cases event <;> first | exact absurd rfl hclose | simp only [settle, hfit]

theorem settle_placed (hopened : event = .close → scopes ≠ [])
    (hfit : event.fit? scopes.current = some fitted) :
    settle scopes (.event event :: deliveries) =
      .event fitted :: settle (scopes.after fitted) deliveries := by
  cases scopes with
  | nil => cases event <;> first | exact absurd rfl (hopened rfl) | simp only [settle, hfit]
  | cons scope scopes => simp only [settle, hfit]

theorem settle_close (scope : Scope) (scopes : OpenScopes) (deliveries : List Delivery) :
    settle (scope :: scopes) (.event .close :: deliveries) =
      .event .close :: settle scopes deliveries :=
  settle_placed (fun _ => List.cons_ne_nil _ _) (Event.fit?_close _)

end Settle

theorem Event.ne_close_of_fit? {scope : Scope} {event fitted : Event} (hclose : event ≠ .close)
    (hfit : event.fit? scope = some fitted) : fitted ≠ .close := by
  rintro rfl
  cases scope with
  | object => exact hclose (Event.eq_of_inObject? hfit).symm
  | list => cases event <;> first | exact hclose rfl | cases hfit

theorem leads_replicate_close (scopes : OpenScopes) :
    Leads OpenScopes.Takes scopes (List.replicate scopes.length .close) [] := by
  induction scopes with
  | nil => rfl
  | cons scope scopes ih => exact ⟨⟨fun _ => List.cons_ne_nil _ _, Event.fit?_close _⟩, ih⟩

/-- Whatever events come inside some open scopes, what is told of them fits and closes
these scopes in the end. -/
theorem exists_settled (scopes : OpenScopes) (events : List Event) :
    ∃ told : List Event, settle scopes (events.map .event) = told.map .event ∧
      Leads OpenScopes.Takes scopes told [] := by
  induction events generalizing scopes with
  | nil =>
      refine ⟨List.replicate scopes.length .close, ?_, leads_replicate_close scopes⟩
      rw [List.map_replicate]
      cases scopes <;> rfl
  | cons event events ih =>
      by_cases hdocument : event = .close ∧ scopes = []
      · obtain ⟨rfl, rfl⟩ := hdocument
        exact ⟨[], rfl, rfl⟩
      have hopened : event = .close → scopes ≠ [] := fun hclose hscopes =>
        hdocument ⟨hclose, hscopes⟩
      rw [List.map_cons]
      cases hfit : event.fit? scopes.current with
      | none =>
          rw [settle_misplaced hfit]
          exact ih scopes
      | some fitted =>
          obtain ⟨told, htold, hleads⟩ := ih (scopes.after fitted)
          refine ⟨fitted :: told, ?_, ⟨fun hclose => hopened ?_, Event.fit?_fitted hfit⟩, hleads⟩
          · rw [settle_placed hopened hfit, htold, List.map_cons]
          · exact Decidable.byContradiction fun hne => Event.ne_close_of_fit? hne hfit hclose

/-- Events that fit where they stand are told as they are. -/
theorem settle_of_leads {scopes last : OpenScopes} {events : List Event}
    (h : Leads OpenScopes.Takes scopes events last) (deliveries : List Delivery) :
    settle scopes (events.map .event ++ deliveries) =
      events.map .event ++ settle last deliveries := by
  induction events generalizing scopes with
  | nil =>
      obtain rfl := h
      rfl
  | cons event events ih =>
      obtain ⟨⟨hopened, hfit⟩, hevents⟩ := h
      rw [List.map_cons, List.cons_append, settle_placed hopened hfit, ih hevents, List.cons_append]

theorem filterMap_event? (events : List Event) :
    (events.map Delivery.event).filterMap Delivery.event? = events := by
  rw [List.filterMap_map]
  exact List.filterMap_some

theorem replay_balanced (events : List Event) : Balanced (replay events) := by
  obtain ⟨told, htold, hleads⟩ := exists_settled [] events
  rw [replay, htold, filterMap_event?]
  exact hleads

theorem replay_eq_self {events : List Event} (h : Balanced events) : replay events = events := by
  have hsettled := settle_of_leads h []
  rw [List.append_nil] at hsettled
  rw [replay, hsettled, settle, List.length_nil, List.replicate_zero, List.append_nil,
    filterMap_event?]

/-- What is recorded of events that are replayed into a document, which is closed behind
them. -/
def replayed (events : List Event) : List Event := recorded 0 (wholeDocument (replay events))

theorem replayed_eq_replay (events : List Event) : replayed events = replay events :=
  recorded_wholeDocument (replay_balanced events)

/-- Replaying and recording makes a balanced document of any events, of which a second
time makes nothing else, and it leaves just the balanced documents as they are. -/
theorem replayed_projects (events : List Event) :
    Balanced (replayed events) ∧ replayed (replayed events) = replayed events ∧
      (replayed events = events ↔ Balanced events) := by
  have hbalanced : Balanced (replayed events) := by
    rw [replayed_eq_replay]
    exact replay_balanced events
  refine ⟨hbalanced, ?_, fun hsame => hsame ▸ hbalanced, fun h => ?_⟩
  · rw [replayed_eq_replay (replayed events)]
    exact replay_eq_self hbalanced
  · rw [replayed_eq_replay]
    exact replay_eq_self h

end Lookml
