import Lookml.Proofs.Event.Balanced

/-!
Balanced documents as forests: an item of a scope is an event that opens nothing, or the
opening of a scope with the items inside it. Every balanced document is the events of such
a forest, and the events of one that fits are balanced.
-/

namespace Lookml

/-- The items of a scope, the first one in front of the rest. -/
inductive Forest
  | nil
  | leaf (event : Event) (rest : Forest)
  | nest (opening : Event) (inner rest : Forest)
deriving DecidableEq

namespace Forest

def events : Forest → List Event
  | .nil => []
  | .leaf event rest => event :: rest.events
  | .nest opening inner rest => opening :: (inner.events ++ .close :: rest.events)

/-- Each item fits the scope that it stands in as it is, and only those that open a scope
have items inside. -/
def Fits : Scope → Forest → Prop
  | _, .nil => True
  | scope, .leaf event rest =>
      (event ≠ .close ∧ event.opens? = none ∧ event.fit? scope = some event) ∧ rest.Fits scope
  | scope, .nest opening inner rest =>
      opening.fit? scope = some opening ∧
        (∃ inside, opening.opens? = some inside ∧ inner.Fits inside) ∧ rest.Fits scope

@[simp] theorem events_nil : events .nil = [] := rfl

@[simp] theorem events_leaf (event : Event) (rest : Forest) :
    (leaf event rest).events = event :: rest.events := rfl

@[simp] theorem events_nest (opening : Event) (inner rest : Forest) :
    (nest opening inner rest).events = opening :: (inner.events ++ .close :: rest.events) := rfl

theorem ne_close_of_opens {event : Event} {scope : Scope} (hopens : event.opens? = some scope) :
    event ≠ .close := by
  rintro rfl
  cases hopens

theorem Fits.leads {forest : Forest} (scopes : OpenScopes) (h : forest.Fits scopes.current) :
    Leads OpenScopes.Takes scopes forest.events scopes := by
  induction forest generalizing scopes with
  | nil => rfl
  | leaf event rest ih =>
      obtain ⟨⟨hclose, hopens, hfit⟩, hrest⟩ := h
      refine ⟨.of_fit? hclose hfit, ?_⟩
      rw [OpenScopes.after_eq_self hopens hclose]
      exact ih scopes hrest
  | nest opening inner rest ihinner ihrest =>
      obtain ⟨hfit, ⟨inside, hopens, hinner⟩, hrest⟩ := h
      refine ⟨.of_fit? (ne_close_of_opens hopens) hfit, ?_⟩
      rw [OpenScopes.after_eq_cons hopens]
      have hclosing : OpenScopes.Takes (inside :: scopes) .close :=
        ⟨fun _ => List.cons_ne_nil _ _, Event.fit?_close _⟩
      exact (ihinner (inside :: scopes) hinner).append ⟨hclosing, ihrest scopes hrest⟩

theorem Fits.balanced {forest : Forest} (h : forest.Fits .object) : Balanced forest.events :=
  Fits.leads [] h

/-- Each item is allowed in the scopes open around it, and those that open a scope have
others inside. -/
def Stands (allowed : OpenScopes → Event → Prop) : OpenScopes → Forest → Prop
  | _, .nil => True
  | scopes, .leaf event rest =>
      (event ≠ .close ∧ event.opens? = none ∧ allowed scopes event) ∧ rest.Stands allowed scopes
  | scopes, .nest opening inner rest =>
      allowed scopes opening ∧
        (∃ inside, opening.opens? = some inside ∧ inner.Stands allowed (inside :: scopes)) ∧
        rest.Stands allowed scopes

/-- Events that lead back to the document are the items of the innermost scope and what
stands behind them: its closing and what the outer scopes go on with, or nothing. -/
theorem exists_stands {allowed : OpenScopes → Event → Prop} {events : List Event}
    {scopes : OpenScopes} (h : Leads allowed scopes events []) :
    ∃ (forest : Forest) (later : List Event), forest.Stands allowed scopes ∧
      events = forest.events ++ later ∧ Leads allowed scopes later [] ∧
      (later = [] ∧ scopes = [] ∨ ∃ behind, later = .close :: behind) := by
  -- The events behind an inner scope are no tail of known length, hence the induction on
  -- how many there are.
  induction hlength : events.length using Nat.strongRecOn generalizing events scopes with
  | ind length ih =>
      subst hlength
      cases events with
      | nil =>
          obtain rfl : scopes = [] := h
          exact ⟨.nil, [], trivial, rfl, rfl, .inl ⟨rfl, rfl⟩⟩
      | cons event events =>
          obtain ⟨hevent, hevents⟩ := h
          have hshorter : events.length < (event :: events).length := Nat.lt_succ_self _
          by_cases hclose : event = .close
          · subst hclose
            exact ⟨.nil, _, trivial, rfl, ⟨hevent, hevents⟩, .inr ⟨events, rfl⟩⟩
          cases hopens : event.opens? with
          | none =>
              rw [OpenScopes.after_eq_self hopens hclose] at hevents
              obtain ⟨rest, later, hrest, rfl, hlater, hends⟩ := ih _ hshorter hevents rfl
              exact ⟨.leaf event rest, later, ⟨⟨hclose, hopens, hevent⟩, hrest⟩, rfl, hlater, hends⟩
          | some inside =>
              rw [OpenScopes.after_eq_cons hopens] at hevents
              obtain ⟨inner, _, hinner, rfl, hlater, hinnerEnds⟩ := ih _ hshorter hevents rfl
              obtain ⟨behind, rfl⟩ := hinnerEnds.resolve_left fun hnone =>
                List.cons_ne_nil _ _ hnone.2
              have hfewer : behind.length <
                  (event :: (inner.events ++ .close :: behind)).length := by
                simp only [List.length_cons, List.length_append]
                omega
              obtain ⟨rest, later, hrest, rfl, hlater, hends⟩ := ih _ hfewer hlater.2 rfl
              refine ⟨.nest event inner rest, later, ⟨hevent, ⟨inside, hopens, hinner⟩, hrest⟩, ?_,
                hlater, hends⟩
              simp only [events_nest, List.cons_append, List.append_assoc]

theorem Stands.fits {forest : Forest} {scopes : OpenScopes}
    (h : forest.Stands OpenScopes.Takes scopes) : forest.Fits scopes.current := by
  induction forest generalizing scopes with
  | nil => trivial
  | leaf event rest ih =>
      obtain ⟨⟨hclose, hopens, htakes⟩, hrest⟩ := h
      exact ⟨⟨hclose, hopens, htakes.2⟩, ih hrest⟩
  | nest opening inner rest ihinner ihrest =>
      obtain ⟨htakes, ⟨inside, hopens, hinner⟩, hrest⟩ := h
      exact ⟨htakes.2, ⟨inside, hopens, ihinner hinner⟩, ihrest hrest⟩

end Forest

theorem balanced_iff_exists_forest {events : List Event} :
    Balanced events ↔ ∃ forest : Forest, forest.Fits .object ∧ forest.events = events := by
  constructor
  · intro h
    obtain ⟨forest, later, hstands, rfl, hlater, hends⟩ := Forest.exists_stands h
    rcases hends with ⟨rfl, _⟩ | ⟨behind, rfl⟩
    · exact ⟨forest, hstands.fits, (List.append_nil _).symm⟩
    · exact absurd rfl (hlater.1.1 rfl)
  · rintro ⟨forest, hfits, rfl⟩
    exact hfits.balanced

end Lookml
