import Lookml.Event.Stream
import Lookml.Fault

/-!
Events followed through the scopes that they open and close. A path leads from some open
scopes to others when every event on it is allowed where it stands; a document is balanced
when each event fits its scope as it is and the path comes back to the document, all
scopes closed in the order that they ask for.
-/

namespace Lookml

/-- Each event is allowed in the scopes open before it, and the last ones are left open
behind all of them. -/
def Leads (allowed : OpenScopes → Event → Prop) : OpenScopes → List Event → OpenScopes → Prop
  | scopes, [], last => scopes = last
  | scopes, event :: events, last =>
      allowed scopes event ∧ Leads allowed (scopes.after event) events last

namespace Leads

variable {allowed allowed' : OpenScopes → Event → Prop} {scopes middle last : OpenScopes}
  {event : Event} {events events' : List Event}

@[simp] theorem nil_iff : Leads allowed scopes [] last ↔ scopes = last := Iff.rfl

@[simp] theorem cons_iff : Leads allowed scopes (event :: events) last ↔
    allowed scopes event ∧ Leads allowed (scopes.after event) events last := Iff.rfl

instance decidable [∀ scopes event, Decidable (allowed scopes event)] :
    (scopes : OpenScopes) → (events : List Event) → (last : OpenScopes) →
      Decidable (Leads allowed scopes events last)
  | scopes, [], last => inferInstanceAs (Decidable (scopes = last))
  | scopes, event :: events, last =>
      let _ := decidable (scopes.after event) events last
      inferInstanceAs (Decidable (allowed scopes event ∧ _))

theorem append (hfront : Leads allowed scopes events middle)
    (hback : Leads allowed middle events' last) :
    Leads allowed scopes (events ++ events') last := by
  induction events generalizing scopes with
  | nil =>
      obtain rfl := hfront
      exact hback
  | cons event events ih =>
      obtain ⟨hevent, hevents⟩ := hfront
      exact ⟨hevent, ih hevents⟩

theorem mono (hallowed : ∀ scopes event, allowed scopes event → allowed' scopes event)
    (h : Leads allowed scopes events last) : Leads allowed' scopes events last := by
  induction events generalizing scopes with
  | nil => exact h
  | cons event events ih => exact ⟨hallowed _ _ h.1, ih h.2⟩

theorem forall_mem {admitted : Event → Prop}
    (hallowed : ∀ scopes event, allowed scopes event → admitted event)
    (h : Leads allowed scopes events last) : ∀ event ∈ events, admitted event := by
  induction events generalizing scopes with
  | nil => simp
  | cons event events ih =>
      intro other hother
      cases List.mem_cons.mp hother with
      | inl heq => exact heq ▸ hallowed _ _ h.1
      | inr hmem => exact ih h.2 other hmem

/-- What is asked of single events may be added on the way. -/
theorem and_mem {admitted : Event → Prop} (h : Leads allowed scopes events last)
    (hadmitted : ∀ event ∈ events, admitted event) :
    Leads (fun scopes event => allowed scopes event ∧ admitted event) scopes events last := by
  induction events generalizing scopes with
  | nil => exact h
  | cons event events ih =>
      exact ⟨⟨h.1, hadmitted event List.mem_cons_self⟩,
        ih h.2 fun other hother => hadmitted other (List.mem_cons_of_mem _ hother)⟩

end Leads

theorem Event.fit?_comment (scope : Scope) (text : String) :
    (Event.comment text).fit? scope = some (.comment text) := by
  cases scope <;> rfl

theorem Event.fit?_close (scope : Scope) : Event.close.fit? scope = some .close := by
  cases scope <;> rfl

namespace OpenScopes

/-- A scope takes an event that fits it as it is; only an opened scope is closed. -/
def Takes (scopes : OpenScopes) (event : Event) : Prop :=
  (event = .close → scopes ≠ []) ∧ event.fit? scopes.current = some event

instance (scopes : OpenScopes) (event : Event) : Decidable (scopes.Takes event) :=
  inferInstanceAs (Decidable (_ ∧ _))

theorem Takes.of_fit? {scopes : OpenScopes} {event : Event} (hclose : event ≠ .close)
    (hfit : event.fit? scopes.current = some event) : scopes.Takes event :=
  ⟨fun h => absurd h hclose, hfit⟩

def afterAll (scopes : OpenScopes) (events : List Event) : OpenScopes :=
  events.foldl after scopes

@[simp] theorem after_close (scopes : OpenScopes) : scopes.after .close = scopes.tail := rfl

theorem after_eq_self {event : Event} (hopens : event.opens? = none) (hclose : event ≠ .close)
    (scopes : OpenScopes) : scopes.after event = scopes := by
  cases event <;> simp_all [after, Event.opens?]

theorem after_eq_cons {event : Event} {scope : Scope} (hopens : event.opens? = some scope)
    (scopes : OpenScopes) : scopes.after event = scope :: scopes := by
  cases event <;> simp_all [after, Event.opens?]

end OpenScopes

theorem Leads.afterAll_eq {allowed : OpenScopes → Event → Prop} {scopes last : OpenScopes}
    {events : List Event} (h : Leads allowed scopes events last) :
    scopes.afterAll events = last := by
  induction events generalizing scopes with
  | nil => exact h
  | cons event events ih => exact ih h.2

/-- Each event of a document fits its scope, and every scope opened is closed, the
innermost first. -/
def Balanced (events : List Event) : Prop := Leads OpenScopes.Takes [] events []

instance (events : List Event) : Decidable (Balanced events) :=
  inferInstanceAs (Decidable (Leads _ _ _ _))

/-- So many scopes at most are open besides the document at any time. -/
def NestedWithin (limit : Nat) (events : List Event) : Prop :=
  ∀ front, front <+: events → (OpenScopes.afterAll [] front).length ≤ limit

/-- A scope takes an event and leaves no more scopes open than the limit allows. -/
def OpenScopes.TakesWithin (limit : Nat) (scopes : OpenScopes) (event : Event) : Prop :=
  scopes.Takes event ∧ (scopes.after event).length ≤ limit

section Within
variable {limit : Nat} {events : List Event}

theorem Leads.length_afterAll_le {scopes last : OpenScopes} {front : List Event}
    (h : Leads (OpenScopes.TakesWithin limit) scopes events last) (hfront : front <+: events)
    (hlength : scopes.length ≤ limit) : (scopes.afterAll front).length ≤ limit := by
  induction front generalizing events scopes with
  | nil => exact hlength
  | cons event front ih =>
      obtain ⟨back, rfl⟩ := hfront
      exact ih h.2 (List.prefix_append front back) h.1.2

theorem Leads.balanced (h : Leads (OpenScopes.TakesWithin limit) [] events []) :
    Balanced events ∧ NestedWithin limit events :=
  ⟨h.mono fun _ _ hevent => hevent.1,
    fun _ hfront => h.length_afterAll_le hfront (Nat.zero_le limit)⟩

end Within

end Lookml
