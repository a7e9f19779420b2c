import Lookml.Proofs.Conformance.Marking
import Lookml.Proofs.Pipeline

/-!
Keeping a journal of what reaches a consumer. It changes nothing of what happens besides,
and has one entry for each call that the consumer gets, at the depth that the calls before
it have left open.
-/

namespace Lookml

namespace Leads

variable {allowed : OpenScopes → Event → Prop} {scopes last : OpenScopes} {front back : List Event}

theorem front_leads (h : Leads allowed scopes (front ++ back) last) :
    Leads allowed scopes front (scopes.afterAll front) := by
  induction front generalizing scopes with
  | nil => rfl
  | cons event front ih => exact ⟨h.1, ih h.2⟩

/-- What is open at first and is opened on the way is closed on the way or open in the
end. -/
theorem length_add_countP (h : Leads OpenScopes.Takes scopes front last) :
    last.length + front.count .close =
      scopes.length + front.countP fun event => event.opens?.isSome := by
  induction front generalizing scopes with
  | nil =>
      obtain rfl := h
      rfl
  | cons event events ih =>
      obtain ⟨⟨hopened, _⟩, hevents⟩ := h
      have hbehind := ih hevents
      by_cases hclose : event = .close
      · subst hclose
        cases scopes with
        | nil => exact absurd rfl (hopened rfl)
        | cons scope scopes =>
            rw [OpenScopes.after_close, List.tail_cons] at hbehind
            rw [List.count_cons_self, List.countP_cons_of_neg (by simp [Event.opens?]),
              List.length_cons]
            omega
      · have hcount : (event :: events).count .close = events.count .close :=
          List.count_cons_of_ne hclose
        rw [hcount, List.countP_cons, hbehind]
        cases hopens : event.opens? with
        | none => simp [OpenScopes.after_eq_self hopens hclose]
        | some inside =>
            simp only [OpenScopes.after_eq_cons hopens, List.length_cons,
              Option.isSome_some, if_true]
            omega

end Leads

namespace Journal

/-- An entry tells of a call behind others: what it is, the kind of scope that it goes to,
and how many of the scopes that the others open they do not close. -/
structure Entry.Tells (entry : Entry) (before : List Event) (call : Event) : Prop where
  event : entry.event = call
  scope : entry.scope = (OpenScopes.afterAll [] before).current
  depth : entry.depth + before.count .close = before.countP fun event => event.opens?.isSome

/-- There is one entry for each call, in the order of the calls. -/
structure Accounts (entries : List Entry) (calls : List Event) : Prop where
  length : entries.length = calls.length
  tells : ∀ before call later, calls = before ++ call :: later →
    ∃ entry, entries[before.length]? = some entry ∧ entry.Tells before call

section Entries
variable {scopes : OpenScopes} {events : List Event}

theorem length_entries (scopes : OpenScopes) (events : List Event) :
    (entries scopes (events.map .event)).length = events.length := by
  induction events generalizing scopes with
  | nil => rfl
  | cons event events ih => exact congrArg (· + 1) (ih (scopes.after event))

theorem entries_split (scopes : OpenScopes) (front : List Event) (event : Event)
    (back : List Event) :
    ∃ later, entries scopes ((front ++ event :: back).map .event) =
      entries scopes (front.map .event) ++
        ⟨(scopes.afterAll front).length, (scopes.afterAll front).current, event⟩ :: later := by
  induction front generalizing scopes with
  | nil => exact ⟨_, rfl⟩
  | cons first front ih =>
      obtain ⟨later, hlater⟩ := ih (scopes.after first)
      exact ⟨later, congrArg (_ :: ·) hlater⟩

theorem forall_mem_entries (allowed : Scope → Event → Prop) {last : OpenScopes}
    (h : Leads (fun scopes => allowed scopes.current) scopes events last) :
    ∀ entry ∈ entries scopes (events.map .event), allowed entry.scope entry.event := by
  induction events generalizing scopes with
  | nil => exact fun entry hentry => absurd hentry (List.not_mem_nil)
  | cons event events ih =>
      obtain ⟨hevent, hevents⟩ := h
      intro entry hentry
      rcases List.mem_cons.mp hentry with rfl | hentry
      · exact hevent
      · exact ih hevents entry hentry

/-- The journal of a whole document accounts for its events and for the closing of the
document. -/
theorem accounts_wholeDocument (h : Balanced events) :
    Accounts (entries [] (wholeDocument events)) (events ++ [Event.close]) := by
  rw [wholeDocument_eq_map]
  refine ⟨length_entries [] _, fun before call later hsplit => ?_⟩
  obtain ⟨behind, hbehind⟩ := entries_split [] before call later
  refine ⟨⟨(OpenScopes.afterAll [] before).length, (OpenScopes.afterAll [] before).current, call⟩,
    ?_, rfl, rfl, ?_⟩
  · have hlength : (entries [] (before.map .event)).length = before.length :=
      length_entries [] before
    rw [hsplit, hbehind, ← hlength, List.getElem?_append_right (Nat.le_refl _), Nat.sub_self]
    rfl
  · have hshort : before.length ≤ events.length := by
      have hlengths := congrArg List.length hsplit
      simp only [List.length_append, List.length_cons, List.length_nil] at hlengths
      omega
    obtain ⟨rest, rfl⟩ : before <+: events :=
      List.prefix_of_prefix_length_le (hsplit ▸ List.prefix_append before _)
        (List.prefix_append events _) hshort
    have hdepth := h.front_leads.length_add_countP
    rwa [List.length_nil, Nat.zero_add] at hdepth

/-- Each event of a balanced document stands in a scope that takes it, and so does the
closing of the document. -/
theorem fits_of_mem_entries (h : Balanced events) :
    ∀ entry ∈ entries [] (wholeDocument events),
      entry.event.fit? entry.scope = some entry.event := by
  have hleads : Leads (fun scopes event => event.fit? scopes.current = some event) []
      (events ++ [Event.close]) [] :=
    (h.mono fun _ _ htakes => htakes.2).append ⟨rfl, rfl⟩
  rw [wholeDocument_eq_map]
  exact forall_mem_entries (fun scope event => event.fit? scope = some event) hleads

end Entries

/-- Events are written alike if they are the same, or code of one name and of texts of one
length. -/
def WrittenAlike : Event → Event → Prop
  | .code name text, .code name' text' =>
      name = name' ∧ byteLength text.toList = byteLength text'.toList
  | event, other => event = other

theorem nameField_inj {name name' : Option String} :
    nameField name = nameField name' ↔ name = name' := by
  constructor
  · cases name <;> cases name' <;> simp [nameField]
  · rintro rfl
    rfl

/-- What is written of an entry tells its depth, the kind of its scope and its event. -/
theorem Entry.eq_of_written {entry other : Entry}
    (hfit : entry.event.fit? entry.scope = some entry.event)
    (hother : other.event.fit? other.scope = some other.event)
    (hmessage : other.message = entry.message) (hfields : other.fields = entry.fields) :
    other.depth = entry.depth ∧ other.scope = entry.scope ∧
      WrittenAlike other.event entry.event := by
  obtain ⟨depth, scope, event⟩ := entry
  obtain ⟨depth', scope', event'⟩ := other
  obtain ⟨hdepth, hdata⟩ := List.cons.inj hfields
  obtain rfl : depth' = depth := by simpa using hdepth
  refine ⟨rfl, ?_⟩
  -- A message is that of one kind of event in one kind of scope.
  cases scope <;> cases event <;> cases scope' <;> cases event' <;>
    simp_all [Entry.message, Event.fit?, Event.inObject?, Event.inList?, WrittenAlike,
      nameField_inj]

end Journal

namespace Occurrence

theorem noted_journaled (scopes : OpenScopes) (verdicts : List Verdict) :
    (journaled scopes verdicts).filterMap noted? =
      Journal.entries scopes (Verdict.forwarded verdicts) := by
  induction verdicts generalizing scopes with
  | nil => rfl
  | cons verdict verdicts ih =>
      cases verdict with
      | report violation => exact ih scopes
      | forward delivery =>
          have hnoted (entry : Option Journal.Entry) :
              (entry.toList.map noted).filterMap noted? = entry.toList := by
            cases entry <;> rfl
          simp only [journaled, List.filterMap_append, hnoted]
          exact congrArg (_ ++ ·) (ih _)

/-- Besides its entries a journal adds nothing to what happens. -/
theorem filter_journaled (scopes : OpenScopes) (verdicts : List Verdict) :
    (journaled scopes verdicts).filter (fun occurrence => occurrence.noted?.isNone) =
      verdicts.map ofVerdict := by
  induction verdicts generalizing scopes with
  | nil => rfl
  | cons verdict verdicts ih =>
      cases verdict with
      | report violation => exact congrArg (_ :: ·) (ih scopes)
      | forward delivery =>
          have hnoted (entry : Option Journal.Entry) :
              (entry.toList.map noted).filter (fun occurrence => occurrence.noted?.isNone) =
                [] := by
            cases entry <;> rfl
          simp only [journaled, List.filter_append, hnoted, List.nil_append]
          exact congrArg (_ :: ·) (ih _)

end Occurrence

namespace Pipeline

/-- Validating or not, what is passed on of a text is a whole balanced document. -/
theorem exists_forwarded (pipeline : Pipeline) (source : List Char) :
    ∃ events, Balanced events ∧
      Verdict.forwarded (pipeline.verdicts (wholeDocument (pipeline.schema.read source).events)) =
        wholeDocument events := by
  obtain ⟨schema, validating, logging⟩ := pipeline
  have hread : Balanced (schema.read source).events := Reading.balanced schema.codeNames source
  cases validating with
  | false => exact ⟨_, hread, forwarded_map_forward _⟩
  | true =>
      obtain ⟨marking, hmarking⟩ := Schema.exists_marksDocument schema hread
      exact ⟨_, (Marking.Fits.kept hmarking.fits).balanced, hmarking.forwarded_eq⟩

/-- A pipeline that keeps a journal does besides just what it does without one: it
delivers and reports the same in the same order and stops at the same error. The journal
accounts for the calls that the consumer gets, the closing of the document as the last,
and what is written of an entry tells of its call all but the text of code. -/
theorem journal_transparent (schema : Schema) (validating : Bool) (source : List Char) :
    let journaling := run ⟨schema, validating, true⟩ source
    let plain := run ⟨schema, validating, false⟩ source
    let entries := journaling.1.filterMap Occurrence.noted?
    journaling.2 = plain.2 ∧
      journaling.1.filter (fun occurrence => occurrence.noted?.isNone) = plain.1 ∧
      (∃ events, plain.1.filterMap Occurrence.delivered? = wholeDocument events ∧ Balanced events ∧
        Journal.Accounts entries (events ++ [Event.close])) ∧
      ∀ entry ∈ entries, ∀ other : Journal.Entry, other.event.fit? other.scope = some other.event →
        other.message = entry.message → other.fields = entry.fields →
        other.depth = entry.depth ∧ other.scope = entry.scope ∧
          Journal.WrittenAlike other.event entry.event := by
  intro journaling plain entries
  obtain ⟨events, hevents, hforwarded⟩ := exists_forwarded ⟨schema, validating, false⟩ source
  have hentries : entries = Journal.entries [] (wholeDocument events) :=
    (Occurrence.noted_journaled [] _).trans (congrArg (Journal.entries []) hforwarded)
  refine ⟨rfl, Occurrence.filter_journaled [] _, ⟨events, ?_, hevents, ?_⟩, ?_⟩
  · exact (Occurrence.delivered_ofVerdicts false _).trans hforwarded
  · rw [hentries]
    exact Journal.accounts_wholeDocument hevents
  · intro entry hentry other hother hmessage hfields
    rw [hentries] at hentry
    exact Journal.Entry.eq_of_written (Journal.fits_of_mem_entries hevents entry hentry) hother
      hmessage hfields

end Pipeline

end Lookml
