import Lookml.Pipeline
import Lookml.Proofs.Conformance.Watching
import Lookml.Proofs.Reader.Sound

/-!
What reaches the consumer of a pipeline. Keeping a journal delivers the same as keeping
none, and whether the text is read to its end or not, what is delivered is a whole
document.
-/

namespace Lookml

namespace Occurrence

private theorem delivered_journaled (scopes : OpenScopes) (verdicts : List Verdict) :
    (journaled scopes verdicts).filterMap delivered? = Verdict.forwarded verdicts := by
  induction verdicts generalizing scopes with
  | nil => rfl
  | cons verdict verdicts ih =>
      cases verdict with
      | report violation => exact ih scopes
      | forward delivery =>
          have hnoted (entry : Option Journal.Entry) :
              (entry.toList.map noted).filterMap delivered? = [] := by
            cases entry <;> rfl
          simp only [journaled, List.filterMap_append, hnoted, List.nil_append]
          exact congrArg (delivery :: ·) (ih _)

private theorem delivered_ofVerdict (verdicts : List Verdict) :
    (verdicts.map ofVerdict).filterMap delivered? = Verdict.forwarded verdicts := by
  induction verdicts with
  | nil => rfl
  | cons verdict verdicts ih =>
      cases verdict with
      | report violation => exact ih
      | forward delivery => exact congrArg (delivery :: ·) ih

/-- The consumer has every delivery that is passed on, whether or not a journal is
kept. -/
theorem delivered_ofVerdicts (logging : Bool) (verdicts : List Verdict) :
    (ofVerdicts logging verdicts).filterMap delivered? = Verdict.forwarded verdicts := by
  unfold ofVerdicts
  split
  · exact delivered_journaled [] verdicts
  · exact delivered_ofVerdict verdicts

end Occurrence

namespace Pipeline

theorem forwarded_map_forward (deliveries : List Delivery) :
    Verdict.forwarded (deliveries.map .forward) = deliveries := by
  induction deliveries with
  | nil => rfl
  | cons delivery deliveries ih => exact congrArg (delivery :: ·) ih

/-- Whatever the text and whatever becomes of its reading, the consumer meets a balanced
document whose scopes nest within the limit, and the closing of the document is the last
that it hears of. -/
theorem delivers_balanced (pipeline : Pipeline) (source : List Char) :
    ∃ events,
      (pipeline.run source).1.filterMap Occurrence.delivered? = wholeDocument events ∧
      Balanced events ∧ NestedWithin maxDepth events := by
  obtain ⟨schema, validating, logging⟩ := pipeline
  have hread : Leads (OpenScopes.TakesWithin maxDepth) [] (schema.read source).events [] :=
    (Reading.told schema.codeNames source).mono fun _ _ htold => ⟨htold.takes, htold.depth⟩
  -- Validating or not, what is passed on is some whole document, though perhaps a smaller
  -- one than was read.
  have hforwarded : ∃ events,
      Verdict.forwarded (verdicts ⟨schema, validating, logging⟩
        (wholeDocument (schema.read source).events)) = wholeDocument events ∧
      Leads (OpenScopes.TakesWithin maxDepth) [] events [] := by
    cases validating with
    | false => exact ⟨_, forwarded_map_forward _, hread⟩
    | true => exact (Checker.start_watches schema).verdicts (Nat.zero_le _) hread
  obtain ⟨events, hevents, hleads⟩ := hforwarded
  exact ⟨events, (Occurrence.delivered_ofVerdicts logging _).trans hevents, hleads.balanced⟩

end Pipeline

end Lookml
