import Lookml.Proofs.Conformance.Marking
import Lookml.Schema.Document

/-!
What a check leaves out of a document. Its violations account for what is left out, one
for each item that stays out with all it holds, and what has been passed on once passes
again as it is.
-/

namespace Lookml

namespace Marking

@[simp] theorem violations_ofForest (forest : Forest) : (ofForest forest).violations = [] := by
  induction forest with
  | nil => rfl
  | leaf event rest ih => exact ih
  | nest opening inner rest ihinner ihrest => rw [ofForest, violations, ihinner, ihrest]; rfl

@[simp] theorem kept_ofForest (forest : Forest) : (ofForest forest).kept = forest :=
  (kept_eq_whole (violations_ofForest forest)).trans (whole_ofForest forest)

end Marking

namespace Schema

variable {events : List Event}

theorem wholeDocument_inj {events events' : List Event}
    (h : wholeDocument events = wholeDocument events') : events = events' :=
  (List.map_inj_right fun _ _ => Delivery.event.inj).mp (List.append_cancel_right h)

/-- The items that a check leaves out of a document can be marked so that each mark is one
violation, in the order of the document: an item is left out as a whole, no comment is
marked, and inside marked scopes nothing is passed on or reported. Nothing is reported
just where all is passed on, and other items inside marked scopes make no difference. -/
theorem violations_account_for_removals (schema : Schema) (hevents : Balanced events) :
    ∃ marking : Marking,
      (marking.whole.Fits .object ∧ marking.whole.events = events ∧ marking.KeepsComments) ∧
      schema.verdicts (wholeDocument events) = marking.verdicts ++ [.forward (.event .close)] ∧
      Verdict.forwarded (schema.verdicts (wholeDocument events)) =
        wholeDocument marking.kept.events ∧
      Verdict.violations (schema.verdicts (wholeDocument events)) = marking.violations ∧
      (Verdict.violations (schema.verdicts (wholeDocument events)) = [] ↔
        Verdict.forwarded (schema.verdicts (wholeDocument events)) = wholeDocument events) ∧
      ∀ marking' : Marking, marking.Alike marking' → marking'.whole.Fits .object →
        schema.verdicts (wholeDocument marking'.whole.events) =
          schema.verdicts (wholeDocument events) := by
  obtain ⟨marking, hmarking⟩ := exists_marksDocument schema hevents
  have hcomments : marking.KeepsComments := hmarking.marks.keepsComments (by rfl)
  refine ⟨marking, ⟨hmarking.fits, hmarking.events_eq, hcomments⟩, hmarking.verdicts_eq,
    hmarking.forwarded_eq, hmarking.violations_eq, ?_, fun marking' halike hfits => ?_⟩
  · rw [hmarking.violations_eq, hmarking.forwarded_eq, marking.violations_eq_nil_iff,
      hmarking.events_eq]
    exact ⟨congrArg wholeDocument, wholeDocument_inj⟩
  · have hmarking' : schema.MarksDocument marking'.whole.events marking' :=
      ⟨hfits, rfl, hmarking.marks.of_alike halike⟩
    rw [hmarking'.verdicts_eq, hmarking.verdicts_eq, halike.verdicts_eq]

theorem violations_account_for_removals_meta :
    let events := [.comment "a", .named "schema" "s", .object "view", .comment "b", .close,
      .list (some "root_properties"), .identifier none "c", .string none "d", .close, .close]
    ∃ marking : Marking, marking.whole.events = events ∧ marking.KeepsComments ∧
      marking.violations =
        [.invalidProperty "view" "schema", .invalidElement "root_properties" .string .refs] ∧
      marking.kept.events = [.comment "a", .named "schema" "s", .list (some "root_properties"),
        .identifier none "c", .close, .close] := by
  intro events
  have hevents : Balanced events := by decide
  obtain ⟨marking, ⟨_, hwhole, hcomments⟩, _, hforwarded, hviolations, _⟩ :=
    violations_account_for_removals metaSchema hevents
  refine ⟨marking, hwhole, hcomments, ?_, ?_⟩
  · rw [← hviolations]
    decide +kernel
  · apply wholeDocument_inj
    rw [← hforwarded]
    decide +kernel

/-- What a check passes on of a document is passed on by a second check as it is, and
nothing is reported of it. -/
theorem forwarded_again (schema : Schema) (hevents : Balanced events) :
    let passed := Verdict.forwarded (schema.verdicts (wholeDocument events))
    Verdict.violations (schema.verdicts passed) = [] ∧
      Verdict.forwarded (schema.verdicts passed) = passed := by
  obtain ⟨marking, hmarking⟩ := exists_marksDocument schema hevents
  have hkept : schema.MarksDocument marking.kept.events (.ofForest marking.kept) := by
    refine ⟨?_, by rw [Marking.whole_ofForest], hmarking.marks.kept⟩
    rw [Marking.whole_ofForest]
    exact Marking.Fits.kept hmarking.fits
  show _ = [] ∧ _ = _
  rw [hmarking.forwarded_eq, hkept.violations_eq, hkept.forwarded_eq]
  exact ⟨Marking.violations_ofForest _, by rw [Marking.kept_ofForest]⟩

theorem forwarded_again_meta :
    let events := [.named "schema" "s", .list (some "root_properties"), .close,
      .named "enum_type" "e", .close, .named "enum_type" "e", .close,
      .list (some "root_properties"), .close, .close]
    let passed := Verdict.forwarded (metaSchema.verdicts (wholeDocument events))
    passed ≠ wholeDocument events ∧ Verdict.violations (metaSchema.verdicts passed) = [] ∧
      Verdict.forwarded (metaSchema.verdicts passed) = passed := by
  intro events passed
  have hevents : Balanced events := by decide
  exact ⟨by decide +kernel, forwarded_again metaSchema hevents⟩

end Schema

end Lookml
