import Lookml.Conformance.Checker
import Lookml.Draft
import Lookml.Event.Journal

/-!
What stands between a text and its consumer: the check against a schema, if it is wanted,
and behind it a journal of all that reaches the consumer, if one is kept.
-/

namespace Lookml

/-- What happens behind a pipeline. -/
inductive Occurrence
  | noted (entry : Journal.Entry)
  | delivered (delivery : Delivery)
  | reported (violation : Violation)
deriving DecidableEq

namespace Occurrence

def noted? : Occurrence → Option Journal.Entry
  | .noted entry => some entry
  | _ => none

def delivered? : Occurrence → Option Delivery
  | .delivered delivery => some delivery
  | _ => none

def reported? : Occurrence → Option Violation
  | .reported violation => some violation
  | _ => none

/-- What comes of a verdict where no journal is kept. -/
def ofVerdict : Verdict → Occurrence
  | .forward delivery => .delivered delivery
  | .report violation => .reported violation

/-- What comes of verdicts inside the given open scopes where a journal is kept: a
delivery is noted before the consumer has it. -/
def journaled : OpenScopes → List Verdict → List Occurrence
  | _, [] => []
  | scopes, .report violation :: verdicts => .reported violation :: journaled scopes verdicts
  | scopes, .forward delivery :: verdicts =>
      let (entry, scopes) := Journal.note scopes delivery
      entry.toList.map .noted ++ .delivered delivery :: journaled scopes verdicts

def ofVerdicts (logging : Bool) (verdicts : List Verdict) : List Occurrence :=
  if logging then journaled [] verdicts else verdicts.map ofVerdict

end Occurrence

/-- A line of the log: an entry of the journal, a violation, or a call that a writer
refused. -/
inductive LogLine
  | noted (entry : Journal.Entry)
  | violation (violation : Violation)
  | outOfStep (misuse : Writer.Misuse)
deriving DecidableEq

namespace LogLine

def message : LogLine → String
  | .noted entry => entry.message
  | .violation _ => "validation error"
  | .outOfStep _ => "document writer out of step with its writer"

def fields : LogLine → List (String × Datum)
  | .noted entry => entry.fields
  | .violation found => [("error", .text found.message)]
  | .outOfStep misuse => [("error", .text misuse.message)]

end LogLine

/-- The log of what happens: the journal, the violations if they are logged, and the calls
that the writer of a draft refuses if the consumer is a draft. -/
def logOf (violations : Bool) : Option Draft → List Occurrence → List LogLine
  | _, [] => []
  | draft, .noted entry :: later => .noted entry :: logOf violations draft later
  | draft, .reported found :: later =>
      (if violations then [.violation found] else []) ++ logOf violations draft later
  | none, .delivered _ :: later => logOf violations none later
  | some draft, .delivered delivery :: later =>
      let (next, refused) := draft.step delivery
      refused.map .outOfStep ++ logOf violations (some next) later

structure Pipeline where
  schema : Schema
  validating : Bool
  logging : Bool
deriving DecidableEq

namespace Pipeline

def verdicts (pipeline : Pipeline) (deliveries : List Delivery) : List Verdict :=
  if pipeline.validating then pipeline.schema.verdicts deliveries
  else deliveries.map .forward

/-- What happens with the events of a text, and the error that stopped the reading of
it. -/
def run (pipeline : Pipeline) (source : List Char) : List Occurrence × Option SyntaxError :=
  let reading := pipeline.schema.read source
  (Occurrence.ofVerdicts pipeline.logging (pipeline.verdicts (wholeDocument reading.events)),
    reading.failure)

end Pipeline

end Lookml
