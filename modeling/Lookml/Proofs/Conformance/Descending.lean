import Lookml.Proofs.Schema.Explored

/-!
A checker that looks up the type of each object which it lets in. Where the schema declares
none, the scope is opened behind it and given up at once, and what stands in it is not
looked at. The types of the open objects are declared and reachable ones after any
deliveries to a checker of a schema that was built, so this case never comes up: what it
tells is what the checker tells that takes an undeclared type for one without properties.
-/

namespace Lookml

namespace Checker

/-- Goes into an object of a type of the schema, the levels around it as they are then. -/
def descend (schema : Schema) (levels : List Level) (event : Event) (typeName : String) :
    Checker × List Verdict :=
  match schema.objects.get? typeName with
  | some type =>
      (⟨schema, .object (some (typeName, type)) [] :: levels⟩, [.forward (.event event)])
  | none => (⟨schema, .refused :: levels⟩, [.forward (.event event), .forward .abandon])

/-- What becomes of an object, by the type that it is required to have and the names that
are taken with it. -/
def descendInto (schema : Schema) (type : Option (String × ObjectType)) (taken : List String)
    (outer : List Level) (event : Event) :
    Except Violation (String × List String) → Checker × List Verdict
  | .ok (typeName, names) => descend schema (.object type names :: outer) event typeName
  | .error violation =>
      (⟨schema, .refused :: .object type taken :: outer⟩, [.report violation])

/-- A step of the checker, with what is made of the delivery as a list. -/
def stepVerdicts (checker : Checker) (delivery : Delivery) : Checker × List Verdict :=
  let (next, verdict) := checker.step delivery
  (next, verdict.toList)

def descendingStep (checker : Checker) (delivery : Delivery) : Checker × List Verdict :=
  match delivery, checker.levels with
  | .event (.object name), .object type taken :: outer =>
      descendInto checker.schema type taken outer (.object name) do
        return (← plainType checker.schema type name, ← takeName taken name)
  | .event (.named name instanceName), .object type taken :: outer =>
      descendInto checker.schema type taken outer (.named name instanceName) do
        return (← namedType checker.schema type name, ← takeNamed taken name instanceName)
  | delivery, _ => checker.stepVerdicts delivery

def descendingVerdicts (checker : Checker) : List Delivery → List Verdict
  | [] => []
  | delivery :: deliveries =>
      let (next, verdicts) := checker.descendingStep delivery
      verdicts ++ next.descendingVerdicts deliveries

variable {schema : Schema} {type : Option (String × ObjectType)} {taken : List String}
  {levels outer : List Level} {event : Event} {typeName : String}

theorem descend_declared (h : schema.objects.contains typeName = true) :
    descend schema levels event typeName =
      (⟨schema, levelOf schema typeName :: levels⟩, [.forward (.event event)]) := by
  obtain ⟨type, htype⟩ := Table.contains_iff_get?.mp h
  simp only [descend, levelOf, Schema.objectType, htype, Option.getD_some]

/-- The step of the checker, for an object whose required types are all reachable. -/
theorem descendInto_eq_step (hschema : schema.IsClosed)
    {required : Except Violation String} {took : Except Violation (List String)}
    (hrequired : ∀ typeName, required = .ok typeName →
      schema.reachable.contains typeName = true)
    (hclose : event ≠ .close) (hopens : refusedLevels event = [.refused])
    (hjudge : judge schema (.object type taken) event =
      opening type (levelOf schema) (do return (← required, ← took))) :
    descendInto schema type taken outer event (do return (← required, ← took)) =
      stepVerdicts ⟨schema, .object type taken :: outer⟩ (.event event) := by
  have hrefuse {violation : Violation}
      (hviolation : judge schema (.object type taken) event = .refuse violation) :
      (⟨schema, .refused :: .object type taken :: outer⟩, [.report violation]) =
        stepVerdicts ⟨schema, .object type taken :: outer⟩ (.event event) := by
    rw [stepVerdicts, step_refuse hclose hviolation, hopens]
    rfl
  cases required with
  | error violation => exact hrefuse hjudge
  | ok typeName =>
      cases took with
      | error violation => exact hrefuse hjudge
      | ok names =>
          rw [stepVerdicts, step_enter hclose hjudge]
          exact descend_declared
            (hschema.contains_object_of_reachable (hrequired typeName rfl))

/-- One delivery: among objects of reachable types no scope is given up. -/
theorem descendingStep_eq_step (hschema : schema.IsClosed) (delivery : Delivery)
    (h : ∀ level ∈ levels, level.Reached schema) :
    descendingStep ⟨schema, levels⟩ delivery = stepVerdicts ⟨schema, levels⟩ delivery := by
  cases delivery with
  | abandon => rfl
  | event event =>
      cases levels with
      | nil => cases event <;> rfl
      | cons level outer =>
          have hlevel := h level List.mem_cons_self
          cases level with
          | list name elements => cases event <;> rfl
          | refused => cases event <;> rfl
          | object type taken =>
              cases event with
              | object name =>
                  exact descendInto_eq_step hschema (fun _ => reachable_of_plainType hlevel)
                    (by simp) rfl judgeObject_eq_opening
              | named name instanceName =>
                  exact descendInto_eq_step hschema (fun _ => reachable_of_namedType hlevel)
                    (by simp) rfl judgeNamed_eq_opening
              | _ => rfl

/-- Along all deliveries, since the types of the open objects stay reachable ones. -/
theorem descendingVerdicts_eq_verdicts (hschema : schema.IsClosed) (deliveries : List Delivery)
    (h : ∀ level ∈ levels, level.Reached schema) :
    descendingVerdicts ⟨schema, levels⟩ deliveries = verdicts ⟨schema, levels⟩ deliveries := by
  induction deliveries generalizing levels with
  | nil => rfl
  | cons delivery deliveries ih =>
      obtain ⟨next, hstep, hnext⟩ := reached_step hschema delivery h
      simp only [descendingVerdicts, descendingStep_eq_step hschema delivery h, stepVerdicts,
        verdicts, hstep, ih hnext]

end Checker

/-- No schema that was built leaves a checker without the type of an object that it lets
in. -/
theorem Schema.IsBuilt.descendingVerdicts_eq {schema : Schema} (hschema : schema.IsBuilt)
    (deliveries : List Delivery) :
    (Checker.start schema).descendingVerdicts deliveries = schema.verdicts deliveries :=
  Checker.descendingVerdicts_eq_verdicts hschema.isClosed deliveries
    (List.forall_mem_singleton.mpr trivial)

example :
    let schema : Schema := ⟨"s", .empty, .empty, .ofList ["view"]⟩
    (Checker.start schema).descendingVerdicts
        [.event (.named "view" "v"), .event (.truth "hidden" true), .event .close] =
      [.forward (.event (.named "view" "v")), .forward .abandon] := by decide +kernel

end Lookml
