import Lookml.Project.Read
import Lookml.Proofs.Reader.Bounded
import Lookml.Proofs.Schema.Loaded
import Lookml.Proofs.Schema.Reachable

/-!
The schema that the library carries. Its text loads as the schema of projects, which is
therefore built and closed, and parts are made for all object types that it reaches; so
neither can keep a text from being read.
-/

namespace Lookml.Project

theorem eq_ok_of_any {ε α : Type} [DecidableEq α] {result : Except ε α} {value : α}
    (h : result.toOption.any (· == value) = true) : result = .ok value := by
  cases result with
  | error error => cases h
  | ok found => rw [eq_of_beq h]

/-! The text is evaluated with its characters spelled out, since those of a string are
found too slowly, and in a bounded number of steps. -/

set_option maxRecDepth 100000 in
theorem load_schemaText_any :
    (Schema.load schemaText.toList).toOption.any (· == schema) = true := by
  have hchars : schemaText.toList = _ := String.toList_ofList
  have hcode : metaSchema.codeNames = .empty := by decide +kernel
  rw [hchars]
  simp only [Schema.load, Schema.readValid, Schema.check, Schema.read]
  rw [hcode, Reading.ofText_eq_runFor]
  decide +kernel

theorem load_schemaText : Schema.load schemaText.toList = .ok schema :=
  eq_ok_of_any load_schemaText_any

theorem schema_isBuilt : schema.IsBuilt := (Schema.isBuilt_of_load load_schemaText).1

theorem registry_missing? : registry.missing? schema = none := by
  have hregistered : ∀ typeName ∈ schema.objects.keys, registry.contains typeName = true := by
    decide +kernel
  refine List.find?_eq_none.mpr fun typeName hreached => ?_
  have hdeclared := schema_isBuilt.isClosed.contains_object_of_reachable
    (Table.contains_iff_mem_keys.mpr hreached)
  simp [hregistered typeName (Table.contains_iff_mem_keys.mp hdeclared)]

theorem read_eq_readBy (source : List Char) : read source = readBy (.ok schema) source :=
  congrArg (readBy · source) load_schemaText

end Lookml.Project
