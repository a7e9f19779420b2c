import Lookml.Schema.Basic

/-!
The schema of LookML projects, as a text in the language of schemas and as it is loaded
from there.
-/

namespace Lookml.Project

/-- The schema as it is written in the language of schemas. -/
def schemaText : String := "# LookML projects: models with their explores, and views.
schema: lookml \x7b
  enum_type: boolean \x7b
    values: [\"yes\", \"no\"]
  \x7d

  enum_type: dimension_type \x7b
    values: [\"string\", \"number\", \"yesno\", \"time\", \"date\", \"tier\", \"zipcode\", \"duration\"]
  \x7d

  enum_type: measure_type \x7b
    values: [\"count\", \"count_distinct\", \"sum\", \"sum_distinct\", \"average\", \"min\", \"max\", \"median\", \"number\", \"list\"]
  \x7d

  enum_type: join_type \x7b
    values: [\"left_outer\", \"inner\", \"full_outer\", \"cross\"]
  \x7d

  enum_type: relationship \x7b
    values: [\"many_to_one\", \"one_to_many\", \"one_to_one\", \"many_to_many\"]
  \x7d

  object_type: model \x7b
    property: label \x7b type: string \x7d
    property: connection \x7b type: string \x7d
    property: include \x7b type: string_list \x7d
    property: explore \x7b type: named_object \x7d
  \x7d

  object_type: explore \x7b
    property: label \x7b type: string \x7d
    property: description \x7b type: string \x7d
    property: view_name \x7b type: ref \x7d
    property: from \x7b type: ref \x7d
    property: hidden \x7b type: boolean \x7d
    property: fields \x7b type: ref_list \x7d
    property: sql_always_where \x7b type: code \x7d
    property: always_filter \x7b type: object type_name: filters \x7d
    property: join \x7b type: named_object \x7d
  \x7d

  object_type: join \x7b
    property: type \x7b type: join_type \x7d
    property: relationship \x7b type: relationship \x7d
    property: from \x7b type: ref \x7d
    property: view_label \x7b type: string \x7d
    property: sql_on \x7b type: code \x7d
    property: fields \x7b type: ref_list \x7d
  \x7d

  object_type: filters \x7b
    property: filters \x7b type: ref_string_map \x7d
  \x7d

  object_type: view \x7b
    property: label \x7b type: string \x7d
    property: sql_table_name \x7b type: code \x7d
    property: extends \x7b type: ref_list \x7d
    property: drill_fields \x7b type: ref_list \x7d
    property: derived_table \x7b type: object \x7d
    property: dimension \x7b type: named_object \x7d
    property: dimension_group \x7b type: named_object type_name: dimension \x7d
    property: measure \x7b type: named_object \x7d
  \x7d

  object_type: derived_table \x7b
    property: sql \x7b type: code \x7d
    property: persist_for \x7b type: string \x7d
    property: indexes \x7b type: string_list \x7d
  \x7d

  object_type: dimension \x7b
    property: type \x7b type: dimension_type \x7d
    property: label \x7b type: string \x7d
    property: description \x7b type: string \x7d
    property: sql \x7b type: code \x7d
    property: html \x7b type: code \x7d
    property: primary_key \x7b type: boolean \x7d
    property: hidden \x7b type: boolean \x7d
    property: value_format_name \x7b type: ref \x7d
    property: timeframes \x7b type: ref_list \x7d
    property: tags \x7b type: string_list \x7d
  \x7d

  object_type: measure \x7b
    property: type \x7b type: measure_type \x7d
    property: label \x7b type: string \x7d
    property: description \x7b type: string \x7d
    property: sql \x7b type: code \x7d
    property: html \x7b type: code \x7d
    property: hidden \x7b type: boolean \x7d
    property: value_format_name \x7b type: ref \x7d
    property: precision \x7b type: number \x7d
    property: drill_fields \x7b type: ref_list \x7d
    property: filters \x7b type: ref_string_map \x7d
  \x7d

  root_properties: [model, view]
\x7d
"

/-- Models with their explores and joins, and views with their dimensions, measures and
derived tables. -/
def schema : Schema where
  name := "lookml"
  enums := .ofList [
    ("boolean", ⟨.ofList ["yes", "no"]⟩),
    ("dimension_type", ⟨.ofList
      ["string", "number", "yesno", "time", "date", "tier", "zipcode", "duration"]⟩),
    ("measure_type", ⟨.ofList
      ["count", "count_distinct", "sum", "sum_distinct", "average", "min", "max", "median",
        "number", "list"]⟩),
    ("join_type", ⟨.ofList ["left_outer", "inner", "full_outer", "cross"]⟩),
    ("relationship", ⟨.ofList
      ["many_to_one", "one_to_many", "one_to_one", "many_to_many"]⟩)]
  objects := .ofList [
    ("model", ⟨.ofList [
      ("label", .string),
      ("connection", .string),
      ("include", .list .strings),
      ("explore", .named "explore")]⟩),
    ("explore", ⟨.ofList [
      ("label", .string),
      ("description", .string),
      ("view_name", .ref),
      ("from", .ref),
      ("hidden", .enum "boolean"),
      ("fields", .list .refs),
      ("sql_always_where", .code),
      ("always_filter", .object "filters"),
      ("join", .named "join")]⟩),
    ("join", ⟨.ofList [
      ("type", .enum "join_type"),
      ("relationship", .enum "relationship"),
      ("from", .ref),
      ("view_label", .string),
      ("sql_on", .code),
      ("fields", .list .refs)]⟩),
    ("filters", ⟨.ofList [("filters", .list .pairs)]⟩),
    ("view", ⟨.ofList [
      ("label", .string),
      ("sql_table_name", .code),
      ("extends", .list .refs),
      ("drill_fields", .list .refs),
      ("derived_table", .object "derived_table"),
      ("dimension", .named "dimension"),
      ("dimension_group", .named "dimension"),
      ("measure", .named "measure")]⟩),
    ("derived_table", ⟨.ofList [
      ("sql", .code),
      ("persist_for", .string),
      ("indexes", .list .strings)]⟩),
    ("dimension", ⟨.ofList [
      ("type", .enum "dimension_type"),
      ("label", .string),
      ("description", .string),
      ("sql", .code),
      ("html", .code),
      ("primary_key", .enum "boolean"),
      ("hidden", .enum "boolean"),
      ("value_format_name", .ref),
      ("timeframes", .list .refs),
      ("tags", .list .strings)]⟩),
    ("measure", ⟨.ofList [
      ("type", .enum "measure_type"),
      ("label", .string),
      ("description", .string),
      ("sql", .code),
      ("html", .code),
      ("hidden", .enum "boolean"),
      ("value_format_name", .ref),
      ("precision", .number),
      ("drill_fields", .list .refs),
      ("filters", .list .pairs)]⟩)]
  roots := .ofList ["model", "view"]

end Lookml.Project
