import Lookml.Node.Registry
import Lookml.Project.Basic

/-!
How the parts of a project are made from the fields of their objects. A later field of a
name overrides an earlier one; explores, joins, dimensions and measures add up. Fields of
other names are not used.
-/

namespace Lookml.Project

abbrev PartField := Field Part

def Model.set (model : Model) (name : String) (field : PartField) : Model :=
  match name, field with
  | "label", field => { model with label := field.text? }
  | "connection", field => { model with connection := field.text? }
  | "include", field => { model with includes := field.texts }
  | "explore", .node (.explore explore) => { model with explores := model.explores ++ [explore] }
  | _, _ => model

def Explore.set (explore : Explore) (name : String) (field : PartField) : Explore :=
  match name, field with
  | "label", field => { explore with label := field.text? }
  | "description", field => { explore with description := field.text? }
  | "view_name", field => { explore with viewName := field.text? }
  | "from", field => { explore with source := field.text? }
  | "hidden", field => { explore with hidden := field.truth?.getD false }
  | "fields", field => { explore with fields := field.texts }
  | "sql_always_where", field => { explore with sqlAlwaysWhere := field.text? }
  | "always_filter", .node (.filters pairs) => { explore with alwaysFilter := pairs }
  | "join", .node (.join join) => { explore with joins := explore.joins ++ [join] }
  | _, _ => explore

def Join.set (join : Join) (name : String) (field : PartField) : Join :=
  match name with
  | "type" => { join with joinType := field.text? }
  | "relationship" => { join with relationship := field.text? }
  | "from" => { join with source := field.text? }
  | "view_label" => { join with viewLabel := field.text? }
  | "sql_on" => { join with sqlOn := field.text? }
  | "fields" => { join with fields := field.texts }
  | _ => join

/-- Filters add up over all fields of their name. -/
def addFilters (pairs : List (String × String)) (name : String) (field : PartField) :
    List (String × String) :=
  match name with
  | "filters" => pairs ++ field.pairs
  | _ => pairs

def View.set (view : View) (name : String) (field : PartField) : View :=
  match name, field with
  | "label", field => { view with label := field.text? }
  | "sql_table_name", field => { view with sqlTableName := field.text? }
  | "extends", field => { view with extended := field.texts }
  | "drill_fields", field => { view with drillFields := field.texts }
  | "derived_table", .node (.derivedTable table) => { view with derivedTable := some table }
  | "dimension", .node (.dimension dimension) =>
      { view with dimensions := view.dimensions ++ [dimension] }
  | "dimension_group", .node (.dimension group) =>
      { view with dimensionGroups := view.dimensionGroups ++ [group] }
  | "measure", .node (.measure measure) => { view with measures := view.measures ++ [measure] }
  | _, _ => view

def DerivedTable.set (table : DerivedTable) (name : String) (field : PartField) : DerivedTable :=
  match name with
  | "sql" => { table with sql := field.text? }
  | "persist_for" => { table with persistFor := field.text? }
  | "indexes" => { table with indexes := field.texts }
  | _ => table

def Dimension.set (dimension : Dimension) (name : String) (field : PartField) : Dimension :=
  match name with
  | "type" => { dimension with kind := field.text? }
  | "label" => { dimension with label := field.text? }
  | "description" => { dimension with description := field.text? }
  | "sql" => { dimension with sql := field.text? }
  | "html" => { dimension with html := field.text? }
  | "primary_key" => { dimension with primaryKey := field.truth?.getD false }
  | "hidden" => { dimension with hidden := field.truth?.getD false }
  | "value_format_name" => { dimension with valueFormatName := field.text? }
  | "timeframes" => { dimension with timeframes := field.texts }
  | "tags" => { dimension with tags := field.texts }
  | _ => dimension

def Measure.set (measure : Measure) (name : String) (field : PartField) : Measure :=
  match name with
  | "type" => { measure with kind := field.text? }
  | "label" => { measure with label := field.text? }
  | "description" => { measure with description := field.text? }
  | "sql" => { measure with sql := field.text? }
  | "html" => { measure with html := field.text? }
  | "hidden" => { measure with hidden := field.truth?.getD false }
  | "value_format_name" => { measure with valueFormatName := field.text? }
  | "precision" => { measure with precision := field.number? }
  | "drill_fields" => { measure with drillFields := field.texts }
  | "filters" => { measure with filters := field.pairs }
  | _ => measure

/-- A part that starts from its instance name and takes its fields one by one. -/
def assemble {α : Type} (start : String → α) (set : α → String → PartField → α) (part : α → Part) :
    Factory Part :=
  fun instanceName fields =>
    part (fields.foldl (fun made field => set made field.1 field.2) (start (instanceName.getD "")))

def registry : Registry Part :=
  Registry.empty
    |>.register "model" (assemble (fun name => { name }) Model.set .model)
    |>.register "explore" (assemble (fun name => { name }) Explore.set .explore)
    |>.register "join" (assemble (fun name => { name }) Join.set .join)
    |>.register "filters" (assemble (fun _ => []) addFilters .filters)
    |>.register "view" (assemble (fun name => { name }) View.set .view)
    |>.register "derived_table" (assemble (fun _ => {}) DerivedTable.set .derivedTable)
    |>.register "dimension" (assemble (fun name => { name }) Dimension.set .dimension)
    |>.register "measure" (assemble (fun name => { name }) Measure.set .measure)

end Lookml.Project
