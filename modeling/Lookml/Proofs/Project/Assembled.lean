import Lookml.Project.Parts

/-!
Parts assembled field by field. Each component of a part goes its own way: what a field of
its name says takes the place of what was held, or comes behind it, and all other fields
leave it as it is. So the fields of an object are read once for each component, whatever
the order in which they stand.
-/

namespace Lookml.Project

section Components
variable {β : Type}

/-- What a field of this name says, if it says anything, takes the place of what was
held. -/
def replace (name : String) (said? : PartField → Option β) (held : β)
    (field : String × PartField) : β :=
  if field.1 = name then (said? field.2).getD held else held

/-- What a field of this name says comes behind what was held. -/
def collect (name : String) (said : PartField → List β) (held : List β)
    (field : String × PartField) : List β :=
  if field.1 = name then held ++ said field.2 else held

end Components

/-! What fields say. A value says something in any case; a part does so only where it is
of the kind that is asked for. -/

def textOf (field : PartField) : Option (Option String) := some field.text?

def numberOf (field : PartField) : Option (Option Number) := some field.number?

def truthOf (field : PartField) : Option Bool := some (field.truth?.getD false)

def textsOf (field : PartField) : Option (List String) := some field.texts

def pairsOf (field : PartField) : Option (List (String × String)) := some field.pairs

def filtersOf : PartField → Option (List (String × String))
  | .node (.filters pairs) => some pairs
  | _ => none

def tableOf : PartField → Option (Option DerivedTable)
  | .node (.derivedTable table) => some (some table)
  | _ => none

def exploresOf : PartField → List Explore
  | .node (.explore explore) => [explore]
  | _ => []

def joinsOf : PartField → List Join
  | .node (.join join) => [join]
  | _ => []

def dimensionsOf : PartField → List Dimension
  | .node (.dimension dimension) => [dimension]
  | _ => []

def measuresOf : PartField → List Measure
  | .node (.measure measure) => [measure]
  | _ => []

section Parts
variable (fields : List (String × PartField))

theorem Model.foldl_set (model : Model) :
    fields.foldl (fun model field => model.set field.1 field.2) model =
      { model with
        label := fields.foldl (replace "label" textOf) model.label
        connection := fields.foldl (replace "connection" textOf) model.connection
        includes := fields.foldl (replace "include" textsOf) model.includes
        explores := fields.foldl (collect "explore" exploresOf) model.explores } := by
  induction fields generalizing model with
  | nil => rfl
  | cons field fields ih =>
      obtain ⟨name, field⟩ := field
      simp only [List.foldl_cons, ih]
      unfold Model.set
      split <;> simp_all [replace, collect, textOf, textsOf, exploresOf]

theorem Explore.foldl_set (explore : Explore) :
    fields.foldl (fun explore field => explore.set field.1 field.2) explore =
      { explore with
        label := fields.foldl (replace "label" textOf) explore.label
        description := fields.foldl (replace "description" textOf) explore.description
        viewName := fields.foldl (replace "view_name" textOf) explore.viewName
        source := fields.foldl (replace "from" textOf) explore.source
        hidden := fields.foldl (replace "hidden" truthOf) explore.hidden
        fields := fields.foldl (replace "fields" textsOf) explore.fields
        sqlAlwaysWhere := fields.foldl (replace "sql_always_where" textOf) explore.sqlAlwaysWhere
        alwaysFilter := fields.foldl (replace "always_filter" filtersOf) explore.alwaysFilter
        joins := fields.foldl (collect "join" joinsOf) explore.joins } := by
  induction fields generalizing explore with
  | nil => rfl
  | cons field fields ih =>
      obtain ⟨name, field⟩ := field
      simp only [List.foldl_cons, ih]
      unfold Explore.set
      split <;> simp_all [replace, collect, textOf, truthOf, textsOf, filtersOf, joinsOf]

theorem Join.foldl_set (join : Join) :
    fields.foldl (fun join field => join.set field.1 field.2) join =
      { join with
        joinType := fields.foldl (replace "type" textOf) join.joinType
        relationship := fields.foldl (replace "relationship" textOf) join.relationship
        source := fields.foldl (replace "from" textOf) join.source
        viewLabel := fields.foldl (replace "view_label" textOf) join.viewLabel
        sqlOn := fields.foldl (replace "sql_on" textOf) join.sqlOn
        fields := fields.foldl (replace "fields" textsOf) join.fields } := by
  induction fields generalizing join with
  | nil => rfl
  | cons field fields ih =>
      obtain ⟨name, field⟩ := field
      simp only [List.foldl_cons, ih]
      unfold Join.set
      split <;> simp_all [replace, textOf, textsOf]

theorem View.foldl_set (view : View) :
    fields.foldl (fun view field => view.set field.1 field.2) view =
      { view with
        label := fields.foldl (replace "label" textOf) view.label
        sqlTableName := fields.foldl (replace "sql_table_name" textOf) view.sqlTableName
        extended := fields.foldl (replace "extends" textsOf) view.extended
        drillFields := fields.foldl (replace "drill_fields" textsOf) view.drillFields
        derivedTable := fields.foldl (replace "derived_table" tableOf) view.derivedTable
        dimensions := fields.foldl (collect "dimension" dimensionsOf) view.dimensions
        dimensionGroups :=
          fields.foldl (collect "dimension_group" dimensionsOf) view.dimensionGroups
        measures := fields.foldl (collect "measure" measuresOf) view.measures } := by
  induction fields generalizing view with
  | nil => rfl
  | cons field fields ih =>
      obtain ⟨name, field⟩ := field
      simp only [List.foldl_cons, ih]
      unfold View.set
      split <;> simp_all [replace, collect, textOf, textsOf, tableOf, dimensionsOf, measuresOf]

theorem DerivedTable.foldl_set (table : DerivedTable) :
    fields.foldl (fun table field => table.set field.1 field.2) table =
      { table with
        sql := fields.foldl (replace "sql" textOf) table.sql
        persistFor := fields.foldl (replace "persist_for" textOf) table.persistFor
        indexes := fields.foldl (replace "indexes" textsOf) table.indexes } := by
  induction fields generalizing table with
  | nil => rfl
  | cons field fields ih =>
      obtain ⟨name, field⟩ := field
      simp only [List.foldl_cons, ih]
      unfold DerivedTable.set
      split <;> simp_all [replace, textOf, textsOf]

theorem Dimension.foldl_set (dimension : Dimension) :
    fields.foldl (fun dimension field => dimension.set field.1 field.2) dimension =
      { dimension with
        kind := fields.foldl (replace "type" textOf) dimension.kind
        label := fields.foldl (replace "label" textOf) dimension.label
        description := fields.foldl (replace "description" textOf) dimension.description
        sql := fields.foldl (replace "sql" textOf) dimension.sql
        html := fields.foldl (replace "html" textOf) dimension.html
        primaryKey := fields.foldl (replace "primary_key" truthOf) dimension.primaryKey
        hidden := fields.foldl (replace "hidden" truthOf) dimension.hidden
        valueFormatName :=
          fields.foldl (replace "value_format_name" textOf) dimension.valueFormatName
        timeframes := fields.foldl (replace "timeframes" textsOf) dimension.timeframes
        tags := fields.foldl (replace "tags" textsOf) dimension.tags } := by
  induction fields generalizing dimension with
  | nil => rfl
  | cons field fields ih =>
      obtain ⟨name, field⟩ := field
      simp only [List.foldl_cons, ih]
      unfold Dimension.set
      split <;> simp_all [replace, textOf, truthOf, textsOf]

theorem Measure.foldl_set (measure : Measure) :
    fields.foldl (fun measure field => measure.set field.1 field.2) measure =
      { measure with
        kind := fields.foldl (replace "type" textOf) measure.kind
        label := fields.foldl (replace "label" textOf) measure.label
        description := fields.foldl (replace "description" textOf) measure.description
        sql := fields.foldl (replace "sql" textOf) measure.sql
        html := fields.foldl (replace "html" textOf) measure.html
        hidden := fields.foldl (replace "hidden" truthOf) measure.hidden
        valueFormatName := fields.foldl (replace "value_format_name" textOf) measure.valueFormatName
        precision := fields.foldl (replace "precision" numberOf) measure.precision
        drillFields := fields.foldl (replace "drill_fields" textsOf) measure.drillFields
        filters := fields.foldl (replace "filters" pairsOf) measure.filters } := by
  induction fields generalizing measure with
  | nil => rfl
  | cons field fields ih =>
      obtain ⟨name, field⟩ := field
      simp only [List.foldl_cons, ih]
      unfold Measure.set
      split <;> simp_all [replace, textOf, truthOf, numberOf, textsOf, pairsOf]

theorem foldl_addFilters (pairs : List (String × String)) :
    fields.foldl (fun pairs field => addFilters pairs field.1 field.2) pairs =
      fields.foldl (collect "filters" Field.pairs) pairs := by
  refine congrArg (List.foldl · pairs fields) (funext fun pairs => funext fun field => ?_)
  unfold addFilters collect
  split <;> simp_all

end Parts

end Lookml.Project
