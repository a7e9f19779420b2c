import Lookml.Number.Basic

/-!
LookML projects: models with their explores and joins, and views with their dimensions and
measures. A property that a document does not set is absent, empty or false.
-/

namespace Lookml.Project

structure Join where
  name : String
  joinType : Option String := none
  relationship : Option String := none
  source : Option String := none
  viewLabel : Option String := none
  sqlOn : Option String := none
  fields : List String := []
deriving DecidableEq

structure Explore where
  name : String
  label : Option String := none
  description : Option String := none
  viewName : Option String := none
  source : Option String := none
  hidden : Bool := false
  fields : List String := []
  sqlAlwaysWhere : Option String := none
  alwaysFilter : List (String × String) := []
  joins : List Join := []
deriving DecidableEq

structure Model where
  name : String
  label : Option String := none
  connection : Option String := none
  includes : List String := []
  explores : List Explore := []
deriving DecidableEq

structure DerivedTable where
  sql : Option String := none
  persistFor : Option String := none
  indexes : List String := []
deriving DecidableEq

structure Dimension where
  name : String
  kind : Option String := none
  label : Option String := none
  description : Option String := none
  sql : Option String := none
  html : Option String := none
  primaryKey : Bool := false
  hidden : Bool := false
  valueFormatName : Option String := none
  timeframes : List String := []
  tags : List String := []
deriving DecidableEq

structure Measure where
  name : String
  kind : Option String := none
  label : Option String := none
  description : Option String := none
  sql : Option String := none
  html : Option String := none
  hidden : Bool := false
  valueFormatName : Option String := none
  precision : Option Number := none
  drillFields : List String := []
  filters : List (String × String) := []
deriving DecidableEq

structure View where
  name : String
  label : Option String := none
  sqlTableName : Option String := none
  extended : List String := []
  drillFields : List String := []
  derivedTable : Option DerivedTable := none
  dimensions : List Dimension := []
  dimensionGroups : List Dimension := []
  measures : List Measure := []
deriving DecidableEq

/-- Any part of a project; filters are the content of an `always_filter`. -/
inductive Part
  | model (model : Model)
  | explore (explore : Explore)
  | join (join : Join)
  | filters (pairs : List (String × String))
  | view (view : View)
  | derivedTable (table : DerivedTable)
  | dimension (dimension : Dimension)
  | measure (measure : Measure)
deriving DecidableEq

def Part.kindName : Part → String
  | .model _ => "model"
  | .explore _ => "explore"
  | .join _ => "join"
  | .filters _ => "filters"
  | .view _ => "view"
  | .derivedTable _ => "derived_table"
  | .dimension _ => "dimension"
  | .measure _ => "measure"

end Lookml.Project

namespace Lookml

structure Project where
  models : List Project.Model
  views : List Project.View
deriving DecidableEq

namespace Project

def model? (project : Project) (name : String) : Option Model :=
  project.models.find? fun model => model.name == name

def view? (project : Project) (name : String) : Option View :=
  project.views.find? fun view => view.name == name

end Project

end Lookml
