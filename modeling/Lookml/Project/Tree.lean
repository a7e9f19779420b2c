import Lookml.Project.Basic
import Lookml.Schema.Document

/-!
The project that a tree describes. Each part is told by the properties of its object: a
text, number, truth value or list by the first value of its name, and the parts inside it
by all objects of theirs, in their order. What an object does not have is absent, empty or
false.
-/

namespace Lookml

def Value.pair? : Value → Option (String × String)
  | .pair reference text => some (reference, text)
  | _ => none

namespace Members

def text? (members : Members) (name : String) : Option String :=
  (members.get? name).bind Value.text?

def number? (members : Members) (name : String) : Option Number :=
  (members.get? name).bind Value.number?

def truth (members : Members) (name : String) : Bool :=
  ((members.get? name).bind Value.boolean?).getD false

def texts (members : Members) (name : String) : List String :=
  (members.elementsOf name).filterMap Value.text?

def pairs (members : Members) (name : String) : List (String × String) :=
  (members.elementsOf name).filterMap Value.pair?

/-- The members of the first object of a property. -/
def inner? (members : Members) (name : String) : Option Members :=
  (members.get? name).bind Value.members?

end Members

namespace Project

def Join.ofMembers (name : String) (members : Members) : Join where
  name
  joinType := members.text? "type"
  relationship := members.text? "relationship"
  source := members.text? "from"
  viewLabel := members.text? "view_label"
  sqlOn := members.text? "sql_on"
  fields := members.texts "fields"

def Explore.ofMembers (name : String) (members : Members) : Explore where
  name
  label := members.text? "label"
  description := members.text? "description"
  viewName := members.text? "view_name"
  source := members.text? "from"
  hidden := members.truth "hidden"
  fields := members.texts "fields"
  sqlAlwaysWhere := members.text? "sql_always_where"
  alwaysFilter := ((members.inner? "always_filter").map (·.pairs "filters")).getD []
  joins := (members.instances "join").map fun (name, inner) => .ofMembers name inner

def Model.ofMembers (name : String) (members : Members) : Model where
  name
  label := members.text? "label"
  connection := members.text? "connection"
  includes := members.texts "include"
  explores := (members.instances "explore").map fun (name, inner) => .ofMembers name inner

def DerivedTable.ofMembers (members : Members) : DerivedTable where
  sql := members.text? "sql"
  persistFor := members.text? "persist_for"
  indexes := members.texts "indexes"

def Dimension.ofMembers (name : String) (members : Members) : Dimension where
  name
  kind := members.text? "type"
  label := members.text? "label"
  description := members.text? "description"
  sql := members.text? "sql"
  html := members.text? "html"
  primaryKey := members.truth "primary_key"
  hidden := members.truth "hidden"
  valueFormatName := members.text? "value_format_name"
  timeframes := members.texts "timeframes"
  tags := members.texts "tags"

def Measure.ofMembers (name : String) (members : Members) : Measure where
  name
  kind := members.text? "type"
  label := members.text? "label"
  description := members.text? "description"
  sql := members.text? "sql"
  html := members.text? "html"
  hidden := members.truth "hidden"
  valueFormatName := members.text? "value_format_name"
  precision := members.number? "precision"
  drillFields := members.texts "drill_fields"
  filters := members.pairs "filters"

def View.ofMembers (name : String) (members : Members) : View where
  name
  label := members.text? "label"
  sqlTableName := members.text? "sql_table_name"
  extended := members.texts "extends"
  drillFields := members.texts "drill_fields"
  derivedTable := (members.inner? "derived_table").map .ofMembers
  dimensions := (members.instances "dimension").map fun (name, inner) => .ofMembers name inner
  dimensionGroups :=
    (members.instances "dimension_group").map fun (name, inner) => .ofMembers name inner
  measures := (members.instances "measure").map fun (name, inner) => .ofMembers name inner

/-- The part that an object of a type describes; where it has no instance name the name is
empty. -/
def Part.ofMembers (typeName name : String) (members : Members) : Part :=
  match typeName with
  | "model" => .model (.ofMembers name members)
  | "explore" => .explore (.ofMembers name members)
  | "join" => .join (.ofMembers name members)
  | "view" => .view (.ofMembers name members)
  | "derived_table" => .derivedTable (.ofMembers members)
  | "dimension" => .dimension (.ofMembers name members)
  | "measure" => .measure (.ofMembers name members)
  | _ => .filters (members.pairs "filters")

/-- The models and views at the top of a document, each with its instance name. -/
def ofDocument (document : Document) : Project where
  models := (Members.instances document "model").map fun (name, inner) => .ofMembers name inner
  views := (Members.instances document "view").map fun (name, inner) => .ofMembers name inner

end Project

end Lookml
