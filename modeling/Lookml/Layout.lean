import Lookml.Number.Shortest
import Lookml.Text.Quoted
import Lookml.Text.Word

/-!
How a document is laid out, and how its words are spelled.
-/

namespace Lookml

structure Layout where
  /-- One item a line, indented by its depth; otherwise all on one line. -/
  pretty : Bool
  indent : String
  /-- Strings that are bare words are written without quotes, and read back as
  identifiers. -/
  bareStrings : Bool
deriving DecidableEq

namespace Layout

def standard : Layout := ⟨true, "  ", false⟩

def quote (text : String) : String :=
  String.ofList ('"' :: (Quoted.encode text.toList ++ ['"']))

/-- Names are bare where they can be. -/
def spellName (name : String) : String :=
  if isBareWord name.toList then name else quote name

def spellString (layout : Layout) (text : String) : String :=
  if layout.bareStrings && isBareWord text.toList then text else quote text

/-- The space behind a colon, and before a brace. -/
def gap (layout : Layout) : String := if layout.pretty then " " else ""

/-- A comment ends with its line, so line ends inside it become spaces. -/
def spellComment (text : String) : String :=
  String.ofList ('#' :: text.toList.map fun c => if c == '\n' || c == '\r' then ' ' else c)

def spellCode (text : String) : String := text ++ " ;;"

def spellPair (layout : Layout) (reference text : String) : String :=
  reference ++ ":" ++ layout.gap ++ quote text

def newLine (layout : Layout) (depth : Nat) : String :=
  String.join ("\n" :: List.replicate depth layout.indent)

end Layout

end Lookml
