import Lookml.Proofs.Tree.Printed
import Lookml.Proofs.Tree.RoundTrip

/-!
Strings written without quotes. A document is printed without the quotes of its bare words
as another one is printed with all quotes, the document that has identifiers for these
strings; and that is the one that is read back.
-/

namespace Lookml

/-- A string that can be written without quotes becomes the identifier that is written
so. -/
def Value.bare : Value → Value
  | .string text => if isBareWord text.toList then .identifier text else .string text
  | value => value

/-- A document with its strings bared, be they values of properties or elements of
lists. -/
def Members.bared (document : Document) : Document := document.respelled id Value.bare

theorem Value.bared_string (text : String) : (Value.string text).respelled id Value.bare =
    if isBareWord text.toList then .identifier text else .string text := rfl

theorem keepsScalars_bare : KeepsScalars Value.bare := by
  intro value hvalue
  cases value with
  | string text =>
      rw [Value.bare]
      split <;> rfl
  | _ => exact hvalue

def Layout.quoted (layout : Layout) : Layout := { layout with bareStrings := false }

section Print
variable {layout : Layout}

theorem Value.isProperty_bared (value : Value) :
    (value.respelled id Value.bare).isProperty = value.isProperty := by
  cases value with
  | string text =>
      rw [Value.bared_string]
      split <;> rfl
  | _ => rfl

theorem Value.isElement_bared (value : Value) :
    (value.respelled id Value.bare).isElement = value.isElement := by
  cases value with
  | string text =>
      rw [Value.bared_string]
      split <;> rfl
  | _ => rfl

mutual
theorem Value.print_bared (hbare : layout.bareStrings = true) (depth : Nat) (value : Value) :
    (value.respelled id Value.bare).print layout.quoted depth = value.print layout depth := by
  cases value with
  | list elements =>
      rw [Value.respelled, Value.print, Value.print, Elements.printed_bared hbare]
      rfl
  | object members =>
      rw [Value.respelled, Value.print, Value.print, Members.printed_bared hbare]
      rfl
  | named instanceName members =>
      rw [Value.respelled, Value.print, Value.print, Members.printed_bared hbare]
      rfl
  | string text =>
      -- Without its quotes the string has the text of the identifier.
      rw [Value.bared_string, Value.print, Layout.spellString, hbare, Bool.true_and]
      split <;> rfl
  | _ => rfl

theorem Members.printed_bared (hbare : layout.bareStrings = true) (depth : Nat)
    (members : Members) :
    (members.respelled id Value.bare).printed layout.quoted depth =
      members.printed layout depth := by
  cases members with
  | ending comments => rw [Members.respelled, List.map_id, Members.printed, Members.printed]
  | member comments name value rest =>
      rw [Members.respelled, List.map_id, Members.printed, Members.printed,
        Value.isProperty_bared, Value.print_bared hbare, Members.printed_bared hbare]
      rfl

theorem Elements.printed_bared (hbare : layout.bareStrings = true) (depth : Nat)
    (elements : Elements) :
    (elements.respelled id Value.bare).printed layout.quoted depth =
      elements.printed layout depth := by
  cases elements with
  | ending comments => rw [Elements.respelled, List.map_id, Elements.printed, Elements.printed]
  | element comments value rest =>
      rw [Elements.respelled, List.map_id, Elements.printed, Elements.printed,
        Value.isElement_bared, Value.print_bared hbare, Elements.printed_bared hbare]
end

theorem Members.format_bared (hbare : layout.bareStrings = true) (document : Document) :
    Members.format layout.quoted (Members.bared document) = Members.format layout document := by
  rw [Members.format, Members.format, Members.textOfStream_events, Members.textOfStream_events,
    Members.print, Members.print, Members.bared, Members.printed_bared hbare]
  rfl

end Print

section Writable
variable {code : Names}

theorem Value.WritableUnder.bared {name : String} {value : Value}
    (h : value.WritableUnder code name) :
    (value.respelled id Value.bare).WritableUnder code name := by
  cases value with
  | string text =>
      rw [Value.bared_string]
      split
      · rename_i hword
        exact ⟨h, hword⟩
      · exact h
  | _ => exact h

theorem Value.WritableInList.bared {value : Value} (h : value.WritableInList) :
    (value.respelled id Value.bare).WritableInList := by
  cases value with
  | string text =>
      rw [Value.bared_string]
      split
      · rename_i hword
        exact hword
      · exact h
  | _ => exact h

theorem Members.IsWritable.bared {document : Document} (h : Members.IsWritable code document) :
    Members.IsWritable code (Members.bared document) := by
  refine ⟨Members.All.respelled keepsScalars_bare (h.values.mono ?_ ?_), ?_⟩
  · exact fun _ _ => Value.WritableUnder.bared
  · exact fun _ => Value.WritableInList.bared
  · rw [Members.bared, Members.height_respelled keepsScalars_bare]
    exact h.height

end Writable

/-- A writable document without line ends in its comments that is written in any layout
without needless quotes and with an indent of blanks, be they line ends, is read back as
it was, but for its strings that are bare words: they are identifiers. -/
theorem Document.read_format_bared {code : Names} {layout : Layout} {document : Document}
    (hbare : layout.bareStrings = true)
    (hindent : IsBlanks layout.indent.toList)
    (hdocument : Members.IsWritable code document)
    (hcomments : ∀ text ∈ Members.comments document, IsLine text.toList) :
    ∃ read, Document.read code (Members.format layout document).toList = .ok read ∧
      read.same (Members.bared document) = true := by
  have hplain : layout.quoted.IsPlain := ⟨rfl, hindent⟩
  have hread := Document.read_format_eq hplain hdocument.bared
  have hsame := Members.same_readBack onOneLine hdocument.bared.values
  have hlines : ∀ text ∈ (Members.bared document).comments, onOneLine text = text := by
    rw [Members.bared, Members.comments_respelled keepsScalars_bare, List.map_id]
    exact fun text htext => onOneLine_of_isLine (hcomments text htext)
  rw [Members.format_bared hbare] at hread
  rw [Members.map_eq_self hlines] at hsame
  exact ⟨_, hread, hsame⟩

/-- Neither the truth value nor the string of two words is bared, and in the list the bare
word stands before a comment and a pair. -/
theorem Document.read_format_bared_view :
    ∃ read, Document.read (Names.ofList ["sql"]) (Members.format ⟨true, " \t", true⟩
        (.member ["c"] "view" (.named "users"
          (.member [] "sql" (.code "x ; y") (.member [] "a b" (.string "first_name")
            (.member [] "hidden" (.string "yes") (.member [] "tags" (.list
              (.element [] (.string "b.c") (.element [":"] (.pair "no" "d")
                (.element [] (.string "two words") (.ending ["e"])))))
              (.ending [])))))) (.ending ["end"]))).toList = .ok read ∧
      read.same
        (.member ["c"] "view" (.named "users"
          (.member [] "sql" (.code "x ; y") (.member [] "a b" (.identifier "first_name")
            (.member [] "hidden" (.string "yes") (.member [] "tags" (.list
              (.element [] (.identifier "b.c") (.element [":"] (.pair "no" "d")
                (.element [] (.string "two words") (.ending ["e"])))))
              (.ending [])))))) (.ending ["end"])) = true := by
  have hnamed : (Names.ofList ["sql"]).contains "view" = false ∧ isWord "users".toList = true := by
    decide
  have hcode : (Names.ofList ["sql"]).contains "sql" = true ∧ IsCode "x ; y".toList :=
    ⟨by decide, by decide, by decide⟩
  have hnames : (Names.ofList ["sql"]).contains "a b" = false ∧
      (Names.ofList ["sql"]).contains "hidden" = false ∧
      (Names.ofList ["sql"]).contains "tags" = false := by decide
  have hreference : isWord "no".toList = true := by decide
  have hlines : ∀ text ∈ ["c", ":", "e", "end"], IsLine text.toList := by
    simp [IsLine, Token.isLineEnd]
  have hindent : IsBlanks " \t".toList := .gap rfl (.gap rfl .nil)
  refine Document.read_format_bared rfl hindent ⟨⟨hnamed, ?_, trivial⟩, by decide⟩ hlines
  refine ⟨hcode, trivial, hnames.1, trivial, hnames.2.1, trivial, hnames.2.2, ?_, trivial⟩
  exact ⟨trivial, trivial, hreference, trivial, trivial, trivial, trivial⟩

end Lookml
