import Lookml.Fault

/-!
Explaining a syntax error to a person: what to write at the place it points to, and what
may help.
-/

namespace Lookml

namespace Fault

def label : Fault → String
  | .unexpected _ expected => s!"expected {expected.describe}"
  | .unclosedObject => "object opened here"
  | .unclosedList => "list opened here"
  | .unmatchedBrace | .unmatchedBracket => "nothing to close here"
  | .unterminatedText => "string starts here"
  | .unterminatedCode => "code block starts here"
  | .badEscape _ => "invalid escape"
  | .badNumeral _ => "not a number"
  | .badCharacter _ => "unexpected character"
  | .tooDeep => "nesting limit reached here"

def help? : Fault → Option String
  | .unclosedObject => some "add a closing '\x7d'"
  | .unclosedList => some "add a closing ']'"
  | .unterminatedText => some "add a closing '\"'"
  | .unterminatedCode => some "code properties end with ';;'"
  | .badEscape _ => some "valid escapes are: \\\\, \\\", \\n, \\r, \\t"
  | _ => none

end Fault

structure Diagnosis where
  message : String
  place : Place
  label : String
  help : Option String
deriving DecidableEq

/-- The span that is marked in a text: the span of the error, or for an empty one the byte
there, the last of the text where it lies at the end. -/
def SyntaxError.marked (error : SyntaxError) (source : List Char) : Span :=
  if error.span.isEmpty then
    let start := min error.span.start (byteLength source - 1)
    ⟨start, start + 1⟩
  else error.span

def SyntaxError.diagnose (error : SyntaxError) (source : List Char) : Diagnosis where
  message := error.fault.message
  place := (error.marked source).place source
  label := error.fault.label
  help := error.fault.help?

end Lookml
