import Lookml.Token.Basic

/-!
What can be wrong with a text, and where. Reading stops at the first fault.
-/

namespace Lookml

/-- Objects and lists nest at most this deep. -/
def maxDepth : Nat := 128

/-- What a reader looks for when it meets something else. -/
inductive Expected
  | propertyName
  | colon
  | value
  | quotedText
  | element
deriving DecidableEq

def Expected.describe : Expected → String
  | .propertyName => "a property name"
  | .colon => "':'"
  | .value => "a value"
  | .quotedText => "a quoted string"
  | .element => "a list element"

inductive Fault
  | unexpected (found : Token.Kind) (expected : Expected)
  | unclosedObject
  | unclosedList
  | unmatchedBrace
  | unmatchedBracket
  | unterminatedText
  | unterminatedCode
  | badEscape (escape : String)
  | badNumeral (text : String)
  | badCharacter (text : String)
  | tooDeep
deriving DecidableEq

def Fault.message : Fault → String
  | .unexpected found expected => s!"unexpected {found.describe}, expected {expected.describe}"
  | .unclosedObject => "unclosed object"
  | .unclosedList => "unclosed list"
  | .unmatchedBrace => "unmatched '\x7d'"
  | .unmatchedBracket => "unmatched ']'"
  | .unterminatedText => "unterminated string"
  | .unterminatedCode => "code block is missing its terminating ';;'"
  | .badEscape escape => s!"invalid escape sequence '{escape}'"
  | .badNumeral text => s!"invalid number '{text}'"
  | .badCharacter text => s!"unexpected character '{text}'"
  | .tooDeep => s!"nesting deeper than {maxDepth} levels"

structure SyntaxError where
  fault : Fault
  span : Span
deriving DecidableEq

def SyntaxError.message (error : SyntaxError) : String :=
  s!"{error.fault.message} at {error.span.toText}"

end Lookml
