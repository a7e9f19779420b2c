import Lookml.Event.Reader
import Lookml.Proofs.Event.Balanced
import Lookml.Proofs.Lexeme.CodeBlock
import Lookml.Proofs.Lexeme.Spelling
import Lookml.Proofs.Number.ReadBack

/-!
Events that a text can spell, given the names that stand for code: words where words are
told, code under the names of code and nowhere else. Two further conditions are kept
apart, since not every stream meets them: that comments are lines and numbers are no NaN,
as in all that is read, and that numbers are finite.
-/

namespace Lookml.Event

def Spelled (code : Names) : Event → Prop
  | .number name _ | .truth name _ | .string name _ | .list name =>
      ∀ text ∈ name, code.contains text = false
  | .identifier name text =>
      (∀ text ∈ name, code.contains text = false) ∧ isBareWord text.toList = true
  | .code name text => code.contains name = true ∧ IsCode text.toList
  | .pair reference _ => isWord reference.toList = true
  | .object name => code.contains name = false
  | .named name instanceName =>
      code.contains name = false ∧ isWord instanceName.toList = true
  | .comment _ | .close => True

def Readable : Event → Prop
  | .comment text => IsLine text.toList
  | .number _ value => value ≠ .nan
  | _ => True

def IsFinite : Event → Prop
  | .number _ value => value.IsFinite
  | _ => True

/-- The event of a numeral too great for any finite number. -/
def isInfinite : Event → Bool
  | .number _ (.infinite _) => true
  | _ => false

/-- The instance name, where it has one, is a word, and an identifier is one that tells no
truth value. -/
def IsWorded : Event → Prop
  | .identifier _ text => isBareWord text.toList = true
  | .named _ instanceName => isWord instanceName.toList = true
  | _ => True

theorem Spelled.isWorded {code : Names} {event : Event} (h : event.Spelled code) :
    event.IsWorded := by
  cases event with
  | identifier name text => exact h.2
  | named name instanceName => exact h.2
  | _ => trivial

theorem unnamed_spelled (code : Names) :
    ∀ text ∈ (none : Option String), code.contains text = false := by
  rintro text ⟨⟩

theorem named_spelled {code : Names} {name : String} (hname : code.contains name = false) :
    ∀ text ∈ some name, code.contains text = false := by
  rintro text ⟨⟩
  exact hname

end Lookml.Event
