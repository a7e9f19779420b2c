/-!
Words: the names that need no quotes. A word starts with an ASCII letter or an underscore
and goes on with letters, digits, underscores and dots.
-/

namespace Lookml

def isWordStart (c : Char) : Bool :=
  c.isAlpha || c == '_'

def isWordPart (c : Char) : Bool :=
  c.isAlphanum || c == '_' || c == '.'

def isWord : List Char → Bool
  | [] => false
  | c :: cs => isWordStart c && cs.all isWordPart

/-- The two words that stand for truth values. -/
def truthOfWord? : List Char → Option Bool
  | ['y', 'e', 's'] => some true
  | ['n', 'o'] => some false
  | _ => none

def wordOfTruth (value : Bool) : String :=
  if value then "yes" else "no"

/-- A word that a reader does not take for a truth value. -/
def isBareWord (cs : List Char) : Bool :=
  isWord cs && (truthOfWord? cs).isNone

theorem isWordPart_of_isWordStart {c : Char} (h : isWordStart c = true) :
    isWordPart c = true := by
  simp only [isWordStart, isWordPart, Char.isAlphanum, Bool.or_eq_true] at h ⊢
  rcases h with h | h
  · exact .inl (.inl (.inl h))
  · exact .inl (.inr h)

theorem isWord_of_isBareWord {word : List Char} (h : isBareWord word = true) :
    isWord word = true :=
  (Bool.and_eq_true_iff.mp h).1

@[simp] theorem truthOfWord?_wordOfTruth (value : Bool) :
    truthOfWord? (wordOfTruth value).toList = some value := by
  cases value <;> decide

end Lookml
