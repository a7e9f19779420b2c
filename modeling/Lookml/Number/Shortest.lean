import Lookml.Number.Numeral

/-!
Numbers written without an exponent: whole numbers below `10 ^ 15` as such, all others
with the fewest digits that read back. On the grid of each digit count only the two
neighbours of the number are tried, the nearer one first and of two equally near ones the
upper.
-/

namespace Lookml.Number

/-- `value / 10 ^ places` in digits, with a point where a fraction is left. -/
def positional (value places : Nat) : List Char :=
  let fraction := (Nat.toDigits 10 (value % 10 ^ places)).leftpad places '0'
  let kept := (fraction.reverse.dropWhile (· == '0')).reverse
  Nat.toDigits 10 (value / 10 ^ places) ++
    if places = 0 || kept.isEmpty then [] else '.' :: kept

def exactText (rank : Nat) : List Char :=
  positional (units rank * 5 ^ 1074) 1074

/-- The power of ten just above a magnitude has this exponent, with 400 added. -/
def decimalTop (rank : Nat) : Nat :=
  (Nat.toDigits 10 (units rank * 10 ^ 400 / 2 ^ 1074)).length

/-- The neighbours of a magnitude among the numbers with so many digits. -/
def neighbours (rank count : Nat) : List (List Char) :=
  let step : Int := decimalTop rank - 400 - count
  let num := units rank * 10 ^ (-step).toNat
  let den := 2 ^ 1074 * 10 ^ step.toNat
  let lower := num / den
  let write := fun value => positional (value * 10 ^ step.toNat) (-step).toNat
  if 2 * (num % den) < den then [write lower, write (lower + 1)]
  else [write (lower + 1), write lower]

def readsBack (rank : Fin rankCount) (text : List Char) : Bool :=
  ofText text == .finite false rank

def shortest (rank : Fin rankCount) : List Char :=
  ((List.range 17).findSome? fun count =>
    (neighbours rank (count + 1)).find? (readsBack rank)).getD (exactText rank)

/-- The whole number below `10 ^ 15` that a magnitude is, if it is one. -/
def smallWhole? (rank : Nat) : Option Nat :=
  if units rank % 2 ^ 1074 = 0 ∧ units rank < 10 ^ 15 * 2 ^ 1074 then
    some (units rank / 2 ^ 1074)
  else none

def signed (negative : Bool) (text : List Char) : List Char :=
  if negative then '-' :: text else text

/-- The text of a number. The negative zero has no sign. -/
def text : Number → List Char
  | .nan => ['N', 'a', 'N']
  | .infinite negative => signed negative ['i', 'n', 'f']
  | .finite negative rank =>
      match smallWhole? rank with
      | some 0 => ['0']
      | some whole => signed negative (Nat.toDigits 10 whole)
      | none => signed negative (shortest rank)

def toText (value : Number) : String := String.ofList value.text

end Lookml.Number
