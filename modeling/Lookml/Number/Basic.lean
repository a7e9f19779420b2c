/-!
Binary64 numbers. The finite magnitudes, ordered from zero upwards, are known by their
rank in that order; every one of them is a whole multiple of `2 ^ -1074`, its number of
units.
-/

-- Powers of natural numbers are the built-in ones, whatever other powers are known.
attribute [instance(2000)] instPowNat
attribute [default_instance 20000] instPowNat

namespace Lookml

def Number.rankCount : Nat := 2047 * 2 ^ 52

inductive Number
  | nan
  | infinite (negative : Bool)
  | finite (negative : Bool) (rank : Fin Number.rankCount)
deriving DecidableEq

namespace Number

/-- The magnitude of a rank as a multiple of `2 ^ -1074`. -/
def units (rank : Nat) : Nat :=
  let binade := rank / 2 ^ 52
  if binade = 0 then rank else (2 ^ 52 + rank % 2 ^ 52) * 2 ^ (binade - 1)

/-- The whole number nearest to `num / den`, an even one where two are equally near. -/
def roundHalfEven (num den : Nat) : Nat :=
  let whole := num / den
  let twice := 2 * (num % den)
  if twice < den then whole
  else if den < twice then whole + 1
  else whole + whole % 2

def nearestRank (num den : Nat) : Nat :=
  let shift := (num / den).log2 + 1 - 53
  shift * 2 ^ 52 + roundHalfEven num (den * 2 ^ shift)

/-- The number of a sign and a rank; a rank past the last finite one gives an infinity. -/
def ofRank (negative : Bool) (rank : Nat) : Number :=
  if h : rank < rankCount then .finite negative ⟨rank, h⟩ else .infinite negative

def ofRatio (negative : Bool) (num den : Nat) : Number :=
  ofRank negative (nearestRank (num * 2 ^ 1074) den)

def zero : Number := ofRank false 0

/-- Equality of the values: no number equals a NaN, and the two zeros are equal. -/
def same : Number → Number → Bool
  | .infinite negative, .infinite negative' => negative == negative'
  | .finite negative rank, .finite negative' rank' =>
      rank == rank' && (negative == negative' || rank.val == 0)
  | _, _ => false

/-- The number of a 64-bit word: a sign, eleven bits of binade and 52 of fraction. -/
def ofBits (bits : Nat) : Number :=
  let negative := bits / 2 ^ 63 % 2 == 1
  let rank := bits % 2 ^ 63
  if rank ≤ rankCount then ofRank negative rank else .nan

/-- The word of a number; the quiet NaN stands for every NaN. -/
def toBits : Number → Nat
  | .nan => 2 ^ 63 - 2 ^ 51
  | .infinite negative => negative.toNat * 2 ^ 63 + rankCount
  | .finite negative rank => negative.toNat * 2 ^ 63 + rank.val

@[simp] theorem units_zero : units 0 = 0 := rfl

@[simp] theorem same_nan_left (value : Number) : same .nan value = false := by
  cases value <;> rfl

@[simp] theorem same_nan_right (value : Number) : same value .nan = false := by
  cases value <;> rfl

theorem same_self {value : Number} (h : value ≠ .nan) : same value value = true := by
  cases value <;> simp_all [same]

theorem same_comm (left right : Number) : same left right = same right left := by
  match left, right with
  | .nan, _ | _, .nan => simp
  | .infinite _, .finite _ _ | .finite _ _, .infinite _ => rfl
  | .infinite negative, .infinite negative' => exact Bool.beq_comm
  | .finite negative rank, .finite negative' rank' =>
      by_cases h : rank = rank'
      · simp only [same, h, Bool.beq_comm (a := negative)]
      · have h' : rank' ≠ rank := fun e => h e.symm
        simp only [same, beq_false_of_ne h, beq_false_of_ne h', Bool.false_and]

theorem ofRank_val (negative : Bool) (rank : Fin rankCount) :
    ofRank negative rank.val = .finite negative rank := by
  simp [ofRank, rank.isLt]

end Number

end Lookml
