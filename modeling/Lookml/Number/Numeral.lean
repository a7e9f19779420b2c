import Lookml.Number.Basic

/-!
Numerals: a sign, digits, a fraction and an exponent, each taken as far as it goes. A
numeral stands for a decimal fraction, and its number is the binary64 value nearest to
that.
-/

namespace Lookml

structure Exponent where
  mark : Char
  sign : Option Char
  digits : List Char
deriving DecidableEq

/-- A numeral as it is written; an absent fraction has no digits. -/
structure Numeral where
  negative : Bool
  whole : List Char
  fraction : List Char
  exponent : Option Exponent
deriving DecidableEq

def digitsValue (digits : List Char) : Nat :=
  digits.foldl (fun value c => 10 * value + (c.toNat - '0'.toNat)) 0

namespace Exponent

def text (exponent : Exponent) : List Char :=
  exponent.mark :: (exponent.sign.toList ++ exponent.digits)

/-- The exponent at the front of a text: a mark, a sign or none, and at least one
digit. -/
def split? : List Char → Option (Exponent × List Char)
  | mark :: cs =>
      if mark == 'e' || mark == 'E' then
        let (sign, after) :=
          match cs with
          | '+' :: after => (some '+', after)
          | '-' :: after => (some '-', after)
          | _ => (none, cs)
        match after with
        | c :: _ =>
            if c.isDigit then
              some (⟨mark, sign, after.takeWhile Char.isDigit⟩, after.dropWhile Char.isDigit)
            else none
        | [] => none
      else none
  | [] => none

def value (exponent : Exponent) : Int :=
  let magnitude : Int := digitsValue exponent.digits
  if exponent.sign = some '-' then -magnitude else magnitude

theorem split?_append {cs rest : List Char} {exponent : Exponent}
    (h : split? cs = some (exponent, rest)) : exponent.text ++ rest = cs := by
  unfold split? at h
  split at h
  · rename_i mark cs
    split at h
    · split at h
      rename_i sign after hsign
      split at h
      · split at h
        · obtain ⟨rfl, rfl⟩ := Prod.mk.inj (Option.some.inj h)
          split at hsign <;> obtain ⟨rfl, rfl⟩ := Prod.mk.inj hsign <;>
            simp [text, List.takeWhile_append_dropWhile]
        · cases h
      · cases h
    · cases h
  · cases h

end Exponent

namespace Numeral

/-- The fraction at the front of a text, without its point; a point needs a digit after
it. -/
def splitFraction : List Char → List Char × List Char
  | '.' :: c :: cs =>
      if c.isDigit then
        ((c :: cs).takeWhile Char.isDigit, (c :: cs).dropWhile Char.isDigit)
      else ([], '.' :: c :: cs)
  | cs => ([], cs)

def splitSign : List Char → Bool × List Char
  | '-' :: cs => (true, cs)
  | cs => (false, cs)

def split (cs : List Char) : Numeral × List Char :=
  let (negative, body) := splitSign cs
  let (fraction, afterFraction) := splitFraction (body.dropWhile Char.isDigit)
  let whole := body.takeWhile Char.isDigit
  match Exponent.split? afterFraction with
  | some (exponent, rest) => (⟨negative, whole, fraction, some exponent⟩, rest)
  | none => (⟨negative, whole, fraction, none⟩, afterFraction)

def text (numeral : Numeral) : List Char :=
  (if numeral.negative then ['-'] else []) ++ numeral.whole ++
    (if numeral.fraction.isEmpty then [] else '.' :: numeral.fraction) ++
      (numeral.exponent.map Exponent.text).getD []

/-- A numeral stands for `coefficient * 10 ^ scale`. -/
def coefficient (numeral : Numeral) : Nat :=
  digitsValue (numeral.whole ++ numeral.fraction)

def scale (numeral : Numeral) : Int :=
  (numeral.exponent.map Exponent.value).getD 0 - numeral.fraction.length

/-- The number nearest to `coefficient * 10 ^ scale`. A scale far outside the range of the
finite numbers is settled before the power is formed: above `10 ^ 400` all is infinite,
and a coefficient of `n` bits times `10 ^ -(n + 400)` is nearest to zero. -/
def scaled (negative : Bool) (coefficient : Nat) (scale : Int) : Number :=
  if coefficient = 0 then .ofRank negative 0
  else if 400 < scale then .infinite negative
  else if scale < -(coefficient.log2 + 400 : Int) then .ofRank negative 0
  else .ofRatio negative (coefficient * 10 ^ scale.toNat) (10 ^ (-scale).toNat)

def number (numeral : Numeral) : Number :=
  scaled numeral.negative numeral.coefficient numeral.scale

theorem splitSign_append (cs : List Char) :
    (if (splitSign cs).1 then ['-'] else []) ++ (splitSign cs).2 = cs := by
  unfold splitSign
  split <;> simp

theorem splitFraction_append (cs : List Char) :
    (if (splitFraction cs).1.isEmpty then [] else '.' :: (splitFraction cs).1) ++
      (splitFraction cs).2 = cs := by
  unfold splitFraction
  split
  · rename_i c cs
    by_cases h : c.isDigit = true
    · simp [h, List.takeWhile_append_dropWhile]
    · simp [h]
  · simp

theorem split_append (cs : List Char) : (split cs).1.text ++ (split cs).2 = cs := by
  have hsign := splitSign_append cs
  have hwhole := List.takeWhile_append_dropWhile (p := Char.isDigit) (l := (splitSign cs).2)
  have hfraction := splitFraction_append ((splitSign cs).2.dropWhile Char.isDigit)
  cases hexponent : Exponent.split?
      (splitFraction ((splitSign cs).2.dropWhile Char.isDigit)).2 with
  | none =>
      simp only [split, hexponent, text, Option.map_none, Option.getD_none, List.append_nil,
        List.append_assoc]
      rw [hfraction, hwhole, hsign]
  | some found =>
      have hrest := Exponent.split?_append hexponent
      simp only [split, hexponent, text, Option.map_some, Option.getD_some, List.append_assoc]
      rw [hrest, hfraction, hwhole, hsign]

theorem split_text_eq_nil {cs : List Char} (h : (split cs).1.text = []) :
    (splitSign cs).1 = false ∧ (splitSign cs).2.takeWhile Char.isDigit = [] ∧
      (splitFraction ((splitSign cs).2.dropWhile Char.isDigit)).1 = [] := by
  cases hexponent : Exponent.split?
      (splitFraction ((splitSign cs).2.dropWhile Char.isDigit)).2 <;>
    simp only [split, hexponent, text, List.append_eq_nil_iff] at h <;>
    obtain ⟨⟨⟨hsign, hwhole⟩, hfraction⟩, -⟩ := h <;>
    refine ⟨?_, hwhole, ?_⟩ <;> simp_all

end Numeral

def Number.ofText (cs : List Char) : Number :=
  (Numeral.split cs).1.number

end Lookml
