/-! Doubles: the finite numbers of the binary format of 64 bits, each held exactly.
All arithmetic is that of natural numbers, and every operation rounds its exact
result once, to the nearest double, a tie to the even mantissa. -/
namespace Dossier

/-- A finite double. Its magnitude is `mantissa * 2 ^ shift` units, the unit being
the least positive double, `2 ^ (-1074)`. -/
structure Double where
  negative : Bool
  mantissa : Nat
  shift : Nat
  canonical : mantissa < 0x20000000000000 ∧ shift ≤ 2045 ∧ (0x10000000000000 ≤ mantissa ∨ shift = 0)
deriving DecidableEq

namespace Double

/-- The units that make one. -/
def unitsPerOne : Nat := Nat.pow 2 1074

/-- The magnitude in units. -/
def units (d : Double) : Nat := d.mantissa * Nat.pow 2 d.shift

/-- The exact value in units. -/
def scaled (d : Double) : Int := if d.negative then -(d.units : Int) else d.units

def isZero (d : Double) : Bool := d.mantissa == 0

def zero (negative : Bool) : Double := ⟨negative, 0, 0, by decide⟩

/-- A quotient rounded to the nearest natural number, a tie to the even one. -/
def roundDiv (numerator denominator : Nat) : Nat :=
  let quotient := numerator / denominator
  let twice := 2 * (numerator % denominator)
  if twice < denominator then quotient
  else if denominator < twice then quotient + 1
  else quotient + quotient % 2

/-- The double nearest to a fraction of units; `none` when that is beyond the
greatest one. -/
def ofUnits? (negative : Bool) (numerator denominator : Nat) : Option Double :=
  let shift := (numerator / denominator).log2 - 52
  let mantissa := roundDiv numerator (denominator * Nat.pow 2 shift)
  let (mantissa, shift) := if mantissa = 0x20000000000000 then (0x10000000000000, shift + 1) else (mantissa, shift)
  if canonical : mantissa < 0x20000000000000 ∧ shift ≤ 2045 ∧ (0x10000000000000 ≤ mantissa ∨ shift = 0) then
    some ⟨negative, mantissa, shift, canonical⟩
  else none

/-- The double nearest to a fraction. -/
def ofRatio? (negative : Bool) (numerator denominator : Nat) : Option Double :=
  ofUnits? negative (numerator * unitsPerOne) denominator

/-- The double nearest to an integer. -/
def ofInt? (n : Int) : Option Double := ofRatio? (n < 0) n.natAbs 1

def mul? (a b : Double) : Option Double :=
  ofUnits? (a.negative != b.negative) (a.units * b.units) unitsPerOne

/-- The quotient by a double other than zero. -/
def div? (a b : Double) : Option Double :=
  ofUnits? (a.negative != b.negative) (a.units * unitsPerOne) b.units

/-- Equality of values: the two zeros are equal. -/
def sameValue (a b : Double) : Bool := a.scaled == b.scaled

end Double
end Dossier
