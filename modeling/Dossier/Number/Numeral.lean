import Dossier.Number.Double

/-! Decimal numerals: a sign, digits before and after a point, and a power of ten.
A numeral has two readings as a double, the exact one and that of stored texts. -/
namespace Dossier

/-- The natural number that decimal digits denote. -/
def decimalValue (digits : List Char) : Nat :=
  digits.foldl (fun value c => value * 10 + (c.toNat - 48)) 0

structure Numeral where
  negative : Bool
  integer : List Char
  fraction : List Char
  /-- The power of ten that is written out, 0 if none is. -/
  power : Int
  /-- Whether neither point nor power is written. -/
  bare : Bool

namespace Numeral

/-- The optional power of ten at the end of a numeral. The mark `e` must have a
digit after it; without the mark the power is absent. -/
def scanPower : List Char → Option (Option Int × List Char)
  | mark :: rest =>
    if mark == 'e' || mark == 'E' then
      let (negative, rest) := match rest with
        | '+' :: rest => (false, rest)
        | '-' :: rest => (true, rest)
        | rest => (false, rest)
      let digits := rest.takeWhile Char.isDigit
      if digits.isEmpty then none
      else
        let value : Int := decimalValue digits
        some (some (if negative then -value else value), rest.dropWhile Char.isDigit)
    else some (none, mark :: rest)
  | [] => some (none, [])

/-- The optional digits after a point. -/
def scanFraction : List Char → Option (List Char) × List Char
  | '.' :: rest => (some (rest.takeWhile Char.isDigit), rest.dropWhile Char.isDigit)
  | rest => (none, rest)

/-- The numeral at the head of some characters, after its sign. -/
def scan (negative : Bool) (characters : List Char) : Option (Numeral × List Char) := do
  let integer := characters.takeWhile Char.isDigit
  let (fraction, rest) := scanFraction (characters.dropWhile Char.isDigit)
  let (power, rest) ← scanPower rest
  return (⟨negative, integer, fraction.getD [], power.getD 0, fraction.isNone && power.isNone⟩, rest)

/-! ### The exact reading -/

/-- The double nearest to the number denoted; `none` beyond the greatest double.
Powers of ten that decide the matter by themselves are not multiplied out. -/
def nearest? (n : Numeral) : Option Double :=
  let digits := n.integer ++ n.fraction
  let significand := decimalValue digits
  let power := n.power - n.fraction.length
  if significand = 0 then some (Double.zero n.negative)
  else if 400 < power then none
  else if power + digits.length < -400 then some (Double.zero n.negative)
  else if 0 ≤ power then Double.ofRatio? n.negative (significand * Nat.pow 10 power.toNat) 1
  else Double.ofRatio? n.negative significand (Nat.pow 10 power.natAbs)

/-! ### The reading of stored texts

The digits are gathered into one significand of 64 bits, those that no longer fit
are dropped, and significand and power of ten are rounded to doubles before they
are multiplied or divided. The result can differ from the exact reading in its
last place. -/

def significandBound : Nat := 0x10000000000000000

/-- Appends digits to a significand while it fits; returns it with the digits
that were left over. -/
def gather : (significand : Nat) → List Char → Nat × List Char
  | significand, [] => (significand, [])
  | significand, c :: rest =>
    let next := significand * 10 + (c.toNat - 48)
    if next < significandBound then gather next rest else (significand, c :: rest)

/-- Ten to a power up to 308, rounded. -/
def powerOfTen (power : Nat) : Double :=
  (Double.ofRatio? false (Nat.pow 10 power) 1).getD (Double.zero false)

/-- Division by a power of ten, beyond the 308th in two steps; two full steps
leave nothing of a significand. -/
def scaleDown (value : Double) (power : Nat) : Option Double :=
  if power ≤ 308 then value.div? (powerOfTen power)
  else if power ≤ 616 then do (← value.div? (powerOfTen 308)).div? (powerOfTen (power - 308))
  else some (Double.zero value.negative)

/-- Multiplication by a power of ten in the arithmetic of doubles. -/
def scale (value : Double) (power : Int) : Option Double :=
  if power < 0 then scaleDown value power.natAbs
  else if power ≤ 308 then value.mul? (powerOfTen power.toNat)
  else if value.isZero then some value
  else none

/-- Significand and power of ten of the digits that are kept. -/
def parts (n : Numeral) : Nat × Int :=
  let (significand, dropped) := gather 0 n.integer
  let (extended, left) := gather significand n.fraction
  (extended, n.power + dropped.length - (n.fraction.length - left.length : Nat))

/-- The double a stored numeral stands for; `none` when it is too great. -/
def stored? (n : Numeral) : Option Double := do
  let (significand, power) := n.parts
  scale (← Double.ofRatio? n.negative significand 1) power

end Numeral
end Dossier
