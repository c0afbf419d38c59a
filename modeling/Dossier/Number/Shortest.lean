import Dossier.Number.Double

/-! The decimal text of a double: the fewest digits that single it out among the
doubles, and of those the ones nearest to it. -/
namespace Dossier.Double

/-! Interval and grid are measured in quarters of a unit. -/

def quarters (d : Double) : Nat := 4 * d.units

/-- The lower end of the reals that round to a double. Below a power of two the
doubles lie twice as close. -/
def lowerEnd (d : Double) : Nat :=
  d.quarters - if d.mantissa = 0x10000000000000 ∧ 0 < d.shift then Nat.pow 2 d.shift else 2 * Nat.pow 2 d.shift

def upperEnd (d : Double) : Nat := d.quarters + 2 * Nat.pow 2 d.shift

/-- Ten to a power, in quarters of a unit, as a fraction. -/
def gridStep (power : Int) : Nat × Nat :=
  if 0 ≤ power then (Nat.pow 10 power.toNat * (4 * unitsPerOne), 1) else (4 * unitsPerOne, Nat.pow 10 power.natAbs)

/-- Whether a multiple of a power of ten rounds to the double. The ends belong to
the interval when the mantissa is even. -/
def holds (d : Double) (step : Nat × Nat) (multiple : Nat) : Bool :=
  let point := multiple * step.1
  if d.mantissa % 2 = 0 then d.lowerEnd * step.2 ≤ point && point ≤ d.upperEnd * step.2
  else d.lowerEnd * step.2 < point && point < d.upperEnd * step.2

/-- The multiple on a decimal grid that stands for the double: one of its two
neighbours there, the nearer if both round to it, a tie to the even one. -/
def onGrid? (d : Double) (step : Nat × Nat) : Option Nat :=
  let value := d.quarters * step.2
  let below := value / step.1
  let above := below + 1
  match d.holds step below, d.holds step above with
  | true, true =>
    let gapBelow := value - below * step.1
    let gapAbove := above * step.1 - value
    some (if gapBelow < gapAbove then below else if gapAbove < gapBelow then above
      else if below % 2 = 0 then below else above)
  | true, false => some below
  | false, true => some above
  | false, false => none

/-- The coarsest of the next `grids` grids, from a power of ten down, on which the
double has a multiple. -/
def coarsest (d : Double) : (grids : Nat) → (power : Int) → Nat × Int
  | 0, power => (d.quarters * (gridStep power).2 / (gridStep power).1, power)
  | grids + 1, power =>
    match d.onGrid? (gridStep power) with
    | some multiple => (multiple, power)
    | none => coarsest d grids (power - 1)

/-- A power of ten above the double, at most three too high. -/
def startPower (d : Double) : Int := ((d.units.log2 : Int) - 1074) * 30103 / 100000 + 2

/-- Significant digits and the power of ten of the last one, for a double other
than zero. -/
def shortest (d : Double) : Nat × Int := d.coarsest 21 d.startPower

/-- How a decimal number is laid out. -/
structure Layout where
  /-- The powers of ten of the first digit between which, both included, a number is
  written in full. Outside them the power follows the digits, with its sign. -/
  least : Int
  greatest : Int
  /-- The digits that a written power has at least. -/
  powerWidth : Nat
  /-- Whether a lone digit before a power still has a point and a zero. -/
  pointed : Bool

/-- Stored numbers are written in full from `0.00001` up to sixteen places before the
point. -/
def layout : Layout := ⟨-5, 15, 1, false⟩

/-- Digits with a point after the first `places` of them; there is always a digit
on either side. -/
def positional (digits : List Char) (power : Int) : List Char :=
  if power < 0 then ['0', '.'] ++ List.replicate (-power - 1).toNat '0' ++ digits
  else
    let places := power.toNat + 1
    let before := digits.take places ++ List.replicate (places - digits.length) '0'
    let after := digits.drop places
    before ++ ['.'] ++ if after.isEmpty then ['0'] else after

/-- One digit, the others behind a point, and the power of ten with its sign. -/
def scientific (layout : Layout) (digits : List Char) (power : Int) : List Char :=
  let others := digits.drop 1
  let places := Nat.toDigits 10 power.natAbs
  digits.take 1 ++
    (if !others.isEmpty then '.' :: others else if layout.pointed then ['.', '0'] else []) ++
    ['e', if power < 0 then '-' else '+'] ++ List.replicate (layout.powerWidth - places.length) '0' ++
    places

/-- The digits of a multiple without the zeros at its end. -/
def significant (multiple : Nat) : List Char :=
  ((Nat.toDigits 10 multiple).reverse.dropWhile (· == '0')).reverse

/-- A multiple other than zero of a power of ten, laid out. -/
def layOut (layout : Layout) (multiple : Nat) (last : Int) : List Char :=
  let power := last + (Nat.toDigits 10 multiple).length - 1
  let digits := significant multiple
  if layout.least ≤ power ∧ power ≤ layout.greatest then positional digits power
  else scientific layout digits power

def characters (d : Double) : List Char :=
  let sign := if d.negative then ['-'] else []
  if d.isZero then sign ++ ['0', '.', '0']
  else
    let (multiple, last) := d.shortest
    sign ++ layOut layout multiple last

/-- The text of a double always shows that it is one: by a point or by a power. -/
def text (d : Double) : String := String.ofList d.characters

end Dossier.Double
