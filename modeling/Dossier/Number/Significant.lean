import Dossier.Number.Shortest

/-! The decimal text of a double to a fixed number of significant digits, a half
rounded up. -/
namespace Dossier.Double

/-- The first power of ten, from one down, that a double is not below. -/
def firstPower (d : Double) : (tries : Nat) → (power : Int) → Int
  | 0, power => power
  | tries + 1, power =>
    let (numerator, denominator) := gridStep power
    if numerator ≤ d.quarters * denominator then power else firstPower d tries (power - 1)

/-- The significant digits of a double other than zero as a number, and the power of
ten of the last one. -/
def rounded (digits : Nat) (d : Double) : Nat × Int :=
  let last := d.firstPower 5 d.startPower - (digits - 1 : Nat)
  let (numerator, denominator) := gridStep last
  ((2 * (d.quarters * denominator) + numerator) / (2 * numerator), last)

/-- The text of a double in a layout; zero has no sign. -/
def roundedText (digits : Nat) (layout : Layout) (d : Double) : String :=
  if d.isZero then "0.0"
  else
    let (multiple, last) := d.rounded digits
    String.ofList ((if d.negative then ['-'] else []) ++ layOut layout multiple last)

end Dossier.Double
