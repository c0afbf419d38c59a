import Dossier.Number.Shortest
import Dossier.Number.Numeral
import Dossier.Text.Blank

/-! The numbers of a document: whole numbers that fit a word of 64 bits, signed or
unsigned, and doubles. The two are told apart, so `1` is not `1.0`. -/
namespace Dossier

/-- A whole number within the signed or the unsigned words of 64 bits. -/
structure Whole where
  value : Int
  inRange : -0x8000000000000000 ≤ value ∧ value < 0x10000000000000000
deriving DecidableEq

namespace Whole

def ofInt? (value : Int) : Option Whole :=
  if inRange : -0x8000000000000000 ≤ value ∧ value < 0x10000000000000000 then some ⟨value, inRange⟩ else none

/-- Whether the number fits the signed words. -/
def isSigned (n : Whole) : Bool := n.value < 0x8000000000000000

def one : Whole := ⟨1, by decide⟩
def zero : Whole := ⟨0, by decide⟩

/-- The double nearest to a whole number, in units. -/
def scaledNearest (n : Whole) : Int :=
  ((Double.ofInt? n.value).map Double.scaled).getD 0

end Whole

inductive Number where
  | whole (n : Whole)
  | double (d : Double)
deriving DecidableEq

namespace Number

def text : Number → String
  | .whole n => toString n.value
  | .double d => d.text

instance : ToString Number := ⟨text⟩

/-- Equality of numbers of one kind by value: of doubles the two zeros are equal,
and no whole number equals a double. -/
def same : Number → Number → Bool
  | .whole a, .whole b => a == b
  | .double a, .double b => a.sameValue b
  | _, _ => false

/-- Whether a number of either kind has the value of a small natural number. -/
def hasValue (expected : Nat) : Number → Bool
  | .whole n => n.value == expected
  | .double d => d.scaled == (expected * Double.unitsPerOne : Nat)

/-- The number as a signed word, when it is a whole number that fits. -/
def signed? : Number → Option Int
  | .whole n => if n.isSigned then some n.value else none
  | .double _ => none

/-- The number a stored numeral stands for. A bare numeral is a whole number where
it fits one, except minus zero. -/
def ofNumeral? (n : Numeral) : Option Number :=
  let (significand, power) := n.parts
  let value : Int := if n.negative then -(significand : Int) else significand
  match n.bare && power == 0 && !(n.negative && significand == 0), Whole.ofInt? value with
  | true, some word => some (.whole word)
  | _, _ => n.stored?.map .double

/-! ### Numbers written by people -/

/-- A sign that may be left out. -/
def signOf : List Char → Bool × List Char
  | '+' :: rest => (false, rest)
  | '-' :: rest => (true, rest)
  | rest => (false, rest)

/-- A text of digits with an optional sign, as a signed word. -/
def parseSigned? (characters : List Char) : Option Whole :=
  let (negative, digits) := signOf characters
  if digits.isEmpty || !digits.all Char.isDigit then none
  else
    let value : Int := if negative then -(decimalValue digits : Int) else decimalValue digits
    if value < 0x8000000000000000 then Whole.ofInt? value else none

/-- A decimal text with an optional sign, as the nearest double. A digit must stand
before or after the point. -/
def parseDouble? (characters : List Char) : Option Double := do
  let (negative, rest) := signOf characters
  let (numeral, rest) ← Numeral.scan negative rest
  guard (rest.isEmpty && !(numeral.integer.isEmpty && numeral.fraction.isEmpty))
  numeral.nearest?

/-- Reads a number from a text: as a signed word if it is one, else as a double. -/
def parse? (raw : String) : Option Number :=
  match parseSigned? raw.toList with
  | some word => some (.whole word)
  | none => (parseDouble? raw.toList).map .double

end Number
end Dossier
