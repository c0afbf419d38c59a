import Dossier.Number.Numeral
import Dossier.Timestamp
import Dossier.Toml.Text
import Dossier.Toml.Value

/-! Numbers, truth values and dates of TOML texts. -/
namespace Dossier.Toml
open Text

/-- The characters that numbers and words are made of. -/
def isWordPart (c : Char) : Bool := c.isAlphanum || ['+', '-', '_', '.', ':'].contains c

/-! ### Numbers -/

/-- Digits, between any two of which an underscore may stand. -/
def digits? (allowed : Char → Bool) : List Char → Option (List Char)
  | [] => none
  | [c] => if allowed c then some [c] else none
  | c :: '_' :: rest => if allowed c then (digits? allowed rest).map (c :: ·) else none
  | c :: rest => if allowed c then (digits? allowed rest).map (c :: ·) else none

/-- The digits before a point: no superfluous zero in front. -/
def wholeDigits? (characters : List Char) : Option (List Char) := do
  let digits ← digits? Char.isDigit characters
  guard (digits.length = 1 ∨ digits.head? ≠ some '0')
  return digits

def signOf : List Char → Bool × List Char
  | '+' :: rest => (false, rest)
  | '-' :: rest => (true, rest)
  | rest => (false, rest)

/-- The marks of numerals that are not decimal, and their bases. -/
def bases : List (Char × Nat) := [('x', 16), ('o', 8), ('b', 2)]

def based? (base : Nat) (characters : List Char) : Option Int := do
  let digits ← digits? (fun c => (hexValue? c).any (· < base)) characters
  return (digits.foldl (fun value c => value * base + (hexValue? c).getD 0) 0 : Nat)

/-- A whole number; it must fit a signed word of 64 bits. -/
def integer? (characters : List Char) : Option Int := do
  let value ← match characters with
    | '0' :: mark :: rest =>
      match bases.lookup mark with
      | some base => based? base rest
      | none => none
    | _ =>
      let (negative, rest) := signOf characters
      (wholeDigits? rest).map fun digits =>
        if negative then -(decimalValue digits : Int) else decimalValue digits
  guard (-0x8000000000000000 ≤ value ∧ value < 0x8000000000000000)
  return value

/-- The digits of a power of ten, after its mark. -/
def power? (characters : List Char) : Option Int := do
  let (negative, rest) := signOf characters
  let digits ← digits? Char.isDigit rest
  return if negative then -(decimalValue digits : Int) else decimalValue digits

/-- Whether a word is a number with a point or a power, or one that is infinite or
none at all. Beyond the greatest double only negative ones are allowed. -/
def isFloat (word : List Char) : Bool :=
  let (negative, rest) := signOf word
  rest == ['i', 'n', 'f'] || rest == ['n', 'a', 'n'] ||
    let inPower (c : Char) : Bool := c == 'e' || c == 'E'
    let mantissa := rest.takeWhile (!inPower ·)
    let power := (rest.dropWhile (!inPower ·)).tail
    let integer := mantissa.takeWhile (· != '.')
    let fraction := (mantissa.dropWhile (· != '.')).tail
    let hasPower := rest.any inPower
    let hasPoint := mantissa.contains '.'
    let numeral? : Option Numeral := do
      return ⟨negative, ← wholeDigits? integer,
        ← if hasPoint then digits? Char.isDigit fraction else some [],
        ← if hasPower then power? power else some 0, false⟩
    (hasPower || hasPoint) && numeral?.any fun numeral => negative || numeral.nearest?.isSome

/-! ### Dates -/

/-- A time of day to the second, which may have a fraction. -/
def scanTime : Scan Unit := fun characters => do
  let (hour, rest) ← scanNumber 2 0 characters
  let (_, rest) ← scanMark [':'] rest
  let (minute, rest) ← scanNumber 2 0 rest
  let (_, rest) ← scanMark [':'] rest
  let (second, rest) ← scanNumber 2 0 rest
  let (_, rest) ← Timestamp.scanFraction rest
  guard (hour ≤ 23 ∧ minute ≤ 59 ∧ second ≤ 60)
  return ((), rest)

def scanDay : Scan Unit := fun characters => do
  let (year, rest) ← scanNumber 4 0 characters
  let (_, rest) ← scanMark ['-'] rest
  let (month, rest) ← scanNumber 2 0 rest
  let (_, rest) ← scanMark ['-'] rest
  let (day, rest) ← scanNumber 2 0 rest
  guard (Calendar.Date.isValid ⟨year, month, day⟩)
  return ((), rest)

/-- The distance to universal time, which may be missing. -/
def scanZone : Scan Unit
  | c :: rest =>
    if ['Z', 'z', '+', '-'].contains c then
      (Timestamp.scanOffset (c :: rest)).map fun (_, rest) => ((), rest)
    else some ((), c :: rest)
  | [] => some ((), [])

/-- A day, a day with a time, or a time by itself. -/
def scanDate : Scan Unit := fun characters =>
  match scanDay characters with
  | none => scanTime characters
  | some (_, mark :: digit :: rest) =>
    if ['T', 't', ' '].contains mark ∧ digit.isDigit then do
      let (_, rest) ← scanTime (digit :: rest)
      scanZone rest
    else some ((), mark :: digit :: rest)
  | some (_, rest) => some ((), rest)

/-! ### All scalars without quotes -/

/-- The value of a word that is no date. -/
def ofWord? (word : List Char) : Option Toml :=
  if word = ['t', 'r', 'u', 'e'] then some (.bool true)
  else if word = ['f', 'a', 'l', 's', 'e'] then some (.bool false)
  else if isFloat word then some .float
  else (integer? word).map .integer

def scanBare : Scan Toml := fun characters =>
  match scanDate characters with
  | some (_, rest) => some (.date, rest)
  | none =>
    (ofWord? (characters.takeWhile isWordPart)).map ((·, characters.dropWhile isWordPart))

end Dossier.Toml
