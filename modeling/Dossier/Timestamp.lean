import Dossier.Calendar
import Dossier.Text.Scan

/-! Instants in milliseconds and their text form of RFC 3339. -/
namespace Dossier

/-- The first and the last instant of the calendar's range of years, in
milliseconds from the beginning of 1970. -/
def Timestamp.earliest : Int := -8334601228800000
def Timestamp.latest : Int := 8210266876799999

/-- An instant of universal time, to the millisecond. -/
structure Timestamp where
  millis : Int
  inRange : Timestamp.earliest ≤ millis ∧ millis ≤ Timestamp.latest
deriving DecidableEq

namespace Timestamp
open Text

def ofMillis? (millis : Int) : Option Timestamp :=
  if inRange : earliest ≤ millis ∧ millis ≤ latest then some ⟨millis, inRange⟩ else none

/-- The first of January 1970 as a day number. -/
def epochDay : Int := 719528

def millisPerDay : Int := 86400000

/-! ### Writing -/

/-- A number in at least `width` decimal places. -/
def padded (width n : Nat) : String :=
  let digits := Nat.toDigits 10 n
  String.ofList (List.replicate (width - digits.length) '0' ++ digits)

/-- Years of four digits are bare; any other year has a sign. -/
def yearText (year : Int) : String :=
  if 0 ≤ year ∧ year ≤ 9999 then padded 4 year.toNat
  else if year < 0 then "-" ++ padded 4 year.natAbs
  else "+" ++ padded 4 year.natAbs

/-- The canonical text: date and time in universal time with three decimal places
of the second, as in `2024-05-01T09:30:00.000Z`. -/
def text (instant : Timestamp) : String :=
  let date := Calendar.Date.ofDayNumber (instant.millis / millisPerDay + epochDay)
  let time := (instant.millis % millisPerDay).toNat
  yearText date.year ++ "-" ++ padded 2 date.month ++ "-" ++ padded 2 date.day ++ "T" ++
    padded 2 (time / 3600000) ++ ":" ++ padded 2 (time / 60000 % 60) ++ ":" ++
    padded 2 (time / 1000 % 60) ++ "." ++ padded 3 (time % 1000) ++ "Z"

instance : ToString Timestamp := ⟨text⟩

/-! ### Reading -/

/-- The milliseconds that digits after the point denote, rounded down. -/
def fractionMillis (digits : List Char) : Nat :=
  ((digits ++ ['0', '0', '0']).take 3).foldl (fun value c => value * 10 + (c.toNat - 48)) 0

/-- An optional point with at least one digit after it. -/
def scanFraction : Scan Nat
  | '.' :: rest =>
    let digits := rest.takeWhile Char.isDigit
    if digits.isEmpty then none else some (fractionMillis digits, rest.dropWhile Char.isDigit)
  | rest => some (0, rest)

/-- The distance to universal time in minutes: `Z`, or a sign with hours and
minutes. The minus sign may be the hyphen or U+2212. -/
def scanOffset : Scan Int
  | [] => none
  | 'Z' :: rest | 'z' :: rest => some (0, rest)
  | sign :: rest =>
    if ['+', '-', '\u2212'].contains sign then do
      let (hours, rest) ← scanNumber 2 0 rest
      let (_, rest) ← scanMark [':'] rest
      let (minutes, rest) ← scanNumber 2 0 rest
      guard (hours ≤ 23 ∧ minutes ≤ 59)
      let distance : Int := hours * 60 + minutes
      return (if sign == '+' then distance else -distance, rest)
    else none

/-- A date and a time of day as a text gives them, with their distance to
universal time. -/
structure Reading where
  date : Calendar.Date
  hour : Nat
  minute : Nat
  second : Nat
  milli : Nat
  offset : Int

/-- Date and time stand in fixed width; `T`, `t` or a space is between them, and
nothing may follow. -/
def Reading.scan (characters : List Char) : Option Reading := do
  let (year, rest) ← scanNumber 4 0 characters
  let (_, rest) ← scanMark ['-'] rest
  let (month, rest) ← scanNumber 2 0 rest
  let (_, rest) ← scanMark ['-'] rest
  let (day, rest) ← scanNumber 2 0 rest
  let (_, rest) ← scanMark ['T', 't', ' '] rest
  let (hour, rest) ← scanNumber 2 0 rest
  let (_, rest) ← scanMark [':'] rest
  let (minute, rest) ← scanNumber 2 0 rest
  let (_, rest) ← scanMark [':'] rest
  let (second, rest) ← scanNumber 2 0 rest
  let (milli, rest) ← scanFraction rest
  let (offset, rest) ← scanOffset rest
  guard rest.isEmpty
  return ⟨⟨year, month, day⟩, hour, minute, second, milli, offset⟩

/-- A time of day may end in second 60, the leap second, at any minute. -/
def Reading.isValid (reading : Reading) : Bool :=
  reading.date.isValid && reading.hour ≤ 23 && reading.minute ≤ 59 && reading.second ≤ 60

/-- The instant a reading denotes. Second 60 counts as the next second. -/
def Reading.millis (reading : Reading) : Int :=
  (reading.date.dayNumber - epochDay) * millisPerDay +
    (((reading.hour : Int) * 60 + reading.minute - reading.offset) * 60 + reading.second) * 1000 +
    reading.milli

/-- Reads any text of RFC 3339; what is below the millisecond is dropped. -/
def parse? (raw : String) : Option Timestamp := do
  let reading ← Reading.scan raw.toList
  guard reading.isValid
  ofMillis? reading.millis

end Timestamp
end Dossier
