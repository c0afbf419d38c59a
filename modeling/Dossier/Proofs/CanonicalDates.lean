import Dossier.Proofs.DateTexts
import Dossier.Proofs.DecimalDigits
import Mathlib.Data.List.TakeWhile
import Mathlib.Data.Rat.Floor
import Mathlib.Tactic.FieldSimp
import Mathlib.Tactic.NormNum

/-! The texts that denote instants, and the canonical text of each: every text that is accepted
denotes an instant, which is rounded down to the millisecond. -/
namespace Dossier.Timestamp
open Text

/-! ### Texts of RFC 3339 -/

/-- What a text gives of its distance to universal time. -/
inductive Zone where
  | universal (mark : Char)
  | distant (sign : Char) (hours minutes : Nat)

namespace Zone

def characters : Zone → List Char
  | universal mark => [mark]
  | distant sign hours minutes => sign :: (places 2 hours ++ ':' :: places 2 minutes)

/-- A zone is universal time, or less than a day away from it. -/
def IsValid : Zone → Prop
  | universal mark => mark ∈ ['Z', 'z']
  | distant sign hours minutes => sign ∈ ['+', '-', '\u2212'] ∧ hours ≤ 23 ∧ minutes ≤ 59

/-- The minutes by which clocks in the zone are ahead of universal time. -/
def ahead : Zone → Int
  | universal _ => 0
  | distant sign hours minutes => (if sign = '+' then 1 else -1) * (hours * 60 + minutes)

end Zone

/-- The parts of a text of RFC 3339. -/
structure Wording where
  year : Nat
  month : Nat
  day : Nat
  separator : Char
  hour : Nat
  minute : Nat
  second : Nat
  /-- The digits after the point, if there is one. -/
  fraction : Option (List Char)
  zone : Zone

namespace Wording

def date (wording : Wording) : Calendar.Date := ⟨wording.year, wording.month, wording.day⟩

def fractionCharacters : Option (List Char) → List Char
  | none => []
  | some digits => '.' :: digits

def characters (wording : Wording) : List Char :=
  places 4 wording.year ++ '-' :: (places 2 wording.month ++ '-' :: (places 2 wording.day ++
    wording.separator :: (places 2 wording.hour ++ ':' :: (places 2 wording.minute ++ ':' ::
      (places 2 wording.second ++ (fractionCharacters wording.fraction ++ wording.zone.characters))))))

/-- The parts are those of a date and a time of day; second 60 may end any minute. -/
structure IsValid (wording : Wording) : Prop where
  year : wording.year ≤ 9999
  date : wording.date.isValid = true
  separator : wording.separator ∈ ['T', 't', ' ']
  hour : wording.hour ≤ 23
  minute : wording.minute ≤ 59
  second : wording.second ≤ 60
  fraction : ∀ digits ∈ wording.fraction, digits ≠ [] ∧ ∀ c ∈ digits, c.isDigit = true
  zone : wording.zone.IsValid

/-- The part of a second that digits after the point denote. -/
def fractionValue : Option (List Char) → ℚ
  | none => 0
  | some digits => decimalValue digits / 10 ^ digits.length

/-- The instant denoted, in seconds from the beginning of 1970. -/
def instant (wording : Wording) : ℚ :=
  (wording.date.dayNumber - epochDay) * 86400 + wording.hour * 3600 + wording.minute * 60 + wording.second +
    fractionValue wording.fraction - wording.zone.ahead * 60

end Wording

/-- A text denotes an instant, in seconds from the beginning of 1970. -/
def Denotes (raw : String) (instant : ℚ) : Prop :=
  ∃ wording : Wording, wording.IsValid ∧ raw.toList = wording.characters ∧ wording.instant = instant

/-! ### Numerals -/

theorem places_add (width m k : Nat) : places width (m + 10 ^ width * k) = places width m := by
  induction width generalizing k with
  | zero => rfl
  | succ width ih =>
    have positive : 0 < 10 ^ width := Nat.pow_pos (by decide)
    rw [places, places, Nat.pow_succ, Nat.mul_assoc, ih, Nat.add_mul_div_left _ _ positive,
      Nat.add_mul_mod_self_left]

theorem length_places (width n : Nat) : (places width n).length = width := by
  induction width with
  | zero => rfl
  | succ width ih => rw [places, List.length_cons, ih]

theorem scanNumber_onto_eq_some {width value n : Nat} {characters rest : List Char} :
    scanNumber width value characters = some (n, rest) ↔
      ∃ m < 10 ^ width, characters = places width m ++ rest ∧ n = value * 10 ^ width + m := by
  constructor
  · intro scanned
    induction width generalizing value characters with
    | zero =>
      obtain ⟨rfl, rfl⟩ : value = n ∧ characters = rest := by simpa [scanNumber] using scanned
      exact ⟨0, by decide, rfl, by simp⟩
    | succ width ih =>
      cases characters with
      | nil => cases scanned
      | cons c more =>
        rw [scanNumber] at scanned
        split at scanned
        · rename_i digit
          obtain ⟨small, same⟩ := digitChar_of_isDigit digit
          obtain ⟨m, fits, rfl, sum⟩ := ih scanned
          refine ⟨m + 10 ^ width * (c.toNat - 48), ?_, ?_, ?_⟩
          · calc m + 10 ^ width * (c.toNat - 48)
              _ < 10 ^ width * (c.toNat - 48 + 1) := by rw [Nat.mul_succ]; omega
              _ ≤ 10 ^ width * 10 := Nat.mul_le_mul_left _ small
              _ = 10 ^ (width + 1) := (Nat.pow_succ ..).symm
          · rw [places, places_add, Nat.add_mul_div_left _ _ (Nat.pow_pos (by decide)), Nat.div_eq_of_lt fits,
              Nat.zero_add, Nat.mod_eq_of_lt small, same, List.cons_append]
          · rw [sum]
            ring
        · cases scanned
  · rintro ⟨m, fits, rfl, rfl⟩
    rw [scanNumber_places, Nat.mod_eq_of_lt fits]

/-- What a scan of digits takes off is a numeral of their width. -/
theorem scanNumber_eq_some {width n : Nat} {characters rest : List Char} :
    scanNumber width 0 characters = some (n, rest) ↔ n < 10 ^ width ∧ characters = places width n ++ rest := by
  rw [scanNumber_onto_eq_some]
  constructor
  · rintro ⟨m, fits, same, rfl⟩
    rw [Nat.zero_mul, Nat.zero_add]
    exact ⟨fits, same⟩
  · rintro ⟨fits, same⟩
    exact ⟨n, fits, same, by rw [Nat.zero_mul, Nat.zero_add]⟩

theorem scanMark_eq_some {allowed characters rest : List Char} {c : Char} :
    scanMark allowed characters = some (c, rest) ↔ c ∈ allowed ∧ characters = c :: rest := by
  cases characters with
  | nil => simp [scanMark]
  | cons first others =>
    simp only [scanMark, Option.ite_none_right_eq_some, Option.some.injEq, Prod.mk.injEq, List.cons.injEq,
      List.contains_iff_mem]
    constructor
    · rintro ⟨listed, rfl, rfl⟩
      exact ⟨listed, rfl, rfl⟩
    · rintro ⟨listed, rfl, rfl⟩
      exact ⟨listed, rfl, rfl⟩

section
variable {β : Type} {characters : List Char} {result : β}

theorem exists_of_scanNumber {width : Nat} {next : Nat × List Char → Option β}
    (scanned : (scanNumber width 0 characters >>= next) = some result) :
    ∃ n rest, n < 10 ^ width ∧ characters = places width n ++ rest ∧ next (n, rest) = some result := by
  obtain ⟨⟨n, rest⟩, first, later⟩ := Option.bind_eq_some_iff.mp scanned
  obtain ⟨fits, same⟩ := scanNumber_eq_some.mp first
  exact ⟨n, rest, fits, same, later⟩

theorem exists_of_scanMark {allowed : List Char} {next : Char × List Char → Option β}
    (scanned : (scanMark allowed characters >>= next) = some result) :
    ∃ c rest, c ∈ allowed ∧ characters = c :: rest ∧ next (c, rest) = some result := by
  obtain ⟨⟨c, rest⟩, first, later⟩ := Option.bind_eq_some_iff.mp scanned
  obtain ⟨listed, same⟩ := scanMark_eq_some.mp first
  exact ⟨c, rest, listed, same, later⟩

end

/-! ### Fractions and zones -/

theorem takeWhile_digits {digits rest : List Char} (all : ∀ c ∈ digits, c.isDigit = true)
    (ends : ∀ c ∈ rest.head?, c.isDigit = false) :
    (digits ++ rest).takeWhile Char.isDigit = digits ∧ (digits ++ rest).dropWhile Char.isDigit = rest := by
  rw [List.takeWhile_append_of_pos all, List.dropWhile_append_of_pos all]
  cases rest with
  | nil => simp
  | cons c others =>
    have stop : ¬ c.isDigit = true := by simp [ends c rfl]
    simp [stop]

theorem scanFraction_characters {fraction : Option (List Char)} {rest : List Char}
    (digits : ∀ digits ∈ fraction, digits ≠ [] ∧ ∀ c ∈ digits, c.isDigit = true)
    (ends : ∀ c ∈ rest.head?, c.isDigit = false ∧ c ≠ '.') :
    scanFraction (Wording.fractionCharacters fraction ++ rest) =
      some (fractionMillis (fraction.getD []), rest) := by
  cases fraction with
  | none =>
    cases rest with
    | nil => rfl
    | cons c others =>
      have noPoint := (ends c rfl).2
      change scanFraction (c :: others) = _
      rw [scanFraction]
      · rfl
      · simpa using noPoint
  | some digits =>
    obtain ⟨nonempty, all⟩ := digits _ rfl
    obtain ⟨taken, left⟩ := takeWhile_digits all fun c first => (ends c first).1
    change scanFraction ('.' :: (_ ++ rest)) = _
    rw [scanFraction, taken, left]
    simp [nonempty]

theorem exists_fraction {characters rest : List Char} {milli : Nat}
    (scanned : scanFraction characters = some (milli, rest)) : ∃ fraction : Option (List Char),
      (∀ digits ∈ fraction, digits ≠ [] ∧ ∀ c ∈ digits, c.isDigit = true) ∧
        characters = Wording.fractionCharacters fraction ++ rest ∧ fractionMillis (fraction.getD []) = milli := by
  unfold scanFraction at scanned
  split at scanned
  · rename_i more
    simp only [Option.ite_none_left_eq_some, Option.some.injEq, Prod.mk.injEq] at scanned
    obtain ⟨nonempty, value, left⟩ := scanned
    refine ⟨some (more.takeWhile Char.isDigit), ?_, ?_, value⟩
    · rintro _ ⟨⟩
      exact ⟨by simpa using nonempty, fun c => List.mem_takeWhile_imp⟩
    · rw [← left]
      simp [Wording.fractionCharacters, List.takeWhile_append_dropWhile]
  · cases scanned
    exact ⟨none, by simp, rfl, rfl⟩

namespace Zone

theorem head_characters {zone : Zone} (valid : zone.IsValid) :
    ∀ c ∈ zone.characters.head?, c.isDigit = false ∧ c ≠ '.' := by
  have marks : ∀ c ∈ ['Z', 'z', '+', '-', '\u2212'], c.isDigit = false ∧ c ≠ '.' := by simp [Char.isDigit]
  cases zone with
  | universal mark =>
    rintro _ ⟨⟩
    have listed : mark ∈ ['Z', 'z'] := valid
    exact marks mark (List.mem_append_left ['+', '-', '\u2212'] listed)
  | distant sign hours minutes =>
    rintro _ ⟨⟩
    exact marks sign (List.mem_append_right ['Z', 'z'] valid.1)

theorem scanOffset_characters {zone : Zone} (valid : zone.IsValid) :
    scanOffset zone.characters = some (zone.ahead, []) := by
  cases zone with
  | universal mark =>
    have listed : mark ∈ ['Z', 'z'] := valid
    simp only [List.mem_cons, List.not_mem_nil, or_false] at listed
    rcases listed with rfl | rfl <;> rfl
  | distant sign hours minutes =>
    obtain ⟨listed, inDay, inHour⟩ := valid
    have unlike : sign ≠ 'Z' ∧ sign ≠ 'z' := by
      constructor <;> rintro rfl <;> simp at listed
    have first : scanNumber 2 0 (places 2 hours ++ ':' :: places 2 minutes) =
        some (hours, ':' :: places 2 minutes) := scanNumber_eq_some.mpr ⟨by omega, rfl⟩
    have last : scanNumber 2 0 (places 2 minutes) = some (minutes, []) :=
      scanNumber_eq_some.mpr ⟨by omega, (List.append_nil _).symm⟩
    have distance : (if (sign == '+') = true then (hours * 60 + minutes : Int) else -(hours * 60 + minutes)) =
        (distant sign hours minutes).ahead := by
      by_cases east : sign = '+' <;> simp [ahead, east]
    rw [characters, scanOffset]
    · rw [if_pos (List.contains_iff_mem.mpr listed)]
      refine scan_then first (scan_then (scanMark_cons rfl _) (scan_then last ?_))
      rw [← distance]
      simp [inDay, inHour, guard]
    · exact unlike.1
    · exact unlike.2

theorem exists_zone {characters : List Char} {offset : Int} (scanned : scanOffset characters = some (offset, [])) :
    ∃ zone : Zone, zone.IsValid ∧ characters = zone.characters ∧ zone.ahead = offset := by
  unfold scanOffset at scanned
  split at scanned
  · cases scanned
  · cases scanned
    exact ⟨universal 'Z', by simp [IsValid], rfl, rfl⟩
  · cases scanned
    exact ⟨universal 'z', by simp [IsValid], rfl, rfl⟩
  · rename_i sign rest _ _
    split at scanned
    · rename_i listed
      obtain ⟨hours, _, -, rfl, fromColon⟩ := exists_of_scanNumber scanned
      obtain ⟨_, _, colon, rfl, fromMinutes⟩ := exists_of_scanMark fromColon
      obtain rfl := List.mem_singleton.mp colon
      obtain ⟨minutes, _, -, rfl, atEnd⟩ := exists_of_scanNumber fromMinutes
      obtain ⟨_, inside, finished⟩ := Option.bind_eq_some_iff.mp atEnd
      obtain ⟨rfl, rfl⟩ := Prod.mk.inj (Option.some.inj finished)
      have bounds : hours ≤ 23 ∧ minutes ≤ 59 := by
        by_contra outside
        simp [guard, outside] at inside
      refine ⟨distant sign hours minutes, ⟨List.contains_iff_mem.mp listed, bounds⟩, ?_, ?_⟩
      · rw [characters, List.append_nil]
      · by_cases east : sign = '+' <;> simp [ahead, east]
    · cases scanned

end Zone

/-! ### What is read -/

namespace Wording

/-- What is read of a text with the parts. -/
def reading (wording : Wording) : Reading :=
  ⟨wording.date, wording.hour, wording.minute, wording.second, fractionMillis (wording.fraction.getD []),
    wording.zone.ahead⟩

variable {wording : Wording}

theorem scan_characters (valid : wording.IsValid) : Reading.scan wording.characters = some wording.reading := by
  obtain ⟨month, day⟩ := Calendar.Date.bounds_of_isValid valid.date
  obtain ⟨inYear, _, listed, inDay, inHour, inMinute, digits, zoned⟩ := valid
  have numeral {width n : Nat} (fits : n < 10 ^ width) (rest : List Char) :
      scanNumber width 0 (places width n ++ rest) = some (n, rest) := scanNumber_eq_some.mpr ⟨fits, rfl⟩
  rw [Reading.scan, characters]
  -- Five numerals with a mark behind each, then the seconds with their fraction and the zone.
  refine scan_then (numeral (by omega) _) (scan_then (scanMark_cons rfl _) ?_)
  refine scan_then (numeral (Nat.lt_of_le_of_lt month (by decide)) _) (scan_then (scanMark_cons rfl _) ?_)
  refine scan_then (numeral (Nat.lt_of_le_of_lt day (by decide)) _)
    (scan_then (scanMark_cons (List.contains_iff_mem.mpr listed) _) ?_)
  refine scan_then (numeral (by omega) _) (scan_then (scanMark_cons rfl _) ?_)
  refine scan_then (numeral (by omega) _) (scan_then (scanMark_cons rfl _) ?_)
  refine scan_then (numeral (by omega) _) (scan_then (scanFraction_characters digits (Zone.head_characters zoned)) ?_)
  exact scan_then (Zone.scanOffset_characters zoned) rfl

theorem isValid_reading (valid : wording.IsValid) : wording.reading.isValid = true := by
  simp [Reading.isValid, reading, valid.date, valid.hour, valid.minute, valid.second]

/-- A valid reading is one of a text with valid parts. -/
theorem exists_of_scan {characters : List Char} {reading : Reading} (scanned : Reading.scan characters = some reading)
    (valid : reading.isValid = true) :
    ∃ wording : Wording, wording.IsValid ∧ characters = wording.characters ∧ wording.reading = reading := by
  rw [Reading.scan] at scanned
  obtain ⟨year, _, inYear, rfl, afterYear⟩ := exists_of_scanNumber scanned
  obtain ⟨_, _, hyphen, rfl, fromMonth⟩ := exists_of_scanMark afterYear
  obtain rfl := List.mem_singleton.mp hyphen
  obtain ⟨month, _, -, rfl, afterMonth⟩ := exists_of_scanNumber fromMonth
  obtain ⟨_, _, hyphen, rfl, fromDay⟩ := exists_of_scanMark afterMonth
  obtain rfl := List.mem_singleton.mp hyphen
  obtain ⟨day, _, -, rfl, afterDay⟩ := exists_of_scanNumber fromDay
  obtain ⟨separator, _, listed, rfl, fromHour⟩ := exists_of_scanMark afterDay
  obtain ⟨hour, _, -, rfl, afterHour⟩ := exists_of_scanNumber fromHour
  obtain ⟨_, _, colon, rfl, fromMinute⟩ := exists_of_scanMark afterHour
  obtain rfl := List.mem_singleton.mp colon
  obtain ⟨minute, _, -, rfl, afterMinute⟩ := exists_of_scanNumber fromMinute
  obtain ⟨_, _, colon, rfl, fromSecond⟩ := exists_of_scanMark afterMinute
  obtain rfl := List.mem_singleton.mp colon
  obtain ⟨second, _, -, rfl, afterSecond⟩ := exists_of_scanNumber fromSecond
  obtain ⟨⟨milli, _⟩, decimals, fromZone⟩ := Option.bind_eq_some_iff.mp afterSecond
  obtain ⟨⟨offset, rest⟩, zoned, afterZone⟩ := Option.bind_eq_some_iff.mp fromZone
  obtain ⟨_, nothing, finished⟩ := Option.bind_eq_some_iff.mp afterZone
  cases rest with
  | cons c more => cases nothing
  | nil =>
    obtain ⟨fraction, digits, rfl, rfl⟩ := exists_fraction decimals
    obtain ⟨zone, inside, rfl, rfl⟩ := Zone.exists_zone zoned
    obtain rfl := Option.some.inj finished
    simp only [Reading.isValid, Bool.and_eq_true, decide_eq_true_iff] at valid
    obtain ⟨⟨⟨date, inDay⟩, inHour⟩, inMinute⟩ := valid
    refine ⟨⟨year, month, day, separator, hour, minute, second, fraction, zone⟩, ?_, rfl, rfl⟩
    exact ⟨Nat.le_of_lt_succ inYear, date, listed, inDay, inHour, inMinute, digits, inside⟩

/-! ### The instants that texts denote -/

/-- The milliseconds of a fraction are its thousandfold, rounded down. -/
theorem fractionMillis_eq {digits : List Char} (all : ∀ c ∈ digits, c.isDigit = true) :
    fractionMillis digits = decimalValue digits * 1000 / 10 ^ digits.length := by
  let padded := digits ++ ['0', '0', '0']
  have digit : ∀ c ∈ padded.drop 3, c.isDigit = true := by
    intro c member
    rcases List.mem_append.mp (List.mem_of_mem_drop member) with own | zero
    · exact all c own
    · simp only [List.mem_cons, List.not_mem_nil, or_false, or_self] at zero
      rw [zero]
      rfl
  have length : (padded.drop 3).length = digits.length := by simp [padded]
  have zeros : decimalValue ['0', '0', '0'] = 0 := rfl
  have thousand : 10 ^ ['0', '0', '0'].length = 1000 := rfl
  have whole : decimalValue padded = decimalValue digits * 1000 := by
    rw [decimalValue_append, zeros, thousand, Nat.add_zero]
  have split : decimalValue padded =
      fractionMillis digits * 10 ^ digits.length + decimalValue (padded.drop 3) := by
    conv_lhs => rw [← List.take_append_drop 3 padded]
    rw [decimalValue_append, length]
    rfl
  have rest := decimalValue_lt digit
  rw [length] at rest
  rw [← whole, split, Nat.mul_comm, Nat.mul_add_div (Nat.pow_pos (by decide)), Nat.div_eq_of_lt rest, Nat.add_zero]

theorem fractionMillis_lt {fraction : Option (List Char)}
    (digits : ∀ digits ∈ fraction, digits ≠ [] ∧ ∀ c ∈ digits, c.isDigit = true) :
    fractionMillis (fraction.getD []) < 1000 := by
  cases fraction with
  | none => decide
  | some decimals =>
    have all := (digits _ rfl).2
    rw [Option.getD_some, fractionMillis_eq all]
    exact Nat.div_lt_of_lt_mul (Nat.mul_lt_mul_of_pos_right (decimalValue_lt all) (by decide))

theorem floor_fractionValue {fraction : Option (List Char)}
    (digits : ∀ digits ∈ fraction, digits ≠ [] ∧ ∀ c ∈ digits, c.isDigit = true) :
    ⌊fractionValue fraction * 1000⌋ = (fractionMillis (fraction.getD []) : Int) := by
  cases fraction with
  | none => simp [fractionValue, fractionMillis]
  | some decimals =>
    have value : fractionValue (some decimals) * 1000 =
        ((decimalValue decimals * 1000 : Int) : ℚ) / ((10 ^ decimals.length : Nat) : ℚ) := by
      rw [fractionValue]
      push_cast
      ring
    rw [value, Rat.floor_intCast_div_natCast, Option.getD_some, fractionMillis_eq (digits _ rfl).2]
    push_cast
    rfl

/-- What is read is the instant denoted, rounded down to the millisecond. -/
theorem millis_reading (valid : wording.IsValid) : wording.reading.millis = ⌊wording.instant * 1000⌋ := by
  have parts : wording.instant * 1000 = (((wording.date.dayNumber - epochDay) * 86400 + wording.hour * 3600 +
      wording.minute * 60 + wording.second - wording.zone.ahead * 60) * 1000 : Int) +
        fractionValue wording.fraction * 1000 := by
    rw [instant]
    push_cast
    ring
  rw [parts, Int.floor_intCast_add, floor_fractionValue valid.fraction]
  simp only [Reading.millis, reading, millisPerDay]
  ring

theorem bounds_dayNumber (valid : wording.IsValid) :
    0 ≤ wording.date.dayNumber ∧ wording.date.dayNumber < 3652425 := by
  obtain ⟨first, least, -⟩ := Calendar.Date.isValid_iff.mp valid.date
  have inMonth := Calendar.Date.dayNumber_lt_of_isValid valid.date
  have inYear : Calendar.daysOf (Calendar.monthLengths (Calendar.isLeap wording.date.year)) wording.date.month ≤
      Calendar.daysOf (Calendar.monthLengths (Calendar.isLeap wording.date.year)) 12 := by
    exact Calendar.daysOf_mono (Calendar.Date.bounds_of_isValid valid.date).1
  have next := Calendar.daysBeforeYear_next wording.date.year
  have begun : Calendar.daysBeforeYear 0 ≤ Calendar.daysBeforeYear wording.date.year :=
    Calendar.daysBeforeYear_mono (Int.natCast_nonneg _)
  have ended : Calendar.daysBeforeYear (wording.date.year + 1) ≤ Calendar.daysBeforeYear 10000 :=
    Calendar.daysBeforeYear_mono (Int.add_le_add_right (Int.ofNat_le.mpr valid.year) 1)
  have zero : Calendar.daysBeforeYear 0 = 0 := rfl
  have last : Calendar.daysBeforeYear 10000 = 3652425 := rfl
  have opened := Calendar.Date.dayNumber_eq wording.date
  omega

theorem abs_ahead {zone : Zone} (valid : zone.IsValid) : -1440 < zone.ahead ∧ zone.ahead < 1440 := by
  cases zone with
  | universal mark => simp [Zone.ahead]
  | distant sign hours minutes =>
    obtain ⟨-, inDay, inHour⟩ := valid
    rw [Zone.ahead]
    split <;> omega

theorem inRange_reading (valid : wording.IsValid) :
    earliest ≤ wording.reading.millis ∧ wording.reading.millis ≤ latest := by
  obtain ⟨first, last⟩ := bounds_dayNumber valid
  obtain ⟨behind, before⟩ := abs_ahead valid.zone
  have milli := fractionMillis_lt valid.fraction
  obtain ⟨-, -, -, inDay, inHour, inMinute, -, -⟩ := valid
  simp only [Reading.millis, earliest, latest, reading, epochDay, millisPerDay]
  omega

theorem fraction_eq {fraction other : Option (List Char)} {rest more : List Char}
    (digits : ∀ digits ∈ fraction, digits ≠ [] ∧ ∀ c ∈ digits, c.isDigit = true)
    (digitsToo : ∀ digits ∈ other, digits ≠ [] ∧ ∀ c ∈ digits, c.isDigit = true)
    (ends : ∀ c ∈ rest.head?, c.isDigit = false ∧ c ≠ '.') (endsToo : ∀ c ∈ more.head?, c.isDigit = false ∧ c ≠ '.')
    (same : fractionCharacters fraction ++ rest = fractionCharacters other ++ more) : fraction = other := by
  cases fraction with
  | none =>
    cases other with
    | none => rfl
    | some decimals => exact absurd rfl (ends '.' (by rw [← List.nil_append rest]; exact same ▸ rfl)).2
  | some decimals =>
    cases other with
    | none => exact absurd rfl (endsToo '.' (by rw [← List.nil_append more]; exact same ▸ rfl)).2
    | some others =>
      have behind : decimals ++ rest = others ++ more := (List.cons.inj same).2
      have taken := (takeWhile_digits (digits _ rfl).2 fun c first => (ends c first).1).1
      have also := (takeWhile_digits (digitsToo _ rfl).2 fun c first => (endsToo c first).1).1
      rw [← taken, ← also, behind]

/-- Parts that are spelled alike denote the same instant. -/
theorem instant_eq {other : Wording} (valid : wording.IsValid) (validToo : other.IsValid)
    (same : wording.characters = other.characters) : wording.instant = other.instant := by
  have readings : wording.reading = other.reading := by
    have both := (scan_characters valid).symm.trans (same ▸ scan_characters validToo)
    exact Option.some.inj both
  have dropped (wording : Wording) : wording.characters.drop 19 =
      fractionCharacters wording.fraction ++ wording.zone.characters := rfl
  have fractions := fraction_eq valid.fraction validToo.fraction (Zone.head_characters valid.zone)
    (Zone.head_characters validToo.zone) (by rw [← dropped, ← dropped, same])
  obtain ⟨date, hour, minute, second, -, ahead⟩ := Reading.mk.inj readings
  rw [instant, instant, date, hour, minute, second, ahead, fractions]

end Wording

/-- A text is accepted exactly if it denotes an instant, and as that rounded down. -/
theorem parse?_eq_some_iff {raw : String} {t : Timestamp} :
    parse? raw = some t ↔ ∃ instant, Denotes raw instant ∧ t.millis = ⌊instant * 1000⌋ := by
  constructor
  · intro parsed
    obtain ⟨reading, scanned, later⟩ := Option.bind_eq_some_iff.mp parsed
    obtain ⟨_, guarded, found⟩ := Option.bind_eq_some_iff.mp later
    have valid : reading.isValid = true := by
      by_contra invalid
      simp [guard, invalid] at guarded
    obtain ⟨wording, own, spelled, rfl⟩ := Wording.exists_of_scan scanned valid
    refine ⟨wording.instant, ⟨wording, own, spelled, rfl⟩, ?_⟩
    rw [← Wording.millis_reading own]
    rw [ofMillis?, dif_pos (Wording.inRange_reading own)] at found
    exact (congrArg millis (Option.some.inj found)).symm
  · rintro ⟨_, ⟨wording, valid, spelled, rfl⟩, rounded⟩
    rw [← Wording.millis_reading valid] at rounded
    rw [parse?, spelled]
    refine scan_then (Wording.scan_characters valid) ?_
    have accepted : guard wording.reading.isValid = some () := by simp [guard, Wording.isValid_reading valid]
    refine scan_then accepted ?_
    rw [ofMillis?, dif_pos (Wording.inRange_reading valid)]
    obtain ⟨millis, inRange⟩ := t
    obtain rfl : millis = wording.reading.millis := rounded
    rfl

theorem denotes_unique {raw : String} {instant other : ℚ} (denotes : Denotes raw instant)
    (also : Denotes raw other) : instant = other := by
  obtain ⟨wording, valid, spelled, rfl⟩ := denotes
  obtain ⟨again, validToo, spelledToo, rfl⟩ := also
  exact Wording.instant_eq valid validToo (spelled.symm.trans spelledToo)

theorem length_text {instant : Timestamp} (nameable : instant.IsNameable) : instant.text.length = 24 := by
  rw [← String.length_toList, toList_text nameable]
  simp [length_places]

/-! ### Canonical texts -/

/-- Every instant has one text, whichever text it was given by. -/
structure CanonicalTexts : Prop where
  /-- Texts of years of four digits are of one length, and denote their instants. -/
  named : ∀ instant : Timestamp, instant.IsNameable →
    instant.text.length = 24 ∧ parse? instant.text = some instant
  /-- They are in the order of the instants, and so are their bytes. -/
  ordered : ∀ s t : Timestamp, s.IsNameable → t.IsNameable →
    compare s.text t.text = compare s.millis t.millis ∧ (s.bytes < t.bytes ↔ s.millis < t.millis)
  /-- The days up to a date are counted as the calendar goes from each date to the next. -/
  counted : Calendar.Date.dayNumber ⟨1970, 1, 1⟩ = epochDay ∧
    ∀ date : Calendar.Date, date.isValid = true →
      date.next.isValid = true ∧ date.next.dayNumber = date.dayNumber + 1
  /-- Exactly the texts that denote an instant are accepted, and no text denotes two. -/
  accepted : ∀ raw, ((∃ t, parse? raw = some t) ↔ ∃ instant, Denotes raw instant) ∧
    ∀ first second, Denotes raw first → Denotes raw second → first = second
  /-- The instant is rounded down to the millisecond. -/
  rounded : ∀ raw t instant, parse? raw = some t → Denotes raw instant → t.millis = ⌊instant * 1000⌋
  /-- Texts that denote instants of one millisecond have one canonical text. -/
  normalised : ∀ raw other s t first second, parse? raw = some s → parse? other = some t →
    Denotes raw first → Denotes other second → ⌊first * 1000⌋ = ⌊second * 1000⌋ → s.text = t.text

theorem canonicalTexts : CanonicalTexts := by
  have rounded (raw : String) (t : Timestamp) (instant : ℚ) (parsed : parse? raw = some t)
      (denotes : Denotes raw instant) : t.millis = ⌊instant * 1000⌋ := by
    obtain ⟨other, also, millis⟩ := parse?_eq_some_iff.mp parsed
    rw [millis, denotes_unique also denotes]
  exact {
    named := fun instant nameable => ⟨length_text nameable, parse?_text nameable⟩
    ordered := fun s t first second => ⟨compare_text first second, bytes_lt_iff first second⟩
    counted := ⟨rfl, fun date => Calendar.Date.dayNumber_next⟩
    accepted := by
      refine fun raw => ⟨⟨?_, ?_⟩, fun first second => denotes_unique⟩
      · rintro ⟨t, parsed⟩
        obtain ⟨instant, denotes, -⟩ := parse?_eq_some_iff.mp parsed
        exact ⟨instant, denotes⟩
      · rintro ⟨_, wording, valid, spelled, rfl⟩
        have millis := Wording.millis_reading valid
        exact ⟨⟨_, Wording.inRange_reading valid⟩, parse?_eq_some_iff.mpr ⟨_, ⟨wording, valid, spelled, rfl⟩, millis⟩⟩
    rounded := rounded
    normalised := by
      intro raw other s t first second parsed parsedToo denotes denotesToo same
      have millis : s.millis = t.millis := by
        rw [rounded raw s first parsed denotes, rounded other t second parsedToo denotesToo, same]
      obtain ⟨_, _⟩ := s
      obtain ⟨_, _⟩ := t
      cases millis
      rfl }

/-- The last millisecond before 1970, and two texts of one millisecond: a leap second at the end of
the 29th of February, and the first of March in a zone east of universal time. -/
theorem march_canonical : (⟨-1, by decide⟩ : Timestamp).text.length = 24 ∧
    parse? (⟨-1, by decide⟩ : Timestamp).text = some ⟨-1, by decide⟩ ∧
    ∃ s t, parse? "2000-02-29t23:59:60.0009z" = some s ∧ parse? "2000-03-01 01:30:00.000123+01:30" = some t ∧
      s.millis = 951868800000 ∧ s.text = t.text := by
  obtain ⟨length, again⟩ := canonicalTexts.named ⟨-1, by decide⟩ (by decide +kernel)
  have first : Denotes "2000-02-29t23:59:60.0009z" (9518688000009 / 10000) := by
    refine ⟨⟨2000, 2, 29, 't', 23, 59, 60, some ['0', '0', '0', '9'], .universal 'z'⟩, ?_, by decide +kernel, ?_⟩
    · exact ⟨by decide, by decide +kernel, by decide, by decide, by decide, by decide, by simp,
        by simp [Zone.IsValid]⟩
    · have day : Calendar.Date.dayNumber ⟨2000, 2, 29⟩ = 730544 := by decide +kernel
      have digits : decimalValue ['0', '0', '0', '9'] = 9 := by decide +kernel
      simp [Wording.instant, Wording.date, Wording.fractionValue, Zone.ahead, day, digits, epochDay]
      norm_num
  have second : Denotes "2000-03-01 01:30:00.000123+01:30" (951868800000123 / 1000000) := by
    refine ⟨⟨2000, 3, 1, ' ', 1, 30, 0, some ['0', '0', '0', '1', '2', '3'], .distant '+' 1 30⟩, ?_,
      by decide +kernel, ?_⟩
    · exact ⟨by decide, by decide +kernel, by decide, by decide, by decide, by decide, by simp,
        by simp [Zone.IsValid]⟩
    · have day : Calendar.Date.dayNumber ⟨2000, 3, 1⟩ = 730545 := by decide +kernel
      have digits : decimalValue ['0', '0', '0', '1', '2', '3'] = 123 := by decide +kernel
      simp [Wording.instant, Wording.date, Wording.fractionValue, Zone.ahead, day, digits, epochDay]
      norm_num
  obtain ⟨s, parsed⟩ := (canonicalTexts.accepted _).1.mpr ⟨_, first⟩
  obtain ⟨t, parsedToo⟩ := (canonicalTexts.accepted _).1.mpr ⟨_, second⟩
  have millis := canonicalTexts.rounded _ s _ parsed first
  have floors : ⌊(9518688000009 / 10000 : ℚ) * 1000⌋ = 951868800000 ∧
      ⌊(951868800000123 / 1000000 : ℚ) * 1000⌋ = 951868800000 := by
    constructor <;> norm_num [Int.floor_eq_iff]
  refine ⟨length, again, s, t, parsed, parsedToo, millis.trans floors.1, ?_⟩
  exact canonicalTexts.normalised _ _ s t _ _ parsed parsedToo first second (floors.1.trans floors.2.symm)

end Dossier.Timestamp
