import Dossier.Proofs.CalendarDates
import Dossier.Timestamp
import Mathlib.Data.String.Basic
import Mathlib.Tactic.Ring
import Mathlib.Tactic.Tauto

/-! What dates are stored as: texts that denote their instants and sort like them, as long as
the years have four digits. -/
namespace Dossier

/-! ### Numerals of fixed width -/

namespace Timestamp
open Text

/-- The last `width` decimal digits of a number, the highest first. -/
def places : (width n : Nat) → List Char
  | 0, _ => []
  | width + 1, n => Nat.digitChar (n / 10 ^ width % 10) :: places width n

theorem places_succ (width n : Nat) :
    places (width + 1) n = places width (n / 10) ++ [Nat.digitChar (n % 10)] := by
  induction width generalizing n with
  | zero => rw [places, places, places, Nat.pow_zero, Nat.div_one, List.nil_append]
  | succ width ih => rw [places, ih, places, Nat.pow_succ', ← Nat.div_div_eq_div_mul, List.cons_append]

theorem places_zero (width : Nat) : places width 0 = List.replicate width '0' := by
  induction width with
  | zero => rfl
  | succ width ih => rw [places, Nat.zero_div, ih, List.replicate_succ]; rfl

/-- Padding writes the digits that there are. -/
theorem toList_padded {width n : Nat} (fits : n < 10 ^ (width + 1)) :
    (padded (width + 1) n).toList = places (width + 1) n := by
  rw [padded, String.toList_ofList]
  induction width generalizing n with
  | zero =>
    rw [Nat.toDigits_of_lt_base (by simpa using fits), places_succ, Nat.mod_eq_of_lt (by simpa using fits)]
    rfl
  | succ width ih =>
    rw [places_succ]
    by_cases small : n < 10
    · rw [Nat.toDigits_of_lt_base small, Nat.div_eq_of_lt small, Nat.mod_eq_of_lt small, places_zero]
      rfl
    · have shorter := ih (n := n / 10) (by rw [Nat.pow_succ'] at fits; omega)
      rw [Nat.toDigits_of_base_le (by decide) (Nat.not_lt.mp small), ← shorter, List.append_assoc,
        List.length_append, List.length_singleton, Nat.add_sub_add_right]

theorem digitChar_lt {p q : Nat} (left : p < 10) (right : q < 10) : p.digitChar < q.digitChar ↔ p < q := by
  rw [Char.lt_def, UInt32.lt_iff_toNat_lt, Char.toNat_val, Char.toNat_val, Nat.toNat_digitChar_of_lt_ten left,
    Nat.toNat_digitChar_of_lt_ten right]
  omega

theorem digitChar_inj {p q : Nat} (left : p < 10) (right : q < 10) : p.digitChar = q.digitChar ↔ p = q := by
  rw [← Char.toNat_inj, Nat.toNat_digitChar_of_lt_ten left, Nat.toNat_digitChar_of_lt_ten right]
  omega

/-- Numbers with a unit are ordered by how often they have it, then by their rests. -/
theorem add_mul_lt {unit p q r t : Nat} (first : r < unit) (second : t < unit) :
    r + unit * p < t + unit * q ↔ p < q ∨ p = q ∧ r < t := by
  rcases Nat.lt_trichotomy p q with less | rfl | more
  · have := Nat.mul_le_mul_left unit (Nat.succ_le_of_lt less)
    rw [Nat.mul_succ] at this
    omega
  · omega
  · have := Nat.mul_le_mul_left unit (Nat.succ_le_of_lt more)
    rw [Nat.mul_succ] at this
    omega

theorem add_mul_inj {unit p q r t : Nat} (first : r < unit) (second : t < unit) :
    r + unit * p = t + unit * q ↔ p = q ∧ r = t := by
  have forth := add_mul_lt first second (p := p) (q := q)
  have back := add_mul_lt second first (p := q) (q := p)
  omega

/-- Numerals of one width sort as their numbers do, and if these are the same as what follows. -/
theorem places_append_lt {width m n : Nat} {first second : List Char} :
    places width m ++ first < places width n ++ second ↔
      m % 10 ^ width < n % 10 ^ width ∨ m % 10 ^ width = n % 10 ^ width ∧ first < second := by
  induction width with
  | zero => simp [places, Nat.mod_one]
  | succ width ih =>
    have digit (n : Nat) : n / 10 ^ width % 10 < 10 := Nat.mod_lt _ (by decide)
    have rest (n : Nat) : n % 10 ^ width < 10 ^ width := Nat.mod_lt _ (Nat.pow_pos (by decide))
    rw [places, places, List.cons_append, List.cons_append, List.cons_lt_cons_iff, ih,
      digitChar_lt (digit m) (digit n), digitChar_inj (digit m) (digit n), Nat.mod_pow_succ, Nat.mod_pow_succ,
      add_mul_lt (rest m) (rest n), add_mul_inj (rest m) (rest n)]
    tauto

theorem scanNumber_places (width value n : Nat) (rest : List Char) :
    scanNumber width value (places width n ++ rest) = some (value * 10 ^ width + n % 10 ^ width, rest) := by
  induction width generalizing value with
  | zero => simp [places, scanNumber, Nat.mod_one]
  | succ width ih =>
    have digit : n / 10 ^ width % 10 < 10 := Nat.mod_lt _ (by decide)
    rw [places, List.cons_append, scanNumber, Nat.isDigit_digitChar, if_pos (decide_eq_true digit), ih,
      Nat.toNat_digitChar_sub_48_of_lt_ten digit, Nat.mod_pow_succ]
    have sum : (value * 10 + n / 10 ^ width % 10) * 10 ^ width + n % 10 ^ width =
        value * 10 ^ (width + 1) + (n % 10 ^ width + 10 ^ width * (n / 10 ^ width % 10)) := by ring
    rw [sum]

/-! ### Texts of instants -/

/-- The date of an instant in universal time. -/
def date (instant : Timestamp) : Calendar.Date := .ofDayNumber (instant.millis / millisPerDay + epochDay)

/-- The milliseconds of the day that have passed. -/
def time (instant : Timestamp) : Nat := (instant.millis % millisPerDay).toNat

/-- The year is one of those that texts of RFC 3339 can name. -/
def IsNameable (instant : Timestamp) : Prop := 0 ≤ instant.date.year ∧ instant.date.year ≤ 9999
deriving Decidable

theorem time_lt (instant : Timestamp) : instant.time < 86400000 := by
  rw [time, millisPerDay]
  omega

theorem isValid_date (instant : Timestamp) : instant.date.isValid = true :=
  Calendar.Date.isValid_ofDayNumber _

theorem text_eq (instant : Timestamp) : instant.text =
    yearText instant.date.year ++ "-" ++ padded 2 instant.date.month ++ "-" ++ padded 2 instant.date.day ++ "T" ++
      padded 2 (instant.time / 3600000) ++ ":" ++ padded 2 (instant.time / 60000 % 60) ++ ":" ++
      padded 2 (instant.time / 1000 % 60) ++ "." ++ padded 3 (instant.time % 1000) ++ "Z" := rfl

/-- The text of an instant is of fixed width in all its parts. -/
theorem toList_text {instant : Timestamp} (nameable : instant.IsNameable) : instant.text.toList =
    places 4 instant.date.year.toNat ++ '-' :: (places 2 instant.date.month ++ '-' ::
      (places 2 instant.date.day ++ 'T' :: (places 2 (instant.time / 3600000) ++ ':' ::
        (places 2 (instant.time / 60000 % 60) ++ ':' :: (places 2 (instant.time / 1000 % 60) ++ '.' ::
          (places 3 (instant.time % 1000) ++ ['Z'])))))) := by
  obtain ⟨month, day⟩ := Calendar.Date.bounds_of_isValid instant.isValid_date
  have passed := instant.time_lt
  have year := nameable.2
  rw [text_eq, yearText, if_pos (show 0 ≤ instant.date.year ∧ instant.date.year ≤ 9999 from nameable)]
  simp only [String.toList_append, List.append_assoc]
  rw [toList_padded (by omega), toList_padded (by omega), toList_padded (by omega), toList_padded (by omega),
    toList_padded (by omega), toList_padded (by omega), toList_padded (by omega)]
  rfl

/-- Times of the day are compared by hours, minutes, seconds and milliseconds. -/
theorem clock_lt {m n : Nat} :
    (m / 3600000 < n / 3600000 ∨ m / 3600000 = n / 3600000 ∧
      (m / 60000 % 60 < n / 60000 % 60 ∨ m / 60000 % 60 = n / 60000 % 60 ∧
        (m / 1000 % 60 < n / 1000 % 60 ∨ m / 1000 % 60 = n / 1000 % 60 ∧ m % 1000 < n % 1000))) ↔ m < n := by
  omega

/-- Texts are compared as dates, then as times of the day. -/
theorem text_lt {s t : Timestamp} (first : s.IsNameable) (second : t.IsNameable) :
    s.text < t.text ↔ s.date.Before t.date ∨ s.date = t.date ∧ s.time < t.time := by
  obtain ⟨month, day⟩ := Calendar.Date.bounds_of_isValid s.isValid_date
  obtain ⟨month', day'⟩ := Calendar.Date.bounds_of_isValid t.isValid_date
  have passed := s.time_lt
  have passed' := t.time_lt
  rw [String.lt_iff, toList_text first, toList_text second]
  obtain ⟨least, most⟩ := first
  obtain ⟨least', most'⟩ := second
  simp only [places_append_lt, List.cons_lt_cons_iff, Char.lt_irrefl, List.lt_irrefl, true_and, false_or,
    and_false, or_false]
  simp (disch := omega) only [Nat.mod_eq_of_lt]
  rw [clock_lt]
  generalize s.date = a at *
  generalize t.date = b at *
  obtain ⟨year, month, day⟩ := a
  obtain ⟨year', month', day'⟩ := b
  simp only [Calendar.Date.Before, Calendar.Date.mk.injEq] at *
  omega

/-- Texts of nameable years sort as the instants do. -/
theorem text_lt_iff {s t : Timestamp} (first : s.IsNameable) (second : t.IsNameable) :
    s.text < t.text ↔ s.millis < t.millis := by
  rw [text_lt first second, date, date, Calendar.Date.before_ofDayNumber, Calendar.Date.ofDayNumber_inj, time, time,
    millisPerDay]
  omega

theorem compare_text {s t : Timestamp} (first : s.IsNameable) (second : t.IsNameable) :
    compare s.text t.text = compare s.millis t.millis := by
  rcases Int.lt_trichotomy s.millis t.millis with less | same | more
  · rw [compare_lt_iff_lt.mpr less, compare_lt_iff_lt, text_lt_iff first second]
    exact less
  · obtain ⟨millis, _⟩ := s
    obtain ⟨_, _⟩ := t
    cases same
    rw [compare_eq_iff_eq.mpr rfl, compare_eq_iff_eq.mpr rfl]
  · rw [compare_gt_iff_gt.mpr more, compare_gt_iff_gt]
    exact (text_lt_iff second first).mpr more

/-! ### Reading texts back -/

theorem isDigit_of_mem_places {width n : Nat} {c : Char} (member : c ∈ places width n) : c.isDigit = true := by
  induction width with
  | zero => cases member
  | succ width ih =>
    rcases List.mem_cons.mp member with rfl | later
    · rw [Nat.isDigit_digitChar, decide_eq_true_iff]
      exact Nat.mod_lt _ (by decide)
    · exact ih later

theorem scanFraction_places (n : Nat) (rest : List Char) :
    scanFraction ('.' :: (places 3 n ++ 'Z' :: rest)) = some (n % 1000, 'Z' :: rest) := by
  have digits : ∀ c ∈ places 3 n, c.isDigit = true := fun _ member => isDigit_of_mem_places member
  have value : fractionMillis (places 3 n) = n % 1000 := by
    have digit (k : Nat) : (Nat.digitChar (k % 10)).toNat - 48 = k % 10 :=
      Nat.toNat_digitChar_sub_48_of_lt_ten (Nat.mod_lt _ (by decide))
    have opened : places 3 n = [(n / 100 % 10).digitChar, (n / 10 % 10).digitChar, (n / 1 % 10).digitChar] := rfl
    rw [opened, fractionMillis, List.cons_append, List.cons_append, List.cons_append]
    simp only [List.take_succ_cons, List.take_zero, List.foldl_cons, List.foldl_nil, digit]
    omega
  rw [scanFraction, List.takeWhile_append_of_pos digits, List.dropWhile_append_of_pos digits,
    List.takeWhile_cons_of_neg (by decide), List.dropWhile_cons_of_neg (by decide), List.append_nil, value]
  rfl

theorem scanMark_cons {allowed : List Char} {c : Char} (listed : allowed.contains c = true) (rest : List Char) :
    scanMark allowed (c :: rest) = some (c, rest) := if_pos listed

/-- A scan whose first step is known goes on behind what that step takes off. -/
theorem scan_then {α β : Type} {step : Option α} {next : α → Option β} {value : α} {result : β}
    (first : step = some value) (later : next value = some result) : (step >>= next) = some result :=
  Option.bind_eq_some_iff.mpr ⟨value, first, later⟩

/-- What is read of a text is what was written. -/
theorem scan_text {instant : Timestamp} (nameable : instant.IsNameable) : Reading.scan instant.text.toList =
    some ⟨instant.date, instant.time / 3600000, instant.time / 60000 % 60, instant.time / 1000 % 60,
      instant.time % 1000, 0⟩ := by
  obtain ⟨month, day⟩ := Calendar.Date.bounds_of_isValid instant.isValid_date
  have passed := instant.time_lt
  rw [Reading.scan, toList_text nameable]
  -- Five numerals with a mark behind each, then the seconds with their fraction and the offset.
  refine scan_then (scanNumber_places ..) (scan_then (scanMark_cons rfl _) ?_)
  refine scan_then (scanNumber_places ..) (scan_then (scanMark_cons rfl _) ?_)
  refine scan_then (scanNumber_places ..) (scan_then (scanMark_cons rfl _) ?_)
  refine scan_then (scanNumber_places ..) (scan_then (scanMark_cons rfl _) ?_)
  refine scan_then (scanNumber_places ..) (scan_then (scanMark_cons rfl _) ?_)
  refine scan_then (scanNumber_places ..) (scan_then (scanFraction_places ..) (scan_then rfl ?_))
  obtain ⟨least, most⟩ := nameable
  simp (disch := omega) only [Nat.zero_mul, Nat.zero_add, Nat.mod_eq_of_lt, Int.toNat_of_nonneg]
  rfl

/-- A text of a nameable year denotes its instant. -/
theorem parse?_text {instant : Timestamp} (nameable : instant.IsNameable) : parse? instant.text = some instant := by
  have passed := instant.time_lt
  have valid : (Reading.mk instant.date (instant.time / 3600000) (instant.time / 60000 % 60)
      (instant.time / 1000 % 60) (instant.time % 1000) 0).isValid = true := by
    rw [Reading.isValid]
    simp only [instant.isValid_date, Bool.true_and, Bool.and_eq_true, decide_eq_true_iff]
    omega
  have day : instant.date.dayNumber = instant.millis / millisPerDay + epochDay := Calendar.Date.dayNumber_ofDayNumber _
  have millis : (Reading.mk instant.date (instant.time / 3600000) (instant.time / 60000 % 60)
      (instant.time / 1000 % 60) (instant.time % 1000) 0).millis = instant.millis := by
    simp only [Reading.millis, day, time, millisPerDay]
    omega
  rw [parse?, scan_text nameable]
  change (do guard _; ofMillis? _) = _
  rw [valid, millis]
  exact dif_pos instant.inRange

/-- No other year can be read back: its text begins with a sign. -/
theorem parse?_text_eq_none {instant : Timestamp} (other : ¬ instant.IsNameable) : parse? instant.text = none := by
  have sign : ∃ c rest, instant.text.toList = c :: rest ∧ c.isDigit = false := by
    rw [text_eq, yearText, if_neg (show ¬ (0 ≤ instant.date.year ∧ instant.date.year ≤ 9999) from other)]
    split
    · simp only [String.toList_append, List.append_assoc]
      exact ⟨'-', _, rfl, rfl⟩
    · simp only [String.toList_append, List.append_assoc]
      exact ⟨'+', _, rfl, rfl⟩
  obtain ⟨c, rest, begun, noDigit⟩ := sign
  have nothing : scanNumber 4 0 (c :: rest) = none := by
    rw [scanNumber, noDigit]
    rfl
  rw [parse?, Reading.scan, begun, nothing]
  rfl

/-! ### Bytes -/

/-- The bytes that the text of an instant is stored as. -/
def bytes (instant : Timestamp) : List UInt8 := instant.text.toUTF8.data.toList

/-- Characters of ASCII are one byte each. -/
theorem toList_utf8Encode {characters : List Char} (ascii : ∀ c ∈ characters, c.val ≤ 127) :
    characters.utf8Encode.data.toList = characters.map (·.val.toUInt8) := by
  induction characters with
  | nil => rfl
  | cons c rest ih =>
    have single := String.utf8EncodeChar_eq_singleton (Char.utf8Size_eq_one_iff.mpr (ascii c List.mem_cons_self))
    rw [List.utf8Encode_cons, List.utf8Encode_singleton, single, ByteArray.data_append, Array.toList_append,
      ih fun c member => ascii c (List.mem_cons_of_mem _ member)]
    rfl

theorem toNat_byte {c : Char} (ascii : c.val ≤ 127) : c.val.toUInt8.toNat = c.val.toNat := by
  rw [UInt32.toNat_toUInt8, Nat.mod_eq_of_lt (Nat.lt_of_le_of_lt (UInt32.le_iff_toNat_le.mp ascii) (by decide))]

/-- Texts of ASCII are in the order of their bytes. -/
theorem map_byte_lt {first second : List Char} (ascii : ∀ c ∈ first, c.val ≤ 127)
    (other : ∀ c ∈ second, c.val ≤ 127) :
    first.map (·.val.toUInt8) < second.map (·.val.toUInt8) ↔ first < second := by
  induction first generalizing second with
  | nil => cases second <;> simp
  | cons c rest ih =>
    cases second with
    | nil => simp
    | cons d others =>
      obtain ⟨here, later⟩ := List.forall_mem_cons.mp ascii
      obtain ⟨there, behind⟩ := List.forall_mem_cons.mp other
      have less : c.val.toUInt8 < d.val.toUInt8 ↔ c < d := by
        rw [Char.lt_def, UInt8.lt_iff_toNat_lt, UInt32.lt_iff_toNat_lt, toNat_byte here, toNat_byte there]
      have same : c.val.toUInt8 = d.val.toUInt8 ↔ c = d := by
        rw [Char.ext_iff, ← UInt8.toNat_inj, ← UInt32.toNat_inj, toNat_byte here, toNat_byte there]
      rw [List.map_cons, List.map_cons, List.cons_lt_cons_iff, List.cons_lt_cons_iff, ih later behind, less, same]

theorem ascii_places {width n : Nat} : ∀ c ∈ places width n, c.val ≤ 127 := by
  intro c member
  have digit := isDigit_of_mem_places member
  rw [Char.isDigit, Bool.and_eq_true, decide_eq_true_iff, decide_eq_true_iff] at digit
  exact UInt32.le_trans digit.2 (by decide)

theorem ascii_text {instant : Timestamp} (nameable : instant.IsNameable) :
    ∀ c ∈ instant.text.toList, c.val ≤ 127 := by
  rw [toList_text nameable]
  simp only [List.forall_mem_append, List.forall_mem_cons]
  exact ⟨ascii_places, by decide, ascii_places, by decide, ascii_places, by decide, ascii_places, by decide,
    ascii_places, by decide, ascii_places, by decide, ascii_places, by decide, nofun⟩

/-- Stored texts of nameable years are in the order of the instants, byte by byte. -/
theorem bytes_lt_iff {s t : Timestamp} (first : s.IsNameable) (second : t.IsNameable) :
    s.bytes < t.bytes ↔ s.millis < t.millis := by
  have encoded {instant : Timestamp} (nameable : instant.IsNameable) :
      instant.bytes = instant.text.toList.map (·.val.toUInt8) := by
    rw [← toList_utf8Encode (ascii_text nameable), String.utf8Encode_toList]
    rfl
  rw [encoded first, encoded second, map_byte_lt (ascii_text first) (ascii_text second), ← String.lt_iff,
    text_lt_iff first second]

end Timestamp
end Dossier
