import Dossier.Json.Token
import Dossier.Proofs.ShortestDigits
import Mathlib.Control.Basic
import Mathlib.Data.List.TakeWhile
import Mathlib.Data.Option.Basic

/-! The texts of numbers are numerals. A scan for a token takes such a text off in one piece,
whatever stands behind it in the text of a value. -/
namespace Dossier

/-- What may stand behind a value within a text: nothing, or a mark that goes on or closes. -/
def Ends (rest : List Char) : Prop := ∀ c ∈ rest.head?, c = ',' ∨ c = ']' ∨ c = '\x7d'

/-- A list of digits, at least one. -/
structure IsDigits (characters : List Char) : Prop where
  nonempty : characters ≠ []
  digits : ∀ c ∈ characters, c.isDigit = true

namespace IsDigits
variable {digits rest : List Char}

theorem takeWhile (isDigits : IsDigits digits) (stop : ∀ c ∈ rest.head?, c.isDigit = false) :
    (digits ++ rest).takeWhile Char.isDigit = digits := by
  rw [List.takeWhile_append_of_pos isDigits.digits]
  cases rest with
  | nil => simp
  | cons c others => simp [stop c rfl]

theorem dropWhile (isDigits : IsDigits digits) (stop : ∀ c ∈ rest.head?, c.isDigit = false) :
    (digits ++ rest).dropWhile Char.isDigit = rest := by
  rw [List.dropWhile_append_of_pos isDigits.digits]
  cases rest with
  | nil => rfl
  | cons c others => simp [stop c rfl]

end IsDigits

/-- The parts of a numeral that is written as JSON wants it, without its sign. -/
structure Spelling where
  integer : List Char
  fraction : Option (List Char) := none
  power : Option (Char × List Char) := none
  integerDigits : IsDigits integer
  noZero : integer.head? ≠ some '0' ∨ integer.length = 1
  fractionDigits : ∀ digits ∈ fraction, IsDigits digits
  powerDigits : ∀ written ∈ power, (written.1 = '+' ∨ written.1 = '-') ∧ IsDigits written.2

namespace Spelling

def fractionCharacters (s : Spelling) : List Char := s.fraction.elim [] ('.' :: ·)

def powerCharacters (s : Spelling) : List Char :=
  s.power.elim [] fun written => 'e' :: written.1 :: written.2

def characters (s : Spelling) : List Char := s.integer ++ (s.fractionCharacters ++ s.powerCharacters)

/-- The power of ten that is written out. -/
def exponent? (s : Spelling) : Option Int :=
  s.power.map fun written =>
    if written.1 = '-' then -(decimalValue written.2 : Int) else decimalValue written.2

def numeral (s : Spelling) (negative : Bool) : Numeral :=
  ⟨negative, s.integer, s.fraction.getD [], s.exponent?.getD 0, s.fraction.isNone && s.exponent?.isNone⟩

/-- The number that a spelling denotes, without its sign. -/
def value (s : Spelling) : ℚ := (s.numeral false).value

variable {rest : List Char}

theorem notDigit_of_ends (ends : Ends rest) : ∀ c ∈ rest.head?, c.isDigit = false := by
  intro c first
  rcases ends c first with rfl | rfl | rfl <;> decide

theorem notDigit_of_power (s : Spelling) (ends : Ends rest) :
    ∀ c ∈ (s.powerCharacters ++ rest).head?, c.isDigit = false := by
  cases power : s.power with
  | none => simpa [powerCharacters, power] using notDigit_of_ends ends
  | some written => simp [powerCharacters, power]

theorem notDigit_of_fraction (s : Spelling) (ends : Ends rest) :
    ∀ c ∈ (s.fractionCharacters ++ (s.powerCharacters ++ rest)).head?, c.isDigit = false := by
  cases fraction : s.fraction with
  | none => simpa [fractionCharacters, fraction] using s.notDigit_of_power ends
  | some digits => simp [fractionCharacters, fraction]

theorem scanPower (s : Spelling) (ends : Ends rest) :
    Numeral.scanPower (s.powerCharacters ++ rest) = some (s.exponent?, rest) := by
  cases power : s.power with
  | none =>
    simp only [powerCharacters, power, Option.elim_none, List.nil_append, exponent?, Option.map_none]
    cases rest with
    | nil => rfl
    | cons c others =>
      rcases ends c rfl with rfl | rfl | rfl <;> rfl
  | some written =>
    obtain ⟨sign, digits⟩ := written
    obtain ⟨signed, isDigits⟩ := s.powerDigits _ power
    have stop := notDigit_of_ends ends
    simp only [powerCharacters, power, Option.elim_some, List.cons_append, exponent?, Option.map_some]
    rcases signed with plus | minus
    · subst plus
      simp [Numeral.scanPower, isDigits.takeWhile stop, isDigits.dropWhile stop, isDigits.nonempty]
    · subst minus
      simp [Numeral.scanPower, isDigits.takeWhile stop, isDigits.dropWhile stop, isDigits.nonempty]

theorem scanFraction (s : Spelling) (ends : Ends rest) :
    Numeral.scanFraction (s.fractionCharacters ++ (s.powerCharacters ++ rest)) =
      (s.fraction, s.powerCharacters ++ rest) := by
  have stop := s.notDigit_of_power ends
  cases fraction : s.fraction with
  | none =>
    simp only [fractionCharacters, fraction, Option.elim_none, List.nil_append]
    cases power : s.power with
    | none =>
      simp only [powerCharacters, power, Option.elim_none, List.nil_append]
      cases rest with
      | nil => rfl
      | cons c others => rcases ends c rfl with rfl | rfl | rfl <;> rfl
    | some written => simp [powerCharacters, power, Numeral.scanFraction]
  | some digits =>
    have isDigits := s.fractionDigits digits fraction
    simp [fractionCharacters, fraction, Numeral.scanFraction, isDigits.takeWhile stop,
      isDigits.dropWhile stop]

/-- A numeral is scanned to its end. -/
theorem scan (s : Spelling) (negative : Bool) (ends : Ends rest) :
    Numeral.scan negative (s.characters ++ rest) = some (s.numeral negative, rest) := by
  have stop := s.notDigit_of_fraction ends
  have integer := s.integerDigits.takeWhile stop
  have further := s.integerDigits.dropWhile stop
  simp only [characters, List.append_assoc, Numeral.scan, integer, further, s.scanFraction ends,
    s.scanPower ends, numeral]
  rfl

theorem scanNumber (s : Spelling) (negative : Bool) (ends : Ends rest) :
    Json.Token.scanNumber negative (s.characters ++ rest) =
      some (.number (Number.ofNumeral? (s.numeral negative)), rest) := by
  have stop := s.notDigit_of_fraction ends
  have further := s.integerDigits.dropWhile stop
  have integer : (!s.integer.isEmpty && (s.integer.head? != some '0' || s.integer.length == 1)) = true := by
    have zero := s.noZero
    simpa [s.integerDigits.nonempty] using zero
  have fraction : (!(s.fraction.getD []).isEmpty ||
      (s.fractionCharacters ++ (s.powerCharacters ++ rest)).head? != some '.') = true := by
    cases given : s.fraction with
    | some digits => simp [(s.fractionDigits digits given).nonempty]
    | none =>
      cases power : s.power with
      | some written => simp [fractionCharacters, powerCharacters, given, power]
      | none =>
        cases rest with
        | nil => simp [fractionCharacters, powerCharacters, given, power]
        | cons c others =>
          rcases ends c rfl with rfl | rfl | rfl <;>
            simp [fractionCharacters, powerCharacters, given, power]
  rw [Json.Token.scanNumber, s.scan negative ends]
  simp only [characters, List.append_assoc, further]
  simp only [numeral, Option.bind_eq_bind, Option.bind_some, guard, integer, fraction, if_true]
  rfl

end Spelling

/-! ### Texts of whole numbers -/

theorem isDigits_toDigits (n : Nat) : IsDigits (Nat.toDigits 10 n) :=
  ⟨Nat.toDigits_ne_nil, fun _ member => Nat.isDigit_of_mem_toDigits (by decide) (by decide) member⟩

/-- The digits of a number other than zero do not begin with one. -/
theorem head?_toDigits (n : Nat) (positive : 0 < n) : (Nat.toDigits 10 n).head? ≠ some '0' := by
  induction n using Nat.strongRecOn with
  | _ n ih =>
    by_cases small : n < 10
    · have all : ∀ n < 10, 0 < n → (Nat.toDigits 10 n).head? ≠ some '0' := by decide +kernel
      exact all n small positive
    · rw [Nat.toDigits_of_base_le (by decide) (by omega)]
      have earlier := ih (n / 10) (by omega) (by omega)
      cases digits : Nat.toDigits 10 (n / 10) with
      | nil => exact absurd digits Nat.toDigits_ne_nil
      | cons first others => simpa [digits] using earlier

theorem noZero_toDigits (n : Nat) :
    (Nat.toDigits 10 n).head? ≠ some '0' ∨ (Nat.toDigits 10 n).length = 1 := by
  by_cases zero : n = 0
  · exact .inr (by simp [zero])
  · exact .inl (head?_toDigits n (by omega))

/-- The spelling of a natural number. -/
def Spelling.ofNat (n : Nat) : Spelling where
  integer := Nat.toDigits 10 n
  integerDigits := isDigits_toDigits n
  noZero := noZero_toDigits n
  fractionDigits := by simp
  powerDigits := by simp

/-- The text of a number: a minus sign if it is negative, and a proper numeral. -/
def IsSpelled (characters : List Char) : Prop :=
  ∃ (negative : Bool) (s : Spelling), characters = (if negative then ['-'] else []) ++ s.characters

theorem Spelling.characters_ofNat (n : Nat) : (Spelling.ofNat n).characters = Nat.toDigits 10 n := by
  simp [Spelling.ofNat, Spelling.characters, Spelling.fractionCharacters, Spelling.powerCharacters]

/-- The text of a whole number, of which only those other than zero have a sign. -/
theorem exists_text_whole (word : Whole) : ∃ n negative,
    (Number.whole word).text.toList = (if negative then ['-'] else []) ++ (Spelling.ofNat n).characters ∧
      word.value = (if negative then -(n : Int) else n) ∧ (negative = true → n ≠ 0) := by
  cases value : word.value with
  | ofNat n =>
    refine ⟨n, false, ?_, rfl, by simp⟩
    rw [Spelling.characters_ofNat, Number.text, value]
    exact Nat.toList_repr
  | negSucc n =>
    refine ⟨n + 1, true, ?_, rfl, by simp⟩
    have written : toString (Int.negSucc n) = "-" ++ (n + 1).repr := rfl
    rw [Spelling.characters_ofNat, Number.text, value, written]
    simp [Nat.toList_repr]

theorem isSpelled_whole (n : Whole) : IsSpelled (Number.whole n).text.toList := by
  obtain ⟨n, negative, text, _⟩ := exists_text_whole n
  exact ⟨negative, .ofNat n, text⟩

/-! ### Texts of doubles -/

/-- The digits of a double begin with one other than zero. -/
theorem significant_spec {multiple : Nat} (nonzero : multiple ≠ 0) :
    IsDigits (Double.significant multiple) ∧ (Double.significant multiple).head? ≠ some '0' := by
  have leading := head?_toDigits multiple (Nat.pos_of_ne_zero nonzero)
  have front : Double.significant multiple <+: Nat.toDigits 10 multiple := by
    have back := List.dropWhile_suffix (l := (Nat.toDigits 10 multiple).reverse) (· == '0')
    simpa [Double.significant] using List.reverse_prefix.mpr back
  have nonempty : Double.significant multiple ≠ [] := by
    intro empty
    have zeros : ∀ c ∈ Nat.toDigits 10 multiple, c = '0' := by
      simpa [Double.significant, List.dropWhile_eq_nil_iff] using empty
    cases digits : Nat.toDigits 10 multiple with
    | nil => exact Nat.toDigits_ne_nil digits
    | cons first others =>
      rw [digits] at leading zeros
      exact leading (by simp [zeros first])
  refine ⟨⟨nonempty, fun c member => (isDigits_toDigits multiple).digits c (front.subset member)⟩, ?_⟩
  obtain ⟨others, whole⟩ := front
  cases digits : Double.significant multiple with
  | nil => exact absurd digits nonempty
  | cons first more =>
    rw [← whole, digits] at leading
    simpa using leading

/-- The zeros that are left out at the end of a multiple. -/
theorem significant_value (multiple : Nat) :
    (Double.significant multiple).length ≤ (Nat.toDigits 10 multiple).length ∧
      multiple = decimalValue (Double.significant multiple) *
        10 ^ ((Nat.toDigits 10 multiple).length - (Double.significant multiple).length) := by
  let zeros := ((Nat.toDigits 10 multiple).reverse.takeWhile (· == '0')).reverse
  have whole : Nat.toDigits 10 multiple = Double.significant multiple ++ zeros := by
    rw [Double.significant, ← List.reverse_append, List.takeWhile_append_dropWhile, List.reverse_reverse]
  have count : (Nat.toDigits 10 multiple).length - (Double.significant multiple).length = zeros.length := by
    rw [whole, List.length_append, Nat.add_sub_cancel_left]
  have only : zeros = List.replicate zeros.length '0' := by
    refine List.eq_replicate_of_mem fun c member => ?_
    simpa using List.mem_takeWhile_imp (List.mem_reverse.mp member)
  refine ⟨?_, ?_⟩
  · rw [whole, List.length_append]
    exact Nat.le_add_right _ _
  · calc multiple
      _ = decimalValue (Double.significant multiple ++ zeros) := by rw [← whole, decimalValue_toDigits]
      _ = decimalValue (Double.significant multiple) * 10 ^ zeros.length := by
        rw [decimalValue_append, only, decimalValue_zeros, List.length_replicate, Nat.add_zero]
      _ = _ := by rw [count]

theorem IsDigits.append {digits more : List Char} (isDigits : IsDigits digits)
    (further : ∀ c ∈ more, c.isDigit = true) : IsDigits (digits ++ more) :=
  ⟨by simp [isDigits.nonempty], fun c member => (List.mem_append.mp member).elim (isDigits.digits c) (further c)⟩

theorem isDigit_of_mem_zeros {count : Nat} {c : Char} (member : c ∈ List.replicate count '0') :
    c.isDigit = true := by
  rw [List.eq_of_mem_replicate member]
  decide

theorem isDigits_zero : IsDigits ['0'] := ⟨by simp, by simp⟩

/-- A spelling of some characters for a number, which a point or a power tells from a whole one. -/
structure Spelling.Writes (s : Spelling) (characters : List Char) (value : ℚ) : Prop where
  characters : s.characters = characters
  marked : s.fraction.isSome = true ∨ s.power.isSome = true
  value : s.value = value

/-- Digits with a point among them. -/
theorem exists_writes_point {integer fraction : List Char} (whole : IsDigits integer)
    (noZero : integer.head? ≠ some '0' ∨ integer.length = 1) (part : IsDigits fraction) :
    ∃ s : Spelling, s.Writes (integer ++ '.' :: fraction)
      (decimalValue (integer ++ fraction) * 10 ^ (-(fraction.length : ℤ))) := by
  refine ⟨⟨integer, some fraction, none, whole, noZero, by simpa using part, by simp⟩, ?_, .inl rfl, ?_⟩
  · simp [Spelling.characters, Spelling.fractionCharacters, Spelling.powerCharacters]
  · simp [Spelling.value, Spelling.numeral, Numeral.value, Spelling.exponent?]

/-- A number that is written in full. -/
theorem exists_writes_positional {digits : List Char} (isDigits : IsDigits digits)
    (leading : digits.head? ≠ some '0') (power : Int) : ∃ s : Spelling,
      s.Writes (Double.positional digits power) (decimalValue digits * 10 ^ (power + 1 - digits.length)) := by
  unfold Double.positional
  split
  · rename_i small
    have zeros : IsDigits (List.replicate (-power - 1).toNat '0' ++ digits) :=
      ⟨by simp [isDigits.nonempty], fun c member =>
        (List.mem_append.mp member).elim isDigit_of_mem_zeros (isDigits.digits c)⟩
    obtain ⟨s, characters, marked, value⟩ := exists_writes_point isDigits_zero (.inr rfl) zeros
    refine ⟨s, by simp [characters], marked, ?_⟩
    have same : decimalValue (['0'] ++ (List.replicate (-power - 1).toNat '0' ++ digits)) = decimalValue digits := by
      simp [decimalValue_cons, decimalValue_append, decimalValue_zeros]
    rw [value, same, List.length_append, List.length_replicate]
    congr 2
    omega
  · rename_i large
    obtain ⟨places, rfl⟩ := Int.eq_ofNat_of_zero_le (Int.not_lt.mp large)
    rw [Int.toNat_natCast]
    have nonempty := isDigits.nonempty
    have before : IsDigits (digits.take (places + 1) ++ List.replicate (places + 1 - digits.length) '0') := by
      refine IsDigits.append ⟨by simp [nonempty], fun c member => ?_⟩ fun c => isDigit_of_mem_zeros
      exact isDigits.digits c (List.mem_of_mem_take member)
    have noZero : (digits.take (places + 1) ++ List.replicate (places + 1 - digits.length) '0').head? ≠ some '0' := by
      cases digits with
      | nil => exact absurd rfl nonempty
      | cons first others => simpa using leading
    by_cases short : digits.length ≤ places + 1
    · -- zeros fill the places up to the point
      obtain ⟨s, characters, marked, value⟩ := exists_writes_point before (.inl noZero) isDigits_zero
      have none : digits.drop (places + 1) = [] := List.drop_eq_nil_of_le short
      refine ⟨s, by simp [characters, none], marked, ?_⟩
      obtain ⟨missing, filled⟩ := Nat.exists_eq_add_of_le short
      have zero : decimalValue ['0'] = 0 := rfl
      rw [value, List.take_of_length_le short, decimalValue_append, decimalValue_append, decimalValue_zeros, zero]
      have exponent : ((places : ℤ) + 1 - digits.length) = missing := by omega
      rw [exponent, filled, Nat.add_sub_cancel_left]
      simp
    · -- the point is among the digits
      have long := Nat.not_le.mp short
      have after : IsDigits (digits.drop (places + 1)) :=
        ⟨by simpa using long, fun c member => isDigits.digits c (List.mem_of_mem_drop member)⟩
      have noZeros : places + 1 - digits.length = 0 := Nat.sub_eq_zero_of_le long.le
      obtain ⟨s, characters, marked, value⟩ := exists_writes_point before (.inl noZero) after
      refine ⟨s, by simp [characters, after.nonempty], marked, ?_⟩
      rw [value, noZeros, List.replicate_zero, List.append_nil, List.take_append_drop, List.length_drop]
      congr 2
      omega

/-- A number that is written with a power of ten. -/
theorem exists_writes_scientific {digits : List Char} (isDigits : IsDigits digits) (power : Int) :
    ∃ s : Spelling, s.Writes (Double.scientific Double.layout digits power)
      (decimalValue digits * 10 ^ (power + 1 - digits.length)) := by
  cases given : digits with
  | nil => exact absurd given isDigits.nonempty
  | cons first others =>
    have inDigits : ∀ c ∈ first :: others, c.isDigit = true := given ▸ isDigits.digits
    have places := isDigits_toDigits power.natAbs
    have width : 1 - (Nat.toDigits 10 power.natAbs).length = 0 := Nat.sub_eq_zero_of_le Nat.length_toDigits_pos
    obtain ⟨sign, signed, here⟩ : ∃ sign, (sign = '+' ∨ sign = '-') ∧
        (if power < 0 then '-' else '+') = sign := by
      by_cases negative : power < 0 <;> simp [negative]
    have exponent : (if sign = '-' then -(power.natAbs : ℤ) else power.natAbs) = power := by
      by_cases negative : power < 0
      · have minus : sign = '-' := by rw [← here, if_pos negative]
        rw [if_pos minus]
        omega
      · have plus : sign ≠ '-' := by
          rw [← here, if_neg negative]
          decide
        rw [if_neg plus]
        omega
    have single : IsDigits [first] := ⟨by simp, by simpa using inDigits first⟩
    have written : ∀ written ∈ some (sign, Nat.toDigits 10 power.natAbs),
        (written.1 = '+' ∨ written.1 = '-') ∧ IsDigits written.2 := by
      intro _ same
      cases same
      exact ⟨signed, places⟩
    cases others with
    | nil =>
      refine ⟨⟨[first], none, some _, single, .inr rfl, by simp, written⟩, ?_, .inr rfl, ?_⟩
      · simp [Spelling.characters, Spelling.fractionCharacters, Spelling.powerCharacters, Double.scientific,
          Double.layout, width, here]
      · simp only [Spelling.value, Spelling.numeral, Numeral.value, Spelling.exponent?, Option.map_some,
          Option.getD_some, decimalValue_toDigits, exponent]
        simp
    | cons second more =>
      have fraction : ∀ digits ∈ some (second :: more), IsDigits digits := by
        intro _ same
        cases same
        exact ⟨by simp, fun c member => inDigits c (List.mem_cons_of_mem _ member)⟩
      refine ⟨⟨[first], some _, some _, single, .inr rfl, fraction, written⟩, ?_, .inl rfl, ?_⟩
      · simp [Spelling.characters, Spelling.fractionCharacters, Spelling.powerCharacters, Double.scientific,
          Double.layout, width, here]
      · simp only [Spelling.value, Spelling.numeral, Numeral.value, Spelling.exponent?, Option.map_some,
          Option.getD_some, decimalValue_toDigits, exponent, List.singleton_append, List.length_cons]
        congr 2
        omega

/-- What is laid out is written as the multiple of the power of ten. -/
theorem exists_writes_layOut {multiple : Nat} (nonzero : multiple ≠ 0) (last : Int) :
    ∃ s : Spelling, s.Writes (Double.layOut Double.layout multiple last) (multiple * 10 ^ last) := by
  obtain ⟨isDigits, leading⟩ := significant_spec nonzero
  obtain ⟨shorter, whole⟩ := significant_value multiple
  have value : (multiple * 10 ^ last : ℚ) = decimalValue (Double.significant multiple) *
      10 ^ (last + (Nat.toDigits 10 multiple).length - 1 + 1 - (Double.significant multiple).length) := by
    obtain ⟨zeros, total⟩ := Nat.exists_eq_add_of_le shorter
    rw [total, Nat.add_sub_cancel_left] at whole
    have exponent : last + ((Nat.toDigits 10 multiple).length : ℤ) - 1 + 1 -
        (Double.significant multiple).length = zeros + last := by omega
    have cast : (multiple : ℚ) = decimalValue (Double.significant multiple) * 10 ^ zeros := by
      exact_mod_cast whole
    rw [exponent, zpow_add₀ (by norm_num), zpow_natCast, ← mul_assoc, ← cast]
  rw [value]
  simp only [Double.layOut]
  split
  · exact exists_writes_positional isDigits leading _
  · exact exists_writes_scientific isDigits _

/-- A double other than zero is written as a number that rounds to it. -/
theorem exists_writes_double {d : Double} (nonzero : d.mantissa ≠ 0) : ∃ s : Spelling,
    d.characters = (if d.negative then ['-'] else []) ++ s.characters ∧
      (s.fraction.isSome = true ∨ s.power.isSome = true) ∧ d.Covers s.value := by
  obtain ⟨s, characters, marked, value⟩ := exists_writes_layOut (Double.shortest_ne_zero nonzero) d.shortest.2
  have notZero : ¬ d.isZero = true := by simpa [Double.isZero] using nonzero
  refine ⟨s, ?_, marked, ?_⟩
  · rw [Double.characters, if_neg notZero, characters]
  · rw [value]
    exact d.shortest_covers

/-- The spelling of nothing, with a point. -/
def Spelling.zero : Spelling where
  integer := ['0']
  fraction := some ['0']
  integerDigits := isDigits_zero
  noZero := .inr rfl
  fractionDigits := by
    rintro _ ⟨⟩
    exact isDigits_zero
  powerDigits := by simp

theorem characters_of_isZero {d : Double} (zero : d.isZero = true) :
    d.characters = (if d.negative then ['-'] else []) ++ Spelling.zero.characters := by
  simp only [Double.characters, zero, if_true]
  rfl

theorem isSpelled_double (d : Double) : IsSpelled d.characters := by
  by_cases zero : d.isZero = true
  · exact ⟨d.negative, .zero, characters_of_isZero zero⟩
  · have nonzero : d.mantissa ≠ 0 := by simpa [Double.isZero] using zero
    obtain ⟨s, characters, _⟩ := exists_writes_double nonzero
    exact ⟨d.negative, s, characters⟩

theorem isSpelled_text (n : Number) : IsSpelled n.text.toList := by
  cases n with
  | whole n => exact isSpelled_whole n
  | double d => simpa [Number.text, Double.text] using isSpelled_double d

theorem text_head (n : Number) :
    ∃ c others, n.text.toList = c :: others ∧ (c = '-' ∨ c.isDigit = true) := by
  obtain ⟨negative, s, text⟩ := isSpelled_text n
  cases negative with
  | true => exact ⟨'-', s.characters, text, .inl rfl⟩
  | false =>
    cases integer : s.integer with
    | nil => exact absurd integer s.integerDigits.nonempty
    | cons c others =>
      have digit : c.isDigit = true := s.integerDigits.digits c (by simp [integer])
      exact ⟨c, _, by rw [text, Spelling.characters, integer]; rfl, .inr digit⟩

/-! ### Reading the text of a number -/

/-- What a number becomes when its text is read; nothing if that is too great. -/
def Number.reread (n : Number) : Option Number :=
  match Json.Token.next? n.text.toList with
  | some (.number value, _) => value
  | _ => none

theorem next?_of_isDigit {c : Char} (digit : c.isDigit = true) (rest : List Char) :
    Json.Token.next? (c :: rest) = Json.Token.scanNumber false (c :: rest) := by
  rw [Json.Token.next?.eq_def]
  split <;> simp_all

theorem next?_spelled (s : Spelling) (negative : Bool) {rest : List Char} (ends : Ends rest) :
    Json.Token.next? ((if negative then ['-'] else []) ++ s.characters ++ rest) =
      some (.number (Number.ofNumeral? (s.numeral negative)), rest) := by
  have scanned := s.scanNumber negative ends
  cases negative with
  | true => exact scanned
  | false =>
    cases integer : s.integer with
    | nil => exact absurd integer s.integerDigits.nonempty
    | cons c others =>
      have digit : c.isDigit = true := s.integerDigits.digits c (by simp [integer])
      have whole : s.characters ++ rest = c :: (others ++ (s.fractionCharacters ++ s.powerCharacters) ++ rest) := by
        simp [Spelling.characters, integer]
      rw [whole] at scanned
      simp only [Bool.false_eq_true, if_false, List.nil_append, whole, next?_of_isDigit digit]
      exact scanned

/-- The text of a number is one token, whatever comes behind it. -/
theorem next?_text (n : Number) {rest : List Char} (ends : Ends rest) :
    Json.Token.next? (n.text.toList ++ rest) = some (.number n.reread, rest) := by
  obtain ⟨negative, s, text⟩ := isSpelled_text n
  have nothing : Ends [] := by simp [Ends]
  have alone := next?_spelled s negative nothing
  rw [List.append_nil, ← text] at alone
  have same : n.reread = Number.ofNumeral? (s.numeral negative) := by
    simp only [Number.reread, alone]
  rw [text, next?_spelled s negative ends, same]

end Dossier
