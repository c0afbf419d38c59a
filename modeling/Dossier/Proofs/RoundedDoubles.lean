import Dossier.Proofs.DecimalDigits
import Dossier.Number.Shortest
import Mathlib.Data.Rat.Cast.Order
import Mathlib.Algebra.Order.Field.Basic
import Mathlib.Algebra.Order.Field.Power
import Mathlib.Tactic.Linarith
import Mathlib.Tactic.NormNum
import Mathlib.Tactic.Positivity

/-! The numbers that round to a double: those between the two ends of its interval. -/
namespace Dossier.Double

/-! ### Quotients -/

/-- A quotient rounds to a number that it is at most a half away from, and to an odd one only if it
is closer. -/
theorem roundDiv_eq {numerator denominator m : Nat} (positive : 0 < denominator)
    (low : 2 * (m * denominator) ≤ 2 * numerator + denominator)
    (high : 2 * numerator ≤ 2 * (m * denominator) + denominator)
    (odd : m % 2 = 1 → 2 * (m * denominator) ≠ 2 * numerator + denominator ∧
      2 * numerator ≠ 2 * (m * denominator) + denominator) :
    roundDiv numerator denominator = m := by
  have division := Nat.div_add_mod numerator denominator
  have rest := Nat.mod_lt numerator positive
  rw [roundDiv]
  generalize numerator / denominator = quotient at *
  generalize numerator % denominator = remainder at *
  rw [Nat.mul_comm] at division
  have upTo : quotient ≤ m := by
    by_contra more
    have next := Nat.mul_le_mul_right denominator (Nat.succ_le_of_lt (Nat.not_le.mp more))
    rw [Nat.succ_mul] at next
    omega
  have from' : m ≤ quotient + 1 := by
    by_contra more
    have next := Nat.mul_le_mul_right denominator (Nat.succ_le_of_lt (Nat.not_le.mp more))
    rw [Nat.succ_mul, Nat.succ_mul] at next
    omega
  rcases Nat.eq_or_lt_of_le upTo with same | less
  · subst same
    split_ifs <;> omega
  · obtain rfl : m = quotient + 1 := by omega
    have next : (quotient + 1) * denominator = quotient * denominator + denominator := Nat.succ_mul ..
    split_ifs <;> omega

/-- The shift that leaves 53 binary digits of a number that has them. -/
theorem log2_sub_eq {n shift : Nat} (least : shift = 0 ∨ 2 ^ (52 + shift) ≤ n) (most : n < 2 ^ (53 + shift)) :
    n.log2 - 52 = shift := by
  rcases least with rfl | least
  · by_cases zero : n = 0
    · simp [zero]
    · have below := (Nat.log2_lt zero).mpr most
      omega
  · have nonzero : n ≠ 0 := by
      rintro rfl
      exact absurd least (Nat.not_le.mpr (Nat.two_pow_pos _))
    have exact : n.log2 = 52 + shift := by
      rw [Nat.log2_eq_iff nonzero]
      exact ⟨least, by rwa [Nat.add_right_comm]⟩
    omega

/-! ### Fractions of units -/

section
variable {d : Double} {numerator denominator : Nat}

theorem ofUnits?_of_rounded {negative : Bool} (shift : (numerator / denominator).log2 - 52 = d.shift)
    (rounded : roundDiv numerator (denominator * 2 ^ d.shift) = d.mantissa) :
    ofUnits? negative numerator denominator = some { d with negative } := by
  have bounded : d.mantissa ≠ 0x20000000000000 := Nat.ne_of_lt d.canonical.1
  simp only [ofUnits?, shift, Nat.pow_eq, rounded, if_neg bounded]
  exact dif_pos d.canonical

/-- Just below a power of two the mantissa is rounded up to one that is too long by a digit. -/
theorem ofUnits?_of_carried {negative : Bool} {shift : Nat} (own : d.shift = shift + 1)
    (power : d.mantissa = 0x10000000000000) (log : (numerator / denominator).log2 - 52 = shift)
    (rounded : roundDiv numerator (denominator * 2 ^ shift) = 0x20000000000000) :
    ofUnits? negative numerator denominator = some { d with negative } := by
  obtain ⟨sign, mantissa, _, canonical⟩ := d
  obtain rfl : _ = shift + 1 := own
  obtain rfl : mantissa = 0x10000000000000 := power
  simp only [ofUnits?, log, Nat.pow_eq, rounded, if_true]
  exact dif_pos canonical

/-! The ends of the interval lie half the distance to the next double away, and below a power of two
half of that. -/

theorem quarters_eq (d : Double) : d.quarters = 4 * (d.mantissa * 2 ^ d.shift) := rfl

theorem upperEnd_eq (d : Double) : d.upperEnd = 4 * (d.mantissa * 2 ^ d.shift) + 2 * 2 ^ d.shift := rfl

theorem quarters_le_lowerEnd (d : Double) : 4 * (d.mantissa * 2 ^ d.shift) ≤ d.lowerEnd + 2 * 2 ^ d.shift := by
  rw [lowerEnd, quarters_eq]
  simp only [Nat.pow_eq]
  split <;> omega

theorem quarters_le_lowerEnd_of_power (power : d.mantissa = 0x10000000000000) (shifted : 0 < d.shift) :
    4 * (d.mantissa * 2 ^ d.shift) ≤ d.lowerEnd + 2 ^ d.shift := by
  rw [lowerEnd, quarters_eq, if_pos ⟨power, shifted⟩]
  simp only [Nat.pow_eq]
  omega

theorem lowerEnd_of_odd (odd : d.mantissa % 2 = 1) :
    d.lowerEnd + 2 * 2 ^ d.shift = 4 * (d.mantissa * 2 ^ d.shift) := by
  have noPower : ¬ (d.mantissa = 0x10000000000000 ∧ 0 < d.shift) := by omega
  have one : 1 * 2 ^ d.shift ≤ d.mantissa * 2 ^ d.shift := Nat.mul_le_mul_right _ (by omega)
  rw [lowerEnd, quarters_eq, if_neg noPower]
  simp only [Nat.pow_eq]
  omega

/-- A fraction is at most half of the last binary digit of a double away from it, and closer if that
digit is odd. -/
structure Near (d : Double) (numerator digit : Nat) : Prop where
  above : 4 * numerator ≤ 4 * (d.mantissa * digit) + 2 * digit
  below : 4 * (d.mantissa * digit) ≤ 4 * numerator + 2 * digit
  odd : d.mantissa % 2 = 1 → 2 * (d.mantissa * digit) ≠ 2 * numerator + digit ∧
    2 * numerator ≠ 2 * (d.mantissa * digit) + digit

/-- A fraction within the interval of a double is near it. -/
theorem near_of_ends (low : d.lowerEnd * denominator ≤ 4 * numerator)
    (high : 4 * numerator ≤ d.upperEnd * denominator)
    (odd : d.mantissa % 2 = 1 → d.lowerEnd * denominator ≠ 4 * numerator ∧
      4 * numerator ≠ d.upperEnd * denominator) : d.Near numerator (denominator * 2 ^ d.shift) := by
  obtain ⟨digit, own⟩ : ∃ digit, digit = denominator * 2 ^ d.shift := ⟨_, rfl⟩
  have upper : d.upperEnd * denominator = 4 * (d.mantissa * digit) + 2 * digit := by
    rw [upperEnd_eq, own]
    ring
  rw [← own]
  refine ⟨upper ▸ high, ?_, fun isOdd => ?_⟩
  · calc 4 * (d.mantissa * digit)
      _ = 4 * (d.mantissa * 2 ^ d.shift) * denominator := by rw [own]; ring
      _ ≤ (d.lowerEnd + 2 * 2 ^ d.shift) * denominator := Nat.mul_le_mul_right _ d.quarters_le_lowerEnd
      _ = d.lowerEnd * denominator + 2 * digit := by rw [own]; ring
      _ ≤ 4 * numerator + 2 * digit := Nat.add_le_add_right low _
  · obtain ⟨notLow, notHigh⟩ := odd isOdd
    have lower : d.lowerEnd * denominator + 2 * digit = 4 * (d.mantissa * digit) := by
      calc d.lowerEnd * denominator + 2 * digit
        _ = (d.lowerEnd + 2 * 2 ^ d.shift) * denominator := by rw [own]; ring
        _ = 4 * (d.mantissa * digit) := by rw [lowerEnd_of_odd isOdd, own]; ring
    omega

variable (positive : 0 < denominator)
include positive

/-- The fraction has as many binary digits as the double. -/
theorem ofUnits?_of_long (near : d.Near numerator (denominator * 2 ^ d.shift))
    (long : d.shift = 0 ∨ 2 ^ (52 + d.shift) ≤ numerator / denominator) (negative : Bool) :
    ofUnits? negative numerator denominator = some { d with negative } := by
  obtain ⟨digit, own⟩ : ∃ digit, digit = denominator * 2 ^ d.shift := ⟨_, rfl⟩
  have digitPos : 0 < digit := own ▸ Nat.mul_pos positive (Nat.two_pow_pos _)
  have longest : d.mantissa * digit + digit ≤ 2 ^ 53 * digit := by
    rw [← Nat.succ_mul]
    exact Nat.mul_le_mul_right digit d.canonical.1
  rw [← own] at near
  obtain ⟨above, below, odd⟩ := near
  have most : numerator / denominator < 2 ^ (53 + d.shift) := by
    refine Nat.div_lt_of_lt_mul ?_
    calc numerator
      _ < 2 ^ 53 * digit := by omega
      _ = denominator * 2 ^ (53 + d.shift) := by rw [own, Nat.pow_add]; ring
  refine ofUnits?_of_rounded (log2_sub_eq long most) ?_
  rw [← own]
  exact roundDiv_eq digitPos (by omega) (by omega) odd

/-- The fraction has one binary digit less, so that the double is a power of two. -/
theorem ofUnits?_of_short (near : d.Near numerator (denominator * 2 ^ d.shift))
    (low : d.lowerEnd * denominator ≤ 4 * numerator) (shifted : d.shift ≠ 0)
    (short : numerator / denominator < 2 ^ (52 + d.shift)) (negative : Bool) :
    ofUnits? negative numerator denominator = some { d with negative } := by
  obtain ⟨shift, next⟩ := Nat.exists_eq_succ_of_ne_zero shifted
  obtain ⟨digit, own⟩ : ∃ digit, digit = denominator * 2 ^ d.shift := ⟨_, rfl⟩
  obtain ⟨half, twice⟩ : ∃ half, half = denominator * 2 ^ shift := ⟨_, rfl⟩
  have halfPos : 0 < half := twice ▸ Nat.mul_pos positive (Nat.two_pow_pos _)
  have double : digit = 2 * half := by
    rw [own, next, twice, Nat.pow_succ]
    ring
  rw [← own] at near
  have below := near.below
  have fewer : numerator < 2 ^ 52 * digit := by
    calc numerator
      _ < 2 ^ (52 + d.shift) * denominator := (Nat.div_lt_iff_lt_mul positive).mp short
      _ = 2 ^ 52 * digit := by rw [own, Nat.pow_add]; ring
  have power : d.mantissa = 2 ^ 52 := by
    have least : 2 ^ 52 ≤ d.mantissa := d.canonical.2.2.resolve_right shifted
    by_contra other
    have more : (2 ^ 52 + 1) * digit ≤ d.mantissa * digit := Nat.mul_le_mul_right digit (by omega)
    rw [Nat.succ_mul] at more
    omega
  have closer : 4 * (2 ^ 52 * digit) ≤ 4 * numerator + digit := by
    have ends := quarters_le_lowerEnd_of_power power (Nat.pos_of_ne_zero shifted)
    calc 4 * (2 ^ 52 * digit)
      _ = 4 * (d.mantissa * 2 ^ d.shift) * denominator := by rw [own, power]; ring
      _ ≤ (d.lowerEnd + 2 ^ d.shift) * denominator := Nat.mul_le_mul_right _ ends
      _ = d.lowerEnd * denominator + digit := by rw [own]; ring
      _ ≤ 4 * numerator + digit := Nat.add_le_add_right low _
  have bits : (numerator / denominator).log2 - 52 = shift := by
    refine log2_sub_eq (.inr ((Nat.le_div_iff_mul_le positive).mpr ?_)) (Nat.div_lt_of_lt_mul ?_)
    · calc 2 ^ (52 + shift) * denominator
        _ = 2 ^ 52 * half := by rw [twice, Nat.pow_add]; ring
        _ ≤ numerator := by omega
    · calc numerator
        _ < 2 ^ 53 * half := by omega
        _ = denominator * 2 ^ (53 + shift) := by rw [twice, Nat.pow_add]; ring
  refine ofUnits?_of_carried next power bits ?_
  rw [← twice]
  exact roundDiv_eq halfPos (by omega) (by omega) (by omega)

/-- A fraction of units within the interval of a double rounds to it. -/
theorem ofUnits?_of_ends (low : d.lowerEnd * denominator ≤ 4 * numerator)
    (high : 4 * numerator ≤ d.upperEnd * denominator)
    (odd : d.mantissa % 2 = 1 → d.lowerEnd * denominator ≠ 4 * numerator ∧
      4 * numerator ≠ d.upperEnd * denominator) (negative : Bool) :
    ofUnits? negative numerator denominator = some { d with negative } := by
  have near := near_of_ends low high odd
  by_cases long : d.shift = 0 ∨ 2 ^ (52 + d.shift) ≤ numerator / denominator
  · exact ofUnits?_of_long positive near long negative
  · obtain ⟨shifted, short⟩ := not_or.mp long
    exact ofUnits?_of_short positive near low shifted (Nat.not_le.mp short) negative

end

/-! ### Numbers -/

/-- The numbers that round to a double, which with an even mantissa are also the ends of its interval. -/
def Covers (d : Double) (x : ℚ) : Prop :=
  if d.mantissa % 2 = 0 then d.lowerEnd ≤ x * (4 * unitsPerOne) ∧ x * (4 * unitsPerOne) ≤ d.upperEnd
  else d.lowerEnd < x * (4 * unitsPerOne) ∧ x * (4 * unitsPerOne) < d.upperEnd

theorem Covers.ends {d : Double} {x : ℚ} (covers : d.Covers x) :
    d.lowerEnd ≤ x * (4 * unitsPerOne) ∧ x * (4 * unitsPerOne) ≤ d.upperEnd := by
  unfold Covers at covers
  split at covers
  · exact covers
  · exact ⟨covers.1.le, covers.2.le⟩

theorem Covers.odd {d : Double} {x : ℚ} (covers : d.Covers x) (odd : d.mantissa % 2 = 1) :
    (d.lowerEnd : ℚ) ≠ x * (4 * unitsPerOne) ∧ x * (4 * unitsPerOne) ≠ d.upperEnd := by
  rw [Covers, if_neg (by omega)] at covers
  exact ⟨covers.1.ne, covers.2.ne⟩

/-- A fraction that a double covers rounds to it. -/
theorem ofRatio?_of_covers {d : Double} {numerator denominator : Nat} (positive : 0 < denominator)
    (covers : d.Covers (numerator / denominator)) (negative : Bool) :
    ofRatio? negative numerator denominator = some { d with negative } := by
  have nonzero : (0 : ℚ) < denominator := by exact_mod_cast positive
  have point : (numerator / denominator : ℚ) * (4 * unitsPerOne) =
      ((4 * (numerator * unitsPerOne) : Nat) : ℚ) / denominator := by
    push_cast
    ring
  obtain ⟨low, high⟩ := covers.ends
  rw [point, le_div_iff₀ nonzero] at low
  rw [point, div_le_iff₀ nonzero] at high
  refine ofUnits?_of_ends positive (by exact_mod_cast low) (by exact_mod_cast high) (fun odd => ?_) negative
  obtain ⟨notLow, notHigh⟩ := covers.odd odd
  rw [point, ne_eq, eq_div_iff nonzero.ne'] at notLow
  rw [point, ne_eq, div_eq_iff nonzero.ne'] at notHigh
  exact ⟨by exact_mod_cast notLow, by exact_mod_cast notHigh⟩

/-! ### The range of doubles -/

theorem unitsPerOne_pos : 0 < unitsPerOne := by decide +kernel

theorem lowerEnd_pos {d : Double} (nonzero : d.mantissa ≠ 0) : 0 < d.lowerEnd := by
  have power : 0 < 2 ^ d.shift := Nat.two_pow_pos _
  have least : 2 ^ d.shift ≤ d.mantissa * 2 ^ d.shift := Nat.le_mul_of_pos_left _ (Nat.pos_of_ne_zero nonzero)
  rw [lowerEnd, quarters_eq]
  simp only [Nat.pow_eq]
  split <;> omega

theorem Covers.pos {d : Double} {x : ℚ} (covers : d.Covers x) (nonzero : d.mantissa ≠ 0) : 0 < x := by
  have low : (0 : ℚ) < d.lowerEnd := by exact_mod_cast lowerEnd_pos nonzero
  have units : (0 : ℚ) < 4 * unitsPerOne := by exact_mod_cast Nat.mul_pos (by decide) unitsPerOne_pos
  exact (mul_pos_iff_of_pos_right units).mp (low.trans_le covers.ends.1)

theorem Covers.lt {d : Double} {x : ℚ} (covers : d.Covers x) : x < 10 ^ 400 := by
  have units : (0 : ℚ) < 4 * unitsPerOne := by exact_mod_cast Nat.mul_pos (by decide) unitsPerOne_pos
  obtain ⟨short, shift, -⟩ := d.canonical
  have greatest : d.upperEnd < 2 ^ (55 + d.shift) := by
    calc d.upperEnd
      _ = (4 * d.mantissa + 2) * 2 ^ d.shift := by rw [upperEnd_eq]; ring
      _ < 2 ^ 55 * 2 ^ d.shift := Nat.mul_lt_mul_of_pos_right (by omega) (Nat.two_pow_pos _)
      _ = 2 ^ (55 + d.shift) := (Nat.pow_add ..).symm
  have range : 2 ^ (55 + d.shift) ≤ 10 ^ 400 * (4 * unitsPerOne) := by
    obtain ⟨exponent, exact⟩ : ∃ exponent, exponent = 2100 := ⟨_, rfl⟩
    have most : 2 ^ exponent ≤ 10 ^ 400 * (4 * unitsPerOne) := by
      rw [exact]
      decide +kernel
    exact Nat.le_trans (Nat.pow_le_pow_right (by decide) (by omega)) most
  have bound : (d.upperEnd : ℚ) < 10 ^ 400 * (4 * unitsPerOne) := by exact_mod_cast greatest.trans_le range
  exact (mul_lt_mul_iff_left₀ units).mp (covers.ends.2.trans_lt bound)

theorem Covers.gt {d : Double} {x : ℚ} (covers : d.Covers x) (nonzero : d.mantissa ≠ 0) :
    (10 : ℚ) ^ (-400 : ℤ) < x := by
  have units : (0 : ℚ) < 4 * unitsPerOne := by exact_mod_cast Nat.mul_pos (by decide) unitsPerOne_pos
  have least : (1 : ℚ) ≤ d.lowerEnd := by exact_mod_cast lowerEnd_pos nonzero
  have range : 4 * unitsPerOne < 10 ^ 400 := by decide +kernel
  have bound : (4 * unitsPerOne : ℚ) < 10 ^ 400 := by exact_mod_cast range
  have one : (1 : ℚ) ≤ x * (4 * unitsPerOne) := least.trans covers.ends.1
  have positive := covers.pos nonzero
  have scaled : 1 < x * 10 ^ 400 := one.trans_lt ((mul_lt_mul_iff_right₀ positive).mpr bound)
  have tens : (0 : ℚ) < 10 ^ 400 := by positivity
  rw [zpow_neg, inv_lt_iff_one_lt_mul₀ (by positivity)]
  exact_mod_cast scaled

end Dossier.Double

/-! ### Numerals -/

namespace Dossier.Numeral

/-- The number that a numeral denotes, without its sign. -/
def value (n : Numeral) : ℚ := decimalValue (n.integer ++ n.fraction) * 10 ^ (n.power - n.fraction.length)

/-- A numeral for a number that rounds to a double is read as that. -/
theorem nearest?_of_covers {n : Numeral} {d : Double} (digits : ∀ c ∈ n.integer ++ n.fraction, c.isDigit = true)
    (nonzero : d.mantissa ≠ 0) (covers : d.Covers n.value) :
    n.nearest? = some { d with negative := n.negative } := by
  have positive := covers.pos nonzero
  have least := covers.gt nonzero
  have greatest := covers.lt
  have below := decimalValue_lt digits
  rw [value] at covers positive least greatest
  rw [nearest?]
  simp only [Nat.pow_eq]
  generalize decimalValue (n.integer ++ n.fraction) = significand at *
  generalize (n.integer ++ n.fraction).length = length at *
  generalize n.power - n.fraction.length = power at *
  have tens : (0 : ℚ) < 10 ^ power := by positivity
  have some' : significand ≠ 0 := by
    rintro rfl
    simp at positive
  have one : (1 : ℚ) ≤ significand := by exact_mod_cast Nat.pos_of_ne_zero some'
  have notGreat : ¬ 400 < power := by
    intro great
    have larger : (10 : ℚ) ^ (400 : ℤ) ≤ 10 ^ power := zpow_le_zpow_right₀ (by norm_num) great.le
    have reached : (10 : ℚ) ^ power ≤ significand * 10 ^ power := le_mul_of_one_le_left tens.le one
    exact absurd (larger.trans reached) (not_le.mpr (by exact_mod_cast greatest))
  have notSmall : ¬ power + length < -400 := by
    intro small
    have size : (significand : ℚ) < 10 ^ length := by exact_mod_cast below
    have reached : (significand : ℚ) * 10 ^ power < 10 ^ (length : ℤ) * 10 ^ power :=
      (mul_lt_mul_iff_left₀ tens).mpr (by exact_mod_cast size)
    rw [← zpow_add₀ (by norm_num)] at reached
    have smaller : (10 : ℚ) ^ ((length : ℤ) + power) ≤ 10 ^ (-400 : ℤ) :=
      zpow_le_zpow_right₀ (by norm_num) (by omega)
    exact absurd (reached.trans_le smaller) (not_lt.mpr least.le)
  rw [if_neg some', if_neg notGreat, if_neg notSmall]
  split
  · rename_i written
    obtain ⟨count, rfl⟩ := Int.eq_ofNat_of_zero_le written
    refine Double.ofRatio?_of_covers Nat.one_pos ?_ n.negative
    rw [zpow_natCast] at covers
    simpa using covers
  · rename_i written
    obtain ⟨count, rfl⟩ : ∃ count : Nat, power = -count := ⟨power.natAbs, by omega⟩
    refine Double.ofRatio?_of_covers (Nat.pow_pos (by decide)) ?_ n.negative
    rw [zpow_neg, zpow_natCast, ← div_eq_mul_inv] at covers
    simpa using covers

end Dossier.Numeral
