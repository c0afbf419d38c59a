import Dossier.Number.Numeral
import Mathlib.Data.Nat.Digits.Defs
import Mathlib.Tactic.Ring

/-! What decimal digits denote. -/
namespace Dossier

theorem digitChar_of_isDigit {c : Char} (digit : c.isDigit = true) :
    c.toNat - 48 < 10 ∧ (c.toNat - 48).digitChar = c := by
  rw [Char.isDigit, Bool.and_eq_true, decide_eq_true_iff, decide_eq_true_iff] at digit
  have low : 48 ≤ c.toNat := UInt32.le_iff_toNat_le.mp digit.1
  have high : c.toNat ≤ 57 := UInt32.le_iff_toNat_le.mp digit.2
  have small : c.toNat - 48 < 10 := by omega
  refine ⟨small, Char.toNat_inj.mp ?_⟩
  rw [Nat.toNat_digitChar_of_lt_ten small]
  omega

theorem decimalValue_eq (digits : List Char) : decimalValue digits = Nat.ofDigitChars 10 digits 0 := by
  rw [decimalValue, Nat.ofDigitChars]
  congr 1
  funext value c
  exact congrArg (· + _) (Nat.mul_comm _ _)

theorem decimalValue_append (digits more : List Char) :
    decimalValue (digits ++ more) = decimalValue digits * 10 ^ more.length + decimalValue more := by
  simp only [decimalValue_eq]
  rw [Nat.ofDigitChars_append, Nat.ofDigitChars_eq_ofDigitChars_zero, Nat.mul_comm]

theorem decimalValue_cons (c : Char) (digits : List Char) :
    decimalValue (c :: digits) = (c.toNat - 48) * 10 ^ digits.length + decimalValue digits := by
  rw [← List.singleton_append, decimalValue_append]
  simp [decimalValue]

theorem decimalValue_lt {digits : List Char} (all : ∀ c ∈ digits, c.isDigit = true) :
    decimalValue digits < 10 ^ digits.length := by
  induction digits with
  | nil => decide
  | cons c rest ih =>
    have later := ih fun d member => all d (List.mem_cons_of_mem _ member)
    obtain ⟨small, -⟩ := digitChar_of_isDigit (all c List.mem_cons_self)
    have digit : c.toNat - 48 ≤ 9 := Nat.le_of_lt_succ small
    rw [decimalValue_cons, List.length_cons]
    calc (c.toNat - 48) * 10 ^ rest.length + decimalValue rest
      _ < 9 * 10 ^ rest.length + 10 ^ rest.length := Nat.add_lt_add_of_le_of_lt (Nat.mul_le_mul_right _ digit) later
      _ = 10 ^ (rest.length + 1) := by ring

theorem decimalValue_zeros (count : Nat) : decimalValue (List.replicate count '0') = 0 := by
  induction count with
  | zero => rfl
  | succ count ih => rw [List.replicate_succ, decimalValue_cons, ih]; simp

theorem decimalValue_toDigits (n : Nat) : decimalValue (Nat.toDigits 10 n) = n := by
  rw [decimalValue_eq]
  exact Nat.ofDigitChars_ten_toDigits

end Dossier
