/-! Lowercase hexadecimal numerals. -/
namespace Dossier.Text

def hexDigits : List Char :=
  ['0', '1', '2', '3', '4', '5', '6', '7', '8', '9', 'a', 'b', 'c', 'd', 'e', 'f']

/-- The digit of the last hexadecimal place of a number. -/
def hexDigit (n : Nat) : Char := hexDigits.get ⟨n % 16, Nat.mod_lt _ (by decide)⟩

def isLowerHex (c : Char) : Bool := hexDigits.contains c

theorem isLowerHex_hexDigit (n : Nat) : isLowerHex (hexDigit n) = true := by
  unfold isLowerHex hexDigit
  exact List.contains_iff_mem.mpr (List.getElem_mem _)

/-- The last `width` hexadecimal places of a number, highest first. -/
def hexNumeral : (width : Nat) → Nat → List Char
  | 0, _ => []
  | width + 1, n => hexNumeral width (n / 16) ++ [hexDigit n]

theorem length_hexNumeral (width n : Nat) : (hexNumeral width n).length = width := by
  induction width generalizing n with
  | zero => rfl
  | succ width ih => simp [hexNumeral, ih]

theorem isLowerHex_of_mem_hexNumeral {width n : Nat} {c : Char} (member : c ∈ hexNumeral width n) :
    isLowerHex c = true := by
  induction width generalizing n with
  | zero => simp [hexNumeral] at member
  | succ width ih =>
    rcases List.mem_append.mp member with earlier | last
    · exact ih earlier
    · rw [List.mem_singleton.mp last]
      exact isLowerHex_hexDigit n

/-- The value of a hexadecimal digit of either case. -/
def hexValue? (c : Char) : Option Nat :=
  if '0' ≤ c ∧ c ≤ '9' then some (c.toNat - 48)
  else if 'a' ≤ c ∧ c ≤ 'f' then some (c.toNat - 87)
  else if 'A' ≤ c ∧ c ≤ 'F' then some (c.toNat - 55)
  else none

end Dossier.Text
