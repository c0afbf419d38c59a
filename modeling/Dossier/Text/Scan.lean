/-! Scans: what stands at the head of a text is taken off, and the rest is kept. -/
namespace Dossier.Text

/-- A value found at the head of some characters, with the characters left. -/
abbrev Scan (α : Type) := List Char → Option (α × List Char)

/-- Exactly `width` decimal digits, appended to the number read so far. -/
def scanNumber : (width : Nat) → (value : Nat) → Scan Nat
  | 0, value, rest => some (value, rest)
  | width + 1, value, c :: rest =>
    if c.isDigit then scanNumber width (value * 10 + (c.toNat - 48)) rest else none
  | _ + 1, _, [] => none

/-- One of some characters. -/
def scanMark (allowed : List Char) : Scan Char
  | c :: rest => if allowed.contains c then some (c, rest) else none
  | [] => none

end Dossier.Text
