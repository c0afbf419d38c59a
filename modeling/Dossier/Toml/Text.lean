import Dossier.Text.Hex
import Dossier.Text.Scan

/-! Strings of TOML texts. A string in double quotes has escapes, one in single
quotes has none; in triple quotes either kind may go over many lines. -/
namespace Dossier.Toml
open Text

/-- A blank within a line. -/
def isBlank (c : Char) : Bool := c == ' ' || c == '\t'

/-- Of the control characters only the tab may stand in strings and comments. -/
def isPlain (c : Char) : Bool := c == '\t' || (0x20 ≤ c.toNat && c.toNat != 0x7f)

/-- What follows the end of a line, if the line ends here. -/
def lineEnd? : List Char → Option (List Char)
  | '\n' :: rest => some rest
  | '\r' :: '\n' :: rest => some rest
  | _ => none

/-- What follows all blanks and line ends. -/
def skipSpace : List Char → List Char
  | '\r' :: '\n' :: rest => skipSpace rest
  | c :: rest => if isBlank c || c == '\n' then skipSpace rest else c :: rest
  | [] => []

def escapes : List (Char × Char) :=
  [('b', '\x08'), ('t', '\t'), ('n', '\n'), ('f', '\x0c'), ('r', '\r'), ('"', '"'), ('\\', '\\')]

/-- The character of a code in `width` hexadecimal digits. -/
def scanCode (width : Nat) : Scan Char := fun characters => do
  let digits ← (characters.take width).mapM hexValue?
  let code := digits.foldl (fun code digit => code * 16 + digit) 0
  guard (digits.length = width ∧ code.isValidChar)
  return (Char.ofNat code, characters.drop width)

/-- The character that an escape stands for, after its backslash. -/
def scanEscape : Scan Char
  | 'u' :: rest => scanCode 4 rest
  | 'U' :: rest => scanCode 8 rest
  | c :: rest => (escapes.lookup c).map ((·, rest))
  | [] => none

/-- The rest of a string on one line, after the opening quote. Every step takes at
least one character, so a bound of their number is never reached. -/
def scanShort (quote : Char) : (bound : Nat) → Scan (List Char)
  | 0, _ => none
  | _, [] => none
  | bound + 1, c :: rest =>
    if c = quote then some ([], rest)
    else do
      let (c, rest) ←
        if c = '\\' ∧ quote = '"' then scanEscape rest
        else if isPlain c then some (c, rest)
        else none
      let (text, rest) ← scanShort quote bound rest
      return (c :: text, rest)

/-- The rest of a string on many lines. Up to two quotes may stand anywhere in it,
also before the three that close it. A backslash at the end of a line removes all
space up to the next character. -/
def scanLong (quote : Char) : (bound : Nat) → Scan (List Char)
  | 0, _ => none
  | _, [] => none
  | bound + 1, c :: rest =>
    let quotes := ((c :: rest).takeWhile (· == quote)).length
    if 3 ≤ quotes then
      if quotes ≤ 5 then some (List.replicate (quotes - 3) quote, (c :: rest).drop quotes) else none
    else
      match lineEnd? (rest.dropWhile isBlank), c == '\\' && quote == '"' with
      | some next, true => scanLong quote bound (skipSpace next)
      | _, escaped => do
        let (c, rest) ←
          if escaped then scanEscape rest
          else match lineEnd? (c :: rest) with
            | some rest => some ('\n', rest)
            | none => if isPlain c then some (c, rest) else none
        let (text, rest) ← scanLong quote bound rest
        return (c :: text, rest)

/-- A string on one line, after its opening quote. -/
def scanLine (quote : Char) : Scan String := fun characters => do
  let (text, rest) ← scanShort quote characters.length characters
  return (String.ofList text, rest)

/-- A string, after its opening quote. A line end right after triple quotes is none
of its own. -/
def scanText (quote : Char) : Scan String
  | second :: third :: rest =>
    if second = quote ∧ third = quote then do
      let rest := (lineEnd? rest).getD rest
      let (text, rest) ← scanLong quote rest.length rest
      return (String.ofList text, rest)
    else scanLine quote (second :: third :: rest)
  | characters => scanLine quote characters

end Dossier.Toml
