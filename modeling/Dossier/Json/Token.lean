import Dossier.Json.Value
import Dossier.Text.Hex

/-! The tokens of JSON texts and the scanner that finds them. A literal that has
the form of a number or a string but denotes none is a token all the same: a
reader that has no use for it passes over it. -/
namespace Dossier.Json

inductive Token where
  | beginArray
  | endArray
  | beginObject
  | endObject
  | comma
  | colon
  | null
  | bool (value : Bool)
  /-- `none` if the number is too great for a double. -/
  | number (value : Option Number)
  /-- `none` if an escape names half a pair of surrogates without the other half. -/
  | text (value : Option String)

namespace Token

/-! ### String literals -/

/-- What one step through a string literal yields: a character, or one half of a
pair of surrogates. -/
inductive Piece where
  | character (c : Char)
  | half (code : Nat)

def Piece.ofCode (code : Nat) : Piece :=
  if 0xD800 ≤ code ∧ code < 0xE000 then .half code else .character (Char.ofNat code)

def escapes : List (Char × Char) :=
  [('"', '"'), ('\\', '\\'), ('/', '/'), ('b', '\x08'), ('f', '\x0c'), ('n', '\n'), ('r', '\r'),
   ('t', '\t')]

def hexCode? (a b c d : Char) : Option Nat := do
  return (((← Text.hexValue? a) * 16 + (← Text.hexValue? b)) * 16 + (← Text.hexValue? c)) * 16 +
    (← Text.hexValue? d)

/-- The pieces up to the closing quote, and what follows it. A control character
must not stand in a literal. -/
def scanPieces : List Char → Option (List Piece × List Char)
  | [] => none
  | '"' :: rest => some ([], rest)
  | '\\' :: 'u' :: a :: b :: c :: d :: rest => do
    let code ← hexCode? a b c d
    let (pieces, rest) ← scanPieces rest
    return (.ofCode code :: pieces, rest)
  | '\\' :: e :: rest => do
    let c ← escapes.lookup e
    let (pieces, rest) ← scanPieces rest
    return (.character c :: pieces, rest)
  | c :: rest =>
    if c.toNat < 0x20 then none
    else do
      let (pieces, rest) ← scanPieces rest
      return (.character c :: pieces, rest)

/-- The text of the pieces. Two halves in a row, the high one first, make one
character; a half in any other place makes none. -/
def joinPieces : List Piece → Option (List Char)
  | [] => some []
  | .character c :: rest => (joinPieces rest).map (c :: ·)
  | .half high :: .half low :: rest =>
    if high < 0xDC00 ∧ 0xDC00 ≤ low then
      (joinPieces rest).map (Char.ofNat (0x10000 + (high - 0xD800) * 0x400 + (low - 0xDC00)) :: ·)
    else none
  | .half _ :: _ => none

/-! ### Numbers -/

/-- A number as JSON writes it: no superfluous zero in front, and a digit on
either side of the point. -/
def scanNumber (negative : Bool) (characters : List Char) : Option (Token × List Char) := do
  let (numeral, rest) ← Numeral.scan negative characters
  guard (!numeral.integer.isEmpty && (numeral.integer.head? != some '0' || numeral.integer.length == 1))
  guard (!numeral.fraction.isEmpty || (characters.dropWhile Char.isDigit).head? != some '.')
  return (.number (Number.ofNumeral? numeral), rest)

/-! ### All tokens -/

/-- The four characters that may stand between tokens. -/
def isBlank (c : Char) : Bool := c == ' ' || c == '\n' || c == '\t' || c == '\r'

/-- The token at the head of some characters, which begin with no blank. -/
def next? : List Char → Option (Token × List Char)
  | '[' :: rest => some (.beginArray, rest)
  | ']' :: rest => some (.endArray, rest)
  | '\x7b' :: rest => some (.beginObject, rest)
  | '\x7d' :: rest => some (.endObject, rest)
  | ',' :: rest => some (.comma, rest)
  | ':' :: rest => some (.colon, rest)
  | 'n' :: 'u' :: 'l' :: 'l' :: rest => some (.null, rest)
  | 't' :: 'r' :: 'u' :: 'e' :: rest => some (.bool true, rest)
  | 'f' :: 'a' :: 'l' :: 's' :: 'e' :: rest => some (.bool false, rest)
  | '"' :: rest => do
    let (pieces, rest) ← scanPieces rest
    return (.text ((joinPieces pieces).map String.ofList), rest)
  | '-' :: rest => scanNumber true rest
  | characters => scanNumber false characters

/-- All tokens of some characters. Every token takes at least one character, so a
bound of their number is never reached. -/
def scanWithin : (bound : Nat) → List Char → Option (List Token)
  | 0, characters => if characters.all isBlank then some [] else none
  | bound + 1, characters =>
    match characters.dropWhile isBlank with
    | [] => some []
    | c :: rest => do
      let (token, rest) ← next? (c :: rest)
      return token :: (← scanWithin bound rest)

def scan (text : String) : Option (List Token) := scanWithin text.toList.length text.toList

end Token
end Dossier.Json
