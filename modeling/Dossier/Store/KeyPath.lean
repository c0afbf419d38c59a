import Dossier.Json.Value
import Dossier.Store.Error
import Dossier.Text.Dotted

/-! Paths as the store reads them. Every segment spells a key: quotes are no part of
it, and a backslash begins an escape. So one key has many spellings. Keys are told
apart by the codes of their characters, and only up to a character of code zero. -/
namespace Dossier.KeyPath

/-! ### Escapes -/

/-- The value of a byte as a hexadecimal digit. Every byte has one, also those that
are no digits. -/
def digit (byte : UInt8) : Nat := (byte.toNat + 9 * (byte.toNat / 64 % 2)) % 16

def numeral (bytes : List UInt8) : Nat := bytes.foldl (fun value byte => 16 * value + digit byte) 0

/-- The first bytes of some characters. If they end within a character, its other
bytes come next, then the characters behind it. -/
def firstBytes : (count : Nat) → List Char → Option (List UInt8 × List UInt8 × List Char)
  | 0, rest => some ([], [], rest)
  | _, [] => none
  | count, c :: rest =>
    let bytes := String.utf8EncodeChar c
    if count < bytes.length then some (bytes.take count, bytes.drop count, rest)
    else (firstBytes (count - bytes.length) rest).map fun (more, split, rest) => (bytes ++ more, split, rest)

/-- A code by a numeral of some bytes. The bytes that are left of a character are the
codes that follow. -/
def numbered (width : Nat) (characters : List Char) : Option (List (Option Nat) × List Char) := do
  let (bytes, split, rest) ← firstBytes width characters
  return (some (numeral bytes) :: split.map (some ·.toNat), rest)

/-- The codes that letters and signs behind a backslash stand for. -/
def escapes : List (Char × Nat) :=
  [('b', 0x08), ('f', 0x0C), ('n', 0x0A), ('r', 0x0D), ('t', 0x09), ('v', 0x0B), ('0', 0),
   ('\x27', 0x27), ('/', 0x2F), ('\\', 0x5C)]

/-- The ends of lines; behind a backslash they stand for no code. -/
def lineEnds : List Char := ['\n', '\r', '\u2028', '\u2029']

/-- The code for a backslash that begins no escape. -/
def unreadable : Nat := 0x99999

/-- The code for a backslash with the first byte of a character that is no escape, and
the other bytes. It is `none` for characters that begin like the line ends beyond ASCII:
nothing can be read behind them. -/
def noEscape? (c : Char) : Option (List (Option Nat)) :=
  match String.utf8EncodeChar c with
  | first :: others => if first = 0xE2 then none else some (some unreadable :: others.map (some ·.toNat))
  | [] => none

/-- The codes of what stands behind a backslash, `none` for the end of a line, and what
follows it. -/
def escape? : List Char → Option (List (Option Nat) × List Char)
  | 'u' :: rest => numbered 4 rest
  | 'x' :: rest => numbered 2 rest
  | '\r' :: '\n' :: rest => some ([none], rest)
  | c :: rest =>
    if lineEnds.contains c then some ([none], rest)
    else match escapes.lookup c with
      | some code => some ([some code], rest)
      | none => (noEscape? c).map fun codes => (codes, rest)
  | [] => none

/-- The codes of some characters, with `none` for every end of a line that is passed
over. What cannot be read is one code to its end. Every step takes at least one
character, so a bound of their number is never reached. -/
def readWithin : (bound : Nat) → List Char → List (Option Nat)
  | 0, _ => []
  | _, [] => []
  | bound + 1, '\\' :: rest =>
    match escape? rest with
    | some (codes, rest) => codes ++ readWithin bound rest
    | none => [some unreadable]
  | bound + 1, c :: rest => some c.toNat :: readWithin bound rest

/-- The codes without the ends of lines. The two halves of a pair of surrogates make
one code if nothing stands between them. -/
def join : List (Option Nat) → List Nat
  | [] => []
  | none :: rest => join rest
  | some high :: some low :: rest =>
    if 0xD800 ≤ high ∧ high < 0xDC00 ∧ 0xDC00 ≤ low ∧ low < 0xE000 then
      (0x10000 + (high - 0xD800) * 0x400 + (low - 0xDC00)) :: join rest
    else high :: join (some low :: rest)
  | some code :: rest => code :: join rest

/-! ### Steps -/

/-- What is done at a segment of a path. -/
inductive Step where
  /-- To the member under the key of some codes. -/
  | member (codes : List Nat)
  /-- No further: the segment is not to be had in full. -/
  | broken
deriving DecidableEq

/-- What keys are told apart by. -/
def visible (codes : List Nat) : List Nat := codes.takeWhile (· ≠ 0)

/-- The step of a segment. A character of code zero breaks it off. -/
def Step.ofSegment (segment : String) : Step :=
  let characters := segment.toList.filter (· ≠ '"')
  if characters.contains '\x00' then .broken
  else .member (visible (join (readWithin characters.length characters)))

def steps (path : String) : List Step := (Text.segments path).map Step.ofSegment

/-- Whether a step leads to the member of a key. -/
def isNamed (codes : List Nat) (key : String) : Bool := visible (key.toList.map Char.toNat) == codes

/-- What some steps lead to in a value: of the members that a step leads to, the first.
Going a broken step fails. -/
def follow : List Step → Json → Except StoreError (Option Json)
  | [], value => .ok (some value)
  | .broken :: _, _ => .error .database
  | .member codes :: rest, .object members =>
    match members.find? (isNamed codes ·.1) with
    | some (_, value) => follow rest value
    | none => .ok none
  | .member _ :: _, _ => .ok none

end Dossier.KeyPath
