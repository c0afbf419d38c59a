import Dossier.Toml.Scalar
import Dossier.Toml.Table

/-! TOML documents: headers and entries, one a line. -/
namespace Dossier.Toml
open Text

/-- Keys have fewer parts, and arrays and tables are nested less deeply. -/
def depthBound : Nat := 80

/-- What follows blanks, line ends and comments; `none` if a comment holds a
character that none may hold. -/
def skipFiller : (comment : Bool) → List Char → Option (List Char)
  | _, [] => some []
  | _, '\n' :: rest => skipFiller false rest
  | _, '\r' :: '\n' :: rest => skipFiller false rest
  | true, c :: rest => if isPlain c then skipFiller true rest else none
  | false, c :: rest =>
    if c = '#' then skipFiller true rest
    else if isBlank c then skipFiller false rest
    else some (c :: rest)

/-! ### Keys -/

def isBareKey (c : Char) : Bool := c.isAlphanum || c == '-' || c == '_'

def scanKeyPart : Scan String
  | '"' :: rest => scanLine '"' rest
  | '\'' :: rest => scanLine '\'' rest
  | characters =>
    let name := characters.takeWhile isBareKey
    if name.isEmpty then none else some (String.ofList name, characters.dropWhile isBareKey)

/-- The parts of a key, with dots between them and blanks around them. -/
def scanParts : (bound : Nat) → Scan (List String)
  | 0, _ => none
  | bound + 1, characters => do
    let (part, rest) ← scanKeyPart (characters.dropWhile isBlank)
    match rest.dropWhile isBlank with
    | '.' :: rest => do
      let (parts, rest) ← scanParts bound rest
      return (part :: parts, rest)
    | rest => return ([part], rest)

def scanKey : Scan (List String) := scanParts (depthBound - 1)

/-! ### Values -/

/-- A key and its value. -/
def scanPair (value : Scan Toml) : Scan (List String × Toml) := fun characters => do
  let (key, rest) ← scanKey characters
  let (_, rest) ← scanMark ['='] rest
  let (value, rest) ← value (rest.dropWhile isBlank)
  return ((key, value), rest.dropWhile isBlank)

/-- The items of an array up to its end. A comma may follow the last one. -/
def scanItems (value : Scan Toml) : (bound : Nat) → Scan (List Toml)
  | 0, _ => none
  | bound + 1, characters => do
    match ← skipFiller false characters with
    | ']' :: rest => return ([], rest)
    | rest =>
      let (item, rest) ← value rest
      match ← skipFiller false rest with
      | ']' :: rest => return ([item], rest)
      | ',' :: rest => do
        let (items, rest) ← scanItems value bound rest
        return (item :: items, rest)
      | _ => none

/-- The entries of an inline table up to its end, at least one. -/
def scanPairs (value : Scan Toml) : (bound : Nat) → Scan (List (List String × Toml))
  | 0, _ => none
  | bound + 1, characters => do
    let (pair, rest) ← scanPair value characters
    match rest with
    | '\x7d' :: rest => return ([pair], rest)
    | ',' :: rest => do
      let (pairs, rest) ← scanPairs value bound rest
      return (pair :: pairs, rest)
    | _ => none

def scanInline (value : Scan Toml) : Scan Toml := fun characters =>
  match characters.dropWhile isBlank with
  | '\x7d' :: rest => some (.table [], rest)
  | _ => do
    let (pairs, rest) ← scanPairs value characters.length characters
    let entries ← pairs.foldlM (fun entries (key, value) => Entries.putEntry key value entries) []
    return (Entries.toTable entries, rest)

def scanScalar : Scan Toml
  | '"' :: rest => (scanText '"' rest).map fun (string, rest) => (.text string, rest)
  | '\'' :: rest => (scanText '\'' rest).map fun (string, rest) => (.text string, rest)
  | characters => scanBare characters

/-- A value in which so many arrays and tables are nested at most. -/
def scanValue : (levels : Nat) → Scan Toml
  | levels + 1, '[' :: rest => do
    let (items, rest) ← scanItems (scanValue levels) (rest.length + 1) rest
    return (.array items, rest)
  | levels + 1, '\x7b' :: rest => scanInline (scanValue levels) rest
  | _, characters => scanScalar characters

/-! ### Lines -/

inductive Statement where
  /-- `[path]`: the entries that follow are those of a table. -/
  | table (path : List String)
  /-- `[[path]]`: the entries that follow are those of the next table of an array. -/
  | element (path : List String)
  | entry (key : List String) (value : Toml)

def scanStatement : Scan Statement
  | '[' :: '[' :: rest => do
    let (path, rest) ← scanKey rest
    let (_, rest) ← scanMark [']'] rest
    let (_, rest) ← scanMark [']'] rest
    return (.element path, rest)
  | '[' :: rest => do
    let (path, rest) ← scanKey rest
    let (_, rest) ← scanMark [']'] rest
    return (.table path, rest)
  | characters => do
    let ((key, value), rest) ← scanPair (scanValue (depthBound - 1)) characters
    return (.entry key value, rest)

/-- Nothing but a comment may stand on a line after its statement. -/
def endsLine (characters : List Char) : Bool :=
  characters.isEmpty || characters.head? == some '#' || (lineEnd? characters).isSome

/-- All statements. Each takes at least one character, so a bound of their number is
never reached. -/
def statements : (bound : Nat) → List Char → Option (List Statement)
  | 0, characters => (skipFiller false characters).bind fun rest =>
    if rest.isEmpty then some [] else none
  | bound + 1, characters => do
    match ← skipFiller false characters with
    | [] => return []
    | rest =>
      let (statement, rest) ← scanStatement rest
      let rest := rest.dropWhile isBlank
      guard (endsLine rest)
      return statement :: (← statements bound rest)

/-- The path of the table that entries go to, and all entries so far. -/
abbrev Progress := List String × Entries

def Progress.step (progress : Progress) : Statement → Option Progress
  | .table path => do
    let (above, name) ← Entries.splitLast path
    return (path, ← Entries.change (Entries.openTable name) above progress.2)
  | .element path => do
    let (above, name) ← Entries.splitLast path
    return (path, ← Entries.change (Entries.openElement name) above progress.2)
  | .entry key value => do
    return (progress.1, ← Entries.change (Entries.putEntry key value) progress.1 progress.2)

/-- The table that a text denotes. A byte order mark in front is passed over. -/
def parse? (text : String) : Option Toml := do
  let characters := match text.toList with
    | '\ufeff' :: rest => rest
    | characters => characters
  let progress ← (← statements characters.length characters).foldlM Progress.step ([], [])
  return Entries.toTable progress.2

end Dossier.Toml
