import Dossier.Text.Hex

/-! Addresses of stores: the memory, or a file by its path. A text that begins with
`file:` is a reference: a path, in which a percent sign with two digits stands for a
byte, and behind a question mark options. Any other text is a path. -/
namespace Dossier

/-- What may be done with the file of a store. -/
structure Access where
  /-- A missing file is made. -/
  makes : Bool
  /-- The store is written. -/
  writes : Bool
deriving DecidableEq

namespace Access

def full : Access := ⟨true, true⟩

/-- Whether nothing is allowed beyond what another access allows. -/
def isWithin (access other : Access) : Bool :=
  (!access.makes || other.makes) && (!access.writes || other.writes)

end Access

inductive StoreAddress where
  | memory
  | file (path : String) (access : Access)
deriving DecidableEq

namespace StoreAddress

/-- The store at a path. No file has the empty path or the path `:memory:`; a store that
is held in memory is written. -/
def ofPath? (path : String) (access : Access) : Option StoreAddress :=
  if path = "" ∨ path = ":memory:" then (if access.writes then some memory else none)
  else some (file path access)

/-! ### Texts with percent signs -/

/-- The value of the two hexadecimal digits at the head of some characters. -/
def octet? : List Char → Option Nat
  | high :: low :: _ => do return 16 * (← Text.hexValue? high) + (← Text.hexValue? low)
  | _ => none

/-- The bytes of some characters, of which a few are passed over: two digits behind a
percent sign give a byte. A byte of value zero ends them. -/
def bytes : (passed : Nat) → List Char → List UInt8
  | _, [] => []
  | passed + 1, _ :: rest => bytes passed rest
  | 0, c :: rest =>
    match if c = '%' then octet? rest else none with
    | some 0 => []
    | some value => value.toUInt8 :: bytes 2 rest
    | none => String.utf8EncodeChar c ++ bytes 0 rest

/-- The text that some characters stand for. Bytes that are no text leave them as they
are. -/
def plain (characters : List Char) : String :=
  (String.fromUTF8? ⟨(bytes 0 characters).toArray⟩).getD (String.ofList characters)

/-! ### Options -/

/-- An option with its value, which is empty if there is none. -/
def option (characters : List Char) : String × String :=
  (plain (characters.takeWhile (· ≠ '=')), plain ((characters.dropWhile (· ≠ '=')).drop 1))

/-- The options between ampersands; those without a name are left out. -/
def options (text : String) : List (String × String) :=
  ((text.splitOn "&").map fun part => option part.toList).filter (·.1 ≠ "")

/-- What options ask for. -/
structure Opening where
  /-- `none` if the store is held in memory. -/
  access : Option Access := some .full
  system : String := "unix"

/-- The words for what may be done with a file. -/
def modes : List (String × Access) :=
  [("ro", ⟨false, false⟩), ("rw", ⟨false, true⟩), ("rwc", ⟨true, true⟩)]

/-- The file systems there are; the last one holds files in memory. -/
def systems : List String := ["unix", "unix-none", "unix-dotfile", "unix-excl", "memdb"]

/-- Takes an option into account. A mode must not allow more than the one before it, and
unknown words are refused. -/
def Opening.obey (opening : Opening) : String × String → Option Opening
  | ("mode", "memory") => some { opening with access := none }
  | ("mode", word) => do
    let access ← modes.lookup word
    if opening.access.all access.isWithin then some { opening with access := some access } else none
  | ("cache", word) => if word = "shared" ∨ word = "private" then some opening else none
  | ("vfs", name) => some { opening with system := name }
  | _ => some opening

/-- Whether a word says yes. A number does by its last eight bits. -/
def affirms (word : String) : Bool :=
  let digits := word.toList.takeWhile Char.isDigit
  ["on", "yes", "true"].contains word.toLower || ((String.ofList digits).toNat?.getD 0) % 256 ≠ 0

/-- A file that is said never to change is not written. -/
def isImmutable (options : List (String × String)) : Bool :=
  ((options.lookup "immutable").map affirms).getD false

/-! ### Addresses -/

/-- The characters behind the host, which can only be this one. -/
def behindHost? : List Char → Option (List Char)
  | '/' :: '/' :: rest =>
    let host := String.ofList (rest.takeWhile (· ≠ '/'))
    if host = "" ∨ host = "localhost" then some (rest.dropWhile (· ≠ '/')) else none
  | rest => some rest

/-- The address that stands behind `file:`, up to a number sign. -/
def ofReference? (characters : List Char) : Option StoreAddress := do
  let reference := (← behindHost? characters).takeWhile (· ≠ '#')
  let options := options (String.ofList ((reference.dropWhile (· ≠ '?')).drop 1))
  let opening ← options.foldlM Opening.obey {}
  guard (systems.contains opening.system)
  match opening.access with
  | none => return memory
  | some access =>
    match ← ofPath? (plain (reference.takeWhile (· ≠ '?'))) access with
    | memory => return memory
    | file path access =>
      let access : Access := ⟨access.makes, access.writes && !isImmutable options⟩
      if opening.system = "memdb" then ofPath? "" access else return file path access

def ofText? (text : String) : Option StoreAddress :=
  if text.contains '\x00' then none
  else if text.startsWith "file:" then ofReference? (text.toList.drop 5)
  else ofPath? text .full

end StoreAddress
end Dossier
