import Dossier.Password.Base64

/-! Password hashes as texts: `$algorithm$v=version$parameters$salt$hash`, of which
everything after the algorithm may be missing from the end on, and version and
parameters anywhere. -/
namespace Dossier

structure PhcHash where
  algorithm : String
  version : Option Nat
  parameters : List (String × String)
  salt : Option String
  hash : Option (List UInt8)

namespace PhcHash

/-- The parts of a text between separators; there is always one. -/
def splitAt (separator : Char) : List Char → List (List Char)
  | [] => [[]]
  | c :: rest =>
    if c = separator then [] :: splitAt separator rest
    else match splitAt separator rest with
      | first :: others => (c :: first) :: others
      | [] => [[c]]

def isLower (c : Char) : Bool := 'a' ≤ c && c ≤ 'z'
def isUpper (c : Char) : Bool := 'A' ≤ c && c ≤ 'Z'

def isNameCharacter (c : Char) : Bool := isLower c || c.isDigit || c == '-'

def isValueCharacter (c : Char) : Bool :=
  isUpper c || isLower c || c.isDigit || c == '/' || c == '+' || c == '.' || c == '-'

/-- The name of an algorithm or a parameter. -/
def name? (characters : List Char) : Option String :=
  if characters.isEmpty || 32 < characters.length || !characters.all isNameCharacter then none
  else some (String.ofList characters)

/-- The value of a parameter, which may be empty. -/
def value? (characters : List Char) : Option String :=
  if 64 < characters.length || !characters.all isValueCharacter then none
  else some (String.ofList characters)

/-- A number of 32 bits without superfluous zeros. -/
def decimal? (text : String) : Option Nat :=
  let digits := text.toList
  if digits.isEmpty || !digits.all Char.isDigit then none
  else if digits.head? == some '0' && 1 < digits.length then none
  else
    let value := digits.foldl (fun value c => value * 10 + (c.toNat - 48)) 0
    if value < 0x100000000 then some value else none

/-- One parameter: a name, `=`, and a value. -/
def parameter? (characters : List Char) : Option (String × String) :=
  match splitAt '=' characters with
  | [name, value] => do return (← name? name, ← value? value)
  | _ => none

def parameters? (characters : List Char) : Option (List (String × String)) :=
  if 127 < characters.length then none
  else (splitAt ',' characters).mapM parameter?

def salt? (characters : List Char) : Option String :=
  if characters.length < 4 || 64 < characters.length || !characters.all isValueCharacter then none
  else some (String.ofList characters)

/-- A hash has from 10 to 64 bytes. -/
def hash? (characters : List Char) : Option (List UInt8) := do
  let bytes ← Base64.decode? (String.ofList characters)
  guard (10 ≤ bytes.length ∧ bytes.length ≤ 64)
  return bytes

/-- The version, if the next part is one, and the parts after it. -/
def takeVersion : List (List Char) → Option (Option Nat × List (List Char))
  | ('v' :: '=' :: rest) :: parts =>
    if rest.contains ',' then some (none, ('v' :: '=' :: rest) :: parts)
    else do return (some (← decimal? (← value? rest)), parts)
  | parts => some (none, parts)

/-- The parameters, if the next part has any, and the parts after it. -/
def takeParameters : List (List Char) → Option (List (String × String) × List (List Char))
  | part :: parts =>
    if part.contains '=' then do return (← parameters? part, parts) else some ([], part :: parts)
  | [] => some ([], [])

def parse? (text : String) : Option PhcHash :=
  match splitAt '$' text.toList with
  | [] :: algorithm :: parts => do
    let algorithm ← name? algorithm
    let (version, parts) ← takeVersion parts
    let (parameters, parts) ← takeParameters parts
    match parts with
    | [] => return ⟨algorithm, version, parameters, none, none⟩
    | [salt] => return ⟨algorithm, version, parameters, some (← salt? salt), none⟩
    | [salt, hash] => return ⟨algorithm, version, parameters, some (← salt? salt), some (← hash? hash)⟩
    | _ => none
  | _ => none

end PhcHash

/-- Whether a text is a password hash. -/
def isPhcHash (text : String) : Bool := (PhcHash.parse? text).isSome

end Dossier
