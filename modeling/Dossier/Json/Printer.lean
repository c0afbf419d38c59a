import Dossier.Json.Value
import Dossier.Text.Hex

/-! The texts of JSON values: the compact one, which has no blank between its
tokens, and the indented one. -/
namespace Dossier.Json

/-- A character within a string literal. Quote, backslash and the control
characters are escaped, all others stand for themselves. -/
def escaped (c : Char) : List Char :=
  if c = '"' then ['\\', '"']
  else if c = '\\' then ['\\', '\\']
  else if c = '\x08' then ['\\', 'b']
  else if c = '\x0c' then ['\\', 'f']
  else if c = '\n' then ['\\', 'n']
  else if c = '\r' then ['\\', 'r']
  else if c = '\t' then ['\\', 't']
  else if c.toNat < 0x20 then ['\\', 'u'] ++ Text.hexNumeral 4 c.toNat
  else [c]

def quoted (text : String) : List Char := '"' :: text.toList.flatMap escaped ++ ['"']

mutual
/-- The compact text of a value. -/
def characters : Json → List Char
  | .null => ['n', 'u', 'l', 'l']
  | .bool true => ['t', 'r', 'u', 'e']
  | .bool false => ['f', 'a', 'l', 's', 'e']
  | .number n => n.text.toList
  | .text value => quoted value
  | .array items => '[' :: charactersItems items ++ [']']
  | .object members => '\x7b' :: charactersMembers members ++ ['\x7d']
def charactersItems : List Json → List Char
  | [] => []
  | [item] => characters item
  | item :: next :: rest => characters item ++ ',' :: charactersItems (next :: rest)
def charactersMembers : List (String × Json) → List Char
  | [] => []
  | [(key, value)] => quoted key ++ ':' :: characters value
  | (key, value) :: next :: rest =>
    quoted key ++ ':' :: characters value ++ ',' :: charactersMembers (next :: rest)
end

def render (value : Json) : String := String.ofList value.characters

/-- The start of a line at a depth: two blanks for each level. -/
def lineStart (depth : Nat) : List Char := '\n' :: List.replicate (2 * depth) ' '

mutual
/-- The text with one item or member a line; empty arrays and objects stay on
their line. -/
def indented (depth : Nat) : Json → List Char
  | .array [] => ['[', ']']
  | .array (item :: rest) =>
    '[' :: lineStart (depth + 1) ++ indented (depth + 1) item ++ indentedItems (depth + 1) rest ++
      lineStart depth ++ [']']
  | .object [] => ['\x7b', '\x7d']
  | .object ((key, value) :: rest) =>
    '\x7b' :: lineStart (depth + 1) ++ quoted key ++ [':', ' '] ++ indented (depth + 1) value ++
      indentedMembers (depth + 1) rest ++ lineStart depth ++ ['\x7d']
  | value => value.characters
def indentedItems (depth : Nat) : List Json → List Char
  | [] => []
  | item :: rest => ',' :: lineStart depth ++ indented depth item ++ indentedItems depth rest
def indentedMembers (depth : Nat) : List (String × Json) → List Char
  | [] => []
  | (key, value) :: rest =>
    ',' :: lineStart depth ++ quoted key ++ [':', ' '] ++ indented depth value ++
      indentedMembers depth rest
end

def renderIndented (value : Json) : String := String.ofList (value.indented 0)

end Dossier.Json
