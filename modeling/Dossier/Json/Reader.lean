import Dossier.Json.Tree

/-! Readings of trees as values and as records. A reading is told how many arrays
and objects it may still enter, one within the other; what it passes over may nest
as it likes. -/
namespace Dossier.Json

/-- The arrays and objects that may be open at once in what is read of a text. -/
def nestingLimit : Nat := 127

namespace Tree

mutual
/-- The value of a tree. Of members under one key the last stays. -/
def value? (levels : Nat) : Tree → Option Json
  | .null => some .null
  | .bool value => some (.bool value)
  | .number value => value.map .number
  | .text value => value.map .text
  | .array items => match levels with
    | 0 => none
    | levels + 1 => (values? levels items).map .array
  | .object members => match levels with
    | 0 => none
    | levels + 1 => (memberValues? levels members).map fun members => .object (Keyed.ofEntries members)
def values? (levels : Nat) : List Tree → Option (List Json)
  | [] => some []
  | item :: rest => do return (← value? levels item) :: (← values? levels rest)
def memberValues? (levels : Nat) : List (Option String × Tree) → Option (List (String × Json))
  | [] => some []
  | (key, tree) :: rest => do
    return (← key, ← value? levels tree) :: (← memberValues? levels rest)
end

def text? : Tree → Option String
  | .text value => value
  | _ => none

def bool? : Tree → Option Bool
  | .bool value => some value
  | _ => none

/-- A whole number from 0 to below a bound. -/
def natural? (bound : Nat) : Tree → Option Nat
  | .number (some (.whole word)) =>
    if 0 ≤ word.value ∧ word.value < bound then some word.value.toNat else none
  | _ => none

/-- A word of a fixed set: a text, or an object with that text as its only key, of
value `null`. -/
def word? : Tree → Option String
  | .text word => word
  | .object [(word, .null)] => word
  | _ => none

/-- Reads `null` as the absence of a value. -/
def nullable {α : Type} (read : Tree → Option α) : Tree → Option (Option α)
  | .null => some none
  | tree => (read tree).map some

/-- The items of an array, each read in the same way. -/
def list {α : Type} (levels : Nat) (read : Tree → Option α) : Tree → Option (List α)
  | .array items => if levels = 0 then none else items.mapM read
  | _ => none

/-- The members of an object, each read in the same way. -/
def keyed {α : Type} (levels : Nat) (read : Tree → Option α) : Tree → Option (Keyed α)
  | .object members =>
    if levels = 0 then none
    else
      (members.mapM fun (member : Option String × Tree) => do
        return (← member.1, ← read member.2)).map Keyed.ofEntries
  | _ => none

/-! ### Records -/

/-- The fields of a record that a tree gives. -/
abbrev Fields := List (String × Tree)

/-- The known members of an object; no known key may be repeated. -/
def known? (names : List String) : List (Option String × Tree) → Option Fields
  | [] => some []
  | (key, tree) :: rest => do
    let name ← key
    let fields ← known? names rest
    if names.contains name then
      if (fields.lookup name).isSome then none else return (name, tree) :: fields
    else return fields

/-- A record is an object, of which unknown members are passed over, or an array
of the fields in their order, of which the last ones may be missing. -/
def fields? (levels : Nat) (names : List String) : Tree → Option Fields
  | .object members => if levels = 0 then none else known? names members
  | .array items =>
    if levels = 0 || names.length < items.length then none else some (names.zip items)
  | _ => none

/-- A field that must be there. -/
def Fields.required {α : Type} (fields : Fields) (name : String) (read : Tree → Option α) : Option α :=
  (fields.lookup name).bind read

/-- A field that may be missing. -/
def Fields.optional {α : Type} (fields : Fields) (name : String) (absent : α)
    (read : Tree → Option α) : Option α :=
  match fields.lookup name with
  | none => some absent
  | some tree => read tree

end Tree

/-- Reads a text by a reading of its tree. -/
def read? {α : Type} (read : Tree → Option α) (text : String) : Option α :=
  (Tree.parse? text).bind read

/-- The value a text denotes. -/
def parse? (text : String) : Option Json := read? (Tree.value? nestingLimit) text

/-- The members of the object a text denotes. -/
def parseBody? (text : String) : Option Body := (parse? text).bind members?

end Dossier.Json
