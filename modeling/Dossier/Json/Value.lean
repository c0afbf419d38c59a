import Dossier.Number.Basic
import Dossier.Keyed

/-! JSON values. The members of an object are listed in the order of their keys. -/
namespace Dossier

inductive Json where
  | null
  | bool (value : Bool)
  | number (value : Number)
  | text (value : String)
  | array (items : List Json)
  | object (members : List (String × Json))

/-- The members of an object. -/
abbrev Body := Keyed Json

namespace Json

def ofInt? (value : Int) : Option Json := (Whole.ofInt? value).map fun word => .number (.whole word)

/-- A count, as a number; counts of things held in memory fit a word. -/
def count (n : Nat) : Json := (ofInt? n).getD .null

def texts (items : List String) : Json := .array (items.map .text)

/-- An object of the members given; a member of value `none` is left out. -/
def record (members : List (String × Option Json)) : Json :=
  .object (Keyed.ofEntries (members.filterMap fun (key, value) => value.map ((key, ·))))

def isNull : Json → Bool
  | .null => true
  | _ => false

def members? : Json → Option Body
  | .object members => some members
  | _ => none

def items? : Json → Option (List Json)
  | .array items => some items
  | _ => none

def text? : Json → Option String
  | .text value => some value
  | _ => none

def bool? : Json → Option Bool
  | .bool value => some value
  | _ => none

/-- The member of an object under a key; anything else has no members. -/
def member? (value : Json) (key : String) : Option Json := value.members?.bind (·.find? key)

mutual
/-- Equality of values, with numbers compared as `Number.same` does. -/
def same : Json → Json → Bool
  | .null, .null => true
  | .bool a, .bool b => a == b
  | .number a, .number b => a.same b
  | .text a, .text b => a == b
  | .array a, .array b => sameItems a b
  | .object a, .object b => sameMembers a b
  | _, _ => false
def sameItems : List Json → List Json → Bool
  | [], [] => true
  | a :: as, b :: bs => same a b && sameItems as bs
  | _, _ => false
def sameMembers : List (String × Json) → List (String × Json) → Bool
  | [], [] => true
  | (j, a) :: as, (k, b) :: bs => j == k && same a b && sameMembers as bs
  | _, _ => false
end

mutual
/-- How deeply arrays and objects are nested in a value. -/
def nesting : Json → Nat
  | .array items => nestingItems items + 1
  | .object members => nestingMembers members + 1
  | _ => 0
def nestingItems : List Json → Nat
  | [] => 0
  | item :: rest => max (nesting item) (nestingItems rest)
def nestingMembers : List (String × Json) → Nat
  | [] => 0
  | (_, value) :: rest => max (nesting value) (nestingMembers rest)
end

mutual
/-- Every object in the value lists its keys in order. -/
def Ordered : Json → Prop
  | .array items => OrderedItems items
  | .object members => Keyed.Ordered members ∧ OrderedMembers members
  | _ => True
def OrderedItems : List Json → Prop
  | [] => True
  | item :: rest => Ordered item ∧ OrderedItems rest
def OrderedMembers : List (String × Json) → Prop
  | [] => True
  | (_, value) :: rest => Ordered value ∧ OrderedMembers rest
end

end Json
end Dossier
