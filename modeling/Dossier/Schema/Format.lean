import Dossier.Schema.Basic
import Dossier.Json.Reader

/-! The JSON form of field types and schemas. A type is an object that tells its
kind in a member of its own, or an array that begins with the kind. -/
namespace Dossier
open Json

namespace FieldType

/-- The kinds in their order; inside another type a kind may be given by its place
in this order. -/
def kinds : List String := ["string", "number", "boolean", "date", "array", "object_ref", "object"]

def readKind (nested : Bool) : Tree → Option String
  | .text (some kind) => if kinds.contains kind then some kind else none
  | tree => if nested then (tree.natural? 0x10000000000000000).bind (kinds[·]?) else none

/-- Separates the kind of a type from what else the tree gives. -/
def splitKind (nested : Bool) : Tree → Option (String × Tree)
  | .object members =>
    match members.partition (·.1 == some "kind") with
    | ([(_, tree)], rest) => do return (← readKind nested tree, .object rest)
    | _ => none
  | .array (tree :: rest) => do return (← readKind nested tree, .array rest)
  | _ => none

/-- The one field that a kind has beside itself. -/
def readOnly {α : Type} (name : String) (read : Tree → Option α) (tree : Tree) : Option α := do
  (← tree.fields? 1 [name]).required name read

/-- Reads a type; `inner` reads a type inside it. -/
def readWith (nested : Bool) (inner : Tree → Option FieldType) (tree : Tree) : Option FieldType := do
  let (kind, rest) ← splitKind nested tree
  if kind = "object_ref" then return .reference (← readOnly "target" Tree.text? rest)
  else if kind = "object" then return .object (← readOnly "fields" (Tree.keyed 1 inner) rest)
  else
    match rest with
    | .array (_ :: _) => none
    | _ =>
      [("string", text), ("number", number), ("boolean", boolean), ("date", date),
        ("array", array)].lookup kind

/-- A type takes two levels of nesting, itself and the object of its fields. -/
def readWithin : (levels : Nat) → (nested : Bool) → Tree → Option FieldType
  | 0, _, _ => none
  | 1, nested, tree => readWith nested (fun _ => none) tree
  | levels + 2, nested, tree => readWith nested (readWithin levels true) tree

/-- Reads a type all parts of which denote values. -/
def read (levels : Nat) (tree : Tree) : Option FieldType :=
  (tree.value? levels).bind fun _ => readWithin levels false tree

mutual
def toJson : FieldType → Json
  | .text => .record [("kind", some (.text "string"))]
  | .number => .record [("kind", some (.text "number"))]
  | .boolean => .record [("kind", some (.text "boolean"))]
  | .date => .record [("kind", some (.text "date"))]
  | .array => .record [("kind", some (.text "array"))]
  | .reference target => .record [("kind", some (.text "object_ref")), ("target", some (.text target))]
  | .object fields => .record [("kind", some (.text "object")), ("fields", some (.object (toJsonAll fields)))]
def toJsonAll : List (String × FieldType) → List (String × Json)
  | [] => []
  | (name, type) :: rest => (name, type.toJson) :: toJsonAll rest
end

/-- Reads the types of named fields. -/
def readAll (levels : Nat) : Tree → Option (Keyed FieldType) :=
  Tree.keyed levels (read (levels - 1))

end FieldType

/-- The password may be missing from the members of an object, not from the items of
an array. -/
def Behaviors.read (levels : Nat) (tree : Tree) : Option Behaviors := do
  let fields ← tree.fields? levels ["auto_timestamp", "password_field", "auto_populate_refs"]
  return ⟨← fields.required "auto_timestamp" Tree.bool?,
    ← fields.optional "password_field" none (Tree.nullable Tree.text?),
    ← fields.required "auto_populate_refs" (Tree.list (levels - 1) Tree.text?)⟩

def Schema.read (levels : Nat) (tree : Tree) : Option Schema := do
  let fields ← tree.fields? levels ["name", "storage_fields", "behaviors"]
  return ⟨← fields.required "name" Tree.text?,
    ← fields.required "storage_fields" (FieldType.readAll (levels - 1)),
    ← fields.required "behaviors" (Behaviors.read (levels - 1))⟩

def Schema.ofText? (text : String) : Option Schema := read? (Schema.read nestingLimit) text

def FieldType.ofText? (text : String) : Option FieldType := read? (FieldType.read nestingLimit) text

def optionalText : Option String → Json
  | some given => .text given
  | none => .null

def Behaviors.toJson (behaviors : Behaviors) : Json :=
  .record [("auto_timestamp", some (.bool behaviors.stamps)),
    ("password_field", some (optionalText behaviors.password)),
    ("auto_populate_refs", some (.texts behaviors.populated))]

def Schema.toJson (schema : Schema) : Json :=
  .record [("name", some (.text schema.name)),
    ("storage_fields", some (.object (FieldType.toJsonAll schema.fields))),
    ("behaviors", some schema.behaviors.toJson)]

end Dossier
