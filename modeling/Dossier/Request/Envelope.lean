import Dossier.Request.Filter

/-! The envelope of a request. Which of its fields count depends on the operation. -/
namespace Dossier
open Json

/-! ### Sort specifications -/

def Direction.word : Direction → String
  | ascending => "asc"
  | descending => "desc"

/-- A direction is a word in any letter case, or the number 1 or -1. -/
def Direction.read : Json → Option Direction
  | .text word =>
    let word := String.ofList (word.toList.map Char.toLower)
    if ["asc", "ascending", "1"].contains word then some .ascending
    else if ["desc", "descending", "-1"].contains word then some .descending
    else none
  | .number n =>
    match n.signed? with
    | some 1 => some .ascending
    | some (-1) => some .descending
    | _ => none
  | _ => none

/-- Reads the members of an object as sort keys, in the order they are written, none
left out. -/
def SortKey.readAll (levels : Nat) : Tree → Option (List SortKey)
  | .object members =>
    if levels = 0 then none
    else members.mapM fun (member : Option String × Tree) => do
      return ⟨← member.1, ← Direction.read (← member.2.value? (levels - 1))⟩
  | _ => none

def SortKey.ofText? (text : String) : Option (List SortKey) :=
  read? (SortKey.readAll nestingLimit) text

/-- The sort keys as an object, in their order and repeated as they are. -/
def SortKey.toJson (keys : List SortKey) : Json :=
  .object (keys.map fun key => (key.field, .text key.direction.word))

/-! ### Envelopes -/

structure Envelope where
  model : String
  id : Option String := none
  ids : Option (List String) := none
  value : Option Json := none
  entity : Option Json := none
  entities : Option (List Json) := none
  filter : Option Filter := none
  sort : Option (List SortKey) := none
  fields : Option (List String) := none

namespace Envelope

def fieldNames : List String :=
  ["model", "id", "ids", "value", "entity", "entities", "filter", "sort", "retFields"]

/-- A field that may be missing or `null`. -/
def optional {α : Type} (fields : Tree.Fields) (name : String) (read : Tree → Option α) :
    Option (Option α) :=
  fields.optional name none (Tree.nullable read)

def read (levels : Nat) (tree : Tree) : Option Envelope := do
  let fields ← tree.fields? levels fieldNames
  let inner := levels - 1
  return {
    model := ← fields.required "model" Tree.text?
    id := ← optional fields "id" Tree.text?
    ids := ← optional fields "ids" (Tree.list inner Tree.text?)
    value := ← optional fields "value" (Tree.value? inner)
    entity := ← optional fields "entity" (Tree.value? inner)
    entities := ← optional fields "entities" (Tree.list inner (Tree.value? (inner - 1)))
    filter := ← optional fields "filter" (Filter.read inner)
    sort := ← optional fields "sort" (SortKey.readAll inner)
    fields := ← optional fields "retFields" (Tree.list inner Tree.text?) }

def ofText? (text : String) : Option Envelope := read? (Envelope.read nestingLimit) text

/-- The envelope as an object whose fields stand in the order of their declaration,
absent ones left out. -/
def toJson (envelope : Envelope) : Json :=
  let given : List (String × Option Json) :=
    [("model", some (.text envelope.model)),
      ("id", envelope.id.map .text),
      ("ids", envelope.ids.map .texts),
      ("value", envelope.value),
      ("entity", envelope.entity),
      ("entities", envelope.entities.map .array),
      ("filter", envelope.filter.map Filter.toJson),
      ("sort", envelope.sort.map SortKey.toJson),
      ("retFields", envelope.fields.map .texts)]
  .object (given.filterMap fun (name, value) => value.map ((name, ·)))

def text (envelope : Envelope) : String := envelope.toJson.render

/-- The fields a response is to show; none given means none named. -/
def shown (envelope : Envelope) : List String := envelope.fields.getD []

/-- The sort keys; none given means none. -/
def sortKeys (envelope : Envelope) : List SortKey := envelope.sort.getD []

/-! ### Equality, by the values of what is in them -/

def sameOption {α : Type} (same : α → α → Bool) : Option α → Option α → Bool
  | none, none => true
  | some a, some b => same a b
  | _, _ => false

def sameList {α : Type} (same : α → α → Bool) : List α → List α → Bool
  | [], [] => true
  | a :: as, b :: bs => same a b && sameList same as bs
  | _, _ => false

def sameClause (a b : Clause) : Bool :=
  a.field == b.field && a.comparison == b.comparison && sameOption Json.same a.value b.value

def sameFilter : Filter → Filter → Bool
  | .single a, .single b => sameClause a b
  | .all a, .all b => sameList sameClause a b
  | _, _ => false

def same (a b : Envelope) : Bool :=
  a.model == b.model && a.id == b.id && a.ids == b.ids && sameOption Json.same a.value b.value &&
    sameOption Json.same a.entity b.entity && sameOption Json.sameItems a.entities b.entities &&
    sameOption sameFilter a.filter b.filter && a.sort == b.sort && a.fields == b.fields

end Envelope
end Dossier
