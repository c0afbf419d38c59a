import Dossier.Keyed
import Dossier.Store.Cell

/-! Queries: at most one condition on each field, all of which must hold. -/
namespace Dossier

inductive Comparison where
  | eq
  | gt
  | gte
  | lt
  | lte
deriving DecidableEq

/-- Whether a comparison allows an outcome. -/
def Comparison.allows : Comparison → Ordering → Bool
  | eq, outcome => outcome == .eq
  | gt, outcome => outcome == .gt
  | gte, outcome => outcome != .lt
  | lt, outcome => outcome == .lt
  | lte, outcome => outcome != .gt

inductive Condition where
  | compare (comparison : Comparison) (value : Json)
  /-- The field equals one of the values. -/
  | among (values : List Json)

namespace Condition

/-- Comparing two cells, neither of which may be nothing. -/
def relates (comparison : Comparison) (cell operand : Cell) : Bool :=
  !cell.isNone && !operand.isNone && comparison.allows (cell.compare operand)

/-- Whether the cell of a field meets the condition. Being equal to null means to be
nothing; no other condition holds of nothing. -/
def holds (field : String) (cell : Cell) : Condition → Bool
  | compare .eq .null => cell.isNone
  | compare comparison value => relates comparison cell (Cell.ofOperand field value)
  | among values => values.any fun value => relates .eq cell (Cell.ofOperand field value)

/-- The condition with every operand replaced. -/
def mapM {ε : Type} (f : Json → Except ε Json) : Condition → Except ε Condition
  | compare comparison value => do return .compare comparison (← f value)
  | among values => do return .among (← values.mapM f)

end Condition

abbrev Query := Keyed Condition

namespace Query

/-- Selects the documents of some ids. -/
def ids (ids : List EntityId) : Query := [(idKey, .among (ids.map fun id => .text id.text))]

/-- Whether a document meets all conditions. They are tested one after the other until
one fails, so a field that cannot be read does no harm behind it. -/
def test (document : Document) : Query → Except StoreError Bool
  | [] => .ok true
  | (field, condition) :: rest => do
    if condition.holds field (← Cell.ofField document field) then test document rest
    else return false

/-- The condition on the id in front of all others. -/
def idFirst (query : Query) : Query :=
  query.filter (·.1 = idKey) ++ query.filter (·.1 ≠ idKey)

/-- The conditions in the order in which documents are tested. Ids are looked up before
any document is tested, but a list of more than two when the documents are wanted
in the order of their insertion. -/
def inTestOrder (query : Query) (byInsertion : Bool) : Query :=
  match query.find? idKey with
  | some (.among (_ :: _ :: _ :: _)) => if byInsertion then query else query.idFirst
  | _ => query.idFirst

/-- Whether the query asks for one id, which at most one document of a collection has. -/
def asksForOneId (query : Query) : Bool :=
  match query.find? idKey with
  | some (.compare .eq _) | some (.among [_]) => true
  | _ => false

/-- An empty list of values can be looked for among ids only. -/
def isAnswerable (query : Query) : Bool :=
  query.all fun (field, condition) =>
    match condition with
    | .among [] => field == idKey
    | _ => true

end Query

inductive Direction where
  | ascending
  | descending
deriving DecidableEq

structure SortKey where
  field : String
  direction : Direction
deriving DecidableEq

namespace SortKey

/-- The keys that can tell documents of a collection apart: none behind a leading id. -/
def telling : List SortKey → List SortKey
  | [] => []
  | key :: rest => if key.field = idKey then [key] else key :: rest

/-- The cells that documents are sorted by. -/
def cells (keys : List SortKey) (document : Document) : Except StoreError (List Cell) :=
  keys.mapM fun key => Cell.ofField document key.field

def compare (key : SortKey) (a b : Cell) : Ordering :=
  match key.direction with
  | .ascending => a.compare b
  | .descending => (a.compare b).swap

/-- Compares by the first key that tells two documents apart, given their cells. -/
def compareAll : List SortKey → List Cell → List Cell → Ordering
  | key :: keys, a :: as, b :: bs => (key.compare a b).then (compareAll keys as bs)
  | _, _, _ => .eq

/-- Sorts by the keys; documents that no key tells apart stay in their order. -/
def sort (keys : List SortKey) (documents : List Document) : Except StoreError (List Document) := do
  let entries ← documents.mapM fun document => do return (← cells keys document, document)
  return (entries.mergeSort fun a b => compareAll keys a.1 b.1 != .gt).map (·.2)

end SortKey
end Dossier
