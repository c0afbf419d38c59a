import Dossier.Store.Query
import Dossier.Json.Reader

/-! Filters as requests write them, and the queries they stand for. -/
namespace Dossier
open Json

def Comparison.word : Comparison → String
  | eq => "EQ"
  | gt => "GT"
  | gte => "GTE"
  | lt => "LT"
  | lte => "LTE"

def Comparison.all : List Comparison := [eq, gt, gte, lt, lte]

def Comparison.ofWord? (word : String) : Option Comparison := all.find? (·.word == word)

/-- One clause. Without a value it says nothing; a value of `null` asks for fields
that are null or missing. -/
structure Clause where
  field : String
  comparison : Comparison
  value : Option Json

inductive Filter where
  | single (clause : Clause)
  | all (clauses : List Clause)

def Filter.clauses : Filter → List Clause
  | single clause => [clause]
  | all clauses => clauses

/-- The query of a filter. Of the clauses on one field that have a value the last
one counts. -/
def Filter.query (filter : Filter) : Query :=
  Keyed.ofEntries <| filter.clauses.filterMap fun clause =>
    clause.value.map fun value => (clause.field, .compare clause.comparison value)

/-! ### The JSON form -/

def Comparison.read (tree : Tree) : Option Comparison := tree.word?.bind ofWord?

def Clause.read (levels : Nat) (tree : Tree) : Option Clause := do
  let fields ← tree.fields? levels ["field", "match", "value"]
  return ⟨← fields.required "field" Tree.text?, ← fields.required "match" Comparison.read,
    ← fields.optional "value" none fun tree => (tree.value? levels).map some⟩

/-- A filter is one clause if it can be read as one, else a list of clauses. All of
it must denote a value. -/
def Filter.read (levels : Nat) (tree : Tree) : Option Filter :=
  (tree.value? levels).bind fun _ =>
    match Clause.read levels tree with
    | some clause => some (.single clause)
    | none => (tree.list levels (Clause.read levels)).map .all

def Filter.ofText? (text : String) : Option Filter := read? (Filter.read nestingLimit) text

def Clause.toJson (clause : Clause) : Json :=
  .record [("field", some (.text clause.field)), ("match", some (.text clause.comparison.word)),
    ("value", clause.value)]

def Filter.toJson : Filter → Json
  | single clause => clause.toJson
  | all clauses => .array (clauses.map Clause.toJson)

end Dossier
