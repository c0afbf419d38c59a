import Dossier.Schema.Format

/-! The report on a set of compiled models. -/
namespace Dossier
open Json

/-- What the report says of one model. -/
structure Summary where
  name : String
  fields : Keyed FieldType
  password : Option String := none
  /-- The targets of the references, under their paths. -/
  references : Keyed String := []

def Summary.ofSchema (schema : Schema) : Summary where
  name := schema.name
  fields := schema.fields
  password := schema.behaviors.password
  references := Keyed.ofEntries schema.references

structure Report where
  models : List Summary

/-- The report lists the models in the order of their names. -/
def Report.ofSchemas (schemas : List Schema) : Report :=
  ⟨(schemas.mergeSort fun a b => a.name ≤ b.name).map Summary.ofSchema⟩

/-! ### The JSON form -/

/-- The members stand in the order of their declaration; no password and no
references are left out. -/
def Summary.toJson (summary : Summary) : Json :=
  let given : List (String × Option Json) :=
    [("name", some (.text summary.name)),
      ("fields", some (.object (FieldType.toJsonAll summary.fields))),
      ("passwordField", summary.password.map .text),
      ("references", if summary.references.isEmpty then none
        else some (.object (summary.references.map fun (path, target) => (path, .text target))))]
  .object (given.filterMap fun (name, value) => value.map ((name, ·)))

def Report.toJson (report : Report) : Json := .object [("models", .array (report.models.map Summary.toJson))]

def Summary.read (levels : Nat) (tree : Tree) : Option Summary := do
  let fields ← tree.fields? levels ["name", "fields", "passwordField", "references"]
  let inner := levels - 1
  return {
    name := ← fields.required "name" Tree.text?
    fields := ← fields.required "fields" (FieldType.readAll inner)
    password := ← fields.optional "passwordField" none (Tree.nullable Tree.text?)
    references := ← fields.optional "references" [] (Tree.keyed inner Tree.text?) }

def Report.read (levels : Nat) (tree : Tree) : Option Report := do
  let fields ← tree.fields? levels ["models"]
  return ⟨← fields.required "models" (Tree.list (levels - 1) (Summary.read (levels - 2)))⟩

def Report.ofText? (text : String) : Option Report := read? (Report.read nestingLimit) text

end Dossier
