import Dossier.Model.Basic

/-! What requests may select and sort by: operands cast to the types of their
fields, and nothing that touches the password. -/
namespace Dossier.Model

/-- A path as the store will see it. -/
def unquoted (path : String) : String := String.ofList (path.toList.filter (· ≠ '"'))

/-- Refuses a path that is, contains or lies within the password. -/
def guardPassword (model : Model) (path : String) (usage : Usage) : Except RequestError Unit :=
  match model.schema.behaviors.password with
  | none => .ok ()
  | some password =>
    let path := unquoted path
    if Text.isWithin path password || Text.isWithin password path then
      .error (.invalidValue model.name path (.password usage))
    else .ok ()

/-- An operand for the id must be an id; it is kept as it is written. -/
def checkId (model : Model) : Json → Except RequestError Json
  | .text raw =>
    if (EntityId.parse? raw).isSome then .ok (.text raw) else .error (.invalidId model.name raw)
  | other => .error (.invalidId model.name other.render)

/-- Casts the operands of the condition on a field. Arrays, maps and undeclared
fields take any operand. -/
def castCondition (model : Model) (field : String) (condition : Condition) :
    Except RequestError Condition := do
  model.guardPassword field .filter
  if field = idKey then condition.mapM model.checkId
  else match model.fieldType? field with
    | none | some .array | some (.object _) => return condition
    | some type => condition.mapM (castValue model.name field type)

def castQuery (model : Model) (query : Query) : Except RequestError Query :=
  query.mapM fun (field, condition) => do return (field, ← model.castCondition field condition)

def checkSort (model : Model) (keys : List SortKey) : Except RequestError Unit :=
  keys.forM fun key => model.guardPassword key.field .sort

end Dossier.Model
