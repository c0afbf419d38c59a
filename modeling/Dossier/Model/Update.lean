import Dossier.Model.Basic

/-! Partial updates: values to put at paths and paths to clear. -/
namespace Dossier

structure Update where
  sets : List (String × Json)
  unsets : List String

def Update.isEmpty (update : Update) : Bool := update.sets.isEmpty && update.unsets.isEmpty

namespace Model

/-- The sets and unsets that a member of an update payload asks for: a path with
its value, or one of the operators `$set` and `$unset`. -/
def requested (model : Model) (key : String) (value : Json) :
    Except RequestError (List (String × Json) × List String) :=
  if key = "$set" then
    match value with
    | .object members => .ok (members, [])
    | _ => .error (.invalidValue model.name "$set" .noObject)
  else if key = "$unset" then
    match value with
    | .object members => .ok ([], members.map (·.1))
    | .array items => .ok ([], items.filterMap Json.text?)
    | _ => .error (.invalidValue model.name "$unset" .noPaths)
  else if key.toList.head? = some '$' then .error (.invalidValue model.name key .unknownOperator)
  else .ok ([(key, value)], [])

/-- The value that a set writes at a path: cast, and with a password in it hashed.
It is hashed in a body of its own, where it stands at its full path. -/
def settled (model : Model) (salt : ByteArray) (path : String) (type : FieldType) (value : Json) :
    Except RequestError Json := do
  let cast ← castValue model.name path type value
  return ((model.hashPassword salt (Body.set [] path cast)).extract path).1.getD .null

/-- The sets of declared paths, in order; `index` counts all of them. -/
def settleAll (model : Model) (salt : Nat → ByteArray) :
    (index : Nat) → List (String × Json) → Except RequestError (List (String × Json))
  | _, [] => .ok []
  | index, (path, value) :: rest =>
    match model.writableType? path with
    | none => settleAll model salt (index + 1) rest
    | some type => do
      let value ← model.settled (salt index) path type value
      return (path, value) :: (← settleAll model salt (index + 1) rest)

/-- Reads an update payload. Undeclared paths are passed over. -/
def parseUpdate (model : Model) (salt : Nat → ByteArray) (payload : Json) :
    Except RequestError Update :=
  match payload with
  | .object members => do
    let parts ← members.mapM fun (key, value) => model.requested key value
    return ⟨← model.settleAll salt 0 (parts.flatMap (·.1)),
      (parts.flatMap (·.2)).filter fun path => (model.writableType? path).isSome⟩
  | _ => .error (.invalidValue model.name "value" .noJsonObject)

end Model

/-- The members after all sets and then all unsets. -/
def Update.apply (update : Update) (body : Body) : Body :=
  update.unsets.foldl Body.remove (update.sets.foldl (fun body (path, value) => body.set path value) body)

/-- Applies an update and tells whether it changed anything; only then the document
is stamped as changed. -/
def Model.applyUpdate (model : Model) (now : Timestamp) (document : Document) (update : Update) :
    Bool × Document :=
  let body := update.apply document.body
  if Json.sameMembers body document.body then (false, ⟨document.id, body⟩)
  else
    (true, ⟨document.id,
      if model.schema.behaviors.stamps then body.insert updatedKey (.text now.text) else body⟩)

end Dossier
