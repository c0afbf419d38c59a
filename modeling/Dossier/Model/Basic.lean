import Dossier.Model.Cast

/-! Models: schemas together with the way their passwords are hashed. -/
namespace Dossier

def createdKey : String := "createdAt"
def updatedKey : String := "updatedAt"

structure Model where
  schema : Schema
  hasher : Hasher

/-- What a request needs that is not in it: the time, fresh ids and fresh salts. -/
structure Supply where
  now : Timestamp
  id : Nat → EntityId
  salt : Nat → ByteArray

namespace Model

/-- The name of a model is that of its collection as well. -/
def name (model : Model) : String := model.schema.name

/-- The type of the field at a path, the two stamps among the fields. -/
def fieldType? (model : Model) (path : String) : Option FieldType :=
  if model.schema.behaviors.stamps ∧ (path = createdKey ∨ path = updatedKey) then some .date
  else model.schema.fieldType? path

/-- The type of the field at a path, if updates may write it. Id and stamps are not
theirs. -/
def writableType? (model : Model) (path : String) : Option FieldType :=
  if path = idKey ∨ path = createdKey ∨ path = updatedKey then none
  else model.schema.fieldType? path

/-- Puts the hash of a password in its place, if there is one that is not empty. -/
def hashPassword (model : Model) (salt : ByteArray) (body : Body) : Body :=
  match model.schema.behaviors.password with
  | none => body
  | some path =>
    match body.get? path with
    | some (.text plain) =>
      if plain.isEmpty then body else body.set path (.text (model.hasher.hash salt plain))
    | _ => body

/-! ### Insertion -/

/-- The id that a payload gives, or a fresh one. -/
def payloadId (model : Model) (fresh : EntityId) (payload : Body) : Except RequestError EntityId :=
  match payload.find? idKey with
  | none | some .null => .ok fresh
  | some (.text raw) =>
    match EntityId.parse? raw with
    | some id => .ok id
    | none => .error (.invalidId model.name raw)
  | some other => .error (.invalidId model.name other.render)

/-- Stamps a new body as created and changed at an instant. -/
def stamp (model : Model) (now : Timestamp) (body : Body) : Body :=
  if model.schema.behaviors.stamps then
    (body.insert createdKey (.text now.text)).insert updatedKey (.text now.text)
  else body

/-- The document that a payload becomes, as number `index` of its request. -/
def prepareInsert (model : Model) (supply : Supply) (index : Nat) (payload : Json) :
    Except RequestError Document :=
  match payload with
  | .object members => do
    let id ← model.payloadId (supply.id index) members
    let body ← castMembers model.name "" model.schema.fields members
    return .make id (model.stamp supply.now (model.hashPassword (supply.salt index) body))
  | _ => .error (.invalidValue model.name "entity" .noJsonObject)

/-! ### Reading -/

/-- The members of a document with its id, without its password. -/
def sanitize (model : Model) (document : Document) : Body :=
  let body := match model.schema.behaviors.password with
    | some path => document.body.remove path
    | none => document.body
  body.insert idKey (.text document.id.text)

/-- Whether a password is the one a document holds the hash of. Without a hash none
is. -/
def verifyPassword (model : Model) (document : Document) (candidate : String) :
    Except RequestError Bool :=
  match model.schema.behaviors.password with
  | none => .ok false
  | some path =>
    match document.valueAt? path with
    | some (.text stored) =>
      if stored.isEmpty then .ok false
      else match model.hasher.verify candidate stored with
        | some answer => .ok answer
        | none => .error (.password .malformedHash)
    | _ => .ok false

end Model
end Dossier
