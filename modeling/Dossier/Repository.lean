import Dossier.Model.Selection
import Dossier.Model.Update
import Dossier.Population
import Dossier.Request.Envelope
import Dossier.Request.Response

/-! The repository: one set of operations for the documents of every model. -/
namespace Dossier

/-- A step on the store: it answers or fails, and either way leaves a store. -/
abbrev Action (α : Type) := ExceptT RequestError (StateM Store) α

namespace Action

/-- A step that asks the store something. -/
def query {α : Type} (ask : Store → Except StoreError α) : Action α := do
  match ask (← get) with
  | .ok answer => return answer
  | .error error => throw (.store error)

/-- A step that writes, unless it fails. -/
def write {α : Type} (change : Store → Except RequestError (α × Store)) : Action α := do
  match change (← get) with
  | .ok (answer, store) =>
    set store
    return answer
  | .error error => throw error

def ofExcept {α : Type} (result : Except RequestError α) : Action α := MonadExcept.ofExcept result

end Action

namespace Repository

/-- A conflict of ids, in terms of the model. -/
def insertError (model : Model) : StoreError → RequestError
  | .conflict _ id => .duplicateId model.name id
  | error => .store error

def insertDocument (model : Model) (document : Document) (store : Store) :
    Except RequestError (Unit × Store) :=
  match store.insert model.name document with
  | .ok store => .ok ((), store)
  | .error error => .error (insertError model error)

def insertDocuments (model : Model) (documents : List Document) (store : Store) :
    Except RequestError (Unit × Store) :=
  match store.insertMany model.name documents with
  | .ok store => .ok ((), store)
  | .error error => .error (insertError model error)

/-- A part of the envelope that an operation cannot do without. -/
def payload {α : Type} (model : Model) (name : String) : Option α → Except RequestError α
  | some given => .ok given
  | none => .error (.missingPayload model.name name)

def parseId (model : Model) (raw : String) : Except RequestError EntityId :=
  match EntityId.parse? raw with
  | some id => .ok id
  | none => .error (.invalidId model.name raw)

/-- The one id that an operation is about. -/
def requireId (model : Model) (envelope : Envelope) (operation : Operation) :
    Except RequestError EntityId :=
  let raw := Text.trim (envelope.id.getD "")
  if raw.isEmpty then .error (.missingId model.name operation) else parseId model raw

/-- What an envelope selects: the ids if it has any, else what its filter does. -/
def selector? (model : Model) (envelope : Envelope) : Except RequestError (Option Query) :=
  match envelope.ids with
  | some raws => do return some (Query.ids (← raws.mapM (parseId model)))
  | none =>
    match envelope.filter with
    | some filter => do return some (← model.castQuery filter.query)
    | none => .ok none

/-- The selection of an operation that must have one. -/
def requireSelector (model : Model) (envelope : Envelope) (operation : Operation) :
    Except RequestError Query := do
  match ← selector? model envelope with
  | some query => return query
  | none => throw (.missingSelector model.name operation)

/-- What a response shows of a document. -/
def showDocument (registry : Registry) (model : Model) (document : Document) (fields : List String) :
    Action Body := do
  Action.ofExcept (present registry (← get) model document fields)

/-! ### The operations -/

def addEntity (registry : Registry) (supply : Supply) (model : Model) (envelope : Envelope) :
    Action Response := do
  let entity ← Action.ofExcept (payload model "entity" envelope.entity)
  let document ← Action.ofExcept (model.prepareInsert supply 0 entity)
  Action.write (insertDocument model document)
  if envelope.shown.isEmpty then return .added document.id []
  match ← Action.query (·.get model.name document.id) with
  | some stored => return .added document.id (← showDocument registry model stored envelope.shown)
  | none => return .added document.id []

def addEntities (supply : Supply) (model : Model) (envelope : Envelope) : Action Response := do
  let entities ← Action.ofExcept (payload model "entities" envelope.entities)
  let documents ← Action.ofExcept
    (entities.zipIdx.mapM fun (entity, index) => model.prepareInsert supply index entity)
  Action.write (insertDocuments model documents)
  return .addedAll (documents.map Document.id)

def getEntity (registry : Registry) (model : Model) (envelope : Envelope) : Action Response := do
  let id ← Action.ofExcept (requireId model envelope .getEntity)
  match ← Action.query (·.get model.name id) with
  | some document => return .fetched (some (← showDocument registry model document envelope.shown))
  | none => return .fetched none

def getEntities (registry : Registry) (model : Model) (envelope : Envelope) : Action Response := do
  let query ← Action.ofExcept (selector? model envelope)
  Action.ofExcept (model.checkSort envelope.sortKeys)
  let documents ← Action.query (·.find model.name (query.getD []) envelope.sortKeys)
  return .found (← documents.mapM fun document => showDocument registry model document envelope.shown)

def updateEntity (registry : Registry) (supply : Supply) (model : Model) (envelope : Envelope) :
    Action Response := do
  let id ← Action.ofExcept (requireId model envelope .updateEntity)
  let value ← Action.ofExcept (payload model "value" envelope.value)
  let update ← Action.ofExcept (model.parseUpdate supply.salt value)
  match ← Action.query (·.get model.name id) with
  | none => return .updated none
  | some document =>
    let (changed, document) := model.applyUpdate supply.now document update
    if changed then
      Action.write fun store => .ok ((), (store.replace model.name document).2)
    return .updated (some (← showDocument registry model document []))

def updateEntities (supply : Supply) (model : Model) (envelope : Envelope) : Action Response := do
  let query ← Action.ofExcept (requireSelector model envelope .updateEntities)
  let value ← Action.ofExcept (payload model "value" envelope.value)
  let update ← Action.ofExcept (model.parseUpdate supply.salt value)
  let documents ← Action.query (·.find model.name query [])
  let outcomes := documents.map fun document => model.applyUpdate supply.now document update
  let changed := (outcomes.filter (·.1)).map (·.2)
  let modified ← Action.write fun store => .ok (store.replaceMany model.name changed)
  return .updatedAll documents.length modified

def deleteEntity (model : Model) (envelope : Envelope) : Action Response := do
  let id ← Action.ofExcept (requireId model envelope .deleteEntity)
  Action.write fun store => .ok ((), (store.delete model.name id).2)
  return .deleted

def deleteEntities (model : Model) (envelope : Envelope) : Action Response := do
  let query ← Action.ofExcept (requireSelector model envelope .deleteEntities)
  let count ← Action.write fun store =>
    match store.deleteMany model.name query with
    | .ok result => .ok result
    | .error error => .error (.store error)
  return .deletedAll count

/-- Runs an operation on the model that the envelope names. -/
def execute (registry : Registry) (supply : Supply) (operation : Operation) (envelope : Envelope) :
    Action Response := do
  let model ← Action.ofExcept (registry.lookup envelope.model)
  match operation with
  | .addEntity => addEntity registry supply model envelope
  | .addEntities => addEntities supply model envelope
  | .getEntity => getEntity registry model envelope
  | .getEntities => getEntities registry model envelope
  | .updateEntity => updateEntity registry supply model envelope
  | .updateEntities => updateEntities supply model envelope
  | .deleteEntity => deleteEntity model envelope
  | .deleteEntities => deleteEntities model envelope

end Repository
end Dossier
