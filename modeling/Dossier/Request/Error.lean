import Dossier.Definition.Error
import Dossier.Password.Hasher
import Dossier.Request.Operation
import Dossier.Store.Basic

/-! Why a request, or the setting up of models to serve it, fails. -/
namespace Dossier

/-- What a password field must not be used in. -/
inductive Usage where
  | filter
  | sort
deriving DecidableEq

def Usage.name : Usage → String
  | filter => "filter"
  | sort => "sort"

/-- Why a value is refused. -/
inductive ValueFault where
  | noText
  | noNumber
  | notNumber (text : String)
  | noBoolean
  | notBoolean (text : String)
  | noDate
  | noReference (target : String)
  | referenceWithoutId (target : String)
  | notReference (text target : String)
  | noObject
  | noJsonObject
  | noPaths
  | unknownOperator
  | password (usage : Usage)
deriving DecidableEq

def ValueFault.message : ValueFault → String
  | noText => "expected a string"
  | noNumber => "expected a number"
  | notNumber text => s!"`{text}` is not a number"
  | noBoolean => "expected a boolean"
  | notBoolean text => s!"`{text}` is not a boolean"
  | noDate => "expected an RFC 3339 date or epoch milliseconds"
  | noReference target => s!"expected a `{target}` id"
  | referenceWithoutId target => s!"`{target}` reference object has no `_id`"
  | notReference text target => s!"`{text}` is not a `{target}` id"
  | noObject => "expected an object"
  | noJsonObject => "expected a JSON object"
  | noPaths => "expected an object or a list of paths"
  | unknownOperator => "unsupported update operator"
  | password usage => s!"the password field cannot be used in a {usage.name}"

inductive RequestError where
  | compile (error : CompileError)
  | modelNotFound (name : String)
  | missingId (model : String) (operation : Operation)
  | missingSelector (model : String) (operation : Operation)
  | missingPayload (model field : String)
  | invalidId (model id : String)
  | duplicateId (model : String) (id : EntityId)
  | invalidValue (model field : String) (fault : ValueFault)
  | unknownOperation (name : String)
  | store (error : StoreError)
  | password (error : PasswordError)
  /-- A configuration file that cannot be read. -/
  | config (path : String)
deriving DecidableEq

def RequestError.message : RequestError → String
  | compile error => error.message
  | modelNotFound name => s!"model not found: {name}"
  | missingId model operation => s!"model `{model}`: {operation.name} requires an id"
  | missingSelector model operation => s!"model `{model}`: {operation.name} requires ids or a filter"
  | missingPayload model field => s!"model `{model}`: missing `{field}` payload"
  | invalidId model id => s!"model `{model}`: invalid id `{id}`"
  | duplicateId model id => s!"model `{model}`: id `{id}` is already taken"
  | invalidValue model field fault =>
    s!"model `{model}`: invalid value for `{field}`: {fault.message}"
  | unknownOperation name => s!"unknown operation: {name}"
  | store error => error.message
  | password error => error.message
  | config path => s!"cannot load config {path}"

end Dossier
