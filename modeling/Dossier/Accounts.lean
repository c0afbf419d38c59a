import Dossier.Repository

/-! User accounts: the documents of one model, found by their logins and checked
against their passwords. -/
namespace Dossier

/-- The model of user accounts. -/
def accountModel : String := "user"

namespace Accounts

/-- The sanitized and populated user of an id. -/
def findById (registry : Registry) (raw : String) : Action (Option Body) := do
  let model ← Action.ofExcept (registry.lookup accountModel)
  let id ← Action.ofExcept (Repository.parseId model raw)
  match ← Action.query (·.get model.name id) with
  | some document => return some (← Repository.showDocument registry model document [])
  | none => return none

/-- Whether a password is that of the user of an id. -/
def verifyPassword (registry : Registry) (raw candidate : String) : Action Bool := do
  let model ← Action.ofExcept (registry.lookup accountModel)
  let id ← Action.ofExcept (Repository.parseId model raw)
  match ← Action.query (·.get model.name id) with
  | some document => Action.ofExcept (model.verifyPassword document candidate)
  | none => return false

/-- The first user whose login field has a value, if the password is that user's. -/
def authenticate (registry : Registry) (field login candidate : String) : Action (Option Body) := do
  let model ← Action.ofExcept (registry.lookup accountModel)
  let query ← Action.ofExcept (model.castQuery [(field, .compare .eq (.text login))])
  match ← Action.query (·.find model.name query []) with
  | [] => return none
  | document :: _ =>
    if ← Action.ofExcept (model.verifyPassword document candidate) then
      return some (← Repository.showDocument registry model document [])
    else return none

end Accounts
end Dossier
