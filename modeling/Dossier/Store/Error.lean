import Dossier.EntityId

/-! Why the store fails. -/
namespace Dossier

inductive StoreError where
  | conflict (collection : String) (id : EntityId)
  /-- The store cannot be opened or written, or a query cannot be put to it. -/
  | database
  /-- The text of a stored document cannot be read. -/
  | invalidData (collection : String) (id : EntityId)
deriving DecidableEq

def StoreError.message : StoreError → String
  | conflict collection id => s!"document {id} already exists in `{collection}`"
  | database => "database error"
  | invalidData collection id => s!"invalid data in `{collection}`: document {id}"

end Dossier
