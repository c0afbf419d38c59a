/-! The operations of the repository. -/
namespace Dossier

inductive Operation where
  | addEntity
  | addEntities
  | getEntity
  | getEntities
  | updateEntity
  | updateEntities
  | deleteEntity
  | deleteEntities
deriving DecidableEq

namespace Operation

def name : Operation → String
  | addEntity => "addEntity"
  | addEntities => "addEntities"
  | getEntity => "getEntity"
  | getEntities => "getEntities"
  | updateEntity => "updateEntity"
  | updateEntities => "updateEntities"
  | deleteEntity => "deleteEntity"
  | deleteEntities => "deleteEntities"

def all : List Operation :=
  [addEntity, addEntities, getEntity, getEntities, updateEntity, updateEntities, deleteEntity,
    deleteEntities]

def ofName? (name : String) : Option Operation := all.find? (·.name == name)

theorem ofName?_name (operation : Operation) : ofName? operation.name = some operation := by
  cases operation <;> decide

end Operation
end Dossier
