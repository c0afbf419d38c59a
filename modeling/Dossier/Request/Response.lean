import Dossier.Json.Value
import Dossier.EntityId

/-! What the operations answer. -/
namespace Dossier

inductive Response where
  | added (id : EntityId) (value : Body)
  | addedAll (ids : List EntityId)
  | fetched (entity : Option Body)
  | found (entities : List Body)
  | updated (value : Option Body)
  | updatedAll (matched modified : Nat)
  | deleted
  | deletedAll (count : Nat)

namespace Response

/-- An object, or `null` for the lack of one. -/
def optionalObject : Option Body → Json
  | some members => .object members
  | none => .null

/-- Every response says `ok`. -/
def toJson (response : Response) : Json :=
  .record <| ("ok", some (Json.count 1)) :: match response with
    | added id value => [("id", some (.text id.text)), ("value", some (.object value))]
    | addedAll ids => [("ids", some (.texts (ids.map EntityId.text)))]
    | fetched entity => [("entity", some (optionalObject entity))]
    | found entities => [("entities", some (.array (entities.map .object)))]
    | updated value => [("value", some (optionalObject value))]
    | updatedAll matched modified =>
      [("matchedCount", some (.count matched)), ("modifiedCount", some (.count modified))]
    | deleted => []
    | deletedAll count => [("deletedCount", some (.count count))]

end Response
end Dossier
