import Dossier.Keyed
import Dossier.Text.Dotted

/-! Types of stored fields. -/
namespace Dossier

/-- What a field of a stored document holds. -/
inductive FieldType where
  | text
  | number
  | boolean
  | date
  | array
  /-- The id of a document of the model named. -/
  | reference (target : String)
  /-- An object with declared members. -/
  | object (fields : List (String × FieldType))

namespace FieldType

/-- The type at the segments of a path, by way of object types only. -/
def at? (fields : Keyed FieldType) : (segments : List String) → Option FieldType
  | [] => none
  | [name] => fields.find? name
  | name :: rest =>
    match fields.find? name with
    | some (.object inner) => at? inner rest
    | _ => none

end FieldType
end Dossier
