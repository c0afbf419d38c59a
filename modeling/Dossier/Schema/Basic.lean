import Dossier.Schema.FieldType

/-! Compiled schemas: the types of stored fields and what is done on every read
and write of a document. -/
namespace Dossier

structure Behaviors where
  /-- Documents carry the instants of their creation and last change. -/
  stamps : Bool
  /-- The path of the field that is hashed on writing and hidden on reading. -/
  password : Option String
  /-- The paths of the fields that are populated on reading. -/
  populated : List String

structure Schema where
  name : String
  fields : Keyed FieldType
  behaviors : Behaviors

namespace Schema

/-- The type of the field at a path. -/
def fieldType? (schema : Schema) (path : String) : Option FieldType :=
  FieldType.at? schema.fields (Text.segments path)

/-- Path and target of every reference that is populated. -/
def references (schema : Schema) : List (String × String) :=
  schema.behaviors.populated.filterMap fun path =>
    match schema.fieldType? path with
    | some (.reference target) => some (path, target)
    | _ => none

def isPasswordPath (schema : Schema) (path : String) : Bool :=
  schema.behaviors.password == some path

end Schema
end Dossier
