import Dossier.Body
import Dossier.EntityId

/-! Documents: an id and the members stored under it. -/
namespace Dossier

/-- The key of the id in the JSON form of a document. -/
def idKey : String := "_id"

structure Document where
  id : EntityId
  body : Body

namespace Document

/-- A document of some members; the id is no member of its own. -/
def make (id : EntityId) (body : Body) : Document := ⟨id, body.erase idKey⟩

/-- One step down from a value: to the member of an object. -/
def descend (value : Option Json) (segment : String) : Option Json :=
  value.bind (·.member? segment)

/-- The value at a path; the path of the id leads to the id. -/
def valueAt? (document : Document) (path : String) : Option Json :=
  if path = idKey then some (.text document.id.text)
  else (Text.segments path).foldl descend (some (.object document.body))

/-- The members with the id among them. -/
def members (document : Document) : Body := document.body.insert idKey (.text document.id.text)

def toJson (document : Document) : Json := .object document.members

end Document
end Dossier
