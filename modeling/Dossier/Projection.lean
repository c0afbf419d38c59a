import Dossier.Document
import Dossier.Text.Blank

/-! Projections: the paths of a document that a response is to show. -/
namespace Dossier

structure Projection where
  included : List String
  excluded : List String

namespace Projection

/-- One word of a list of fields: a path, or a path to leave out behind a hyphen.
A hyphen alone says nothing. -/
def addWord (projection : Projection) (word : String) : Projection :=
  match word.toList with
  | '-' :: [] => projection
  | '-' :: path => { projection with excluded := projection.excluded ++ [String.ofList path] }
  | _ => { projection with included := projection.included ++ [word] }

/-- Reads a list of fields; one entry may hold several words. -/
def parse (fields : List String) : Projection :=
  (fields.flatMap Text.words).foldl addWord ⟨[], []⟩

/-- Whether anything at or below a path can be shown. -/
def wants (projection : Projection) (path : String) : Bool :=
  !projection.excluded.any (Text.isWithin path ·) &&
    (projection.included.isEmpty ||
      projection.included.any fun shown => Text.isWithin path shown || Text.isWithin shown path)

/-- Copies the value at a path, if there is one. -/
def copy (source : Body) (target : Body) (path : String) : Body :=
  match source.get? path with
  | some value => target.set path value
  | none => target

/-- The included paths of some members, all of them if none is included; the id is
always among them. -/
def select (projection : Projection) (members : Body) : Body :=
  if projection.included.isEmpty then members
  else
    let start : Body := match members.find? idKey with
      | some id => [(idKey, id)]
      | none => []
    projection.included.foldl (copy members) start

/-- What a projection shows of some members. The id cannot be excluded. -/
def apply (projection : Projection) (members : Body) : Body :=
  (projection.excluded.filter (· ≠ idKey)).foldl Body.remove (projection.select members)

end Projection
end Dossier
