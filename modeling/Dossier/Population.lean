import Dossier.Projection
import Dossier.Registry

/-! Population: references in a document that is read are replaced by the documents
they go to. -/
namespace Dossier

/-- The documents that are being populated, each within the one before. -/
abbrev Chain := List (String × EntityId)

/-- The id of the document that a reference in some members goes to, unless that
document is being populated already. -/
def openReference? (chain : Chain) (members : Body) (path target : String) : Option EntityId :=
  match members.get? path with
  | some (.text raw) => (EntityId.parse? raw).filter fun id => !chain.contains (target, id)
  | _ => none

/-- Populates the wanted references of a model in some members, up to `depth` of
them deep. A reference to a document that is not there becomes `null`. -/
def populate (registry : Registry) (store : Store) :
    (depth : Nat) → Chain → Model → (wanted : String → Bool) → Body → Except RequestError Body
  | 0, _, _, _, members => .ok members
  | depth + 1, chain, model, wanted, members =>
    (model.schema.references.filter fun (path, _) => wanted path).foldlM (fun members (path, target) =>
      match openReference? chain members path target with
      | none => .ok members
      | some id => do
        let targetModel ← registry.lookup target
        match store.get targetModel.name id with
        | .error error => .error (.store error)
        | .ok none => return members.set path .null
        | .ok (some found) => do
          let inner ← populate registry store depth (chain ++ [(target, id)]) targetModel
            (fun _ => true) (targetModel.sanitize found)
          return members.set path (.object inner)) members

/-- What a response shows of a document: without its password, with references
populated, and of that the fields asked for. References that no field asked for
reaches are not looked up. -/
def present (registry : Registry) (store : Store) (model : Model) (document : Document)
    (fields : List String) : Except RequestError Body := do
  let projection := Projection.parse fields
  let members ← populate registry store registry.depth [(model.name, document.id)] model
    projection.wants (model.sanitize document)
  return projection.apply members

end Dossier
