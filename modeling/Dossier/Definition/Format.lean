import Dossier.Definition.Validation
import Dossier.Json.Reader

/-! The JSON form of definitions. -/
namespace Dossier
open Json

/-- Reads one field; `child` reads a field inside it. -/
def Field.readWith (levels : Nat) (child : Tree → Option Field) (tree : Tree) : Option Field := do
  let fields ← tree.fields? levels ["name", "type", "children"]
  return ⟨← fields.required "name" Tree.text?, ← fields.required "type" Tree.text?,
    ← fields.optional "children" [] (Tree.list (levels - 1) child)⟩

/-- A field takes two levels of nesting, itself and the list of its children. -/
def Field.read : (levels : Nat) → Tree → Option Field
  | 0, _ => none
  | 1, tree => readWith 1 (fun _ => none) tree
  | levels + 2, tree => readWith (levels + 2) (read levels) tree

/-- Reads a list of fields. -/
def Field.readAll (levels : Nat) : Tree → Option (List Field) :=
  Tree.list levels (Field.read (levels - 1))

def Declaration.readWith (levels : Nat) (submodel : Tree → Option Declaration) (tree : Tree) :
    Option Declaration := do
  let fields ← tree.fields? levels ["name", "fields", "submodels"]
  return ⟨← fields.required "name" Tree.text?, ← fields.required "fields" (Field.readAll (levels - 1)),
    ← fields.optional "submodels" [] (Tree.list (levels - 1) submodel)⟩

/-- A declaration takes two levels of nesting, itself and the list of its submodels. -/
def Declaration.read : (levels : Nat) → Tree → Option Declaration
  | 0, _ => none
  | 1, tree => readWith 1 (fun _ => none) tree
  | levels + 2, tree => readWith (levels + 2) (read levels) tree

/-- The definition a text has the form of, whether or not it follows the rules. -/
def Declaration.ofText? (text : String) : Option Declaration :=
  read? (Declaration.read nestingLimit) text

/-- Reads a text found at a path as a definition that follows the rules. -/
def Declaration.parseAt (path text : String) : Except CompileError Declaration :=
  match Declaration.ofText? text with
  | none => .error (.definitionRead path .malformed)
  | some definition =>
    match definition.validate with
    | .ok () => .ok definition
    | .error fault => .error (.definitionRead path (.invalid fault))

/-- Reads a definition from a text that is in no file. -/
def Declaration.parse (text : String) : Except CompileError Declaration := parseAt "<memory>" text

/-- A list as a member of an object, left out if it is empty. -/
def nonEmpty (items : List Json) : Option Json := if items.isEmpty then none else some (.array items)

mutual
def Field.toJson : Field → Json
  | ⟨name, token, children⟩ =>
    .record [("name", some (.text name)), ("type", some (.text token)),
      ("children", nonEmpty (toJsonAll children))]
def Field.toJsonAll : List Field → List Json
  | [] => []
  | field :: rest => field.toJson :: toJsonAll rest
end

mutual
def Declaration.toJson : Declaration → Json
  | ⟨name, fields, submodels⟩ =>
    .record [("name", some (.text name)), ("fields", some (.array (Field.toJsonAll fields))),
      ("submodels", nonEmpty (toJsonAll submodels))]
def Declaration.toJsonAll : List Declaration → List Json
  | [] => []
  | declaration :: rest => declaration.toJson :: toJsonAll rest
end

end Dossier
