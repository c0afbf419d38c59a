import Dossier.Definition.Basic
import Dossier.Definition.Error

/-! Promotion of submodels. Every reference to a submodel makes a schema of its own
out of the declaration it finds, and the field becomes a reference to that schema.
The walk is depth first and enters maps. -/
namespace Dossier

/-- The flat field lists of a definition, one for each schema, under their names. -/
abbrev Expansion := Keyed (List Field)

/-- Where a declaration stands in a definition: the number of it among its
siblings, below the positions of those around it. Two declarations may be alike,
but their positions differ. -/
abbrev Position := List Nat

/-- The submodels of one declaration, which stands at a position. -/
structure Scope where
  owner : Position
  submodels : List Declaration

/-- The first submodel of a scope with a name, and its position. -/
def Scope.find? (scope : Scope) (name : String) : Option (Position × Declaration) :=
  (scope.submodels.zipIdx.find? (·.1.name == name)).map fun (declaration, index) =>
    (scope.owner ++ [index], declaration)

/-- What a field reference is looked up in: scopes and open declarations, both
innermost first. -/
structure Surroundings where
  document : String
  scopes : List Scope
  opened : List (Position × String) := []

def Surroundings.find? (around : Surroundings) (name : String) : Option (Position × Declaration) :=
  around.scopes.findSome? (·.find? name)

def Surroundings.isOpen (around : Surroundings) (position : Position) : Bool :=
  around.opened.any (·.1 == position)

/-- The surroundings inside a declaration that is being promoted. -/
def Surroundings.enter (around : Surroundings) (position : Position) (declaration : Declaration) :
    Surroundings :=
  { around with
    scopes := ⟨position, declaration.submodels⟩ :: around.scopes
    opened := (position, declaration.name) :: around.opened }

/-- The cycle that a reference to an open declaration closes. -/
def Surroundings.cycle (around : Surroundings) (name : String) : CompileError :=
  .cyclicSubmodel around.document ((around.opened.map (·.2)).reverse ++ [name])

/-- The schemas made so far, and the declaration each promoted one comes from. -/
structure Promotions where
  schemas : Expansion := []
  origins : List (String × Position) := []

/-- Adds a finished schema under a name that must be free. -/
def Promotions.add (made : Promotions) (name : String) (fields : List Field) :
    Except CompileError Promotions :=
  match made.schemas.find? name with
  | some _ => .error (.duplicateModel name)
  | none => .ok { made with schemas := made.schemas.insert name fields }

/-- How a reference to a submodel in a field, given by schema, path and name, is
turned into the name of a schema. -/
abbrev Promoter := (schema path name : String) → Promotions → Except CompileError (String × Promotions)

mutual
/-- Turns the references to submodels in a field into references to schemas; `above`
is the path of the map around it, with a dot at its end. -/
def Field.resolve (promote : Promoter) (schema above : String) :
    Field → Promotions → Except CompileError (Field × Promotions)
  | ⟨name, token, children⟩, made =>
    match Kind.ofToken token with
    | .submodel target => do
      let (promoted, made) ← promote schema s!"{above}{name}" target made
      return (⟨name, s!"model.{promoted}", []⟩, made)
    | .map => do
      let (children, made) ← resolveAll promote schema s!"{above}{name}." children made
      return (.map name children, made)
    | _ => .ok (⟨name, token, children⟩, made)
def Field.resolveAll (promote : Promoter) (schema above : String) :
    List Field → Promotions → Except CompileError (List Field × Promotions)
  | [], made => .ok ([], made)
  | field :: rest, made => do
    let (field, made) ← field.resolve promote schema above made
    let (rest, made) ← resolveAll promote schema above rest made
    return (field :: rest, made)
end

/-- Promotes the submodel that a name finds. A declaration that is open already
closes a cycle; one that was promoted under the same name is not promoted again.
`budget` bounds how many more declarations can be opened one in the other; as many
as the definition has are always enough. -/
def promote : (budget : Nat) → Surroundings → Promoter
  | budget, around, schema, path, name, made =>
    match around.find? name with
    | none => .error (.missingSubmodel schema path name)
    | some (position, declaration) =>
      if around.isOpen position then .error (around.cycle name)
      else
        let derived := derivedName schema name
        match made.origins.lookup derived with
        | some origin =>
          if origin = position then .ok (derived, made) else .error (.duplicateModel derived)
        | none =>
          match budget with
          | 0 => .error (around.cycle name)
          | budget + 1 => do
            let inside := around.enter position declaration
            let made := { made with origins := (derived, position) :: made.origins }
            let (fields, made) ←
              Field.resolveAll (promote budget inside) derived "" declaration.fields made
            let made ← made.add derived fields
            return (derived, made)

/-- The schemas of a definition: its own and those of the submodels promoted. -/
def Declaration.expand (definition : Declaration) : Except CompileError Expansion := do
  let around : Surroundings := ⟨definition.name, [⟨[], definition.submodels⟩], []⟩
  let (fields, made) ←
    Field.resolveAll (promote definition.countWithin around) definition.name "" definition.fields {}
  let made ← made.add definition.name fields
  return made.schemas

end Dossier
