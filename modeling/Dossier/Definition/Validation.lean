import Dossier.Definition.Basic
import Dossier.Definition.Error

/-! The rules of a definition's structure: everything has a name, no name is given
twice in one place, and a map has fields. Type tokens are left to compilation. -/
namespace Dossier

def isUnnamed (name : String) : Bool := (Text.trim name).isEmpty

mutual
/-- The fields of a map follow the rules, under the map's path. -/
def Field.checkInside (owner : String) : Field → Except DefinitionFault Unit
  | ⟨name, token, children⟩ =>
    if Kind.ofToken token = .map then
      if children.isEmpty then .error (.emptyMap owner name)
      else checkAll s!"{owner}.{name}" [] children
    else .ok ()
/-- Checks fields in their order, `seen` being the names before them. -/
def Field.checkAll (owner : String) (seen : List String) : List Field → Except DefinitionFault Unit
  | [] => .ok ()
  | field :: rest =>
    if isUnnamed field.name then .error (.unnamedField owner)
    else if seen.contains field.name then .error (.repeatedField owner field.name)
    else do
      field.checkInside owner
      checkAll owner (field.name :: seen) rest
end

mutual
/-- What is inside a declaration follows the rules. -/
def Declaration.checkInside : Declaration → Except DefinitionFault Unit
  | ⟨name, fields, submodels⟩ => do
    Field.checkAll name [] fields
    checkSubmodels name [] submodels
def Declaration.checkSubmodels (owner : String) (seen : List String) :
    List Declaration → Except DefinitionFault Unit
  | [] => .ok ()
  | submodel :: rest =>
    if isUnnamed submodel.name then .error (.unnamedSubmodel owner)
    else if seen.contains submodel.name then .error (.repeatedSubmodel owner submodel.name)
    else do
      submodel.checkInside
      checkSubmodels owner (submodel.name :: seen) rest
end

/-- The first rule that a definition breaks, going through it in written order. -/
def Declaration.validate (definition : Declaration) : Except DefinitionFault Unit :=
  if isUnnamed definition.name then .error .unnamedModel else definition.checkInside

end Dossier
