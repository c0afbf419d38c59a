/-! Why a definition is refused or does not compile. -/
namespace Dossier

/-- A rule that a definition breaks although it has the right form. -/
inductive DefinitionFault where
  | unnamedModel
  | unnamedField (owner : String)
  | repeatedField (owner field : String)
  | emptyMap (owner field : String)
  | unnamedSubmodel (owner : String)
  | repeatedSubmodel (owner submodel : String)
deriving DecidableEq

def DefinitionFault.message : DefinitionFault → String
  | unnamedModel => "model name is empty"
  | unnamedField owner => s!"`{owner}` has a field without a name"
  | repeatedField owner field => s!"`{owner}` declares field `{field}` twice"
  | emptyMap owner field => s!"`{owner}`: map field `{field}` has no children"
  | unnamedSubmodel owner => s!"`{owner}` declares a submodel without a name"
  | repeatedSubmodel owner submodel => s!"`{owner}` declares submodel `{submodel}` twice"

/-- Why a definition could not be read. -/
inductive ReadFault where
  /-- There is no text to be had. -/
  | unreadable
  /-- The text is not the JSON form of a definition. -/
  | malformed
  | invalid (fault : DefinitionFault)
  /-- A definition that breaks a rule stands where a folder is wanted. -/
  | noFolder
deriving DecidableEq

def ReadFault.message : ReadFault → String
  | unreadable => "cannot be read"
  | malformed => "is not a definition"
  | invalid fault => fault.message
  | noFolder => "Not a directory (os error 20)"

inductive CompileError where
  | definitionRead (path : String) (fault : ReadFault)
  | unknownType (model field token : String)
  | missingSubmodel (model field submodel : String)
  | danglingReference (model field target : String)
  /-- The declarations that are open, outermost first, and the name that leads
  back to one of them. -/
  | cyclicSubmodel (model : String) (chain : List String)
  | ambiguousPassword (model : String) (fields : List String)
  | duplicateModel (name : String)
deriving DecidableEq

def CompileError.message : CompileError → String
  | definitionRead path fault => s!"cannot read model definition {path}: {fault.message}"
  | unknownType model field token => s!"model `{model}`: field `{field}` has unknown type `{token}`"
  | missingSubmodel model field submodel =>
    s!"model `{model}`: field `{field}` references undeclared submodel `{submodel}`"
  | danglingReference model field target =>
    s!"model `{model}`: field `{field}` references unknown model `{target}`"
  | cyclicSubmodel model chain =>
    let path := " -> ".intercalate chain
    s!"model `{model}`: submodel cycle {path}"
  | ambiguousPassword model fields =>
    let list := ", ".intercalate fields
    s!"model `{model}`: more than one password field ({list})"
  | duplicateModel name => s!"model `{name}` is defined more than once"

end Dossier
