import Dossier.Definition.Kind

/-! Model definitions as they are declared: fields with type tokens, maps with the
fields inside them, and submodels nested to any depth. -/
namespace Dossier

/-- A declared field. The children count only if the token denotes a map. -/
structure Field where
  name : String
  token : String
  children : List Field := []

/-- A model, or a submodel declared inside another declaration. -/
structure Declaration where
  name : String
  fields : List Field
  submodels : List Declaration := []

def Field.kind (field : Field) : Kind := Kind.ofToken field.token

def Field.map (name : String) (children : List Field) : Field := ⟨name, "map", children⟩

/-- The name of the schema that a submodel becomes when a field of another schema
refers to it. -/
def derivedName (parent submodel : String) : String := s!"{parent}_{submodel}"

mutual
/-- The submodels declared within a declaration, at any depth. -/
def Declaration.countWithin : Declaration → Nat
  | ⟨_, _, submodels⟩ => countAll submodels
def Declaration.countAll : List Declaration → Nat
  | [] => 0
  | declaration :: rest => 1 + declaration.countWithin + countAll rest
end

end Dossier
