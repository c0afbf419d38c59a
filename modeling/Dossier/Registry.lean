import Dossier.Model.Basic
import Dossier.Schema.Compile

/-! The registry of all models, built at once from a set of definitions. -/
namespace Dossier

/-- How many references deep a read populates unless it is told otherwise, and how
many at most. -/
def defaultDepth : Nat := 2
def greatestDepth : Nat := 8

structure Registry where
  models : Keyed Model
  depth : Nat := defaultDepth

namespace Registry

/-- Binds every schema that the definitions compile to. -/
def build (definitions : List Declaration) (hasher : Hasher) (options : CompileOptions) :
    Except CompileError Registry := do
  let schemas ← compileAll definitions options
  return { models := Keyed.ofEntries (schemas.map fun schema => (schema.name, ⟨schema, hasher⟩)) }

def withDepth (registry : Registry) (depth : Nat) : Registry :=
  { registry with depth := min depth greatestDepth }

def lookup (registry : Registry) (name : String) : Except RequestError Model :=
  match registry.models.find? name with
  | some model => .ok model
  | none => .error (.modelNotFound name)

end Registry
end Dossier
