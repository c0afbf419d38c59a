import Dossier.Schema.Basic
import Dossier.Definition.Expansion

/-! Compilation of field lists to schemas, of definitions to all their schemas, and
of sets of definitions with every reference resolved. -/
namespace Dossier

/-- Whether more than one password field is an error. Otherwise the last one
counts. -/
structure CompileOptions where
  strictPasswords : Bool := false
deriving DecidableEq

/-- What compilation gathers from fields in written order, depth first. -/
structure Gathered where
  passwords : List String := []
  references : List String := []

mutual
/-- The type of a field of a model; `path` is its full path. -/
def Field.compile (model path : String) : Field → Gathered → Except CompileError (FieldType × Gathered)
  | ⟨_, token, children⟩, gathered =>
    match Kind.ofToken token with
    | .primitive type => .ok (type.fieldType, gathered)
    | .model target =>
      .ok (.reference target, { gathered with references := gathered.references ++ [path] })
    | .map => do
      let (fields, gathered) ← compileAll model s!"{path}." children [] gathered
      return (.object fields, gathered)
    | .password => .ok (.text, { gathered with passwords := gathered.passwords ++ [path] })
    | .submodel name => .error (.missingSubmodel model path name)
    | .unknown => .error (.unknownType model path token)
/-- The types of fields that stand in one place, added to those before them. -/
def Field.compileAll (model above : String) :
    List Field → Keyed FieldType → Gathered → Except CompileError (Keyed FieldType × Gathered)
  | [], types, gathered => .ok (types, gathered)
  | field :: rest, types, gathered => do
    let (type, gathered) ← field.compile model s!"{above}{field.name}" gathered
    compileAll model above rest (types.insert field.name type) gathered
end

/-- Compiles the fields of one schema. References to submodels must have been
promoted before. -/
def Schema.compile (name : String) (fields : List Field) (options : CompileOptions) :
    Except CompileError Schema := do
  let (types, gathered) ← Field.compileAll name "" fields [] {}
  if options.strictPasswords ∧ 1 < gathered.passwords.length then
    throw (.ambiguousPassword name gathered.passwords)
  return ⟨name, types, ⟨true, gathered.passwords.getLast?, gathered.references⟩⟩

/-- All schemas of one definition, in the order of their names. -/
def Declaration.compile (definition : Declaration) (options : CompileOptions) :
    Except CompileError (List Schema) := do
  (← definition.expand).mapM fun (name, fields) => Schema.compile name fields options

/-- Every reference goes to one of the schemas. -/
def checkReferences (schemas : List Schema) : Except CompileError Unit :=
  schemas.forM fun schema =>
    schema.references.forM fun (path, target) =>
      if schemas.any (·.name == target) then .ok ()
      else .error (.danglingReference schema.name path target)

/-- Adds schemas to others; no name may be taken. -/
def addSchemas : (known : List Schema) → List Schema → Except CompileError (List Schema)
  | known, [] => .ok known
  | known, schema :: rest =>
    if known.any (·.name == schema.name) then .error (.duplicateModel schema.name)
    else addSchemas (known ++ [schema]) rest

/-- Compiles definitions one after the other. -/
def compileEach (options : CompileOptions) :
    (known : List Schema) → List Declaration → Except CompileError (List Schema)
  | known, [] => .ok known
  | known, definition :: rest => do
    let known ← addSchemas known (← definition.compile options)
    compileEach options known rest

/-- Compiles a set of definitions. Names are unique among all their schemas, and
every reference is resolved. -/
def compileAll (definitions : List Declaration) (options : CompileOptions) :
    Except CompileError (List Schema) := do
  let schemas ← compileEach options [] definitions
  checkReferences schemas
  return schemas

end Dossier
