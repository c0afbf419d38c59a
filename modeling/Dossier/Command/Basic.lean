import Dossier.Command.Report
import Dossier.Session

/-! What the command line does: it shows the settings, checks definitions and runs
single operations. Failures tell what was being done. -/
namespace Dossier.Command

/-- What is given on the command line in place of settings from a file. -/
structure Overrides where
  definitions : Option String := none
  storage : Option String := none
  strict : Bool := false

inductive Failure where
  | settings (path : String) (error : RequestError)
  | definitions (folder : String) (error : CompileError)
  | compilation (error : CompileError)
  | registry (error : RequestError)
  | unknownOperation (name : String)
  | envelope
  | request (operation : Operation) (model : String) (error : RequestError)

namespace Failure

/-- What was being done, if more is to be said than the cause says. -/
def context : Failure → Option String
  | settings path _ => some s!"Failed to load config {path}"
  | definitions folder _ => some s!"Failed to read definitions from {folder}"
  | compilation _ => some "Model definitions do not compile"
  | registry _ => some "Failed to build model registry"
  | unknownOperation _ => none
  | envelope => some "Malformed request envelope"
  | request operation model _ => some s!"{operation.name} on `{model}` failed"

/-- Why it failed; `none` if an envelope could not be read. -/
def cause : Failure → Option RequestError
  | settings _ error | registry error | request _ _ error => some error
  | definitions _ error | compilation error => some (.compile error)
  | unknownOperation name => some (.unknownOperation name)
  | envelope => none

def message (failure : Failure) : String :=
  ": ".intercalate (failure.context.toList ++ (failure.cause.map RequestError.message).toList)

end Failure

variable {m : Type → Type} [Monad m]

/-- The settings of a file, or the default ones, with overrides. -/
def loadSettings (disk : Disk m) (file : Option String) (overrides : Overrides) :
    ExceptT Failure m Settings := do
  let settings ← match file with
    | some path => (Settings.load disk path).adapt (Failure.settings path)
    | none => pure ({} : Settings)
  return { settings with
    definitions := overrides.definitions.getD settings.definitions
    storage := overrides.storage <|> settings.storage
    compile := ⟨overrides.strict || settings.compile.strictPasswords⟩ }

/-- Compiles the definitions and reports on the models, without opening a store. -/
def check (disk : Disk m) (settings : Settings) : ExceptT Failure m Report := do
  let definitions ← (Declaration.loadFolder disk settings.definitions).adapt
    (Failure.definitions settings.definitions)
  let schemas ← MonadExcept.ofExcept
    ((compileAll definitions settings.compile).mapError Failure.compilation)
  return .ofSchemas schemas

/-- Sets up the models and runs the operation of a name, with the envelope that a text
gives. -/
def execute (disk : Disk m) (supply : Supply) (settings : Settings) (name text : String) :
    ExceptT Failure m Response := do
  let session ← (Session.start disk settings).adapt Failure.registry
  match Operation.ofName? name with
  | none => throw (.unknownOperation name)
  | some operation =>
    match Envelope.ofText? text with
    | none => throw .envelope
    | some envelope =>
      (session.execute disk supply operation envelope).adapt (Failure.request operation envelope.model)

end Dossier.Command
