import Dossier.Command.Arguments
import Dossier.Json.Printer

/-! The program: what it prints for its arguments, and the code it ends with. -/
namespace Dossier.Command

structure Outcome where
  /-- 0 if all went well, 1 if the command failed, 2 if the arguments are wrong. -/
  code : Nat
  output : String := ""
  complaint : String := ""

def usage : String :=
  "Usage: dossier [OPTIONS] <COMMAND>\n\n" ++
  "Commands:\n" ++
  "  check              Compile every definition and print the models\n" ++
  "  exec <OPERATION>   Run one operation and print its response\n" ++
  "  operations         List the operations that exec knows\n" ++
  "  help               Print this text\n\n" ++
  "Options:\n" ++
  "  -c, --config <FILE>    Settings\n" ++
  "      --models <FOLDER>  Definitions, instead of those of the settings\n" ++
  "      --db <FILE>        Store, instead of that of the settings\n" ++
  "      --strict           Allow one password field a model\n" ++
  "  -v, --verbose          Say more\n" ++
  "  -h, --help             Print this text\n\n" ++
  "Options of exec:\n" ++
  "  -r, --request <FILE>   The envelope of the request; without one it is read from the input\n" ++
  "  -d, --data <TEXT>      The envelope itself\n"

/-- The lines of a list, each with its end. -/
def lines (items : List String) : String := String.join (items.map (· ++ "\n"))

variable {m : Type → Type} [Monad m]

/-- The envelope of a request. The input may turn out not to be a text. -/
def readSource (disk : Disk m) (input : m (Option String)) : Source → ExceptT String m String
  | .text envelope => return envelope
  | .file path => do
    match ← disk.readText path with
    | some envelope => return envelope
    | none => throw s!"Failed to read request {path}"
  | .input => do
    match ← input with
    | some envelope => return envelope
    | none => throw "Failed to read request from stdin"

/-- What a task prints, or why it fails. -/
def perform (disk : Disk m) (supply : Supply) (input : m (Option String)) (settings : Settings) :
    Task → ExceptT String m String
  | .check => do
    let report ← (check disk settings).adapt Failure.message
    return lines [report.toJson.renderIndented]
  | .exec operation source => do
    let envelope ← readSource disk input source
    let response ← (execute disk supply settings operation envelope).adapt Failure.message
    return lines [response.toJson.renderIndented]
  | .operations => return lines (Operation.all.map Operation.name)

/-- Runs the program. The settings are read before anything is done. -/
def run (disk : Disk m) (supply : Supply) (input : m (Option String)) (arguments : List String) : m Outcome := do
  match Arguments.parse arguments with
  | .error .help => return { code := 0, output := usage }
  | .error .misuse => return { code := 2, complaint := usage }
  | .ok arguments =>
    let action : ExceptT String m String := do
      let settings ← (loadSettings disk arguments.config arguments.overrides).adapt Failure.message
      perform disk supply input settings arguments.task
    match ← action.run with
    | .ok output => return { code := 0, output := output }
    | .error complaint => return { code := 1, complaint := s!"Error: {complaint}\n" }

end Dossier.Command
