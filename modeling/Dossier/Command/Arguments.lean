import Dossier.Command.Basic

/-! The arguments of the command line: options, most of them shared by all commands,
a command, and what the command needs. -/
namespace Dossier.Command

inductive Flag where
  | config
  | models
  | db
  | strict
  | verbose
  | help
  | request
  | data
deriving DecidableEq

namespace Flag

def long : Flag → String
  | config => "config"
  | models => "models"
  | db => "db"
  | strict => "strict"
  | verbose => "verbose"
  | help => "help"
  | request => "request"
  | data => "data"

def short? : Flag → Option Char
  | config => some 'c'
  | verbose => some 'v'
  | help => some 'h'
  | request => some 'r'
  | data => some 'd'
  | models | db | strict => none

def takesValue : Flag → Bool
  | strict | verbose | help => false
  | _ => true

def takesPath : Flag → Bool
  | config | models | db | request => true
  | _ => false

/-- A path must not be empty. -/
def accepts (flag : Flag) (value : String) : Bool := !flag.takesPath || !value.isEmpty

/-- The options of every command. -/
def shared : List Flag := [config, models, db, strict, verbose, help]

/-- The options of `exec`. -/
def ofExec : List Flag := shared ++ [request, data]

end Flag

/-- Why arguments call for no command. -/
inductive Stop where
  | help
  | misuse
deriving DecidableEq

/-- The options that are given in one place, with their values. -/
abbrev Given := List (Flag × String)

def Given.has (given : Given) (flag : Flag) : Bool := given.any (·.1 = flag)

/-- Takes in an option. None may be given twice in one place, and the one that asks
for help ends everything. -/
def Given.add (given : Given) (flag : Flag) (value : String) : Except Stop Given :=
  if flag = .help then .error .help
  else if given.has flag || !flag.accepts value then .error .misuse
  else .ok ((flag, value) :: given)

/-- What an argument is. -/
inductive Argument where
  /-- `--name` or `--name=value`. -/
  | long (name : String) (value : Option String)
  /-- Letters after one hyphen. -/
  | cluster (letters : List Char)
  /-- `--`: no options follow. -/
  | separator
  | plain (text : String)

def Argument.ofText (text : String) : Argument :=
  match text.toList with
  | ['-', '-'] => .separator
  | '-' :: '-' :: rest =>
    let name := rest.takeWhile (· ≠ '=')
    match rest.dropWhile (· ≠ '=') with
    | _ :: value => .long (String.ofList name) (some (String.ofList value))
    | [] => .long (String.ofList name) none
  | '-' :: c :: rest => .cluster (c :: rest)
  | _ => .plain text

/-- Letters that are options: all but the last are without a value. The last one is
left open if its value must still follow. -/
def Given.addLetters (known : List Flag) : Given → List Char → Except Stop (Given × Option Flag)
  | given, [] => .ok (given, none)
  | given, c :: rest =>
    match known.find? (·.short? = some c) with
    | none => .error .misuse
    | some flag =>
      if flag.takesValue then
        match rest with
        | [] => .ok (given, some flag)
        | '=' :: value => (given.add flag (String.ofList value)).map ((·, none))
        | value => (given.add flag (String.ofList value)).map ((·, none))
      else do addLetters known (← given.add flag "") rest

def Given.addLong (known : List Flag) (given : Given) (name : String) (value : Option String) :
    Except Stop (Given × Option Flag) :=
  match known.find? (·.long = name), value with
  | none, _ => .error .misuse
  | some flag, some value =>
    if flag.takesValue then (given.add flag value).map ((·, none)) else .error .misuse
  | some flag, none =>
    if flag.takesValue then .ok (given, some flag) else (given.add flag "").map ((·, none))

/-- The value of an open option is the next argument, which must be no option. -/
def Given.close (given : Given) (flag : Flag) (text : String) : Except Stop Given :=
  match Argument.ofText text with
  | .plain value => given.add flag value
  | _ => .error .misuse

/-- Reads the options of one place up to the first argument that is none. Answers
also whether a separator stands before it. -/
def scanOptions (known : List Flag) : Given → List String → Except Stop (Given × Bool × List String)
  | given, [] => .ok (given, false, [])
  | given, text :: rest => do
    match Argument.ofText text with
    | .separator => return (given, true, rest)
    | .plain _ => return (given, false, text :: rest)
    | argument =>
      let (given, pending) ← match argument with
        | .long name value => given.addLong known name value
        | .cluster letters => given.addLetters known letters
        | _ => .ok (given, none)
      match pending, rest with
      | none, rest => scanOptions known given rest
      | some flag, value :: rest => do scanOptions known (← given.close flag value) rest
      | some _, [] => throw .misuse

/-- Where the envelope of a request comes from. -/
inductive Source where
  | text (envelope : String)
  | file (path : String)
  | input

inductive Task where
  | check
  | exec (operation : String) (source : Source)
  | operations

structure Arguments where
  /-- The file of settings. -/
  config : Option String
  overrides : Overrides
  task : Task

def commandNames : List String := ["check", "exec", "operations", "help"]

/-- The command `help` may be followed by the name of one command. -/
def scanHelp : List String → Stop
  | [] => .help
  | [name] => if commandNames.contains name then .help else .misuse
  | _ => .misuse

/-- The options of a command that takes nothing else. -/
def scanBare (rest : List String) : Except Stop Given := do
  match ← scanOptions Flag.shared [] rest with
  | (given, _, []) => return given
  | _ => throw .misuse

/-- The options and the operation of `exec`. -/
def scanExec (rest : List String) : Except Stop (Given × String) := do
  match ← scanOptions Flag.ofExec [] rest with
  | (given, true, [operation]) => return (given, operation)
  | (given, false, operation :: rest) =>
    match ← scanOptions Flag.ofExec given rest with
    | (given, _, []) => return (given, operation)
    | _ => throw .misuse
  | _ => throw .misuse

def Given.source (given : Given) : Except Stop Source :=
  match given.lookup .data, given.lookup .request with
  | some _, some _ => .error .misuse
  | some text, none => .ok (.text text)
  | none, some path => .ok (.file path)
  | none, none => .ok .input

/-- Options after the command take the place of those before it. -/
def Arguments.make (before after : Given) (task : Task) : Arguments :=
  let given := after ++ before
  ⟨given.lookup .config, ⟨given.lookup .models, given.lookup .db, given.has .strict⟩, task⟩

def Arguments.parse (arguments : List String) : Except Stop Arguments := do
  match ← scanOptions Flag.shared [] arguments with
  | (before, false, command :: rest) =>
    if command = "check" then return .make before (← scanBare rest) .check
    else if command = "operations" then return .make before (← scanBare rest) .operations
    else if command = "exec" then
      let (after, operation) ← scanExec rest
      return .make before after (.exec operation (← after.source))
    else if command = "help" then throw (scanHelp rest)
    else throw .misuse
  | _ => throw .misuse

end Dossier.Command
