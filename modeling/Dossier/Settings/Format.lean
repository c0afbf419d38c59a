import Dossier.Settings.Basic
import Dossier.Toml.Document

/-! The written forms of settings, TOML and JSON. Every section and every field may be
missing and then has its default; unknown ones are passed over. -/
namespace Dossier

def Settings.sections : List String := ["definitions", "storage", "password", "compiler", "read"]

/-! ### TOML -/

namespace Toml

/-- The fields that a table gives. An array gives them in their order. A date has
none of them. -/
def fields? (names : List String) : Toml → Option (List (String × Toml))
  | .table entries => some entries
  | .array items => some (names.zip items)
  | .date => some []
  | _ => none

/-- A section with some fields, read from the settings if it is there. -/
def section? {α : Type} (sections : List (String × Toml)) (name : String) (names : List String)
    (read : List (String × Toml) → Option α) : Option α :=
  match sections.lookup name with
  | none => read []
  | some given => (given.fields? names).bind read

/-- A field that may be missing. -/
def optional {α : Type} (fields : List (String × Toml)) (name : String) (absent : α)
    (read : Toml → Option α) : Option α :=
  match fields.lookup name with
  | none => some absent
  | some given => read given

end Toml

def HashParams.ofToml? (fields : List (String × Toml)) : Option HashParams := do
  let word := Toml.natural? 0x100000000
  return ⟨← Toml.optional fields "memory_cost" 19456 word, ← Toml.optional fields "time_cost" 2 word,
    ← Toml.optional fields "parallelism" 1 word⟩

/-- Reads settings from a TOML text. -/
def Settings.ofToml? (text : String) : Option Settings := do
  let sections ← (← Toml.parse? text).fields? Settings.sections
  return {
    definitions := ← Toml.section? sections "definitions" ["dir"]
      (Toml.optional · "dir" "models" Toml.text?)
    storage := ← Toml.section? sections "storage" ["path"]
      (Toml.optional · "path" none fun given => given.text?.map some)
    hashing := ← Toml.section? sections "password" ["memory_cost", "time_cost", "parallelism"]
      HashParams.ofToml?
    compile := ← Toml.section? sections "compiler" ["strict_password_fields"] fun fields =>
      (Toml.optional fields "strict_password_fields" false Toml.bool?).map fun strict => ⟨strict⟩
    depth := ← Toml.section? sections "read" ["populate_depth"]
      (Toml.optional · "populate_depth" defaultDepth (Toml.natural? 0x8000000000000000)) }

/-! ### JSON -/

open Json in
/-- A section of one field. -/
def Settings.readSingle {α : Type} (levels : Nat) (name : String) (absent : α)
    (read : Tree → Option α) (tree : Tree) : Option α := do
  (← tree.fields? levels [name]).optional name absent read

open Json in
def Settings.read (levels : Nat) (tree : Tree) : Option Settings := do
  let sections ← tree.fields? levels Settings.sections
  let inner := levels - 1
  return {
    definitions := ← sections.optional "definitions" "models" (readSingle inner "dir" "models" Tree.text?)
    storage := ← sections.optional "storage" none
      (readSingle inner "path" none (Tree.nullable Tree.text?))
    hashing := ← sections.optional "password" {} (HashParams.read inner)
    compile := ← sections.optional "compiler" {} fun tree =>
      (readSingle inner "strict_password_fields" false Tree.bool? tree).map fun strict => ⟨strict⟩
    depth := ← sections.optional "read" defaultDepth
      (readSingle inner "populate_depth" defaultDepth (Tree.natural? 0x10000000000000000)) }

def Settings.ofText? (text : String) : Option Settings :=
  Json.read? (Settings.read Json.nestingLimit) text

def Settings.toJson (settings : Settings) : Json :=
  let storage := (settings.storage.map Json.text).getD .null
  let strict := Json.bool settings.compile.strictPasswords
  .record [("definitions", some (.record [("dir", some (.text settings.definitions))])),
    ("storage", some (.record [("path", some storage)])),
    ("password", some settings.hashing.toJson),
    ("compiler", some (.record [("strict_password_fields", some strict)])),
    ("read", some (.record [("populate_depth", some (.count settings.depth))]))]

end Dossier
