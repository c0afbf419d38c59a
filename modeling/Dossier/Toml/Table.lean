import Dossier.Keyed
import Dossier.Toml.Value

/-! Tables under construction. A table is written out once only, and nothing is put
under a key that is taken; what counts as taken depends on how a table came about. -/
namespace Dossier.Toml

/-- How a table came about. -/
inductive Origin where
  /-- Under a header of its own. -/
  | header
  /-- On the way to a table with a header. -/
  | implied
  /-- By the dotted key of an entry. -/
  | dotted
deriving DecidableEq

/-- What stands under a key. -/
inductive Item where
  | value (value : Toml)
  | table (origin : Origin) (entries : List (String × Item))
  /-- The tables of an array of tables. More can be put into the last one only. -/
  | tables (earlier : List (List (String × Item))) (last : List (String × Item))

abbrev Entries := Keyed Item

namespace Entries

/-- Changes the entries that a path of headers leads to. Tables that are missing on
the way are implied. -/
def change (f : Entries → Option Entries) : (path : List String) → Entries → Option Entries
  | [], entries => f entries
  | name :: rest, entries =>
    match entries.find? name with
    | none => do return entries.insert name (.table .implied (← change f rest []))
    | some (.table origin inner) => do return entries.insert name (.table origin (← change f rest inner))
    | some (.tables earlier last) => do return entries.insert name (.tables earlier (← change f rest last))
    | some (.value _) => none

/-- Opens the table of a header. -/
def openTable (name : String) (entries : Entries) : Option Entries :=
  match entries.find? name with
  | none => some (entries.insert name (.table .header []))
  | some (.table .implied inner) => some (entries.insert name (.table .header inner))
  | _ => none

/-- Opens one more table of an array of tables. -/
def openElement (name : String) (entries : Entries) : Option Entries :=
  match entries.find? name with
  | none => some (entries.insert name (.tables [] []))
  | some (.tables earlier last) => some (entries.insert name (.tables (earlier ++ [last]) []))
  | _ => none

/-- Puts a value under a dotted key, given as the path before its last part and that
part. The path may pass through tables that have no header, but must end in one that
only dotted keys have made. -/
def put (value : Toml) (last : String) : (path : List String) → Entries → Option Entries
  | [], entries =>
    match entries.find? last with
    | none => some (entries.insert last (.value value))
    | some _ => none
  | name :: rest, entries =>
    match entries.find? name with
    | none => do return entries.insert name (.table .dotted (← put value last rest []))
    | some (.table origin inner) =>
      if origin = .header ∨ rest = [] ∧ origin ≠ .dotted then none
      else do return entries.insert name (.table origin (← put value last rest inner))
    | some (.tables earlier final) =>
      if rest = [] then none
      else do return entries.insert name (.tables earlier (← put value last rest final))
    | some (.value _) => none

/-- Splits a key into its path and its last part. -/
def splitLast : List String → Option (List String × String)
  | [] => none
  | [name] => some ([], name)
  | name :: rest => (splitLast rest).map fun (path, last) => (name :: path, last)

/-- Puts an entry under its key. -/
def putEntry (key : List String) (value : Toml) (entries : Entries) : Option Entries := do
  let (path, last) ← splitLast key
  entries.put value last path

mutual
def itemValue : Item → Toml
  | .value value => value
  | .table _ entries => .table (tableEntries entries)
  | .tables earlier last => .array (elementValues earlier ++ [.table (tableEntries last)])
def tableEntries : List (String × Item) → List (String × Toml)
  | [] => []
  | (name, item) :: rest => (name, itemValue item) :: tableEntries rest
def elementValues : List (List (String × Item)) → List Toml
  | [] => []
  | entries :: rest => .table (tableEntries entries) :: elementValues rest
end

def toTable (entries : Entries) : Toml := .table (tableEntries entries)

end Entries
end Dossier.Toml
