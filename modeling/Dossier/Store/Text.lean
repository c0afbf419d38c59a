import Dossier.Json.Printer
import Dossier.Store.Basic

/-! Stores as texts: a title, then a line for each document, in the order of their
insertion. -/
namespace Dossier

/-- A document with its collection. -/
def Row.line (row : Row) : String := (Json.array [.text row.collection, row.document.toJson]).render

def Row.ofLine? (line : String) : Option Row := do
  match ← Json.parse? line with
  | .array [.text collection, .object members] =>
    let id ← EntityId.parse? (← (← Keyed.find? members idKey).text?)
    return ⟨collection, .make id members⟩
  | _ => none

namespace Store

def title : String := "dossier store"

def text (store : Store) : String :=
  String.join ((title :: store.rows.map Row.line).map (· ++ "\n"))

def addLine (store : Store) (line : String) : Option Store := do
  let row ← Row.ofLine? line
  (store.insert row.collection row.document).toOption

/-- The store of a text. The empty text is that of the empty store. -/
def ofText? (text : String) : Option Store :=
  if text.isEmpty then some empty
  else match text.splitOn "\n" with
    | first :: rest =>
      if first = title ∧ rest.getLast? = some "" then rest.dropLast.foldlM addLine empty else none
    | [] => none

end Store
end Dossier
