import Dossier.Document
import Dossier.Json.Printer
import Dossier.Number.Significant
import Dossier.Store.KeyPath

/-! What conditions and sorting see of a JSON value: nothing, a number or a text.
All cells are in one order, nothing before numbers before texts. -/
namespace Dossier

inductive Cell where
  | none
  /-- The exact value, in the units of `Double`. -/
  | number (scaled : Int)
  | text (value : String)
deriving DecidableEq

namespace Cell

/-- Whole numbers beyond the signed words are rounded to a double. -/
def ofNumber : Number → Cell
  | .whole n =>
    if n.isSigned then .number (n.value * (Double.unitsPerOne : Int)) else .number n.scaledNearest
  | .double d => .number d.scaled

/-- Truth values count as 1 and 0; arrays and objects count as their compact text. -/
def ofJson : Json → Cell
  | .null => .none
  | .bool b => .number (if b then (Double.unitsPerOne : Int) else 0)
  | .number n => ofNumber n
  | .text value => .text value
  | value => .text value.render

/-- Numbers that are compared with texts have fifteen digits and are written in full
from `0.0001` up to fifteen places before the point. -/
def columnLayout : Double.Layout := ⟨-4, 14, 2, true⟩

/-- A number as it is compared with a text. Whole numbers beyond the signed words
count as doubles. -/
def columnText : Number → String
  | .whole n =>
    if n.isSigned then toString n.value
    else ((Double.ofInt? n.value).map (Double.roundedText 15 columnLayout)).getD ""
  | .double d => d.roundedText 15 columnLayout

/-- What a field is compared with. Ids are texts, and a number or truth value that is
compared with them is written out. -/
def ofOperand (field : String) : Json → Cell
  | .bool b =>
    if field = idKey then .text (if b then "1" else "0") else ofJson (.bool b)
  | .number n => if field = idKey then .text (columnText n) else ofNumber n
  | value => ofJson value

/-- The cell of a field of a document. A path that breaks off on the way fails. -/
def ofField (document : Document) (field : String) : Except StoreError Cell :=
  if field = idKey then .ok (.text document.id.text)
  else do
    match ← KeyPath.follow (KeyPath.steps field) (.object document.body) with
    | some value => return ofJson value
    | Option.none => return .none

def compare : Cell → Cell → Ordering
  | .none, .none => .eq
  | .none, _ => .lt
  | _, .none => .gt
  | .number a, .number b => Ord.compare a b
  | .number _, .text _ => .lt
  | .text _, .number _ => .gt
  | .text a, .text b => Ord.compare a b

def isNone : Cell → Bool
  | .none => true
  | _ => false

end Cell
end Dossier
