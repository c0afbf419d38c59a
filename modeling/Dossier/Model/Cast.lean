import Dossier.Request.Error
import Dossier.Schema.Basic
import Dossier.Timestamp

/-! Casting of values to the types of their fields. Undeclared members are dropped;
a value that stands for none of its field's type is refused; `null` is of every
type. -/
namespace Dossier

namespace Cast

/-- Text is kept; numbers and truth values are written out. -/
def text : Json → Except ValueFault Json
  | .text value => .ok (.text value)
  | .number n => .ok (.text n.text)
  | .bool b => .ok (.text (if b then "true" else "false"))
  | _ => .error .noText

/-- Numbers are kept; truth values become 1 and 0; a text must be a number, and
becomes `null` if it is blank. -/
def number : Json → Except ValueFault Json
  | .number n => .ok (.number n)
  | .bool b => .ok (.number (.whole (if b then .one else .zero)))
  | .text value =>
    let trimmed := Text.trim value
    if trimmed.isEmpty then .ok .null
    else match Number.parse? trimmed with
      | some n => .ok (.number n)
      | none => .error (.notNumber trimmed)
  | _ => .error .noNumber

def boolean : Json → Except ValueFault Json
  | .bool b => .ok (.bool b)
  | .number n =>
    if n.hasValue 1 then .ok (.bool true)
    else if n.hasValue 0 then .ok (.bool false)
    else .error .noBoolean
  | .text value =>
    if ["true", "1", "yes"].contains value then .ok (.bool true)
    else if ["false", "0", "no"].contains value then .ok (.bool false)
    else .error (.notBoolean value)
  | _ => .error .noBoolean

/-- The instant that a text or a count of milliseconds denotes. -/
def instant? : Json → Option Timestamp
  | .text value => Timestamp.parse? value
  | .number n => n.signed?.bind Timestamp.ofMillis?
  | _ => none

/-- Dates are kept as the canonical texts of their instants. -/
def date (value : Json) : Except ValueFault Json :=
  match instant? value with
  | some instant => .ok (.text instant.text)
  | none => .error .noDate

def array : Json → Except ValueFault Json
  | .array items => .ok (.array items)
  | value => .ok (.array [value])

/-- A reference is given by an id or by a document that has one. -/
def reference (target : String) (value : Json) : Except ValueFault Json := do
  let raw ← match value with
    | .text raw => pure raw
    | .object members =>
      match (Keyed.find? members idKey).bind Json.text? with
      | some raw => pure raw
      | none => throw (.referenceWithoutId target)
    | _ => throw (.noReference target)
  match EntityId.parse? raw with
  | some id => return .text id.text
  | none => throw (.notReference raw target)

end Cast

/-- A fault of the value at a path of a model. -/
def refuse {α : Type} (model path : String) : Except ValueFault α → Except RequestError α
  | .ok value => .ok value
  | .error fault => .error (.invalidValue model path fault)

mutual
/-- Casts a value to a type. -/
def castValue (model path : String) : FieldType → Json → Except RequestError Json
  | _, .null => .ok .null
  | .object fields, .object members => do
    return .object (← castMembers model s!"{path}." fields members)
  | .object _, _ => .error (.invalidValue model path .noObject)
  | .text, value => refuse model path (Cast.text value)
  | .number, value => refuse model path (Cast.number value)
  | .boolean, value => refuse model path (Cast.boolean value)
  | .date, value => refuse model path (Cast.date value)
  | .array, value => refuse model path (Cast.array value)
  | .reference target, value => refuse model path (Cast.reference target value)
/-- Casts the declared members of an object; `above` is its path with a dot. -/
def castMembers (model above : String) (fields : Keyed FieldType) :
    List (String × Json) → Except RequestError Body
  | [] => .ok []
  | (key, value) :: rest =>
    match fields.find? key with
    | some type => do
      let cast ← castValue model s!"{above}{key}" type value
      return (key, cast) :: (← castMembers model above fields rest)
    | none => castMembers model above fields rest
end

end Dossier
