import Dossier.Schema.FieldType
import Dossier.Text.Blank

/-! Type tokens of declared fields. The part before the first dot tells the kind,
the rest names the model or submodel that a reference goes to. -/
namespace Dossier

inductive Primitive where
  | text
  | textarea
  | number
  | boolean
  | date
  | array
deriving DecidableEq

namespace Primitive

def token : Primitive → String
  | text => "text"
  | textarea => "textarea"
  | number => "number"
  | boolean => "boolean"
  | date => "date"
  | array => "array"

def fieldType : Primitive → FieldType
  | text | textarea => .text
  | number => .number
  | boolean => .boolean
  | date => .date
  | array => .array

def all : List Primitive := [text, textarea, number, boolean, date, array]

def ofToken? (head : String) : Option Primitive := all.find? (·.token == head)

end Primitive

inductive Kind where
  | primitive (type : Primitive)
  /-- A reference to a model of any definition. -/
  | model (name : String)
  /-- A reference to a submodel that is declared around the field. -/
  | submodel (name : String)
  | map
  | password
  | unknown
deriving DecidableEq

/-- The kind a token denotes. A reference must name something after the dot; the
other kinds disregard what follows theirs. -/
def Kind.ofToken (token : String) : Kind :=
  let (head, rest) := Text.splitFirstDot token
  let head := Text.trim head
  let target := Text.trim rest
  match Primitive.ofToken? head with
  | some type => .primitive type
  | none =>
    if head = "map" then .map
    else if head = "password" then .password
    else if target.isEmpty then .unknown
    else if head = "model" then .model target
    else if head = "submodel" then .submodel target
    else .unknown

end Dossier
