/-! Values of configuration texts in the TOML format. -/
namespace Dossier

/-- A value, as far as a setting can be one. Of numbers with a point or a power and
of dates only their kind is kept: no setting is one. -/
inductive Toml where
  | text (value : String)
  | integer (value : Int)
  | bool (value : Bool)
  | float
  | date
  | array (items : List Toml)
  | table (entries : List (String × Toml))

namespace Toml

def text? : Toml → Option String
  | .text value => some value
  | _ => none

def bool? : Toml → Option Bool
  | .bool value => some value
  | _ => none

/-- A whole number from 0 to below a bound. -/
def natural? (bound : Nat) : Toml → Option Nat
  | .integer value => if 0 ≤ value ∧ value < bound then some value.toNat else none
  | _ => none

end Toml
end Dossier
