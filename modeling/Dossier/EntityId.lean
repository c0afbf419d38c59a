import Dossier.Text.Blank
import Dossier.Text.Hex

/-! Document ids. An id is its canonical text: thirty-six characters, lowercase
hexadecimal digits in groups of 8, 4, 4, 4 and 12 joined by hyphens. -/
namespace Dossier

/-- Whether a character stands where the hyphenated form wants it. -/
def EntityId.fits (position : Nat) (c : Char) : Bool :=
  if position ∈ [8, 13, 18, 23] then c == '-' else Text.isLowerHex c

/-- Characters that fit one after the other, from a position on. -/
def EntityId.fitsFrom : Nat → List Char → Bool
  | _, [] => true
  | position, c :: rest => fits position c && fitsFrom (position + 1) rest

def EntityId.isCanonical (text : String) : Bool :=
  text.toList.length == 36 && fitsFrom 0 text.toList

structure EntityId where
  text : String
  canonical : EntityId.isCanonical text = true
deriving DecidableEq

namespace EntityId

instance : ToString EntityId := ⟨EntityId.text⟩

/-- Reads the hyphenated form in either letter case. Blanks around it are
ignored; any other spelling of an id is refused. -/
def parse? (raw : String) : Option EntityId :=
  let lowered := String.ofList ((Text.trim raw).toList.map Char.toLower)
  if canonical : isCanonical lowered then some ⟨lowered, canonical⟩ else none

/-- The complaint about a text that is no id shows the text without the blanks
around it. -/
def refusal (raw : String) : String := s!"invalid document id: `{Text.trim raw}`"

theorem fitsFrom_append (position : Nat) (first second : List Char) :
    fitsFrom position (first ++ second) =
      (fitsFrom position first && fitsFrom (position + first.length) second) := by
  induction first generalizing position with
  | nil => simp [fitsFrom]
  | cons c rest ih =>
    simp [fitsFrom, ih, Bool.and_assoc, Nat.add_comm, Nat.add_left_comm]

/-- A run of hexadecimal digits fits wherever no hyphen is due. -/
theorem fitsFrom_hexNumeral (position width n : Nat)
    (clear : ∀ offset < width, position + offset ∉ [8, 13, 18, 23]) :
    fitsFrom position (Text.hexNumeral width n) = true := by
  induction width generalizing n with
  | zero => rfl
  | succ width ih =>
    have last := clear width (Nat.lt_succ_self width)
    have earlier := ih (n / 16) fun offset bound => clear offset (Nat.lt_succ_of_lt bound)
    simp [Text.hexNumeral, fitsFrom_append, earlier, fitsFrom, fits, Text.length_hexNumeral, last,
      Text.isLowerHex_hexDigit]

/-- The characters of the id minted as number `serial` in a given millisecond:
twelve digits of time, the version digit 7, the variant digit 8, and the serial
number in what is left. Ids minted later are greater texts. -/
def mintedCharacters (millis serial : Nat) : List Char :=
  Text.hexNumeral 8 (millis / 0x10000) ++ ['-'] ++ Text.hexNumeral 4 millis ++ ['-'] ++
    ('7' :: Text.hexNumeral 3 (serial / 0x1000000000000000)) ++ ['-'] ++
    ('8' :: Text.hexNumeral 3 (serial / 0x1000000000000)) ++ ['-'] ++ Text.hexNumeral 12 serial

theorem length_mintedCharacters (millis serial : Nat) :
    (mintedCharacters millis serial).length = 36 := by
  simp only [mintedCharacters, List.length_append, List.length_cons, List.length_nil,
    Text.length_hexNumeral]

theorem fitsFrom_mintedCharacters (millis serial : Nat) :
    fitsFrom 0 (mintedCharacters millis serial) = true := by
  have a := fitsFrom_hexNumeral 0 8 (millis / 0x10000) (by decide)
  have b := fitsFrom_hexNumeral 9 4 millis (by decide)
  have c := fitsFrom_hexNumeral 15 3 (serial / 0x1000000000000000) (by decide)
  have d := fitsFrom_hexNumeral 20 3 (serial / 0x1000000000000) (by decide)
  have e := fitsFrom_hexNumeral 24 12 serial (by decide)
  have version : fits 14 '7' = true := by decide
  have mark : fits 19 '8' = true := by decide
  have hyphens : ∀ position ∈ [8, 13, 18, 23], fits position '-' = true := by decide
  simp only [mintedCharacters, fitsFrom_append, fitsFrom, List.length_append, List.length_cons,
    List.length_nil, Text.length_hexNumeral, Nat.reduceAdd, a, b, c, d, e, version, mark,
    hyphens 8 (by decide), hyphens 13 (by decide), hyphens 18 (by decide), hyphens 23 (by decide),
    Bool.and_true]

theorem isCanonical_minted (millis serial : Nat) :
    isCanonical (String.ofList (mintedCharacters millis serial)) = true := by
  simp only [isCanonical, String.toList_ofList, length_mintedCharacters, fitsFrom_mintedCharacters,
    BEq.rfl, Bool.and_true]

/-- A fresh id, version 7: the time it was minted, then a serial number. -/
def mint (millis serial : Nat) : EntityId := ⟨_, isCanonical_minted millis serial⟩

end EntityId
end Dossier
