/-! The characters to which Unicode gives the property White_Space, and the two
uses made of them: trimming a text at both ends and cutting it into words. -/
namespace Dossier.Text

/-- The ranges of White_Space, both ends included. -/
def blankRanges : List (Nat × Nat) :=
  [(0x09, 0x0D), (0x20, 0x20), (0x85, 0x85), (0xA0, 0xA0), (0x1680, 0x1680),
   (0x2000, 0x200A), (0x2028, 0x2029), (0x202F, 0x202F), (0x205F, 0x205F), (0x3000, 0x3000)]

def isBlank (c : Char) : Bool :=
  blankRanges.any fun range => range.1 ≤ c.toNat && c.toNat ≤ range.2

/-- Every blank of the ASCII range known to the core library is a blank here. -/
theorem isBlank_of_isWhitespace (c : Char) (white : c.isWhitespace = true) : isBlank c = true := by
  simp only [Char.isWhitespace, Bool.or_eq_true, decide_eq_true_eq] at white
  rcases white with ((same | same) | same) | same <;> subst same <;> rfl

def trimStart (characters : List Char) : List Char := characters.dropWhile isBlank

def trimEnd (characters : List Char) : List Char := (trimStart characters.reverse).reverse

/-- The text without the blanks at its two ends. -/
def trim (text : String) : String := String.ofList (trimEnd (trimStart text.toList))

/-- The maximal runs of characters that are not blank, in order. -/
def wordsFrom : (word : List Char) → List Char → List (List Char)
  | word, [] => if word.isEmpty then [] else [word.reverse]
  | word, c :: rest =>
    if isBlank c then
      if word.isEmpty then wordsFrom [] rest else word.reverse :: wordsFrom [] rest
    else wordsFrom (c :: word) rest

def words (text : String) : List String := (wordsFrom [] text.toList).map String.ofList

end Dossier.Text
