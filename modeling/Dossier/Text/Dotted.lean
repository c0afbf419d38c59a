/-! Dotted texts: the segments that a path is made of. -/
namespace Dossier.Text

/-- The parts of some characters between the dots; there is always one. -/
def splitDots : List Char → List (List Char)
  | [] => [[]]
  | c :: rest =>
    if c = '.' then [] :: splitDots rest
    else match splitDots rest with
      | first :: others => (c :: first) :: others
      | [] => [[c]]

/-- The segments of a dotted path. Segments may be empty. -/
def segments (path : String) : List String := (splitDots path.toList).map String.ofList

/-- What stands before the first dot and what stands after it; after it there is
nothing if the text has no dot. -/
def splitFirstDot (text : String) : String × String :=
  let characters := text.toList
  (String.ofList (characters.takeWhile (· ≠ '.')),
    String.ofList ((characters.dropWhile (· ≠ '.')).drop 1))

/-- Whether a dotted text is another one or lies below it, going by characters. -/
def isWithin (path ancestor : String) : Bool :=
  match path.toList.drop ancestor.toList.length with
  | [] => path == ancestor
  | c :: _ => ancestor.toList.isPrefixOf path.toList && c == '.'

end Dossier.Text
