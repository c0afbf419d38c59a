/-! Paths as texts: names joined by slashes. A path that begins with a slash is
absolute. -/
namespace Dossier.Path

def isAbsolute (path : String) : Bool := path.toList.head? == some '/'

/-- The path that another leads to from a folder. An absolute path leads to itself. -/
def join (folder path : String) : String :=
  if isAbsolute path || folder.isEmpty then path
  else if folder.toList.getLast? == some '/' then folder ++ path
  else folder ++ "/" ++ path

/-- The names and dots that a path is made of. -/
def parts (path : String) : List String := path.splitOn "/"

/-! ### The path of the folder around a path -/

/-- The end of a path, last character first, without slashes and lone dots. The
character that begins the path stays, be it a slash or a dot. -/
def trimEnd : List Char → List Char
  | '/' :: c :: rest => trimEnd (c :: rest)
  | '.' :: '/' :: rest => if rest.isEmpty then ['/'] else trimEnd rest
  | rest => rest

/-- The path without its last part; `none` if it has no part. -/
def parent? (path : String) : Option String :=
  match trimEnd path.toList.reverse with
  | [] => none
  | ['/'] => none
  | reversed =>
    match reversed.dropWhile (· ≠ '/') with
    | [] => some ""
    | above => some (String.ofList (trimEnd above).reverse)

/-- What comes after the last dot of a file name; a dot in front does not count. -/
def extension? (name : String) : Option String :=
  let reversed := name.toList.reverse
  match reversed.dropWhile (· ≠ '.') with
  | [] => none
  | ['.'] => none
  | _ => some (String.ofList (reversed.takeWhile (· ≠ '.')).reverse)

end Dossier.Path
