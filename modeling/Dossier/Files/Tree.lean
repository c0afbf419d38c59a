import Dossier.Files.Disk
import Dossier.Files.Path

/-! A disk held in memory. -/
namespace Dossier

inductive FileTree where
  | file (content : ByteArray)
  | database (store : Store)
  | folder (entries : List (String × FileTree))

/-- The names that lead from the root to something. -/
abbrev Place := List String

namespace FileTree

def find? : FileTree → Place → Option FileTree
  | tree, [] => some tree
  | .folder entries, name :: rest => (Keyed.find? entries name).bind (find? · rest)
  | _, _ :: _ => none

def isFolder (tree : FileTree) (place : Place) : Bool :=
  match tree.find? place with
  | some (.folder _) => true
  | _ => false

/-- Puts something at a place. Folders that are missing on the way are made, and
whatever else stands there gives way to one. -/
def put (item : FileTree) : Place → FileTree → FileTree
  | [], _ => item
  | name :: rest, tree =>
    let entries : Keyed FileTree := match tree with
      | .folder entries => entries
      | _ => []
    .folder (entries.insert name (put item rest ((entries.find? name).getD (.folder []))))

/-! ### Places of paths -/

/-- The place that the parts of a path lead to. What they pass through must be
folders; the last name need not be there. -/
def walk (tree : FileTree) : (here : Place) → (parts : List String) → Option Place
  | here, [] => some here
  | here, part :: rest =>
    if !tree.isFolder here then none
    else if part = "" ∨ part = "." then walk tree here rest
    else if part = ".." then walk tree here.dropLast rest
    else walk tree (here ++ [part]) rest

/-- Where the parts of a path are counted from. -/
def origin (current : Place) (path : String) : Place := if Path.isAbsolute path then [] else current

/-- What a path leads to from the current folder. -/
def at? (tree : FileTree) (current : Place) (path : String) : Option FileTree :=
  if path.isEmpty || 4095 < path.utf8ByteSize then none
  else (tree.walk (origin current path) (Path.parts path)).bind tree.find?

/-- How many bytes a place takes when it is written as a path. -/
def pathSize (place : Place) : Nat := place.foldl (fun size name => size + name.utf8ByteSize + 1) 0

/-- One part further towards the file of a store. Names are taken as they come, also
those of folders that are missing, but a file has nothing below it. The path must not
take more than 511 bytes on the way. -/
def storeStep (tree : FileTree) (here : Place) (part : String) : Option Place :=
  if part = "" ∨ part = "." then some here
  else if part = ".." then some here.dropLast
  else if 255 < part.utf8ByteSize ∨ 511 < pathSize (here ++ [part]) then none
  else match tree.find? here with
    | none | some (.folder _) => some (here ++ [part])
    | _ => none

/-- The place of the file of a store. Its path leaves room for eight bytes more, which
name a second file beside it. -/
def storePlace? (tree : FileTree) (current : Place) (path : String) : Option Place :=
  ((Path.parts path).foldlM tree.storeStep (origin current path)).filter (pathSize · ≤ 504)

/-- The tree with the file at a place made, if it is missing and may be made. -/
def withFile (tree : FileTree) (place : Place) (access : Access) : FileTree :=
  if access.makes && (tree.find? place).isNone && tree.isFolder place.dropLast then
    put (.file .empty) place tree
  else tree

/-- The store in the file at a place. A file of one byte counts as empty. -/
def storeAt (tree : FileTree) (place : Place) (access : Access) : Except StoreError Store :=
  match tree.find? place with
  | some (.database store) => .ok store
  | some (.file content) =>
    if access.writes && content.size ≤ 1 then .ok Store.empty else .error .database
  | _ => .error .database

/-! ### The disk -/

def content? : FileTree → Option ByteArray
  | .file content => some content
  | _ => none

def isFile : FileTree → Bool
  | .folder _ => false
  | _ => true

def fileNames? : FileTree → Option (List String)
  | .folder entries => some ((entries.filter (·.2.isFile)).map (·.1))
  | _ => none

/-- Loads a store and leaves it where it was found or made. -/
def load (tree : FileTree) (current : Place) (path : String) (access : Access) :
    Except StoreError Store × FileTree :=
  match tree.storePlace? current path with
  | none => (.error .database, tree)
  | some place =>
    let tree := tree.withFile place access
    match tree.storeAt place access with
    | .ok store => (.ok store, put (.database store) place tree)
    | .error error => (.error error, tree)

def save (tree : FileTree) (current : Place) (path : String) (store : Store) : FileTree :=
  match tree.storePlace? current path with
  | none => tree
  | some place => put (.database store) place tree

/-- The disk of a tree, seen from a current folder. -/
def disk (current : Place) : Disk (StateM FileTree) where
  read path := do return ((← get).at? current path).bind content?
  list path := do return ((← get).at? current path).bind fileNames?
  load path access := do
    let (outcome, tree) := (← get).load current path access
    set tree
    return outcome
  save path store := modify (·.save current path store)

end FileTree
end Dossier
