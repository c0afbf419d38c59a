import Dossier.Definition.Format
import Dossier.Files.Disk
import Dossier.Files.Path

/-! Definitions in the files of a folder, one a file. -/
namespace Dossier.Declaration
variable {m : Type → Type} [Monad m]

def loadFile (disk : Disk m) (path : String) : ExceptT CompileError m Declaration := do
  match ← disk.readText path with
  | some text => MonadExcept.ofExcept (parseAt path text)
  | none => throw (.definitionRead path .unreadable)

/-- What is wrong with the path of a folder that cannot be listed. If a file is there, its
text is judged as that of a definition would be; a sound one cannot be read as a folder. -/
def folderFault (disk : Disk m) (path : String) : ExceptT CompileError m ReadFault := do
  let some text ← disk.readText path | return .unreadable
  let some definition := ofText? text | return .malformed
  return if definition.validate.isOk then .unreadable else .noFolder

/-- Loads the definition of every `json` file, in the order of the file names. -/
def loadFolder (disk : Disk m) (folder : String) : ExceptT CompileError m (List Declaration) := do
  match ← disk.list folder with
  | some names =>
    let names := (names.filter (Path.extension? · == some "json")).mergeSort (· ≤ ·)
    names.mapM fun name => loadFile disk (Path.join folder name)
  | none => throw (.definitionRead folder (← folderFault disk folder))

/-- The file that holds the definition of a name. -/
def fileName (name : String) : String := if name.endsWith ".json" then name else name ++ ".json"

def loadNamed (disk : Disk m) (folder name : String) : ExceptT CompileError m Declaration :=
  loadFile disk (Path.join folder (fileName name))

end Dossier.Declaration
