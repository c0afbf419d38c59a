import Dossier.Files.Address
import Dossier.Store.Basic

/-! What is asked of a disk. -/
namespace Dossier

/-- Access to files by their paths, as actions of a monad. -/
structure Disk (m : Type → Type) where
  /-- The bytes of a file; `none` if there is no file to read. -/
  read : (path : String) → m (Option ByteArray)
  /-- The names of the files in a folder; `none` if there is no folder. -/
  list : (path : String) → m (Option (List String))
  /-- The store kept in a file. A file that is made for it or is empty takes the empty
  store, if it may be written. -/
  load : (path : String) → Access → m (Except StoreError Store)
  /-- Keeps a store in a file. -/
  save : (path : String) → Store → m Unit

/-- The text in a file; `none` also if its bytes are no text. -/
def Disk.readText {m : Type → Type} [Monad m] (disk : Disk m) (path : String) : m (Option String) := do
  return (← disk.read path).bind String.fromUTF8?

end Dossier
