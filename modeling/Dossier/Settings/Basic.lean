import Dossier.Files.Path
import Dossier.Registry

/-! What the models are set up with. -/
namespace Dossier

structure Settings where
  /-- The folder of the definitions. -/
  definitions : String := "models"
  /-- The address of the store of the documents; without one they are held in memory. -/
  storage : Option String := none
  hashing : HashParams := {}
  compile : CompileOptions := {}
  /-- How many references deep a read populates. -/
  depth : Nat := defaultDepth

namespace Settings

/-- The settings with their relative paths taken from a folder. -/
def within (settings : Settings) (folder : String) : Settings :=
  { settings with
    definitions := Path.join folder settings.definitions
    storage := settings.storage.map (Path.join folder) }

end Settings
end Dossier
