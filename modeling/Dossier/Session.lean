import Dossier.Definition.Folder
import Dossier.Repository
import Dossier.Settings.Format
import Dossier.Store.Text

/-! Sessions: the models of a folder of definitions over the store of a file, set up
as settings say. -/
namespace Dossier
variable {m : Type → Type} [Monad m]

/-- Reads settings from a file. Their relative paths start from its folder. -/
def Settings.load (disk : Disk m) (path : String) : ExceptT RequestError m Settings := do
  match (← disk.readText path).bind Settings.ofToml? with
  | some settings => return (Path.parent? path).elim settings settings.within
  | none => throw (.config path)

/-- Where the store is; `none` if that is not to be made out. -/
def Settings.address? (settings : Settings) : Option StoreAddress :=
  match settings.storage with
  | some text => StoreAddress.ofText? text
  | none => some .memory

structure Session where
  registry : Registry
  store : Store
  address : StoreAddress

namespace Session

def loadStore (disk : Disk m) : StoreAddress → ExceptT RequestError m Store
  | .memory => return Store.empty
  | .file path access => do
    MonadExcept.ofExcept ((← disk.load path access).mapError RequestError.store)

/-- Loads the definitions, then the store, and builds the models. -/
def start (disk : Disk m) (settings : Settings) : ExceptT RequestError m Session := do
  let definitions ← (Declaration.loadFolder disk settings.definitions).adapt RequestError.compile
  let address ← settings.address?.elim (throw (.store .database)) pure
  let store ← loadStore disk address
  let hasher ← MonadExcept.ofExcept ((Hasher.argon2id settings.hashing).mapError RequestError.password)
  let registry ← MonadExcept.ofExcept
    ((Registry.build definitions hasher settings.compile).mapError RequestError.compile)
  return ⟨registry.withDepth settings.depth, store, address⟩

/-- Whether an operation has something to write. Deletions write in any case, others
what they have changed. -/
def writes (operation : Operation) (before after : Store) : Bool :=
  match operation with
  | .deleteEntity | .deleteEntities => true
  | _ => before.text != after.text

/-- Runs an operation and keeps the store that it leaves. It fails if it would write a
file that is only read. -/
def execute (disk : Disk m) (supply : Supply) (operation : Operation) (envelope : Envelope)
    (session : Session) : ExceptT RequestError m Response := do
  let (outcome, store) := (Repository.execute session.registry supply operation envelope).run.run session.store
  let response := MonadExcept.ofExcept outcome
  match session.address with
  | .memory => response
  | .file path access =>
    if access.writes then
      disk.save path store
      response
    else if writes operation session.store store then do
      let _ ← response
      throw (.store .database)
    else response

end Session
end Dossier
