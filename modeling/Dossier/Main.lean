import Dossier.Command.Program
import Dossier.Store.Text
import Std.Time.DateTime.Timestamp

/-! The command line program: the disk, the clock and chance, and the streams. -/
namespace Dossier.Main

/-- The result of an action; `none` if it fails. -/
def attempt {α : Type} (action : IO α) : IO (Option α) := do
  match ← action.toBaseIO with
  | .ok value => return some value
  | .error _ => return none

/-- The names of the files in a folder. -/
def fileNames (path : String) : IO (List String) := do
  if path.isEmpty then throw (.userError "no path")
  let entries ← ((← IO.currentDir) / path).readDir
  entries.toList.filterMapM fun entry => do
    return if ← entry.path.isDir then none else some entry.fileName

/-- The store in a file, which may first have to be made. -/
def loadStore (path : String) (access : Access) : IO (Except StoreError Store) := do
  if access.makes && !(← ((← IO.currentDir) / path).pathExists) then
    let _ ← attempt (IO.FS.writeFile path "")
  match ← attempt (IO.FS.readFile path) with
  | some text =>
    if text.isEmpty && !access.writes then return .error .database
    else return (Store.ofText? text).elim (.error .database) .ok
  | none => return .error .database

def disk : Disk IO where
  read path := attempt (IO.FS.readBinFile path)
  list path := attempt (fileNames path)
  load path access := loadStore path access
  save path store := IO.FS.writeFile path store.text

/-- A number in sixteen bytes. -/
def bytes (n : Nat) : ByteArray := ⟨((List.range 16).map fun place => (n / Nat.pow 256 place).toUInt8).toArray⟩

/-- A number that chance has chosen. -/
def randomNumber (size : USize) : IO Nat := do
  return (← IO.getRandomBytes size).toList.foldl (fun n byte => n * 256 + byte.toNat) 0

/-- The present time, with ids and salts that start from numbers chosen by chance. -/
def supply : IO Supply := do
  let millis := (← Std.Time.Timestamp.now).toMillisecondsSinceUnixEpoch.toInt
  let serial ← randomNumber 9
  let seed ← randomNumber 16
  match Timestamp.ofMillis? millis with
  | some now => return ⟨now, fun index => .mint millis.toNat (serial + index), fun index => bytes (seed + index)⟩
  | none => throw (.userError "the clock is beyond the calendar")

end Dossier.Main

open Dossier in
def main (arguments : List String) : IO UInt32 := do
  let input := do Main.attempt (← IO.getStdin).readToEnd
  let outcome ← Command.run Main.disk (← Main.supply) input arguments
  (← IO.getStdout).putStr outcome.output
  (← IO.getStderr).putStr outcome.complaint
  return outcome.code.toUInt32
