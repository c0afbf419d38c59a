import Dossier.EntityId
import Dossier.Json.Reader
import Dossier.Request.Operation
import Dossier.Timestamp

/-! The JSON forms of ids, instants and operations. -/
namespace Dossier
open Json

def EntityId.ofText? (text : String) : Option EntityId :=
  read? (fun tree => tree.text?.bind EntityId.parse?) text

def EntityId.toJson (id : EntityId) : Json := .text id.text

def Timestamp.ofText? (text : String) : Option Timestamp :=
  read? (fun tree => tree.text?.bind Timestamp.parse?) text

def Timestamp.toJson (instant : Timestamp) : Json := .text instant.text

def Operation.ofText? (text : String) : Option Operation :=
  read? (fun tree => tree.word?.bind Operation.ofName?) text

def Operation.toJson (operation : Operation) : Json := .text operation.name

end Dossier
