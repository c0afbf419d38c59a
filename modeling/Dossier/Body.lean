import Dossier.Json.Value
import Dossier.Text.Dotted

/-! Access to the members of an object by the segments of a dotted path. -/
namespace Dossier.Body

/-- The value at a path. Only objects are entered. -/
def at? (body : Body) : (segments : List String) → Option Json
  | [] => none
  | [name] => body.find? name
  | name :: rest => ((body.find? name).bind Json.members?).bind fun inner => at? inner rest

/-- Puts a value at a path. Objects that are missing on the way are made, and
whatever else stands there gives way to one. -/
def put (body : Body) (value : Json) : (segments : List String) → Body
  | [] => body
  | [name] => body.insert name value
  | name :: rest =>
    body.insert name (.object (put (((body.find? name).bind Json.members?).getD []) value rest))

/-- Takes the value at a path out: the value that is there, and what is left. Only
objects are entered. -/
def pull (body : Body) : (segments : List String) → Option Json × Body
  | [] => (none, body)
  | [name] => (body.find? name, body.erase name)
  | name :: rest =>
    match (body.find? name).bind Json.members? with
    | some inner =>
      let pulled := pull inner rest
      (pulled.1, body.insert name (.object pulled.2))
    | none => (none, body)

/-- What is taken out of a place is what is there. -/
theorem pull_fst (body : Body) (names : List String) : (body.pull names).1 = body.at? names := by
  induction names generalizing body with
  | nil => rfl
  | cons name rest ih =>
    cases rest with
    | nil => rfl
    | cons next others =>
      simp only [pull, at?]
      cases (body.find? name).bind Json.members? with
      | none => rfl
      | some inner => exact ih inner

/-- What is left when the value at a path is taken away. -/
def drop (body : Body) (segments : List String) : Body := (body.pull segments).2

theorem drop_singleton (body : Body) (name : String) : body.drop [name] = body.erase name := rfl

theorem drop_cons_cons (body : Body) (name next : String) (rest : List String) :
    body.drop (name :: next :: rest) =
      match (body.find? name).bind Json.members? with
      | some inner => body.insert name (.object (drop inner (next :: rest)))
      | none => body := by
  simp only [drop, pull]
  split <;> rfl

def get? (body : Body) (path : String) : Option Json := body.at? (Text.segments path)

def set (body : Body) (path : String) (value : Json) : Body := body.put value (Text.segments path)

def extract (body : Body) (path : String) : Option Json × Body := body.pull (Text.segments path)

def remove (body : Body) (path : String) : Body := body.drop (Text.segments path)

theorem extract_fst (body : Body) (path : String) : (body.extract path).1 = body.get? path :=
  body.pull_fst (Text.segments path)

theorem extract_snd (body : Body) (path : String) : (body.extract path).2 = body.remove path := rfl

end Dossier.Body
