import Dossier.Proofs.CompiledPaths
import Dossier.Proofs.OrderedBodies

/-! The laws of access by dotted paths. What is set at a path is there and what is taken out is
gone, other paths keep what they lead to, and all walks along a path end at one value; so a
password is checked against the hash that was put in its place. -/
namespace Dossier

namespace Text

/-- Paths from their first dot on: a path is a name without dots, or such a name, a dot and a
path. -/
@[elab_as_elim]
theorem first_dot_induction {motive : String → Prop} (single : ∀ name, Undotted name → motive name)
    (below : ∀ name rest, Undotted name → motive rest → motive (name ++ "." ++ rest)) (path : String) :
    motive path := by
  have every (names : List String) (nonempty : names ≠ []) (undotted : ∀ name ∈ names, Undotted name) :
      motive (dotted names) := by
    induction names with
    | nil => exact absurd rfl nonempty
    | cons name rest ih =>
      have own := undotted name List.mem_cons_self
      by_cases last : rest = []
      · rw [last, dotted_singleton]
        exact single name own
      · rw [dotted_cons name last]
        exact below name _ own (ih last fun other member => undotted other (List.mem_cons_of_mem _ member))
  exact dotted_segments path ▸ every _ (segments_ne_nil path) fun _ => undotted_of_mem_segments

theorem segments_below {name : String} (undotted : Undotted name) (rest : String) :
    segments (name ++ "." ++ rest) = name :: segments rest := by
  rw [segments_append, segments_of_undotted undotted, List.singleton_append]

end Text

namespace Body
variable {body : Body} {name path : String} {value : Json}

/-! ### From the first dot on -/

theorem get?_of_undotted (undotted : Text.Undotted name) (body : Body) : body.get? name = body.find? name := by
  rw [get?, Text.segments_of_undotted undotted]
  rfl

theorem get?_below (undotted : Text.Undotted name) (body : Body) (rest : String) :
    body.get? (name ++ "." ++ rest) = ((body.find? name).bind Json.members?).bind (·.get? rest) := by
  obtain ⟨next, others, segments⟩ := List.exists_cons_of_ne_nil (Text.segments_ne_nil rest)
  simp only [get?, Text.segments_below undotted, segments, at?]

theorem set_of_undotted (undotted : Text.Undotted name) (body : Body) (value : Json) :
    body.set name value = body.insert name value := by
  rw [set, Text.segments_of_undotted undotted]
  rfl

theorem set_below (undotted : Text.Undotted name) (body : Body) (rest : String) (value : Json) :
    body.set (name ++ "." ++ rest) value = body.insert name (.object ((entered (body.find? name)).set rest value)) := by
  obtain ⟨next, others, segments⟩ := List.exists_cons_of_ne_nil (Text.segments_ne_nil rest)
  simp only [set, Text.segments_below undotted, segments, put, entered]

theorem extract_of_undotted (undotted : Text.Undotted name) (body : Body) :
    body.extract name = (body.find? name, body.erase name) := by
  rw [extract, Text.segments_of_undotted undotted]
  rfl

theorem extract_below (undotted : Text.Undotted name) (body : Body) (rest : String) :
    body.extract (name ++ "." ++ rest) =
      match (body.find? name).bind Json.members? with
      | some inner => ((inner.extract rest).1, body.insert name (.object (inner.extract rest).2))
      | none => (none, body) := by
  obtain ⟨next, others, segments⟩ := List.exists_cons_of_ne_nil (Text.segments_ne_nil rest)
  cases within : (body.find? name).bind Json.members? <;>
    simp only [extract, Text.segments_below undotted, segments, pull, within]

/-- Access by paths goes from dot to dot. A name without dots is the key of a member; what is done
at a longer path is done, at what follows its first dot, in the object under the name before it. -/
structure GoesByDots (body : Body) (name rest : String) : Prop where
  get_single : body.get? name = body.find? name
  get_below : body.get? (name ++ "." ++ rest) = ((body.find? name).bind Json.members?).bind (·.get? rest)
  set_single : ∀ value, body.set name value = body.insert name value
  set_below : ∀ value, body.set (name ++ "." ++ rest) value =
    body.insert name (.object ((entered (body.find? name)).set rest value))
  extract_single : body.extract name = (body.find? name, body.erase name)
  extract_below : body.extract (name ++ "." ++ rest) =
    match (body.find? name).bind Json.members? with
    | some inner => ((inner.extract rest).1, body.insert name (.object (inner.extract rest).2))
    | none => (none, body)

theorem goesByDots_of_undotted (undotted : Text.Undotted name) (body : Body) (rest : String) :
    body.GoesByDots name rest where
  get_single := get?_of_undotted undotted body
  get_below := get?_below undotted body rest
  set_single := set_of_undotted undotted body
  set_below := set_below undotted body rest
  extract_single := extract_of_undotted undotted body
  extract_below := extract_below undotted body rest

/-! ### Laws -/

/-- Setting what is there changes nothing. -/
theorem set_same (ordered : (Json.object body).Ordered) (there : body.get? path = some value) :
    body.set path value = body := by
  induction path using Text.first_dot_induction generalizing body with
  | single name undotted =>
    rw [get?_of_undotted undotted] at there
    rw [set_of_undotted undotted]
    exact ordered.1.insert_held there
  | below name rest undotted ih =>
    rw [get?_below undotted] at there
    obtain ⟨inner, within, further⟩ := Option.bind_eq_some_iff.mp there
    obtain ⟨held, here, members⟩ := Option.bind_eq_some_iff.mp within
    cases held with
    | object own =>
      cases members
      -- The object on the way is left as it is, and then so is the entry that it is put back in.
      have kept : Body.set inner rest value = inner := ih (ordered_of_find? ordered here) further
      have whole : entered (body.find? name) = inner := by simp [entered, here, Json.members?]
      rw [set_below undotted, whole, kept]
      exact ordered.1.insert_held here
    | _ => cases members

/-- The laws of a path in a body, whatever stands on the way. -/
structure LawfulAt (body : Body) (path : String) : Prop where
  /-- What is set is there. -/
  there : ∀ value, (body.set path value).get? path = some value
  /-- Of two values that are set the last one stays. -/
  last : ∀ first last, (body.set path first).set path last = body.set path last
  /-- Setting what is there changes nothing. -/
  same : (Json.object body).Ordered → ∀ value, body.get? path = some value → body.set path value = body
  /-- What is taken out is what was there, if anything was, and the rest is what removal leaves. -/
  taken : body.extract path = (body.get? path, body.remove path)
  /-- Where something was taken out nothing is left. -/
  gone : (body.remove path).get? path = none
  /-- Other paths, neither above nor below, lead to what they led to, or to nothing as before. -/
  framed : ∀ other, Text.Apart (Text.segments path) (Text.segments other) →
    (∀ value, (body.set path value).get? other = body.get? other) ∧ (body.remove path).get? other = body.get? other
  /-- Documents are read by the same paths, except for their ids. -/
  read : path ≠ idKey → ∀ id, (Document.mk id body).valueAt? path = body.get? path

theorem lawfulAt (body : Body) (path : String) : body.LawfulAt path where
  there := body.get?_set path
  last first last := body.put_put first last (Text.segments path)
  same ordered _ there := set_same ordered there
  taken := Prod.ext (body.extract_fst path) (body.extract_snd path)
  gone := by
    have dropped := body.at?_drop (Text.segments_ne_nil path) []
    rwa [List.append_nil] at dropped
  framed _ apart := ⟨fun value => body.at?_put_of_apart value apart, body.at?_drop_of_apart apart⟩
  read other id := Document.valueAt?_of_ne ⟨id, body⟩ other

end Body

/-! ### Passwords -/

namespace Model
variable {model : Model} {path : String}

/-- The password of a document is a hash, and candidates are checked against it. -/
structure ChecksAgainst (model : Model) (path hash : String) (document : Document) : Prop where
  read : document.valueAt? path = some (.text hash)
  checked : hash ≠ "" → ∀ candidate, model.verifyPassword document candidate =
    match model.hasher.verify candidate hash with
    | some answer => .ok answer
    | none => .error (.password .malformedHash)

theorem checksAgainst_of_valueAt? (password : model.schema.behaviors.password = some path) {document : Document}
    {hash : String} (read : document.valueAt? path = some (.text hash)) : model.ChecksAgainst path hash document where
  read := read
  checked nonempty candidate := by
    have filled : hash.isEmpty = false := by simpa using nonempty
    simp only [verifyPassword, password, read, filled]
    cases model.hasher.verify candidate hash <;> rfl

/-- The hashes that are made of passwords are what candidates are checked against. -/
structure ReadsHashes (model : Model) (path : String) : Prop where
  /-- The password of a body is hashed where it stands. -/
  hashed : ∀ salt (body : Body) plain, body.get? path = some (.text plain) → plain ≠ "" →
    ∀ id, model.ChecksAgainst path (model.hasher.hash salt plain) ⟨id, model.hashPassword salt body⟩
  /-- The password in the value of a set, at or above it, is hashed before the value is put. -/
  settled : ∀ salt written type value cast rest plain, Text.segments path = Text.segments written ++ rest →
    castValue model.name written type value = .ok cast → cast.under? rest = some (.text plain) → plain ≠ "" →
    ∃ result, model.settled salt written type value = .ok result ∧ ∀ id (body : Body),
      model.ChecksAgainst path (model.hasher.hash salt plain) ⟨id, body.set written result⟩

theorem readsHashes (password : model.schema.behaviors.password = some path) (other : path ≠ idKey) :
    model.ReadsHashes path where
  hashed salt body plain held filled id := by
    apply checksAgainst_of_valueAt? password
    rw [Document.valueAt?_of_ne _ other]
    have hashed := model.at?_hashPassword password (List.append_nil _).symm (Text.segments_ne_nil path) salt body
    rwa [← Body.get?, ← Body.get?, held, Option.map_some, Json.hashedAt_text _ filled] at hashed
  settled salt written type value cast rest plain onTheWay own held filled := by
    refine ⟨cast.hashedAt (model.hasher.hash salt) rest, ?_, fun id body => ?_⟩
    · rw [settled_eq_map password onTheWay, own]
      rfl
    · apply checksAgainst_of_valueAt? password
      rw [Document.valueAt?_of_ne _ other, Body.get?, onTheWay, Body.set,
        Body.at?_put _ _ (Text.segments_ne_nil written), Json.under?_hashedAt, held, Option.map_some,
        Json.hashedAt_text _ filled]

end Model

/-- Access by dotted paths is lawful in every body and at every path, and passwords are checked
against what was hashed. -/
theorem lawfulAccess :
    (∀ (body : Body) name rest, Text.Undotted name → body.GoesByDots name rest) ∧
      (∀ (body : Body) path, body.LawfulAt path) ∧
      ∀ (model : Model) path, model.schema.behaviors.password = some path → path ≠ idKey → model.ReadsHashes path :=
  ⟨fun body _ rest undotted => Body.goesByDots_of_undotted undotted body rest, Body.lawfulAt,
    fun _ _ password other => Model.readsHashes password other⟩

/-- An account whose login is a text and not an object. -/
def accountBody : Body := [("login", .text "ann"), ("secret", .object [("pass", .text "sesame")])]

/-- A path into the login leads to nothing. What is set there takes the place of the login and
leaves the password alone, and the password is checked against its hash. -/
theorem account_lawfulAccess :
    let model : Model := ⟨accountSchema, markingHasher⟩
    Text.Undotted "login" ∧ accountBody.get? "login.first" = none ∧
      (∀ value, (accountBody.set "login.first" value).get? "login.first" = some value ∧
        (accountBody.set "login.first" value).get? "secret.pass" = some (.text "sesame")) ∧
      accountSchema.behaviors.password = some "secret.pass" ∧ "secret.pass" ≠ idKey ∧
      ∀ salt id, let document : Document := ⟨id, model.hashPassword salt accountBody⟩
        document.valueAt? "secret.pass" = some (.text "hash of sesame") ∧
          model.verifyPassword document "sesame" = .ok true := by
  intro model
  obtain ⟨byDots, lawful, hashes⟩ := lawfulAccess
  have undotted : Text.Undotted "login" := by decide
  have missing : accountBody.get? "login.first" = none := (byDots accountBody "login" "first" undotted).get_below
  have held : accountBody.get? "secret.pass" = some (.text "sesame") := by cbv
  have apart : Text.Apart (Text.segments "login.first") (Text.segments "secret.pass") := by
    have login : Text.segments "login.first" = ["login", "first"] := by decide +kernel
    have secret : Text.segments "secret.pass" = ["secret", "pass"] := by decide +kernel
    rw [login, secret]
    exact Text.Apart.of_ne (by decide)
  have password : accountSchema.behaviors.password = some "secret.pass" := rfl
  have other : "secret.pass" ≠ idKey := by decide
  refine ⟨undotted, missing, fun value => ?_, password, other, fun salt id => ?_⟩
  · have login := lawful accountBody "login.first"
    exact ⟨login.there value, ((login.framed _ apart).1 value).trans held⟩
  · have checks := (hashes model "secret.pass" password other).hashed salt accountBody "sesame" held (by decide) id
    have hash : model.hasher.hash salt "sesame" = "hash of sesame" := by cbv
    have verified : model.hasher.verify "sesame" "hash of sesame" = some true := by cbv
    rw [hash] at checks
    refine ⟨checks.read, ?_⟩
    rw [checks.checked (by decide), verified]

end Dossier
