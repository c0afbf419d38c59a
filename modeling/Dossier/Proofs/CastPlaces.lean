import Dossier.Model.Update
import Dossier.Proofs.Outcomes
import Dossier.Proofs.Paths

/-! What casting and hashing put at the places of a body. -/
namespace Dossier

theorem FieldType.at?_cons_cons (types : Keyed FieldType) (name next : String) (rest : List String) :
    at? types (name :: next :: rest) =
      match types.find? name with
      | some (.object inner) => at? inner (next :: rest)
      | _ => none := rfl

/-! ### What casting puts at places -/

/-- The cast members of an object are those of declared names, each cast to its type. -/
theorem find?_of_castMembers {model above : String} {types : Keyed FieldType} {members body : Body}
    (cast : castMembers model above types members = .ok body) {name : String} {type : FieldType}
    (typed : types.find? name = some type) {value : Json} (given : members.find? name = some value) :
    ∃ result, castValue model (above ++ name) type value = .ok result ∧ body.find? name = some result := by
  induction members generalizing body with
  | nil => cases given
  | cons member rest ih =>
    obtain ⟨key, held⟩ := member
    simp only [castMembers] at cast
    by_cases same : key = name
    · subst same
      simp only [Keyed.find?, if_true, Option.some.injEq] at given
      subst given
      simp only [typed] at cast
      obtain ⟨result, own, others⟩ := bind_eq_ok.mp cast
      obtain ⟨_, _, finished⟩ := bind_eq_ok.mp others
      cases finished
      exact ⟨result, own, by simp [Keyed.find?]⟩
    · simp only [Keyed.find?, same, if_false] at given
      split at cast
      · obtain ⟨_, _, others⟩ := bind_eq_ok.mp cast
        obtain ⟨_, later, finished⟩ := bind_eq_ok.mp others
        cases finished
        simpa [Keyed.find?, same] using ih later given
      · exact ih cast given

theorem find?_none_of_castMembers {model above : String} {types : Keyed FieldType} {members body : Body}
    (cast : castMembers model above types members = .ok body) {name : String}
    (missing : members.find? name = none) : body.find? name = none := by
  induction members generalizing body with
  | nil =>
    cases cast
    rfl
  | cons member rest ih =>
    obtain ⟨key, held⟩ := member
    by_cases same : key = name
    · simp [Keyed.find?, same] at missing
    · simp only [Keyed.find?, same, if_false] at missing
      rw [castMembers] at cast
      split at cast
      · obtain ⟨_, _, others⟩ := bind_eq_ok.mp cast
        obtain ⟨_, later, finished⟩ := bind_eq_ok.mp others
        cases finished
        simpa [Keyed.find?, same] using ih later missing
      · exact ih cast missing

/-- A value that is given for a declared field is found, cast to its type, in its place. -/
theorem at?_of_castMembers {model above : String} {types : Keyed FieldType} {members body : Body}
    (cast : castMembers model above types members = .ok body) {names : List String} {type : FieldType}
    (typed : FieldType.at? types names = some type) {value : Json}
    (given : (Json.object members).under? names = some value) :
    ∃ result, castValue model (above ++ Text.dotted names) type value = .ok result ∧
      body.at? names = some result := by
  induction names generalizing above types members body with
  | nil => cases typed
  | cons name rest ih =>
    rw [Body.at?_cons]
    obtain ⟨held, here, below⟩ := Option.bind_eq_some_iff.mp given
    cases rest with
    | nil =>
      cases below
      obtain ⟨result, own, there⟩ := find?_of_castMembers cast typed here
      exact ⟨result, by rwa [Text.dotted_singleton], by simp [there, Json.under?]⟩
    | cons next others =>
      rw [FieldType.at?_cons_cons] at typed
      split at typed
      · rename_i inner declared
        obtain ⟨result, own, there⟩ := find?_of_castMembers cast declared here
        cases held with
        | object inside =>
          rw [castValue] at own
          obtain ⟨deeper, within, finished⟩ := bind_eq_ok.mp own
          cases finished
          obtain ⟨value, last, found⟩ := ih within typed below
          refine ⟨value, ?_, ?_⟩
          · rw [Text.append_dotted_cons above name (by simp)]
            exact last
          · rw [there, Option.bind_some, ← Body.at?_eq_under? (by simp), found]
        | _ => simp [Json.under?, Json.member?, Json.members?] at below
      · cases typed

/-- Nothing is found where nothing is given. -/
theorem at?_none_of_castMembers {model above : String} {types : Keyed FieldType} {members body : Body}
    (cast : castMembers model above types members = .ok body) {names : List String} {type : FieldType}
    (typed : FieldType.at? types names = some type)
    (missing : (Json.object members).under? names = none) : body.at? names = none := by
  induction names generalizing above types members body with
  | nil => cases typed
  | cons name rest ih =>
    rw [Body.at?_cons]
    cases held : members.find? name with
    | none => rw [find?_none_of_castMembers cast held, Option.bind_none]
    | some value =>
      cases rest with
      | nil => simp [Json.under?, Json.member?, Json.members?, held] at missing
      | cons next others =>
        rw [FieldType.at?_cons_cons] at typed
        split at typed
        · rename_i inner declared
          obtain ⟨result, own, there⟩ := find?_of_castMembers cast declared held
          rw [there, Option.bind_some]
          have below : value.under? (next :: others) = none := by
            simpa [Json.under?, Json.member?, Json.members?, held] using missing
          cases value with
          | object inside =>
            rw [castValue] at own
            obtain ⟨deeper, within, finished⟩ := bind_eq_ok.mp own
            cases finished
            rw [← Body.at?_eq_under? (by simp)]
            exact ih within typed below
          | null =>
            cases own
            rfl
          | _ => cases own
        · cases typed

/-- The type at some names below a type; no names lead to itself. -/
def FieldType.below? (type : FieldType) : (names : List String) → Option FieldType
  | [] => some type
  | name :: rest =>
    match type with
    | .object fields => at? fields (name :: rest)
    | _ => none

theorem FieldType.at?_append {types : Keyed FieldType} {names : List String} (nonempty : names ≠ [])
    (others : List String) : at? types (names ++ others) = (at? types names).bind (·.below? others) := by
  induction names generalizing types with
  | nil => exact absurd rfl nonempty
  | cons name rest ih =>
    cases rest with
    | nil =>
      cases others with
      | nil => cases found : at? types [name] <;> simp [found, below?]
      | cons other more =>
        rw [List.singleton_append, at?_cons_cons, at?]
        cases types.find? name with
        | none => rfl
        | some type => cases type <;> rfl
    | cons next more =>
      rw [List.cons_append, List.cons_append, at?_cons_cons, at?_cons_cons, ← List.cons_append]
      cases types.find? name with
      | none => rfl
      | some type =>
        cases type with
        | object inner => exact ih (by simp)
        | _ => rfl

/-- What is cast at some names below a value is what is given there, cast to the type there. -/
theorem under?_of_castValue {model : String} {place names : List String} {type inner : FieldType}
    {value result : Json} (nonempty : place ≠ [])
    (cast : castValue model (Text.dotted place) type value = .ok result)
    (typed : type.below? names = some inner) :
    match value.under? names with
    | none => result.under? names = none
    | some given => ∃ own, castValue model (Text.dotted (place ++ names)) inner given = .ok own ∧
        result.under? names = some own := by
  cases names with
  | nil =>
    cases typed
    exact ⟨result, by simpa using cast, rfl⟩
  | cons name rest =>
    cases type with
    | object fields =>
      cases value with
      | object members =>
        rw [castValue] at cast
        obtain ⟨body, inside, finished⟩ := bind_eq_ok.mp cast
        cases finished
        cases missing : (Json.object members).under? (name :: rest) with
        | none =>
          rw [← Body.at?_eq_under? (by simp)]
          exact at?_none_of_castMembers inside typed missing
        | some given =>
          obtain ⟨own, done, there⟩ := at?_of_castMembers inside typed missing
          refine ⟨own, ?_, ?_⟩
          · rw [Text.dotted_append nonempty (by simp)]
            exact done
          · rw [← Body.at?_eq_under? (by simp), there]
      | null =>
        cases cast
        rfl
      | _ => cases cast
    | _ => cases typed

/-! ### What hashing puts at places -/

/-- A value with another one at a place in it. -/
def Json.putAt (value : Json) (names : List String) (inner : Json) : Json :=
  match names with
  | [] => inner
  | _ => .object (Body.put (Body.entered (some value)) inner names)

/-- A value with the text at a place in it hashed, if there is one that is not empty. -/
def Json.hashedAt (hash : String → String) (value : Json) (names : List String) : Json :=
  match value.under? names with
  | some (.text plain) => if plain.isEmpty then value else value.putAt names (.text (hash plain))
  | _ => value

theorem Json.hashedAt_text (hash : String → String) {plain : String} (nonempty : plain ≠ "") :
    (Json.text plain).hashedAt hash [] = .text (hash plain) := by
  have filled : plain.isEmpty = false := by simpa using nonempty
  simp [hashedAt, under?, putAt, filled]

theorem Json.under?_putAt (value : Json) (names : List String) (inner : Json) :
    (value.putAt names inner).under? names = some inner := by
  cases names with
  | nil => rfl
  | cons name rest =>
    rw [putAt, ← Body.at?_eq_under? (by simp)]
    simpa [Json.under?] using Body.at?_put (Body.entered (some value)) inner (List.cons_ne_nil name rest) []
    simp

/-- At its place, a text that was hashed stands by its hash. -/
theorem Json.under?_hashedAt (hash : String → String) (value : Json) (names : List String) :
    (value.hashedAt hash names).under? names = (value.under? names).map (·.hashedAt hash []) := by
  cases found : value.under? names with
  | none => simp [hashedAt, found]
  | some inner =>
    cases inner with
    | text plain =>
      simp only [hashedAt, found, Option.map_some, under?]
      split
      · exact found
      · exact under?_putAt value names _
    | _ => simp [hashedAt, found, under?]

theorem Body.at?_put_onTheWay {body : Body} {names rest : List String} {value : Json} (inner : Json)
    (nonempty : names ≠ []) (held : body.at? names = some value) :
    (body.put inner (names ++ rest)).at? names = some (value.putAt rest inner) := by
  cases rest with
  | nil => simpa [Json.putAt, Json.under?] using Body.at?_put body inner nonempty []
  | cons next others =>
    rw [Body.at?_put_above body inner nonempty (List.cons_ne_nil next others), held]
    rfl

namespace Model
variable {model : Model} {path : String} {names rest : List String}

/-- At a place on the way to the password, hashing hashes what is in the value there. -/
theorem at?_hashPassword (password : model.schema.behaviors.password = some path)
    (onTheWay : Text.segments path = names ++ rest) (nonempty : names ≠ []) (salt : ByteArray)
    (body : Body) : (model.hashPassword salt body).at? names =
      (body.at? names).map (·.hashedAt (model.hasher.hash salt) rest) := by
  have here : body.get? path = (body.at? names).bind (·.under? rest) := by
    rw [Body.get?, onTheWay, Body.at?_append nonempty]
  simp only [hashPassword, password, here]
  cases held : body.at? names with
  | none => simp [held]
  | some value =>
    simp only [Option.bind_some, Option.map_some, Json.hashedAt]
    cases found : value.under? rest with
    | none => exact held
    | some inner =>
      cases inner with
      | text plain =>
        by_cases empty : plain.isEmpty = true
        · simp only [empty, if_true]
          exact held
        · simp only [empty, Body.set, onTheWay]
          exact Body.at?_put_onTheWay _ nonempty held
      | _ => exact held

/-- A set of a path to the password settles to what its value is cast to, with the password in
it hashed. -/
theorem settled_eq_map {written : String} (password : model.schema.behaviors.password = some path)
    (onTheWay : Text.segments path = Text.segments written ++ rest) (salt : ByteArray) (type : FieldType)
    (value : Json) : model.settled salt written type value =
      (castValue model.name written type value).map (·.hashedAt (model.hasher.hash salt) rest) := by
  have hashed (cast : Json) : (model.hashPassword salt (Body.set [] written cast)).get? written =
      some (cast.hashedAt (model.hasher.hash salt) rest) := by
    rw [Body.get?, at?_hashPassword password onTheWay (Text.segments_ne_nil written), ← Body.get?, Body.get?_set,
      Option.map_some]
  simp only [settled, Body.extract_fst, hashed]
  cases castValue model.name written type value <;> rfl

/-- Apart from the password, hashing changes nothing. -/
theorem at?_hashPassword_of_apart (password : model.schema.behaviors.password = some path)
    (apart : Text.Apart (Text.segments path) names) (salt : ByteArray) (body : Body) :
    (model.hashPassword salt body).at? names = body.at? names := by
  simp only [hashPassword, password]
  split
  · split
    · rfl
    · exact Body.at?_put_of_apart _ _ apart
  · rfl

end Model

/-! ### Insertion -/

/-- The top-level names that are kept for what every document carries. -/
def reservedNames : List String := [idKey, createdKey, updatedKey]

/-- A place whose top-level name is free. -/
def IsFree (names : List String) : Prop := ∀ name ∈ names.head?, name ∉ reservedNames

namespace Model
variable {model : Model} {supply : Supply} {index : Nat} {payload : Json} {document : Document}

/-- A prepared document holds what its payload is cast to, hashed. -/
theorem parts_of_prepareInsert (prepared : model.prepareInsert supply index payload = .ok document) :
    ∃ members body, payload = .object members ∧
      castMembers model.name "" model.schema.fields members = .ok body ∧
      ∀ {names}, IsFree names → 
        document.body.at? names = (model.hashPassword (supply.salt index) body).at? names := by
  cases payload with
  | object members =>
    obtain ⟨id, _, rest⟩ := bind_eq_ok.mp prepared
    obtain ⟨body, cast, finished⟩ := bind_eq_ok.mp rest
    cases finished
    refine ⟨members, body, rfl, cast, fun {names} free => ?_⟩
    cases names with
    | nil => rfl
    | cons name rest =>
      have other := free name rfl
      simp only [reservedNames, List.mem_cons, List.not_mem_nil, or_false, not_or] at other
      simp only [Body.at?_cons, Document.make, Keyed.find?_erase, Ne.symm other.1, if_false, stamp]
      split <;> simp [Keyed.find?_insert, Ne.symm other.2.1, Ne.symm other.2.2]
  | _ => cases prepared

end Model

end Dossier
