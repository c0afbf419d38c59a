import Dossier.Proofs.RegisteredModels
import Dossier.Proofs.Requests
import Dossier.Proofs.SameValues
import Dossier.Proofs.StoreRows

/-! What requests write to a document, in order, and what is left at its password by the
last write that covers it. -/
namespace Dossier

inductive Write where
  | insert (payload : Json)
  | set (path : String) (value : Json)
  | unset (path : String)

namespace Write

/-- Whether a write says what is at a place: an insertion always does, any other write if it
is for the place or for one above it. -/
def covers (place : List String) : Write → Bool
  | insert _ => true
  | set path _ | unset path => (Text.segments path).isPrefixOf place

/-- What a write gives for a place that it covers. -/
def given? (place : List String) : Write → Option Json
  | insert payload => payload.under? place
  | set path value => value.under? (place.drop (Text.segments path).length)
  | unset _ => none

/-- What a write gives for a text at a place, cast. -/
def castAt (model : Model) (place : List String) (write : Write) : Except RequestError (Option Json) :=
  match write.given? place with
  | none => .ok none
  | some value => (castValue model.name (Text.dotted place) .text value).map some

/-- The last of some writes that covers a place. -/
def last? (place : List String) (writes : List Write) : Option Write :=
  (writes.filter (·.covers place)).getLast?

end Write

/-- The writes that an update payload asks for: its sets in order, then its unsets. -/
def Model.writes (model : Model) : (payload : Json) → List Write
  | .object members =>
    match members.mapM fun (key, value) => model.requested key value with
    | .ok parts =>
      (parts.flatMap (·.1)).map (fun (path, value) => .set path value) ++
        (parts.flatMap (·.2)).map .unset
    | .error _ => []
  | _ => []

namespace Repository

/-- What a plan writes to the document of a collection and an id. -/
def Plan.writes (key : String × EntityId) : Plan → List Write
  | nothing => []
  | add model entries => entries.filterMap fun entry =>
      if (model.name, entry.2.id) = key then some (.insert entry.1) else none
  | change model value _ found =>
    if found.any fun document => (model.name, document.id) = key then model.writes value else []
  | drop _ _ => []

/-- What a request writes to a document. If it fails before it writes, that is nothing. -/
def writes (registry : Registry) (store : Store) (request : Request) (key : String × EntityId) :
    List Write :=
  match plan registry store request with
  | .ok plan =>
    match plan.perform request.supply.now store with
    | .ok _ => plan.writes key
    | .error _ => []
  | .error _ => []

/-- What requests write to a document, one after the other, from a store on. -/
def history (registry : Registry) (key : String × EntityId) : Store → List Request → List Write
  | _, [] => []
  | store, request :: rest =>
    writes registry store request key ++ history registry key (after registry store request) rest

end Repository

/-- What is stored of a password that was left so: nothing, null and the empty text as they
are, any other text by its hash. -/
inductive Hasher.Settles (hasher : Hasher) : (left stored : Option Json) → Prop where
  | absent : Settles hasher none none
  | null : Settles hasher (some .null) (some .null)
  | empty : Settles hasher (some (.text "")) (some (.text ""))
  | hashed (salt : ByteArray) (plain : String) (nonempty : plain ≠ "") :
      Settles hasher (some (.text plain)) (some (.text (hasher.hash salt plain)))

/-- The last write that covers the password tells what is stored of it. -/
def Model.Determines (model : Model) (place : List String) (writes : List Write) (stored : Option Json) :
    Prop :=
  ∃ write left, Write.last? place writes = some write ∧ write.castAt model place = .ok left ∧
    model.hasher.Settles left stored

/-! ### Values that look alike to the password -/

/-- Two values at one place of which one is absent, null or a text only if the other is the
same. -/
inductive Json.AlikeText : Option Json → Option Json → Prop where
  | absent : AlikeText none none
  | present {value other : Json} (null : value = .null ↔ other = .null)
      (text : ∀ plain, value = .text plain ↔ other = .text plain) : AlikeText (some value) (some other)

namespace Json

theorem AlikeText.symm {value other : Option Json} (alike : AlikeText value other) : AlikeText other value := by
  cases alike with
  | absent => exact .absent
  | present null text => exact .present null.symm fun plain => (text plain).symm

theorem AlikeText.of_reread {value read : Json} {levels : Nat} (found : value.reread levels = some read) :
    AlikeText (some value) (some read) := by
  cases value with
  | number n =>
    obtain ⟨_, _, rfl⟩ := Option.map_eq_some_iff.mp found
    exact .present (by simp) (by simp)
  | array items =>
    cases levels with
    | zero => cases found
    | succ levels =>
      obtain ⟨_, _, rfl⟩ := Option.map_eq_some_iff.mp found
      exact .present (by simp) (by simp)
  | object members =>
    cases levels with
    | zero => cases found
    | succ levels =>
      obtain ⟨_, _, rfl⟩ := Option.map_eq_some_iff.mp found
      exact .present (by simp) (by simp)
  | _ =>
    cases found
    exact .present .rfl fun _ => .rfl

theorem AlikeText.of_same {value other : Json} (alike : value.same other = true) :
    AlikeText (some value) (some other) := by
  cases value <;> cases other <;> simp only [same, Bool.false_eq_true, beq_iff_eq] at alike
  case text.text =>
    subst alike
    exact .present .rfl fun _ => .rfl
  all_goals exact .present (by simp) (by simp)

end Json

theorem Hasher.Settles.congr {hasher : Hasher} {left stored other : Option Json}
    (settles : hasher.Settles left stored) (alike : Json.AlikeText stored other) :
    hasher.Settles left other := by
  cases alike with
  | absent => exact settles
  | present null text =>
    cases settles with
    | null =>
      rw [null.mp rfl]
      exact .null
    | empty =>
      rw [(text _).mp rfl]
      exact .empty
    | hashed salt plain nonempty =>
      rw [(text _).mp rfl]
      exact .hashed salt plain nonempty

end Dossier
