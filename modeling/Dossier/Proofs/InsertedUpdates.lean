import Dossier.Proofs.AppliedUpdates
import Dossier.Proofs.CastPlaces
import Dossier.Proofs.CompiledPaths

/-! One payload for an insert and for an update. An insert casts all members and hashes the password
in what they make together; an update casts and hashes member by member. On plain payloads both
fail alike or make the same body. -/
namespace Dossier

namespace Keyed
variable {α β : Type}

theorem find?_map_values (change : String → α → β) (entries : Keyed α) (key : String) :
    find? (entries.map fun entry => (entry.1, change entry.1 entry.2)) key = (entries.find? key).map (change key) := by
  induction entries with
  | nil => rfl
  | cons first rest ih =>
    obtain ⟨name, held⟩ := first
    rw [List.map_cons, find?, find?]
    split
    · rename_i same
      rw [same]
      rfl
    · exact ih

theorem ordered_map_values (change : String → α → β) {entries : Keyed α} (ordered : entries.Ordered) :
    Ordered (entries.map fun entry => (entry.1, change entry.1 entry.2)) :=
  List.pairwise_map.mpr ordered

end Keyed

/-- A body without its two stamps. -/
def Body.unstamped (body : Body) : Body := (body.erase updatedKey).erase createdKey

namespace Model
variable {model : Model} {supply : Supply} {index number : Nat} {salt : Nat → ByteArray} {members body : Body}
  {key : String}

/-- A key that means the same to an insert and to an update: one name, no operator, and of no
member that every document has. -/
structure IsPlainKey (key : String) : Prop where
  undotted : Text.Undotted key
  noOperator : key.toList.head? ≠ some '$'
  free : key ∉ reservedNames

/-! ### Hashing member by member -/

/-- What hashing leaves under a key depends on what is there, and on nothing else. -/
theorem find?_hashPassword_congr {other : Body} (salt : ByteArray) (same : body.find? key = other.find? key) :
    (model.hashPassword salt body).find? key = (model.hashPassword salt other).find? key := by
  cases password : model.schema.behaviors.password with
  | none => simpa only [hashPassword, password] using same
  | some path =>
    obtain ⟨name, rest, place⟩ := List.exists_cons_of_ne_nil (Text.segments_ne_nil path)
    by_cases own : name = key
    · subst own
      have held : body.get? path = other.get? path := by
        rw [Body.get?, Body.get?, place, Body.at?_cons, Body.at?_cons, same]
      simp only [hashPassword, password, held]
      split
      · split
        · exact same
        · rw [Body.set, Body.set, place, Body.find?_put_cons, Body.find?_put_cons, same]
      · exact same
    · have kept (held : Body) : (model.hashPassword salt held).find? key = held.find? key := by
        simp only [hashPassword, password]
        repeat' split
        · rfl
        · rw [Body.set, place, Body.find?_put_cons, if_neg own]
        · rfl
      rw [kept, kept, same]

/-- The value of a member after the password in it is hashed. -/
def hashedAlone (model : Model) (salt : ByteArray) (key : String) (value : Json) : Json :=
  ((model.hashPassword salt [(key, value)]).find? key).getD .null

/-- Hashing neither adds members nor takes them away. -/
theorem find?_hashPassword_eq_none (salt : ByteArray) :
    (model.hashPassword salt body).find? key = none ↔ body.find? key = none := by
  cases password : model.schema.behaviors.password with
  | none => simp only [hashPassword, password]
  | some path =>
    obtain ⟨name, rest, place⟩ := List.exists_cons_of_ne_nil (Text.segments_ne_nil path)
    simp only [hashPassword, password]
    split
    · rename_i plain held
      split
      · rfl
      · rw [Body.set, place, Body.find?_put_cons]
        rw [Body.get?, place, Body.at?_cons] at held
        obtain ⟨value, there, _⟩ := Option.bind_eq_some_iff.mp held
        split
        · rename_i own
          simp [← own, there]
        · rfl
    · rfl

theorem find?_hashPassword_alone (salt : ByteArray) (key : String) (value : Json) :
    (model.hashPassword salt [(key, value)]).find? key = some (model.hashedAlone salt key value) := by
  obtain ⟨result, found⟩ : ∃ result, (model.hashPassword salt [(key, value)]).find? key = some result := by
    apply Option.ne_none_iff_exists'.mp
    rw [ne_eq, find?_hashPassword_eq_none]
    simp [Keyed.find?]
  rw [hashedAlone, found]
  rfl

/-- Hashing what members make together is hashing each of them. -/
theorem hashPassword_eq_map (salt : ByteArray) (ordered : (Json.object body).Ordered) :
    model.hashPassword salt body = body.map fun entry => (entry.1, model.hashedAlone salt entry.1 entry.2) := by
  apply (ordered_hashPassword ordered salt).1.ext (Keyed.ordered_map_values _ ordered.1)
  intro key
  rw [Keyed.find?_map_values]
  cases held : body.find? key with
  | none => rwa [Option.map_none, find?_hashPassword_eq_none]
  | some value =>
    have alone : body.find? key = Keyed.find? [(key, value)] key := by simp [Keyed.find?, held]
    rw [find?_hashPassword_congr salt alone, find?_hashPassword_alone]
    rfl

/-! ### Settling member by member -/

theorem writableType?_of_plain (plain : IsPlainKey key) : model.writableType? key = model.schema.fields.find? key := by
  have free := plain.free
  simp only [reservedNames, List.mem_cons, List.not_mem_nil, or_false] at free
  rw [writableType?, if_neg free, Schema.fieldType?, Text.segments_of_undotted plain.undotted]
  rfl

theorem settled_of_undotted (undotted : Text.Undotted key) (salt : ByteArray) (type : FieldType) (value : Json) :
    model.settled salt key type value = (castValue model.name key type value).map (model.hashedAlone salt key) := by
  have place : Text.segments key = [key] := Text.segments_of_undotted undotted
  have alone (cast : Json) : Body.set [] key cast = [(key, cast)] := by
    rw [Body.set, place]
    rfl
  have held (cast : Json) : ((model.hashPassword salt (Body.set [] key cast)).get? key).getD .null =
      model.hashedAlone salt key cast := by
    rw [alone, Body.get?, place]
    rfl
  rw [settled]
  simp only [Body.extract_fst, held]
  cases castValue model.name key type value <;> rfl

section
variable {first : ByteArray}
  (hashes : ∀ number plain, model.hasher.hash (salt number) plain = model.hasher.hash first plain)
include hashes

theorem hashedAlone_congr (number : Nat) (key : String) (value : Json) :
    model.hashedAlone (salt number) key value = model.hashedAlone first key value := by
  simp only [hashedAlone, hashPassword, hashes]

/-- The sets of plain keys are what the members are cast to, each of them hashed. -/
theorem settleAll_eq_map (plain : ∀ key ∈ members.keys, IsPlainKey key) (number : Nat) :
    model.settleAll salt number members =
      (castMembers model.name "" model.schema.fields members).map fun cast =>
        cast.map fun entry => (entry.1, model.hashedAlone first entry.1 entry.2) := by
  induction members generalizing number with
  | nil => rfl
  | cons member rest ih =>
    obtain ⟨key, value⟩ := member
    have own : IsPlainKey key := plain key List.mem_cons_self
    have others := ih (fun key listed => plain key (List.mem_cons_of_mem _ listed)) (number + 1)
    rw [settleAll, castMembers, writableType?_of_plain own]
    cases model.schema.fields.find? key with
    | none => exact others
    | some type =>
      have path : toString "" ++ toString key = key := String.empty_append
      simp only [settled_of_undotted own.undotted, path, others]
      cases castValue model.name key type value with
      | error fault => rfl
      | ok cast =>
        cases castMembers model.name "" model.schema.fields rest with
        | error fault => rfl
        | ok later =>
          have same : model.hashedAlone (salt number) key cast = model.hashedAlone first key cast :=
            hashedAlone_congr hashes number key cast
          change Except.ok ((key, model.hashedAlone (salt number) key cast) :: _) = Except.ok ((key, _) :: _)
          rw [same]

theorem parseUpdate_eq_map (plain : ∀ key ∈ members.keys, IsPlainKey key) :
    model.parseUpdate salt (.object members) =
      (castMembers model.name "" model.schema.fields members).map fun cast =>
        ⟨cast.map fun entry => (entry.1, model.hashedAlone first entry.1 entry.2), []⟩ := by
  have noOperators : ∀ entry ∈ members, entry.1.toList.head? ≠ some '$' :=
    fun entry member => (plain entry.1 (List.mem_map_of_mem member)).noOperator
  rw [parseUpdate_of_plain noOperators, settleAll_eq_map hashes plain]
  cases castMembers model.name "" model.schema.fields members <;> rfl

end

theorem prepareInsert_eq_map (plain : ∀ key ∈ members.keys, IsPlainKey key) :
    model.prepareInsert supply index (.object members) =
      (castMembers model.name "" model.schema.fields members).map fun cast =>
        .make (supply.id index) (model.stamp supply.now (model.hashPassword (supply.salt index) cast)) := by
  have unnamed : members.find? idKey = none := by
    apply Keyed.find?_eq_none.mpr
    intro listed
    exact (plain idKey listed).free List.mem_cons_self
  rw [prepareInsert, payloadId, unnamed]
  cases castMembers model.name "" model.schema.fields members <;> rfl

/-- Sets of single names, in order, make up a body of nothing. -/
theorem apply_of_undotted {sets : Body} (ordered : sets.Ordered) (undotted : ∀ key ∈ sets.keys, Text.Undotted key) :
    (⟨sets, []⟩ : Update).apply [] = sets := by
  have put : sets.foldl (fun body entry => Body.set body entry.1 entry.2) [] = Keyed.ofEntries sets := by
    apply List.foldl_rel
    · rfl
    · intro entry member held also same
      rw [same, Body.set, Text.segments_of_undotted (undotted entry.1 (List.mem_map_of_mem member))]
      rfl
  exact put.trans (Keyed.ofEntries_of_ordered ordered)

/-- Besides its stamps, a new document has the body that it is made of. -/
theorem unstamped_make {hashed : Body} (ordered : (Json.object hashed).Ordered) (unnamed : hashed.find? idKey = none)
    (id : EntityId) (now : Timestamp) : (Document.make id (model.stamp now hashed)).body.unstamped = hashed.unstamped := by
  have stamped : (model.stamp now hashed).Ordered := (ordered_stamp ordered now).1
  apply Keyed.Ordered.ext ((stamped.erase _).erase _ |>.erase _) ((ordered.1.erase _).erase _)
  intro key
  simp only [Keyed.find?_erase]
  by_cases created : createdKey = key
  · rw [if_pos created, if_pos created]
  · rw [if_neg created, if_neg created]
    by_cases updated : updatedKey = key
    · rw [if_pos updated, if_pos updated]
    · rw [if_neg updated, if_neg updated]
      by_cases named : idKey = key
      · rw [if_pos named, ← named, unnamed]
      · rw [if_neg named, stamp]
        split
        · rw [Keyed.find?_insert, Keyed.find?_insert, if_neg updated, if_neg created]
        · rfl

/-- An insert and an update of one plain payload fail alike, or make the same of nothing, besides
the stamps. -/
theorem prepareInsert_agrees_parseUpdate (ordered : (Json.object members).Ordered)
    (plain : ∀ key ∈ members.keys, IsPlainKey key)
    (hashes : ∀ number plain, model.hasher.hash (salt number) plain = model.hasher.hash (supply.salt index) plain) :
    Agree (fun document update => ∀ id now,
        (model.applyUpdate now ⟨id, []⟩ update).2.body.unstamped = document.body.unstamped)
      (model.prepareInsert supply index (.object members)) (model.parseUpdate salt (.object members)) := by
  rw [prepareInsert_eq_map plain, parseUpdate_eq_map hashes plain]
  cases casts : castMembers model.name "" model.schema.fields members with
  | error fault => exact .error fault
  | ok cast =>
    apply Agree.ok
    intro id now
    have inOrder : (Json.object cast).Ordered :=
      ⟨Json.ordered_keys_of_castMembers ordered.1 casts, Json.ordered_of_castMembers members ordered.2 casts⟩
    have keys : ∀ key ∈ cast.keys, IsPlainKey key :=
      fun key listed => plain key ((Json.keys_of_castMembers casts).subset listed)
    let hashed : Body := model.hashPassword (supply.salt index) cast
    have hashedOrder : (Json.object hashed).Ordered := ordered_hashPassword inOrder _
    have apart : hashed = cast.map fun entry => (entry.1, model.hashedAlone (supply.salt index) entry.1 entry.2) :=
      hashPassword_eq_map _ inOrder
    have named : hashed.keys = cast.keys := by
      rw [apart, Keyed.keys, Keyed.keys, List.map_map]
      rfl
    have unnamed : hashed.find? idKey = none := by
      apply Keyed.find?_eq_none.mpr
      rw [named]
      exact fun listed => (keys idKey listed).free List.mem_cons_self
    have made : (⟨hashed, []⟩ : Update).apply [] = hashed := by
      apply apply_of_undotted hashedOrder.1
      rw [named]
      exact fun key listed => (keys key listed).undotted
    rw [unstamped_make hashedOrder unnamed, Body.unstamped, erase_applyUpdate]
    simp only [← apart]
    rw [made]
    rfl

/-- An account with a password in a map, with nothing else, and a key that is not declared. -/
def accountPayload : Body := [("nick", .text "annie"), ("secret", .object [("pass", .text "sesame")])]

theorem account_agrees :
    let model : Model := ⟨accountSchema, markingHasher⟩
    let supply : Supply := ⟨⟨1, by decide⟩, EntityId.mint 0, fun _ => ByteArray.empty⟩
    (model.prepareInsert supply 0 (.object accountPayload)).isOk = true ∧
      Agree (fun document update => ∀ id now,
          (model.applyUpdate now ⟨id, []⟩ update).2.body.unstamped = document.body.unstamped)
        (model.prepareInsert supply 0 (.object accountPayload))
        (model.parseUpdate supply.salt (.object accountPayload)) := by
  intro model supply
  have prepared : (model.prepareInsert supply 0 (.object accountPayload)).isOk = true := by decide +kernel
  have ordered : (Json.object accountPayload).Ordered := by decide +kernel
  have plain : ∀ key ∈ accountPayload.keys, IsPlainKey key := by
    have all : ∀ key ∈ accountPayload.keys,
        Text.Undotted key ∧ key.toList.head? ≠ some '$' ∧ key ∉ reservedNames := by decide +kernel
    intro key listed
    obtain ⟨undotted, noOperator, free⟩ := all key listed
    exact ⟨undotted, noOperator, free⟩
  have hashes : ∀ number plain, model.hasher.hash (supply.salt number) plain =
      model.hasher.hash (supply.salt 0) plain := fun _ _ => rfl
  exact ⟨prepared, prepareInsert_agrees_parseUpdate ordered plain hashes⟩

end Model
end Dossier
