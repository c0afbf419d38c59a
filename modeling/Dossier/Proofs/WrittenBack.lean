import Dossier.Proofs.RepeatedCasts

/-! Documents that are written back as they were read. Nothing changes, exactly if no password is
hidden within what an update replaces, and the years of all dates can be named. -/
namespace Dossier

/-- Dropping makes no texts. -/
theorem Body.text_of_drop {body : Body} {names place : List String} {raw : String} (nonempty : names ≠ [])
    (held : (body.drop names).at? place = some (.text raw)) : body.at? place = some (.text raw) := by
  by_cases below : names <+: place
  · obtain ⟨rest, rfl⟩ := below
    cases (body.at?_drop nonempty rest).symm.trans held
  by_cases above : place <+: names
  · obtain ⟨rest, rfl⟩ := above
    have named : place ≠ [] := by
      rintro rfl
      cases held
    rw [at?_drop_above _ named] at held
    obtain ⟨value, found, left⟩ := Option.bind_eq_some_iff.mp held
    cases rest with
    | nil => cases left
    | cons name more =>
      cases value with
      | text _ =>
        cases left
        exact found
      | _ => cases left
  · rwa [at?_drop_of_apart _ ⟨below, above⟩] at held

namespace Model
variable {model : Model} {document : Document} {store : Store}

/-! ### Which documents can be written back -/

/-- Updates take the names at the top for the fields that are declared under them: they are no
operators, and paths of nothing else that may be written. -/
structure TakesNames (model : Model) : Prop where
  plain : ∀ key ∈ model.schema.fields.keys, key.toList.head? ≠ some '$'
  undotted : ∀ key ∈ model.schema.fields.keys, ∀ type, model.writableType? key = some type → Text.Undotted key

theorem TakesNames.of_keys (plain : ∀ key ∈ model.schema.fields.keys, key.toList.head? ≠ some '$')
    (undotted : ∀ key ∈ model.schema.fields.keys, Text.Undotted key) : model.TakesNames :=
  ⟨plain, fun key member _ _ => undotted key member⟩

/-- Every reference of a document that is an id leads to a document of the store. -/
def Resolves (model : Model) (store : Store) (document : Document) : Prop :=
  ∀ path target, (path, target) ∈ model.schema.references → ∀ raw id,
    document.body.get? path = some (.text raw) → EntityId.parse? raw = some id → store.contains target id = true

/-- Nothing is stored at a password within a map; an update would replace the map. -/
def HidesNothing (model : Model) (document : Document) : Prop :=
  ∀ path name next rest, model.schema.behaviors.password = some path →
    Text.segments path = name :: next :: rest → name ∉ reservedNames → document.body.get? path = none

/-- The dates that an update would put again are accepted. -/
def NamesDates (model : Model) (document : Document) : Prop :=
  ∀ name type value, model.writableType? name = some type →
    (model.sanitize document).find? name = some value → type.NamesDates value

/-- What is read of a document can stand for it in an update. -/
structure Returnable (model : Model) (document : Document) : Prop where
  shown : model.HidesNothing document
  dates : model.NamesDates document

theorem notMem_of_writable {name : String} {type : FieldType} (writable : model.writableType? name = some type) :
    name ∉ reservedNames := by
  unfold writableType? at writable
  split at writable
  · cases writable
  · rename_i free
    simpa [reservedNames] using free

/-! ### What is shown of a document -/

theorem text_of_sanitize {path raw : String} (other : idKey ∉ (Text.segments path).head?)
    (held : (model.sanitize document).get? path = some (.text raw)) :
    document.body.get? path = some (.text raw) := by
  obtain ⟨name, rest, segments⟩ := List.exists_cons_of_ne_nil (Text.segments_ne_nil path)
  have free : idKey ≠ name := by simpa [segments, eq_comm] using other
  have whole (body : Body) : Body.get? (body.insert idKey (.text document.id.text)) path = body.get? path := by
    rw [Body.get?, Body.get?, segments, Body.at?_cons, Body.at?_cons, Keyed.find?_insert, if_neg free]
  unfold sanitize at held
  rw [whole] at held
  split at held
  · exact Body.text_of_drop (Text.segments_ne_nil _) held
  · exact held

section
variable (shapes : model.Shapes document.body) (names : model.TakesNames)
include shapes

theorem plain_sanitize (names : model.TakesNames) {key : String} (member : key ∈ (model.sanitize document).keys) :
    key.toList.head? ≠ some '$' := by
  obtain ⟨body, same, kept, _⟩ := model.sanitize_eq document
  rw [same] at member
  rcases Keyed.mem_keys_insert.mp member with rfl | among
  · decide
  · obtain ⟨value, found⟩ := Keyed.exists_of_mem_keys among
    rcases (kept shapes).keys found with declared | ⟨_, rfl | rfl, _⟩
    · exact names.plain key declared
    · decide
    · decide

/-- A member that may be written is declared under its name. -/
theorem typed_of_shown (names : model.TakesNames) {key : String} {value : Json} {type : FieldType}
    (found : (model.sanitize document).find? key = some value) (writable : model.writableType? key = some type) :
    Text.Undotted key ∧ model.schema.fields.find? key = some type := by
  have free := notMem_of_writable writable
  simp only [reservedNames, List.mem_cons, List.not_mem_nil, or_false, not_or] at free
  obtain ⟨body, same, kept, _⟩ := model.sanitize_eq document
  rw [same, Keyed.find?_insert, if_neg (Ne.symm free.1)] at found
  have declared : key ∈ model.schema.fields.keys :=
    ((kept shapes).keys found).resolve_right fun stamp => stamp.2.1.elim free.2.1 free.2.2
  have undotted := names.undotted key declared type writable
  have typed := typed_of_writable writable
  rw [Text.segments_of_undotted undotted] at typed
  exact ⟨undotted, typed⟩

/-- What is shown at a name that may be written conforms to the type there, without a password. -/
theorem conforms_of_shown (ordered : (Json.object document.body).Ordered) {key : String} {value : Json}
    {type : FieldType} (found : (model.sanitize document).find? key = some value) (free : key ∉ reservedNames)
    (typed : model.schema.fields.find? key = some type) : type.Conforms value ∧ value.Ordered ∧
      ∀ path, model.schema.behaviors.password = some path → (Body.put [] value [key]).get? path = none := by
  simp only [reservedNames, List.mem_cons, List.not_mem_nil, or_false, not_or] at free
  obtain ⟨body, same, kept, inOrder, hidden⟩ := model.sanitize_eq document
  rw [same, Keyed.find?_insert, if_neg (Ne.symm free.1)] at found
  have whole := Body.ordered_of_find? (inOrder ordered) found
  refine ⟨FieldType.conforms_of_fitsBelow value whole ?_, whole, fun path own => ?_⟩
  · intro below inner part also there
    have inside : FieldType.at? model.schema.fields (key :: below) = some inner := by
      rw [FieldType.at?_cons, typed, Option.bind_some, also]
    have held : body.at? (key :: below) = some part := by rw [Body.at?_cons, found, Option.bind_some, there]
    cases (kept shapes).places inside held with
    | fits fits => exact fits
    | stamp instant stamped =>
      rcases stamped with stamped | stamped
      · exact absurd (List.cons.inj stamped).1 free.2.1
      · exact absurd (List.cons.inj stamped).1 free.2.2
    | password hash own at? =>
      have gone := hidden _ own
      rw [Body.get?, at?, held] at gone
      cases gone
  · have gone := hidden path own
    rw [Body.get?] at gone ⊢
    obtain ⟨name, rest, segments⟩ := List.exists_cons_of_ne_nil (Text.segments_ne_nil path)
    rw [segments, Body.at?_cons] at gone ⊢
    rw [Body.find?_put_cons, if_pos rfl]
    split
    · rename_i equal
      rw [← equal, found] at gone
      exact gone
    · rfl

end

/-! ### Updates with what is shown -/

theorem settled_of_shown (shapes : model.Shapes document.body) (ordered : (Json.object document.body).Ordered)
    (names : model.TakesNames) {key : String} {value : Json} {type : FieldType}
    (found : (model.sanitize document).find? key = some value) (writable : model.writableType? key = some type)
    (dates : type.NamesDates value) (salt : ByteArray) : model.settled salt key type value = .ok value := by
  obtain ⟨undotted, typed⟩ := typed_of_shown shapes names found writable
  obtain ⟨conforms, whole, hidden⟩ :=
    conforms_of_shown shapes ordered found (notMem_of_writable writable) typed
  refine settled_self (FieldType.castValue_of_conforms conforms whole dates _ _) (fun path own => ?_) salt
  rw [Body.set, Text.segments_of_undotted undotted]
  exact hidden path own

/-- The members that are shown of a document and may be written. -/
def returned (model : Model) (document : Document) : List (String × Json) :=
  (model.sanitize document).filter fun entry => (model.writableType? entry.1).isSome

theorem ordered_returned (ordered : (Json.object document.body).Ordered) :
    Keyed.Ordered (model.returned document) := (ordered_sanitize ordered).1.filter _

theorem mem_returned (ordered : (Json.object document.body).Ordered) {key : String} {value : Json} :
    (key, value) ∈ model.returned document ↔
      (model.sanitize document).find? key = some value ∧ ∃ type, model.writableType? key = some type := by
  rw [returned, List.mem_filter, (ordered_sanitize ordered).1.find?_eq_some, Option.isSome_iff_exists]

theorem settleAll_sanitize (shapes : model.Shapes document.body) (ordered : (Json.object document.body).Ordered)
    (names : model.TakesNames) (dates : model.NamesDates document) (salt : Nat → ByteArray) :
    model.settleAll salt 0 (model.sanitize document) = .ok (model.returned document) := by
  have inOrder : (Json.object (model.sanitize document)).Ordered := ordered_sanitize ordered
  refine settleAll_self (fun entry member type writable index => ?_) 0
  have found := inOrder.1.find?_eq_some.mpr member
  exact settled_of_shown shapes ordered names found writable (dates _ _ _ writable found) _

/-- Whatever is put by an update is accepted. -/
theorem exists_of_settleAll {salt : Nat → ByteArray} {index : Nat} {sets settled : List (String × Json)}
    (done : model.settleAll salt index sets = .ok settled) {path : String} {value : Json}
    (member : (path, value) ∈ sets) {type : FieldType} (writable : model.writableType? path = some type) :
    ∃ result, castValue model.name path type value = .ok result := by
  induction sets generalizing index settled with
  | nil => cases member
  | cons first rest ih =>
    obtain ⟨name, given⟩ := first
    rw [settleAll] at done
    rcases List.mem_cons.mp member with same | among
    · cases same
      simp only [writable] at done
      obtain ⟨_, own, _⟩ := bind_eq_ok.mp done
      obtain ⟨result, cast, _⟩ := bind_eq_ok.mp own
      exact ⟨result, cast⟩
    · split at done
      · exact ih done among
      · obtain ⟨_, _, others⟩ := bind_eq_ok.mp done
        obtain ⟨_, later, _⟩ := bind_eq_ok.mp others
        exact ih later among

/-- Of a member that may be written what is shown is what is stored, if nothing is hidden in it. -/
theorem find?_of_shown (ordered : (Json.object document.body).Ordered) (shown : model.HidesNothing document)
    {key : String} {value : Json} (free : key ∉ reservedNames)
    (found : (model.sanitize document).find? key = some value) : document.body.find? key = some value := by
  have noId : idKey ≠ key := fun same => free (same ▸ List.mem_cons_self)
  unfold sanitize at found
  rw [Keyed.find?_insert, if_neg noId] at found
  split at found
  · rename_i path own
    by_cases missing : document.body.get? path = none
    · rwa [Body.remove, Body.drop_missing ordered missing] at found
    · obtain ⟨name, rest, segments⟩ := List.exists_cons_of_ne_nil (Text.segments_ne_nil path)
      rw [Body.remove, segments, Body.find?_drop_cons] at found
      split at found
      · rename_i same
        subst same
        cases rest with
        | nil =>
          obtain ⟨_, _, none⟩ := Option.bind_eq_some_iff.mp found
          cases none
        | cons next others => exact absurd (shown path name next others own segments free) missing
      · exact found
  · exact found

/-- A document that can be written back is left as it is. -/
theorem applyUpdate_returned (shapes : model.Shapes document.body) (ordered : (Json.object document.body).Ordered)
    (names : model.TakesNames) (returnable : model.Returnable document) (now : Timestamp) :
    model.applyUpdate now document ⟨model.returned document, []⟩ = (false, document) := by
  have same : Update.apply ⟨model.returned document, []⟩ document.body = document.body := by
    refine Update.apply_self ordered.1 fun entry member => ?_
    obtain ⟨found, type, writable⟩ := (mem_returned ordered).mp member
    exact ⟨(typed_of_shown shapes names found writable).1,
      find?_of_shown ordered returnable.shown (notMem_of_writable writable) found⟩
  rw [applyUpdate, same, if_pos (Json.sameMembers_refl _)]

end Model

/-! ### What is lost -/

/-- A document that is written over the one that was read is that one again, if this leaves the
store as it was. -/
theorem Store.read_of_overwrite {store : Store} {collection : String} {document result : Document}
    (got : store.get collection document.id = .ok (some document)) (same : result.id = document.id)
    (left : store.overwrite collection result = store) : (⟨collection, result⟩ : Row).read = .ok document := by
  obtain ⟨_, row, member, key, _⟩ := row_of_get got
  have written : (⟨collection, result⟩ : Row) ∈ store.rows := by
    rw [← left]
    exact List.mem_map.mpr ⟨row, member, if_pos (by rw [key, same])⟩
  have own := (get_of_mem written (by rw [Row.key, same])).symm.trans got
  cases done : (⟨collection, result⟩ : Row).read with
  | error fault => simp [done, Except.map] at own
  | ok other => simpa [done, Except.map] using own

/-- What is not in a row is not read of it. -/
theorem Row.get?_of_read {collection path : String} {document result : Document}
    (ordered : (Json.object result.body).Ordered) (read : (⟨collection, result⟩ : Row).read = .ok document)
    (missing : result.body.get? path = none) : document.body.get? path = none := by
  have whole (body : Body) : body.get? path = (Json.object body).under? (Text.segments path) :=
    Body.at?_eq_under? (Text.segments_ne_nil path)
  rw [whole] at missing ⊢
  rcases Json.under?_of_reread (reread_of_read ordered read) (Text.segments path) with ⟨_, none⟩ | ⟨_, _, _, here, _⟩
  · exact none
  · cases missing.symm.trans here

/-- Of sets of names each name has what was set last, or what it had. -/
theorem Update.find?_apply {sets : List (String × Json)} (distinct : (Keyed.keys sets).Nodup)
    (undotted : ∀ entry ∈ sets, Text.Undotted entry.1) (body : Body) (key : String) :
    (Update.apply ⟨sets, []⟩ body).find? key = (Keyed.find? sets key).or (body.find? key) := by
  induction sets generalizing body with
  | nil => rfl
  | cons first rest ih =>
    obtain ⟨name, value⟩ := first
    obtain ⟨fresh, others⟩ := List.nodup_cons.mp distinct
    have single : body.set name value = body.insert name value := by
      rw [Body.set, Text.segments_of_undotted (undotted _ List.mem_cons_self), Body.put]
    change (Update.apply ⟨rest, []⟩ (body.set name value)).find? key = _
    rw [ih others (fun entry member => undotted entry (List.mem_cons_of_mem _ member)), single, Keyed.find?_insert,
      Keyed.find?]
    split
    · rename_i same
      subst same
      rw [Keyed.find?_eq_none.mpr fresh]
      rfl
    · rfl

namespace Model
variable {model : Model} {document : Document}

/-- A map that hides something is shown without it, and may be written. -/
theorem shown_of_hidden (shapes : model.Shapes document.body) {path name next : String} {rest : List String}
    (own : model.schema.behaviors.password = some path) (segments : Text.segments path = name :: next :: rest)
    (free : name ∉ reservedNames) (hidden : document.body.get? path ≠ none) : ∃ value,
      (model.sanitize document).find? name = some value ∧ ∃ type, model.writableType? name = some type ∧
        value.under? (next :: rest) = none := by
  simp only [reservedNames, List.mem_cons, List.not_mem_nil, or_false, not_or] at free
  have undotted : Text.Undotted name :=
    Text.undotted_of_mem_segments (show name ∈ Text.segments path by simp [segments])
  rw [Body.get?, segments, Body.at?_cons] at hidden
  cases found : document.body.find? name with
  | none => simp [found] at hidden
  | some value =>
    have declared : name ∈ model.schema.fields.keys :=
      (shapes.keys found).resolve_right fun stamp => stamp.2.1.elim free.2.1 free.2.2
    obtain ⟨type, typed⟩ := Keyed.exists_of_mem_keys declared
    have writable : model.writableType? name = some type := by
      rw [writableType?, if_neg (by simp [free]), Schema.fieldType?, Text.segments_of_undotted undotted]
      exact typed
    have left : ∃ shown, (model.sanitize document).find? name = some shown := by
      have dropped : Keyed.find? (document.body.remove path) name =
          (some value).bind (Body.without · (next :: rest)) := by
        rw [Body.remove, segments, Body.find?_drop_cons, if_pos rfl, found]
      simp only [sanitize, own]
      rw [Keyed.find?_insert, if_neg (Ne.symm free.1), dropped, Option.bind_some, Body.without]
      split <;> exact ⟨_, rfl⟩
    obtain ⟨shown, there⟩ := left
    refine ⟨shown, there, type, writable, ?_⟩
    obtain ⟨body, same, _, _, gone⟩ := model.sanitize_eq document
    rw [same, Keyed.find?_insert, if_neg (Ne.symm free.1)] at there
    have none := gone path own
    rwa [Body.get?, segments, Body.at?_cons, there, Option.bind_some] at none

/-- What is hidden within a map is gone when the map is written back. -/
theorem applyUpdate_of_hidden (shapes : model.Shapes document.body) (ordered : (Json.object document.body).Ordered)
    (names : model.TakesNames) {path name next : String} {rest : List String}
    (own : model.schema.behaviors.password = some path) (segments : Text.segments path = name :: next :: rest)
    (free : name ∉ reservedNames) (hidden : document.body.get? path ≠ none) (now : Timestamp) :
    ∃ result, model.applyUpdate now document ⟨model.returned document, []⟩ = (true, result) ∧
      result.body.get? path = none := by
  have noId : idKey ≠ name := fun same => free (same ▸ List.mem_cons_self)
  have noStamp : updatedKey ≠ name := fun same => free (same ▸ by decide)
  have gone : (Update.apply ⟨model.returned document, []⟩ document.body).get? path = none := by
    obtain ⟨left, found, type, writable, none⟩ := shown_of_hidden shapes own segments free hidden
    have kept := (ordered_returned ordered).find?_eq_some.mpr ((mem_returned ordered).mpr ⟨found, type, writable⟩)
    have single : ∀ entry ∈ model.returned document, Text.Undotted entry.1 := fun entry member => by
      obtain ⟨found, type, writable⟩ := (mem_returned ordered).mp member
      exact (typed_of_shown shapes names found writable).1
    rw [Body.get?, segments, Body.at?_cons, Update.find?_apply (ordered_returned ordered).nodup single, kept]
    exact none
  have changes : Json.sameMembers (Update.apply ⟨model.returned document, []⟩ document.body)
      document.body = false := by
    refine Bool.eq_false_iff.mpr fun same => ?_
    have alike : (Json.object (Update.apply ⟨model.returned document, []⟩ document.body)).same
      (.object document.body) = true := same
    rcases Json.under?_of_same alike (Text.segments path) with ⟨_, none⟩ | ⟨_, _, here, _⟩
    · exact hidden (by rw [Body.get?, Body.at?_eq_under? (Text.segments_ne_nil path), none])
    · rw [← Body.at?_eq_under? (Text.segments_ne_nil path), ← Body.get?, gone] at here
      cases here
  refine ⟨_, by rw [applyUpdate, changes]; rfl, ?_⟩
  dsimp only
  split
  · rw [Body.get?, segments, Body.at?_cons, Keyed.find?_insert, if_neg noStamp, ← Body.at?_cons, ← segments]
    exact gone
  · exact gone

end Model

namespace Grounds
variable {registry : Registry} {store : Store} (grounds : Grounds registry store) {name : String} {model : Model}
  (found : registry.models.find? name = some model) {document : Document} {tree : Body}

include grounds found

theorem ordered_of_present (got : store.get model.name document.id = .ok (some document))
    (presented : present registry store model document [] = .ok tree) : (Json.object tree).Ordered := by
  rw [present_nil] at presented
  exact grounds.ordered_populate (Model.ordered_sanitize (grounds.ordered found got)) presented

theorem notMem_head? {reference : String × String} (listed : reference ∈ model.schema.references) :
    idKey ∉ (Text.segments reference.1).head? := by
  obtain ⟨name, rest, segments⟩ := List.exists_cons_of_ne_nil (Text.segments_ne_nil reference.1)
  have below : ¬ Text.segments reference.1 <+: idKey :: rest := grounds.notPrefix_idKey found listed
  rintro top
  obtain rfl : name = idKey := by simpa [segments] using top
  exact below (segments ▸ List.prefix_rfl)

/-- No reference of a document whose references lead to documents dangles. -/
theorem withoutDangling_of_resolves (got : store.get model.name document.id = .ok (some document))
    (resolves : model.Resolves store document) :
    model.withoutDangling store (model.sanitize document) = model.sanitize document := by
  have ordered : (Json.object (model.sanitize document)).Ordered := Model.ordered_sanitize (grounds.ordered found got)
  refine Body.eq_of_references model.schema.references (Model.ordered_withoutDangling ordered) ordered
    (fun place outside => Model.outline?_rewriteAt outside) fun reference listed => ?_
  obtain ⟨path, target⟩ := reference
  rw [Model.get?_withoutDangling listed]
  cases held : (model.sanitize document).get? path with
  | none => rfl
  | some value =>
    have kept : danglingNull store target value = none := by
      unfold danglingNull
      split
      · rename_i raw
        cases parsed : EntityId.parse? raw with
        | none => rfl
        | some id =>
          have stored := Model.text_of_sanitize (grounds.notMem_head? found listed) held
          simp [resolves path target listed raw id stored parsed]
      · rfl
    simp [Json.replaced, kept]

/-- A document whose references lead to documents is what is read of it, folded back. -/
theorem folded_of_present (got : store.get model.name document.id = .ok (some document))
    (resolves : model.Resolves store document) (presented : present registry store model document [] = .ok tree) :
    model.folded tree = model.sanitize document := by
  rw [present_nil] at presented
  have folded := (grounds.unfolds found got (by simpa using Store.contains_of_get got) presented).folded
  rwa [grounds.withoutDangling_of_resolves found got resolves, ite_self] at folded

/-- An update with what was read of a document puts what is shown of it. -/
theorem parseUpdate_of_present (shapes : model.Shapes document.body) (names : model.TakesNames)
    (got : store.get model.name document.id = .ok (some document)) (resolves : model.Resolves store document)
    (presented : present registry store model document [] = .ok tree) (salt : Nat → ByteArray) :
    model.parseUpdate salt (.object tree) =
      (model.settleAll salt 0 (model.sanitize document)).map (⟨·, []⟩) := by
  have folded := grounds.folded_of_present found got resolves presented
  have ordered := grounds.ordered_of_present found got presented
  rw [Model.parseUpdate_of_plain (fun entry member => ?_), ← Model.settleAll_folded ordered, folded]
  have among : entry.1 ∈ (model.folded tree).keys := Model.mem_keys_folded (List.mem_map_of_mem member)
  rw [folded] at among
  exact Model.plain_sanitize shapes names among

end Grounds

namespace Repository

/-- Reads a document with all of its fields. -/
def readRequest (model : Model) (id : EntityId) (supply : Supply) : Request :=
  ⟨.getEntity, { model := model.name, id := some id.text }, supply⟩

/-- Gives a document a value. -/
def writeRequest (model : Model) (id : EntityId) (value : Body) (supply : Supply) : Request :=
  ⟨.updateEntity, { model := model.name, id := some id.text, value := some (.object value) }, supply⟩

/-- What was read of a document can be given back as its value: this succeeds and leaves the store
as it is. -/
def WritesBack (registry : Registry) (store : Store) (model : Model) (id : EntityId) (tree : Body) : Prop :=
  ∀ supply, outcome registry store (writeRequest model id tree supply) = .ok (.updated (some tree)) ∧
    after registry store (writeRequest model id tree supply) = store

/-- What is read of a document is how it is presented. -/
theorem fetched_iff_present {registry : Registry} {store : Store} {model : Model} {document : Document} {tree : Body}
    (known : registry.lookup model.name = .ok model)
    (got : store.get model.name document.id = .ok (some document)) (supply : Supply) :
    outcome registry store (readRequest model document.id supply) = .ok (.fetched (some tree)) ↔
      present registry store model document [] = .ok tree := by
  have read : (store.get model.name document.id).mapError RequestError.store = .ok (some document) := by
    rw [got]
    rfl
  rw [readRequest, outcome_getEntity]
  constructor
  · intro answered
    obtain ⟨_, looked, rest⟩ := bind_eq_ok.mp answered
    cases known.symm.trans looked
    obtain ⟨_, id, rest⟩ := bind_eq_ok.mp rest
    cases (requireId_of_text rfl _).symm.trans id
    obtain ⟨_, again, rest⟩ := bind_eq_ok.mp rest
    cases read.symm.trans again
    obtain ⟨_, presented, finished⟩ := bind_eq_ok.mp rest
    cases finished
    exact presented
  · intro presented
    exact bind_eq_ok.mpr ⟨model, known, bind_eq_ok.mpr ⟨document.id, requireId_of_text rfl _,
      bind_eq_ok.mpr ⟨some document, read, bind_eq_ok.mpr ⟨tree, presented, rfl⟩⟩⟩⟩

section
variable {registry : Registry} {store : Store} {model : Model} {document : Document} {tree : Body}
  (grounds : Grounds registry store) (found : registry.models.find? model.name = some model)
  (shapes : model.Shapes document.body) (names : model.TakesNames)
  (got : store.get model.name document.id = .ok (some document)) (resolves : model.Resolves store document)
  (presented : present registry store model document [] = .ok tree)

include grounds found shapes names got resolves presented

theorem writesBack_of_returnable (returnable : model.Returnable document) :
    WritesBack registry store model document.id tree := by
  intro supply
  have known : registry.lookup model.name = .ok model := by rw [Registry.lookup, found]
  have ordered := grounds.ordered found got
  have parsed : model.parseUpdate supply.salt (.object tree) = .ok ⟨model.returned document, []⟩ := by
    rw [grounds.parseUpdate_of_present found shapes names got resolves presented,
      Model.settleAll_sanitize shapes ordered names returnable.dates]
    rfl
  have applied := Model.applyUpdate_returned shapes ordered names returnable supply.now
  have read : (store.get model.name document.id).mapError RequestError.store = .ok (some document) := by
    rw [got]
    rfl
  constructor
  · rw [writeRequest, outcome_updateEntity]
    refine bind_eq_ok.mpr ⟨model, known, bind_eq_ok.mpr ⟨document.id, requireId_of_text rfl _, bind_eq_ok.mpr
      ⟨_, rfl, bind_eq_ok.mpr ⟨_, parsed, bind_eq_ok.mpr ⟨_, read, ?_⟩⟩⟩⟩⟩
    dsimp only
    rw [applied]
    exact bind_eq_ok.mpr ⟨tree, presented, rfl⟩
  · exact after_updateEntity known rfl rfl parsed got applied

/-- If the document is accepted as its own new value, so are the dates in it. -/
theorem namesDates_of_answer {supply : Supply} {response : Response}
    (answered : outcome registry store (writeRequest model document.id tree supply) = .ok response) :
    model.NamesDates document := by
  intro name type value writable shown
  have known : registry.lookup model.name = .ok model := by rw [Registry.lookup, found]
  rw [writeRequest, outcome_updateEntity] at answered
  obtain ⟨_, looked, rest⟩ := bind_eq_ok.mp answered
  cases known.symm.trans looked
  obtain ⟨_, _, rest⟩ := bind_eq_ok.mp rest
  obtain ⟨_, given, rest⟩ := bind_eq_ok.mp rest
  cases given
  obtain ⟨update, parsed, _⟩ := bind_eq_ok.mp rest
  rw [grounds.parseUpdate_of_present found shapes names got resolves presented] at parsed
  cases done : model.settleAll supply.salt 0 (model.sanitize document) with
  | error fault =>
    rw [done] at parsed
    cases parsed
  | ok settled =>
    obtain ⟨result, cast⟩ := Model.exists_of_settleAll done (Keyed.mem_of_find? shown) writable
    rw [← Text.dotted_segments name] at cast
    exact FieldType.namesDates_of_castValue (Text.segments_ne_nil name) cast

theorem returnable_of_writesBack (back : WritesBack registry store model document.id tree) :
    model.Returnable document := by
  have known : registry.lookup model.name = .ok model := by rw [Registry.lookup, found]
  have ordered := grounds.ordered found got
  obtain ⟨answered, kept⟩ := back rosterSupply
  have dates := namesDates_of_answer grounds found shapes names got resolves presented answered
  refine ⟨fun path name next rest own segments free => Decidable.byContradiction fun hidden => ?_, dates⟩
  have parsed : model.parseUpdate rosterSupply.salt (.object tree) = .ok ⟨model.returned document, []⟩ := by
    rw [grounds.parseUpdate_of_present found shapes names got resolves presented,
      Model.settleAll_sanitize shapes ordered names dates]
    rfl
  obtain ⟨result, applied, gone⟩ :=
    Model.applyUpdate_of_hidden shapes ordered names own segments free hidden rosterSupply.now
  have left : store.overwrite model.name result = store :=
    (after_updateEntity known rfl rfl parsed got applied).symm.trans kept
  have same : result.id = document.id := id_of_applied applied
  have inOrder : (Json.object result.body).Ordered := by
    have sets := Model.ordered_of_parseUpdate (grounds.ordered_of_present found got presented) parsed
    have whole : (Json.object (model.applyUpdate rosterSupply.now document
      ⟨model.returned document, []⟩).2.body).Ordered := Model.ordered_applyUpdate ordered sets _
    rwa [applied] at whole
  exact hidden (Row.get?_of_read inOrder (Store.read_of_overwrite got same left) gone)

end

variable {definitions : List Declaration} {hasher : Hasher} {options : CompileOptions} {base : Registry}

/-- What was read of a document whose references lead to documents can be written back without any
change exactly if nothing of it is hidden within a map and the years of its dates can be named. -/
theorem writesBack_iff (built : Registry.build definitions hasher options = .ok base)
    (free : ∀ name model, base.models.find? name = some model → idKey ∉ model.schema.fields.keys)
    (depth : Nat) (requests : List Request) (ordered : ∀ request ∈ requests, request.envelope.Ordered)
    {model : Model} (known : base.lookup model.name = .ok model) (names : model.TakesNames) {document : Document}
    {supply : Supply} {tree : Body} :
    let registry := base.withDepth depth
    let store := reached registry requests
    store.get model.name document.id = .ok (some document) → model.Resolves store document →
      outcome registry store (readRequest model document.id supply) = .ok (.fetched (some tree)) →
        (WritesBack registry store model document.id tree ↔ model.Returnable document) := by
  intro registry store got resolves answered
  have grounds : Grounds registry store := grounds_of_reached built free depth ordered
  have found : registry.models.find? model.name = some model := Registry.find?_of_lookup known
  have shapes := (shapes_of_reached built depth ordered found got).2
  have looked : registry.lookup model.name = .ok model := known
  have presented := (fetched_iff_present looked got supply).mp answered
  exact ⟨returnable_of_writesBack grounds found shapes names got resolves presented,
    writesBack_of_returnable grounds found shapes names got resolves presented⟩

theorem player_at?_ne_date (place : List String) : FieldType.at? playerSchema.fields place ≠ some .date := by
  intro typed
  cases place with
  | nil => cases typed
  | cons name rest =>
    rw [FieldType.at?_cons] at typed
    obtain ⟨type, declared, below⟩ := Option.bind_eq_some_iff.mp typed
    simp only [playerSchema, Keyed.find?] at declared
    repeat' split at declared
    all_goals cases declared
    · cases rest with
      | nil => cases below
      | cons next others =>
        rw [FieldType.below?, FieldType.at?_cons] at below
        obtain ⟨inner, here, last⟩ := Option.bind_eq_some_iff.mp below
        simp only [Keyed.find?] at here
        split at here <;> cases here
        cases others <;> cases last
    · cases rest <;> cases below

/-- The player can be written back as he is read, with his team. -/
theorem player_writesBack :
    let registry := rosterRegistry.withDepth 2
    let store := reached registry rosterRequests
    let model : Model := ⟨playerSchema, markingHasher⟩
    ∃ document tree, store.get "player" document.id = .ok (some document) ∧ model.Resolves store document ∧
      outcome registry store (readRequest model document.id rosterSupply) = .ok (.fetched (some tree)) ∧
        model.Returnable document ∧ WritesBack registry store model document.id tree := by
  intro registry store model
  have built : Registry.build roster markingHasher {} = .ok rosterRegistry := by cbv
  have names : model.TakesNames := .of_keys (by decide +kernel) (by decide +kernel)
  obtain ⟨readable, row, stored, collection, document, read⟩ := roster_readable
  have ids : (∀ row ∈ store.rows, row.collection = "player" → (Json.object row.document.body).Ordered ∧
      (Json.rereadMembers Row.levels row.document.body).bind (fun again =>
        (Body.get? again "club.team").bind Json.text?) = some (EntityId.mint 0 0).text) ∧
      store.contains "team" (EntityId.mint 0 0) = true := by decide +kernel
  have references : model.schema.references = [("club.team", "team")] := by decide +kernel
  have resolves : model.Resolves store document := by
    intro path target listed raw id held parsed
    rw [references] at listed
    cases List.mem_singleton.mp listed
    obtain ⟨ordered, own⟩ := ids.1 row stored collection
    rw [((Row.read_eq_ok ordered).mp read).2, Option.bind_some, held, Option.bind_some] at own
    cases own
    cases (EntityId.parse?_text _).symm.trans parsed
    exact ids.2
  have returnable : model.Returnable document := by
    refine ⟨fun path name next rest own => by simp [model, playerSchema] at own, ?_⟩
    intro name type value writable _ names instant below _
    refine absurd ?_ (player_at?_ne_date (Text.segments name ++ names))
    rw [FieldType.at?_append (Text.segments_ne_nil name), Model.typed_of_writable writable, Option.bind_some, below]
  have got : store.get "player" document.id = .ok (some document) :=
    Store.get_of_read stored (by rw [Row.key, collection, Row.id_of_read read]) read
  have found : registry.models.find? "player" = some model := rfl
  obtain ⟨tree, presented⟩ := exists_of_present_of_opens (Registry.isClosed_of_build built 2) found
    (fun key _ row member _ => readable row member) []
  have answered := (fetched_iff_present rfl got rosterSupply).mpr presented
  exact ⟨document, tree, got, resolves, answered, returnable,
    (writesBack_iff built roster_free 2 rosterRequests ordered_rosterRequests rfl names got resolves answered).mpr
      returnable⟩

/-- The account is stored with the hash of its password, and loses it when it is written back. -/
theorem account_not_writesBack :
    let registry := accountRegistry.withDepth 2
    let store := reached registry accountRequests
    let model : Model := ⟨accountSchema, markingHasher⟩
    Registry.build [accounts] markingHasher {} = .ok accountRegistry ∧
      ∃ document tree, store.get "account" document.id = .ok (some document) ∧ model.Resolves store document ∧
        outcome registry store (readRequest model document.id accountSupply) = .ok (.fetched (some tree)) ∧
          ¬ WritesBack registry store model document.id tree := by
  intro registry store model
  have built : Registry.build [accounts] markingHasher {} = .ok accountRegistry := by cbv
  have names : model.TakesNames := .of_keys (by decide +kernel) (by decide +kernel)
  have free : ∀ name model, accountRegistry.models.find? name = some model →
      idKey ∉ model.schema.fields.keys := by
    have all : ∀ entry ∈ accountRegistry.models, idKey ∉ entry.2.schema.fields.keys := by decide +kernel
    exact fun name model found => all _ (Keyed.mem_of_find? found)
  have hashes : (∀ row ∈ store.rows, (Json.object row.document.body).Ordered ∧
      ((Json.rereadMembers Row.levels row.document.body).bind (Body.get? · "secret.pass")).isSome = true) ∧
      ∃ row ∈ store.rows, row.collection = "account" := by decide +kernel
  have reads : ∀ row ∈ store.rows, ∃ document hash,
      row.read = .ok document ∧ document.body.get? "secret.pass" = some hash := by
    intro row member
    obtain ⟨ordered, holds⟩ := hashes.1 row member
    obtain ⟨hash, found⟩ := Option.isSome_iff_exists.mp holds
    obtain ⟨body, reread, held⟩ := Option.bind_eq_some_iff.mp found
    exact ⟨⟨row.document.id, body⟩, hash, (Row.read_eq_ok ordered).mpr ⟨rfl, reread⟩, held⟩
  obtain ⟨row, stored, collection⟩ := hashes.2
  obtain ⟨document, hash, read, held⟩ := reads row stored
  have got : store.get "account" document.id = .ok (some document) :=
    Store.get_of_read stored (by rw [Row.key, collection, Row.id_of_read read]) read
  have none : model.schema.references = [] := by decide +kernel
  have resolves : model.Resolves store document := by
    intro path target listed
    rw [none] at listed
    cases listed
  have grounds : Grounds registry store := grounds_of_reached built free 2 ordered_accountRequests
  have found : registry.models.find? model.name = some model := rfl
  have readable : ∀ row ∈ store.rows, row.IsReadable := fun row member => by
    obtain ⟨other, _, read, _⟩ := reads row member
    exact ⟨other, read⟩
  obtain ⟨tree, presented⟩ :=
    exists_of_present_of_opens grounds.closed found (fun _ _ row member _ => readable row member) []
  have known : registry.lookup model.name = .ok model := rfl
  have answered := (fetched_iff_present known got accountSupply).mpr presented
  refine ⟨built, document, tree, got, resolves, answered, fun back => ?_⟩
  have shapes := (shapes_of_reached built 2 ordered_accountRequests found got).2
  have missing := (returnable_of_writesBack grounds found shapes names got resolves presented back).shown
    "secret.pass" "secret" "pass" [] rfl (by decide +kernel) (by decide)
  cases missing.symm.trans held

end Repository
end Dossier
