import Dossier.Proofs.ChronologicalDates
import Dossier.Proofs.EntityRequests
import Dossier.Proofs.FailedRequests
import Dossier.Proofs.SpelledPaths

/-! Documents of one value. For every place of a model a document can be added that has a value
there and none elsewhere, besides its stamps; what the store sees of the value shows how it reads
a path. -/
namespace Dossier

/-! ### Values of a type -/

/-- A value of a type, not null and with nothing in it. -/
def FieldType.sample : FieldType → Json
  | .text => .text ""
  | .number => .number (.whole .zero)
  | .boolean => .bool false
  | .date => .text (⟨2, by decide⟩ : Timestamp).text
  | .array => .array []
  | .reference _ => .text (EntityId.mint 0 0).text
  | .object _ => .object []

namespace FieldType

theorem sample_ne_null (type : FieldType) : type.sample ≠ .null := by
  cases type <;> exact Json.noConfusion

theorem sample_ne_stamp (type : FieldType) : Cell.ofJson type.sample ≠ .text rosterSupply.now.text := by
  cases type with
  | reference target =>
    have apart : (EntityId.mint 0 0).text ≠ rosterSupply.now.text := by decide +kernel
    exact fun same => apart (Cell.text.inj same)
  | object fields =>
    have apart : (Json.object []).render ≠ rosterSupply.now.text := by decide +kernel
    exact fun same => apart (Cell.text.inj same)
  | _ => decide +kernel

theorem ordered_sample (type : FieldType) : type.sample.Ordered := by
  cases type with
  | object fields => exact Json.ordered_object_nil
  | _ => trivial

theorem castValue_sample (model path : String) (type : FieldType) :
    castValue model path type type.sample = .ok type.sample := by
  cases type with
  | date =>
    have denotes : Cast.instant? (.text (⟨2, by decide⟩ : Timestamp).text) = some ⟨2, by decide⟩ := by
      decide +kernel
    exact castValue_date denotes model path
  | reference target =>
    simp [sample, castValue, Cast.reference, refuse, EntityId.parse?_text, pure, Except.pure]
  | _ => rfl

/-- Whatever is seen of a field, there is a comparison that holds of it, with a value that can be
cast. -/
theorem exists_comparison (model path : String) (type : FieldType) (cell : Cell) : ∃ comparison operand result,
    castValue model path type operand = .ok result ∧
      (Condition.compare comparison result).holds path cell = true := by
  by_cases nothing : cell = .none
  · exact ⟨.eq, .null, .null, by cases type <;> rfl, Cell.isNone_iff.mpr nothing⟩
  · have follows := Condition.followOrder path cell type.sample_ne_null
    exact ⟨_, _, _, type.castValue_sample model path, (follows.exactly _).mpr ⟨nothing, rfl⟩⟩

end FieldType

/-! ### Documents of one value -/

theorem castMembers_put {model above : String} {types : Keyed FieldType} {place : List String} {type : FieldType}
    (typed : FieldType.at? types place = some type) {value : Json}
    (cast : ∀ path, castValue model path type value = .ok value) :
    castMembers model above types (Body.put [] value place) = .ok (Body.put [] value place) := by
  induction place generalizing above types with
  | nil => cases typed
  | cons name rest ih =>
    rw [Body.put_nil]
    cases rest with
    | nil =>
      change types.find? name = some type at typed
      simp only [castMembers, typed]
      exact bind_eq_ok.mpr ⟨value, cast _, rfl⟩
    | cons next others =>
      rw [FieldType.at?_cons_cons] at typed
      split at typed
      · rename_i inner declared
        simp only [castMembers, declared]
        have inside : castValue model (above ++ name) (.object inner) (.object (Body.put [] value (next :: others))) =
            .ok (.object (Body.put [] value (next :: others))) := bind_eq_ok.mpr ⟨_, ih typed, rfl⟩
        exact bind_eq_ok.mpr ⟨_, inside, rfl⟩
      · cases typed

namespace Model
variable {model : Model} {place : List String} {type : FieldType} {value : Json} {now : Timestamp}

/-- A value of a type as it is stored at a place: hashed, if it is the password. -/
def StoresSample (model : Model) (place : List String) (type : FieldType) (value : Json) : Prop :=
  value = type.sample ∨ ∃ path text, model.schema.behaviors.password = some path ∧
    Text.segments path = place ∧ value = .text text

/-- A body with one value at a place, besides its stamps. -/
def singleBody (now : Timestamp) (place : List String) (value : Json) : Body :=
  ((Body.put [] value place).insert createdKey (.text now.text)).insert updatedKey (.text now.text)

theorem hashPassword_put (type : FieldType) (salt : ByteArray) (nonempty : place ≠ []) :
    ∃ value, model.StoresSample place type value ∧
      model.hashPassword salt (Body.put [] type.sample place) = Body.put [] value place := by
  unfold hashPassword
  split
  · exact ⟨_, .inl rfl, rfl⟩
  · rename_i path password
    split
    · rename_i plain held
      split
      · exact ⟨_, .inl rfl, rfl⟩
      · obtain ⟨below, same, own⟩ := Body.text_of_put_nil nonempty (Text.segments_ne_nil path) held
        obtain rfl : below = [] := by
          cases below with
          | nil => rfl
          | cons name rest => cases type <;> cases own
        rw [List.append_nil] at same
        exact ⟨_, .inr ⟨path, _, password, same, rfl⟩, by rw [Body.set, same, Body.put_put]⟩
    · exact ⟨_, .inl rfl, rfl⟩

theorem mem_keys_singleBody {name key : String} {rest : List String}
    (member : key ∈ (singleBody now (name :: rest) value).keys) :
    key = name ∨ key = createdKey ∨ key = updatedKey := by
  rcases Keyed.mem_keys_insert.mp member with own | among
  · exact .inr (.inr own)
  · rcases Keyed.mem_keys_insert.mp among with own | inside
    · exact .inr (.inl own)
    · rw [Body.put_nil] at inside
      exact .inl (by simpa [Keyed.keys] using inside)

theorem prepareInsert_put (stamps : model.schema.behaviors.stamps = true) (supply : Supply) (index : Nat)
    (typed : FieldType.at? model.schema.fields place = some type) (free : IsFree place) :
    ∃ value, model.StoresSample place type value ∧
      model.prepareInsert supply index (.object (Body.put [] type.sample place)) =
        .ok ⟨supply.id index, singleBody supply.now place value⟩ := by
  obtain ⟨name, rest, rfl⟩ : ∃ name rest, place = name :: rest := by
    cases place with
    | nil => cases typed
    | cons name rest => exact ⟨name, rest, rfl⟩
  have other : name ≠ idKey := fun own => free name rfl (own ▸ List.mem_cons_self)
  obtain ⟨value, stores, hashed⟩ :=
    model.hashPassword_put type (supply.salt index) (List.cons_ne_nil name rest)
  have fresh : model.payloadId (supply.id index) (Body.put [] type.sample (name :: rest)) = .ok (supply.id index) := by
    simp [payloadId, Body.put_nil, Keyed.find?, other]
  have noId : idKey ∉ (singleBody supply.now (name :: rest) value).keys := by
    intro member
    rcases mem_keys_singleBody member with own | own | own
    · exact other own.symm
    all_goals
      revert own
      decide
  refine ⟨value, stores, bind_eq_ok.mpr ⟨_, fresh,
    bind_eq_ok.mpr ⟨_, castMembers_put typed fun path => type.castValue_sample model.name path, ?_⟩⟩⟩
  rw [hashed]
  have erased : (singleBody supply.now (name :: rest) value).erase idKey =
      singleBody supply.now (name :: rest) value :=
    List.filter_eq_self.mpr fun entry member => by
      have different : entry.1 ≠ idKey := fun own => noId (own ▸ List.mem_map_of_mem member)
      simpa using different
  simp only [Document.make, stamp, stamps, if_true]
  exact congrArg (fun body => Except.ok (Document.mk (supply.id index) body)) erased

/-- At free places a body of one value has what is put. -/
theorem at?_singleBody (now : Timestamp) (place : List String) (value : Json) {names : List String}
    (free : IsFree names) :
    (singleBody now place value).at? names = (Body.put [] value place).at? names := by
  cases names with
  | nil => rfl
  | cons name rest =>
    have other := free name rfl
    simp only [reservedNames, List.mem_cons, List.not_mem_nil, or_false, not_or] at other
    simp only [Body.at?_cons, singleBody, Keyed.find?_insert, Ne.symm other.2.1, Ne.symm other.2.2, if_false]

theorem find?_singleBody (now : Timestamp) {name : String} (rest : List String) (value : Json)
    (free : name ∉ reservedNames) :
    (singleBody now (name :: rest) value).find? name = some ((Json.object []).putAt rest value) := by
  have freeName : IsFree [name] := fun _ own => Option.some.inj own ▸ free
  have put := at?_singleBody now (name :: rest) value freeName
  simpa [Body.at?, Body.put_nil, Keyed.find?] using put

theorem StoresSample.ne_null (stores : model.StoresSample place type value) : value ≠ .null := by
  rcases stores with rfl | ⟨_, _, _, _, rfl⟩
  · exact type.sample_ne_null
  · exact Json.noConfusion

theorem StoresSample.ordered (stores : model.StoresSample place type value) : value.Ordered := by
  rcases stores with rfl | ⟨_, _, _, _, rfl⟩
  · exact type.ordered_sample
  · trivial

theorem StoresSample.reread (stores : model.StoresSample place type value) (levels : Nat) :
    (value.reread (levels + 1)).isSome := by
  rcases stores with rfl | ⟨_, _, _, _, rfl⟩
  · cases type <;> rfl
  · rfl

theorem ordered_singleBody (ordered : value.Ordered) : (Json.object (singleBody now place value)).Ordered :=
  have put := Body.ordered_put Json.ordered_object_nil ordered place
  Body.ordered_insert (Body.ordered_insert put _ (Json.ordered_text _)) _ (Json.ordered_text _)

/-- A body of one value can be read back, if the place is no deeper than a row may be. -/
theorem isReadable_singleBody (stores : model.StoresSample place type value) (shallow : place.length ≤ Row.levels)
    (collection : String) (id : EntityId) : (⟨collection, id, singleBody now place value⟩ : Row).IsReadable := by
  have put {levels : Nat} (within : place.length ≤ levels) :
      (Json.rereadMembers levels (Body.put [] value place)).isSome := by
    clear shallow
    have each := stores.reread
    clear stores
    induction place generalizing levels with
    | nil => rfl
    | cons name rest ih =>
      obtain ⟨levels, rfl⟩ : ∃ more, levels = more + 1 :=
        Nat.exists_eq_add_one.mpr (Nat.lt_of_lt_of_le (Nat.succ_pos _) within)
      rw [Body.put_nil, Json.isSome_rereadMembers]
      simp only [List.mem_singleton, forall_eq]
      cases rest with
      | nil => exact each levels
      | cons next others =>
        change ((Json.rereadMembers levels (Body.put [] value (next :: others))).map Json.object).isSome
        rw [Option.isSome_map]
        exact ih (by simpa using within)
  rw [Row.isReadable_iff (ordered_singleBody stores.ordered), Json.isSome_rereadMembers]
  intro entry member
  rcases Keyed.mem_insert member with rfl | among
  · rfl
  · rcases Keyed.mem_insert among with rfl | inside
    · rfl
    · exact Json.isSome_rereadMembers.mp (put shallow) entry inside

end Model

/-! ### What is seen of one value -/

theorem Body.at?_nil (names : List String) : at? [] names = none := by
  cases names with
  | nil => rfl
  | cons name rest => rw [at?_cons]; rfl

theorem notMem_of_isFree {path : String} (free : IsFree (Text.segments path)) : path ∉ reservedNames := by
  intro member
  have single : ∀ name ∈ reservedNames, (Text.segments name).head? = some name := by decide +kernel
  exact free path (single path member) member

/-- Nothing else than itself is seen of a text. -/
theorem KeyPath.cell_of_look {steps : List Step} {text : String} {cell : Cell}
    (seen : look steps (some (.text text)) = .ok cell) : cell = .none ∨ cell = .text text := by
  cases steps with
  | nil =>
    cases seen
    exact .inr rfl
  | cons step rest =>
    cases step <;> cases seen
    exact .inl rfl

/-- A place that is taken for a free one is free. -/
theorem IsFree.of_taken {names place : List String} (free : IsFree names)
    (taken : List.Forall₂ KeyPath.TakenFor names place) : IsFree place := by
  cases taken with
  | nil => exact free
  | @cons name key rest others first _ =>
    rintro _ ⟨⟩ reserved
    have whole : ∀ key ∈ reservedNames, '\x00' ∉ key.toList := by decide
    exact free name rfl ((KeyPath.isNamed_iff (whole key reserved)).mp first ▸ reserved)

section
variable {now : Timestamp} {names place : List String} {value : Json}

/-- Of the members of a body of one value a name which is free leads to the value only. -/
theorem Model.look_singleBody (free : IsFree names) (spelled : ∀ name ∈ names, KeyPath.SpellsItself name)
    (taken : List.Forall₂ KeyPath.TakenFor names place) (nonempty : names ≠ []) :
    KeyPath.look (names.map KeyPath.Step.ofSegment) (some (.object (singleBody now place value))) =
      .ok (Cell.ofJson value) := by
  cases taken with
  | nil => exact absurd rfl nonempty
  | @cons name key rest others first further =>
    have own : KeyPath.Step.ofSegment name = .member (name.toList.map Char.toNat) := spelled name List.mem_cons_self
    have freeKey : key ∉ reservedNames := free.of_taken (.cons first further) key rfl
    have alone : ∀ other ∈ (singleBody now (key :: others) value).keys,
        KeyPath.isNamed (name.toList.map Char.toNat) other = true → other = key := by
      intro other member named
      rcases mem_keys_singleBody member with same | stamp
      · exact same
      · have whole : ∀ key ∈ reservedNames, '\x00' ∉ key.toList := by decide
        have reserved : other ∈ reservedNames := by rcases stamp with rfl | rfl <;> decide
        exact absurd ((KeyPath.isNamed_iff (whole other reserved)).mp named ▸ reserved) (free name rfl)
    have held : (singleBody now (key :: others) value).find? key = some ((Json.object []).putAt others value) := by
      exact find?_singleBody now others value freeKey
    rw [List.map_cons, own, KeyPath.look_object first alone, held]
    have followed := KeyPath.follow_of_taken
      (fun other member => spelled other (List.mem_cons_of_mem _ member)) further value
    rw [KeyPath.look, followed]
    rfl

theorem Model.cell_singleBody {id : EntityId} {path : String} (free : IsFree (Text.segments path)) :
    (⟨id, singleBody now (Text.segments path) value⟩ : Document).cell path = Cell.ofJson value := by
  have noId : path ≠ idKey := fun own => notMem_of_isFree free (own ▸ List.mem_cons_self)
  have held := Body.at?_put [] value (Text.segments_ne_nil path) []
  rw [List.append_nil, ← at?_singleBody now _ value free, Body.at?_eq_under? (Text.segments_ne_nil path)] at held
  rw [Document.cell, Document.valueAt?, if_neg noId, Document.foldl_descend, held]
  rfl

theorem Model.cell_singleBody_of_apart {id : EntityId} {path : String} (free : IsFree (Text.segments path))
    (apart : Text.Apart place (Text.segments path)) :
    (⟨id, singleBody now place value⟩ : Document).cell path = .none := by
  have noId : path ≠ idKey := fun own => notMem_of_isFree free (own ▸ List.mem_cons_self)
  have missing := Body.at?_put_of_apart [] value apart
  rw [← at?_singleBody now place value free, Body.at?_eq_under? (Text.segments_ne_nil path),
    Body.at?_nil] at missing
  rw [Document.cell, Document.valueAt?, if_neg noId, Document.foldl_descend, missing]
  rfl

/-- If the value is seen, every name on the way to it spells itself. -/
theorem Model.spelled_of_look (free : IsFree names) (notNull : value ≠ .null)
    (noStamp : Cell.ofJson value ≠ .text now.text)
    (seen : KeyPath.look (names.map KeyPath.Step.ofSegment) (some (.object (singleBody now names value))) =
      .ok (Cell.ofJson value)) : ∀ name ∈ names, KeyPath.SpellsItself name := by
  have something : Cell.ofJson value ≠ .none := fun none => notNull (Cell.ofJson_eq_none.mp none)
  cases names with
  | nil => simp
  | cons name rest =>
    rw [List.map_cons] at seen
    cases own : KeyPath.Step.ofSegment name with
    | broken =>
      rw [own] at seen
      cases seen
    | member codes =>
      rw [own, KeyPath.look_member, KeyPath.entered?_by_key] at seen
      cases found : (singleBody now (name :: rest) value).keys.find? (KeyPath.isNamed codes) with
      | none =>
        rw [found] at seen
        exact absurd (Except.ok.inj seen).symm something
      | some key =>
        rw [found, Option.bind_some] at seen
        rcases mem_keys_singleBody (List.mem_of_find?_eq_some found) with rfl | stamp
        · have held : (singleBody now (key :: rest) value).find? key = some ((Json.object []).putAt rest value) := by
            exact find?_singleBody now rest value (free key rfl)
          rw [held, KeyPath.look] at seen
          refine List.forall_mem_cons.mpr ⟨KeyPath.spellsItself_of_named own (List.find?_some found), ?_⟩
          cases followed : KeyPath.follow (rest.map KeyPath.Step.ofSegment) ((Json.object []).putAt rest value) with
          | error fault =>
            rw [followed] at seen
            cases seen
          | ok result =>
            cases result with
            | none =>
              rw [followed] at seen
              exact absurd (Except.ok.inj seen).symm something
            | some inner => exact KeyPath.spellsItself_of_follow followed
        · -- What would be seen instead is a stamp.
          have text : (singleBody now (name :: rest) value).find? key = some (.text now.text) := by
            rcases stamp with rfl | rfl <;> simp [singleBody, Keyed.find?_insert]
          rw [text] at seen
          rcases KeyPath.cell_of_look seen with none | same
          · exact absurd none something
          · exact absurd same noStamp

end

/-! ### Adding one value -/

namespace Repository
variable {registry : Registry} {model : Model} {place : List String} {type : FieldType}

/-- Adds a document with a value at one place. -/
def addSample (name : String) (place : List String) (type : FieldType) : Request :=
  ⟨.addEntity, { model := name, entity := some (.object (Body.put [] type.sample place)) }, rosterSupply⟩

theorem ordered_addSample (name : String) (place : List String) (type : FieldType) :
    ∀ request ∈ [addSample name place type], request.envelope.Ordered := by
  have ordered : (Json.object (Body.put [] type.sample place)).Ordered :=
    Body.ordered_put Json.ordered_object_nil type.ordered_sample _
  simp only [List.mem_singleton, forall_eq]
  exact ⟨by simpa [addSample] using ordered, by simp [addSample], by simp [addSample]⟩

/-- A value at one place makes one row, and it can be read. -/
theorem exists_sample (known : registry.lookup model.name = .ok model)
    (stamps : model.schema.behaviors.stamps = true) (typed : FieldType.at? model.schema.fields place = some type)
    (free : IsFree place) (shallow : place.length ≤ Row.levels) : ∃ value, model.StoresSample place type value ∧
      (reached registry [addSample model.name place type]).rows =
        [⟨model.name, rosterSupply.id 0, Model.singleBody rosterSupply.now place value⟩] ∧
      ∀ row ∈ (reached registry [addSample model.name place type]).rows, row.IsReadable := by
  obtain ⟨value, stores, prepared⟩ := Model.prepareInsert_put stamps rosterSupply 0 typed free
  have rows : (reached registry [addSample model.name place type]).rows = [⟨model.name, _⟩] :=
    rows_of_addEntity known rfl prepared (by simp [Store.empty])
  refine ⟨value, stores, rows, ?_⟩
  rw [rows]
  simpa using Model.isReadable_singleBody stores shallow model.name _

end Repository
end Dossier
