import Dossier.Proofs.CastPlaces
import Dossier.Proofs.WrittenRows

/-! The forms of stored values. Whatever is written, by whole documents or path by path, what
stands at a place of a body has the form of the type that is declared for the place. -/
namespace Dossier

/-! ### Forms -/

/-- What a field of a type may hold. Of the members of an object only the keys count. -/
inductive FieldType.Fits : FieldType → Json → Prop where
  | null (type : FieldType) : Fits type .null
  | text (value : String) : Fits .text (.text value)
  | number (n : Number) : Fits .number (.number n)
  | boolean (value : Bool) : Fits .boolean (.bool value)
  | date (instant : Timestamp) : Fits .date (.text instant.text)
  | array (items : List Json) : Fits .array (.array items)
  | reference (target : String) (id : EntityId) : Fits (.reference target) (.text id.text)
  | object {fields : Keyed FieldType} {members : Body} (declared : ∀ key ∈ members.keys, key ∈ fields.keys) :
      Fits (.object fields) (.object members)

theorem Cast.fits_of_number {value result : Json} (cast : number value = .ok result) :
    FieldType.Fits .number result := by
  cases value with
  | text given =>
    simp only [number] at cast
    repeat' split at cast
    all_goals cases cast
    · exact .null _
    · exact .number _
  | number n =>
    cases cast
    exact .number n
  | bool b =>
    cases cast
    exact .number _
  | _ => cases cast

theorem Cast.fits_of_boolean {value result : Json} (cast : boolean value = .ok result) :
    FieldType.Fits .boolean result := by
  cases value <;> simp only [boolean] at cast
  all_goals repeat' split at cast
  all_goals cases cast
  all_goals exact .boolean _

theorem Cast.fits_of_date {value result : Json} (cast : date value = .ok result) :
    FieldType.Fits .date result := by
  simp only [date] at cast
  split at cast <;> cases cast
  exact .date _

theorem Cast.fits_of_reference {target : String} {value result : Json}
    (cast : reference target value = .ok result) : FieldType.Fits (.reference target) result := by
  unfold reference at cast
  cases value with
  | text raw =>
    dsimp only [bind, Except.bind, pure, Except.pure] at cast
    split at cast <;> cases cast
    exact .reference target _
  | object members =>
    dsimp only [bind, Except.bind, pure, Except.pure] at cast
    split at cast
    · split at cast <;> cases cast
      exact .reference target _
    · cases cast
  | _ => cases cast

/-- Only declared keys are left of the members that are cast. -/
theorem declared_of_castMembers {model above : String} {fields : Keyed FieldType} {members body : Body}
    (cast : castMembers model above fields members = .ok body) : ∀ key ∈ body.keys, key ∈ fields.keys := by
  induction members generalizing body with
  | nil =>
    cases cast
    simp [Keyed.keys]
  | cons member rest ih =>
    obtain ⟨name, value⟩ := member
    rw [castMembers] at cast
    split at cast
    · rename_i type declared
      obtain ⟨result, _, others⟩ := bind_eq_ok.mp cast
      obtain ⟨more, later, finished⟩ := bind_eq_ok.mp others
      cases finished
      intro key member
      rcases List.mem_cons.mp member with rfl | among
      · exact List.mem_map_of_mem (Keyed.mem_of_find? declared)
      · exact ih later key among
    · exact ih cast

theorem FieldType.fits_of_castValue {model path : String} {type : FieldType} {value result : Json}
    (cast : castValue model path type value = .ok result) : type.Fits result := by
  by_cases null : value = .null
  · subst null
    cases type <;> cases cast <;> exact .null _
  cases type with
  | object fields =>
    cases value with
    | object members =>
      obtain ⟨body, inside, finished⟩ := bind_eq_ok.mp cast
      cases finished
      exact .object (declared_of_castMembers inside)
    | _ => simp [castValue] at cast null
  | text =>
    simp [castValue] at cast
    have kept := ok_of_refuse cast
    cases value <;> cases kept <;> exact .text _
  | number =>
    simp [castValue] at cast
    exact Cast.fits_of_number (ok_of_refuse cast)
  | boolean =>
    simp [castValue] at cast
    exact Cast.fits_of_boolean (ok_of_refuse cast)
  | date =>
    simp [castValue] at cast
    exact Cast.fits_of_date (ok_of_refuse cast)
  | array =>
    simp [castValue] at cast
    have kept := ok_of_refuse cast
    cases value <;> cases kept <;> exact .array _
  | reference target =>
    simp [castValue] at cast
    exact Cast.fits_of_reference (ok_of_refuse cast)

/-- A value keeps its form when it is read back. -/
theorem FieldType.Fits.reread {type : FieldType} {value again : Json} {levels : Nat} (fits : type.Fits value)
    (read : value.reread levels = some again) : type.Fits again := by
  cases fits with
  | number n =>
    obtain ⟨other, _, rfl⟩ := Option.map_eq_some_iff.mp read
    exact .number other
  | array items =>
    cases levels with
    | zero => cases read
    | succ levels =>
      obtain ⟨others, _, rfl⟩ := Option.map_eq_some_iff.mp read
      exact .array others
  | object declared =>
    cases levels with
    | zero => cases read
    | succ levels =>
      obtain ⟨members, inside, rfl⟩ := Option.map_eq_some_iff.mp read
      refine .object fun key member => declared key ?_
      rwa [Keyed.keys, Json.keys_of_rereadMembers inside] at member
  | null =>
    cases read
    exact .null _
  | text value =>
    cases read
    exact .text value
  | boolean value =>
    cases read
    exact .boolean value
  | date instant =>
    cases read
    exact .date instant
  | reference target id =>
    cases read
    exact .reference target id

namespace Model
variable {model : Model} {body : Body} {place : List String} {type : FieldType} {value : Json}

/-- What may stand at a place of a declared type. A stamp and the hash of a password stand
where they do whatever is declared there. -/
inductive Allows (model : Model) (place : List String) : FieldType → Json → Prop where
  | fits {type : FieldType} {value : Json} (fits : type.Fits value) : Allows model place type value
  | stamp {type : FieldType} (instant : Timestamp) (stamped : place = [createdKey] ∨ place = [updatedKey]) :
      Allows model place type (.text instant.text)
  | password {type : FieldType} {path : String} (hash : String)
      (password : model.schema.behaviors.password = some path) (same : Text.segments path = place) :
      Allows model place type (.text hash)

/-- A key that a body may have at the top, with the value under it: a declared one or a stamp. -/
def AllowsKey (model : Model) (key : String) (value : Json) : Prop :=
  key ∈ model.schema.fields.keys ∨ model.schema.behaviors.stamps = true ∧
    (key = createdKey ∨ key = updatedKey) ∧ ∃ instant : Timestamp, value = .text instant.text

/-- All keys at the top of a body are declared or stamps, and whatever stands at a declared
place of it may stand there. -/
structure Shapes (model : Model) (body : Body) : Prop where
  keys : ∀ {key value}, body.find? key = some value → model.AllowsKey key value
  places : ∀ {place type value}, FieldType.at? model.schema.fields place = some type →
    body.at? place = some value → model.Allows place type value

/-- A value may be put at a place: it and what stands below it may stand there. -/
def Fills (model : Model) (place : List String) (value : Json) : Prop :=
  ∀ below type inner, FieldType.at? model.schema.fields (place ++ below) = some type →
    value.under? below = some inner → model.Allows (place ++ below) type inner

end Model

/-! ### Writing at one place -/

theorem FieldType.mem_keys_of_at? {fields : Keyed FieldType} {name : String} {rest : List String}
    {type : FieldType} (typed : at? fields (name :: rest) = some type) : name ∈ fields.keys := by
  refine Decidable.byContradiction fun missing => ?_
  have none := Keyed.find?_eq_none.mpr missing
  cases rest with
  | nil => cases none.symm.trans typed
  | cons next others =>
    rw [at?_cons_cons, none] at typed
    cases typed

/-- A place above a declared one is that of an object, with the next name declared. -/
theorem FieldType.object_of_at?_append {fields : Keyed FieldType} {place rest : List String} {name : String}
    {type outer : FieldType} (typed : at? fields (place ++ name :: rest) = some type)
    (above : at? fields place = some outer) :
    ∃ inner : Keyed FieldType, outer = .object inner ∧ name ∈ inner.keys := by
  have nonempty : place ≠ [] := by
    rintro rfl
    cases above
  rw [at?_append nonempty, above, Option.bind_some] at typed
  cases outer with
  | object inner => exact ⟨inner, rfl, mem_keys_of_at? typed⟩
  | _ => cases typed

/-- What stands at a place stands below objects that have the names on the way to it. -/
theorem Body.object_of_at?_append {body : Body} {value : Json} {outer rest : List String} {name : String}
    (nonempty : outer ≠ []) (held : body.at? (outer ++ name :: rest) = some value) :
    ∃ members, body.at? outer = some (.object members) ∧ name ∈ Keyed.keys members := by
  rw [Body.at?_append nonempty] at held
  obtain ⟨above, found, below⟩ := Option.bind_eq_some_iff.mp held
  cases above with
  | object members =>
    obtain ⟨next, here, _⟩ := Option.bind_eq_some_iff.mp below
    exact ⟨members, found, List.mem_map_of_mem (Keyed.mem_of_find? here)⟩
  | _ => cases below

theorem Body.mem_keys_put {body : Body} {value : Json} {name key : String} {rest : List String}
    (member : key ∈ (body.put value (name :: rest)).keys) : key = name ∨ key ∈ body.keys := by
  cases rest with
  | nil => exact Keyed.mem_keys_insert.mp member
  | cons next others => exact Keyed.mem_keys_insert.mp member

theorem Body.mem_keys_drop {body : Body} {names : List String} {key : String}
    (member : key ∈ (body.drop names).keys) : key ∈ body.keys := by
  cases names with
  | nil => exact member
  | cons name rest =>
    refine Decidable.byContradiction fun missing => ?_
    refine absurd member (Keyed.find?_eq_none.mp ?_)
    have none := Keyed.find?_eq_none.mpr missing
    rw [find?_drop_cons]
    split
    · rename_i same
      rw [same, none, Option.bind_none]
    · exact none

namespace Model
variable {model : Model} {body : Body} {place : List String} {value : Json}

/-- Only an object type allows an object, and only one of declared keys. -/
theorem Allows.object {type : FieldType} {members : Body} (allows : model.Allows place type (.object members)) :
    ∃ fields : Keyed FieldType, type = .object fields ∧ ∀ key ∈ members.keys, key ∈ fields.keys := by
  cases allows with
  | fits fits =>
    cases fits with
    | object declared => exact ⟨_, rfl, declared⟩

/-- The way to a place is declared: whatever is declared on it is an object with the next name
among its fields. -/
structure Leads (model : Model) (place : List String) : Prop where
  top : ∀ {name rest}, place = name :: rest → name ∈ model.schema.fields.keys
  above : ∀ {outer name rest type}, place = outer ++ name :: rest →
    FieldType.at? model.schema.fields outer = some type →
      ∃ inner : Keyed FieldType, type = .object inner ∧ name ∈ inner.keys

theorem leads_of_typed {type : FieldType} (typed : FieldType.at? model.schema.fields place = some type) :
    model.Leads place where
  top same := FieldType.mem_keys_of_at? (same ▸ typed)
  above same found := FieldType.object_of_at?_append (same ▸ typed) found

theorem Shapes.leads (shapes : model.Shapes body) (keys : ∀ key ∈ body.keys, key ∈ model.schema.fields.keys)
    (held : body.at? place = some value) : model.Leads place where
  top same := by
    subst same
    rw [Body.at?_cons] at held
    obtain ⟨_, found, _⟩ := Option.bind_eq_some_iff.mp held
    exact keys _ (List.mem_map_of_mem (Keyed.mem_of_find? found))
  above {outer name rest type} same typed := by
    subst same
    have nonempty : outer ≠ [] := by
      rintro rfl
      cases typed
    obtain ⟨members, found, member⟩ := Body.object_of_at?_append nonempty held
    obtain ⟨fields, same, declared⟩ := (shapes.places typed found).object
    exact ⟨fields, same, declared name member⟩

/-- The members that a body has at a place of an object type have declared keys. -/
theorem Shapes.declared (shapes : model.Shapes body) {fields : Keyed FieldType}
    (typed : FieldType.at? model.schema.fields place = some (.object fields)) :
    ∀ key ∈ (Body.entered (body.at? place)).keys, key ∈ fields.keys := by
  cases held : body.at? place with
  | none => simp [Body.entered, Keyed.keys]
  | some value =>
    cases value with
    | object members =>
      obtain ⟨_, same, declared⟩ := (shapes.places typed held).object
      cases same
      exact declared
    | _ => simp [Body.entered, Json.members?, Keyed.keys]

theorem Shapes.put (shapes : model.Shapes body) (nonempty : place ≠ []) (leads : model.Leads place)
    (fills : model.Fills place value) : model.Shapes (body.put value place) where
  keys {key held} found := by
    obtain ⟨name, rest, rfl⟩ := List.exists_cons_of_ne_nil nonempty
    rw [Body.find?_put_cons] at found
    split at found
    · rename_i same
      exact .inl (same ▸ leads.top rfl)
    · exact shapes.keys found
  places {other type held} typed found := by
    by_cases below : place <+: other
    · obtain ⟨rest, rfl⟩ := below
      rw [Body.at?_put _ _ nonempty] at found
      exact fills rest type held typed found
    by_cases above : other <+: place
    · obtain ⟨rest, rfl⟩ := above
      obtain ⟨name, more, rfl⟩ : ∃ name more, rest = name :: more :=
        List.exists_cons_of_ne_nil fun empty => below (by simp [empty])
      have named : other ≠ [] := by
        rintro rfl
        cases typed
      obtain ⟨fields, rfl, member⟩ := leads.above rfl typed
      rw [Body.at?_put_above _ _ named (by simp)] at found
      cases found
      refine .fits (.object fun key among => ?_)
      rcases Body.mem_keys_put among with rfl | earlier
      · exact member
      · exact shapes.declared typed key earlier
    · rw [Body.at?_put_of_apart _ _ ⟨below, above⟩] at found
      exact shapes.places typed found

/-- Dropping takes nothing in. -/
theorem Shapes.drop (shapes : model.Shapes body) (nonempty : place ≠ []) : model.Shapes (body.drop place) where
  keys {key held} found := by
    obtain ⟨name, rest, rfl⟩ := List.exists_cons_of_ne_nil nonempty
    rw [Body.find?_drop_cons] at found
    split at found
    · rename_i same
      subst same
      obtain ⟨value, before, left⟩ := Option.bind_eq_some_iff.mp found
      rcases shapes.keys before with declared | ⟨stamps, own, instant, rfl⟩
      · exact .inl declared
      · cases rest <;> cases left
        exact .inr ⟨stamps, own, instant, rfl⟩
    · exact shapes.keys found
  places {other type held} typed found := by
    by_cases below : place <+: other
    · obtain ⟨rest, rfl⟩ := below
      rw [Body.at?_drop _ nonempty] at found
      cases found
    by_cases above : other <+: place
    · obtain ⟨rest, rfl⟩ := above
      have named : other ≠ [] := by
        rintro rfl
        cases typed
      rw [Body.at?_drop_above _ named] at found
      obtain ⟨value, before, left⟩ := Option.bind_eq_some_iff.mp found
      have allowed := shapes.places typed before
      cases rest with
      | nil => cases left
      | cons name more =>
        cases value with
        | object members =>
          cases left
          obtain ⟨fields, rfl, declared⟩ := allowed.object
          exact .fits (.object fun key member => declared key (Body.mem_keys_drop member))
        | _ =>
          cases left
          exact allowed
    · rw [Body.at?_drop_of_apart _ ⟨below, above⟩] at found
      exact shapes.places typed found

/-- A stamp stands at its place whatever is declared there. -/
theorem Shapes.stamp (shapes : model.Shapes body) (stamps : model.schema.behaviors.stamps = true) {key : String}
    (own : key = createdKey ∨ key = updatedKey) (instant : Timestamp) :
    model.Shapes (body.insert key (.text instant.text)) where
  keys {other held} found := by
    rw [Keyed.find?_insert] at found
    split at found
    · rename_i same
      cases found
      exact .inr ⟨stamps, same ▸ own, instant, rfl⟩
    · exact shapes.keys found
  places {other type held} typed found := by
    cases other with
    | nil => cases typed
    | cons name rest =>
      rw [Body.at?_cons, Keyed.find?_insert] at found
      split at found
      · rename_i same
        subst same
        cases rest with
        | nil =>
          cases found
          exact .stamp instant (own.imp (congrArg ([·])) (congrArg ([·])))
        | cons _ _ => cases found
      · exact shapes.places typed (by rw [Body.at?_cons, found])

theorem shapes_nil : model.Shapes [] where
  keys found := by cases found
  places {place type value} typed found := by
    cases place with
    | nil => cases typed
    | cons name rest => cases (Body.at?_cons [] name rest).symm.trans found

/-- Hashing puts a text where one is. -/
theorem Shapes.hashPassword (shapes : model.Shapes body)
    (keys : ∀ key ∈ body.keys, key ∈ model.schema.fields.keys) (salt : ByteArray) : model.Shapes (model.hashPassword salt body) := by
  unfold Model.hashPassword
  split
  · exact shapes
  · rename_i path password
    split
    · rename_i plain held
      split
      · exact shapes
      · refine shapes.put (Text.segments_ne_nil path) (shapes.leads keys held) ?_
        intro below type inner _ found
        cases below with
        | nil =>
          cases found
          exact .password _ password (by simp)
        | cons _ _ => cases found
    · exact shapes

/-- What is cast to the type at a place may be put there. -/
theorem fills_of_castValue {type : FieldType} {given : Json} (nonempty : place ≠ [])
    (typed : FieldType.at? model.schema.fields place = some type)
    (cast : castValue model.name (Text.dotted place) type given = .ok value) : model.Fills place value := by
  intro below inner held also found
  rw [FieldType.at?_append nonempty, typed, Option.bind_some] at also
  have inside := under?_of_castValue nonempty cast also
  cases missing : given.under? below with
  | none =>
    rw [missing] at inside
    cases inside.symm.trans found
  | some part =>
    rw [missing] at inside
    obtain ⟨own, done, there⟩ := inside
    cases there.symm.trans found
    exact .fits (FieldType.fits_of_castValue done)

/-! ### Documents -/

theorem shapes_of_castMembers {members : Body}
    (cast : castMembers model.name "" model.schema.fields members = .ok body) : model.Shapes body where
  keys found := .inl (declared_of_castMembers cast _ (List.mem_map_of_mem (Keyed.mem_of_find? found)))
  places {place type held} typed found := by
    cases given : (Json.object members).under? place with
    | none => cases (at?_none_of_castMembers cast typed given).symm.trans found
    | some value =>
      obtain ⟨result, own, there⟩ := at?_of_castMembers cast typed given
      cases there.symm.trans found
      exact .fits (FieldType.fits_of_castValue own)

theorem shapes_of_prepareInsert {supply : Supply} {index : Nat} {payload : Json} {document : Document}
    (prepared : model.prepareInsert supply index payload = .ok document) : model.Shapes document.body := by
  cases payload with
  | object members =>
    obtain ⟨id, _, rest⟩ := bind_eq_ok.mp prepared
    obtain ⟨body, cast, finished⟩ := bind_eq_ok.mp rest
    cases finished
    have hashed := (shapes_of_castMembers cast).hashPassword (declared_of_castMembers cast) (supply.salt index)
    have stamped : model.Shapes (model.stamp supply.now (model.hashPassword (supply.salt index) body)) := by
      unfold Model.stamp
      split
      · rename_i stamps
        exact (hashed.stamp stamps (.inl rfl) supply.now).stamp stamps (.inr rfl) supply.now
      · exact hashed
    exact stamped.drop (List.cons_ne_nil idKey [])
  | _ => cases prepared

/-! ### Updates -/

theorem typed_of_writable {path : String} {type : FieldType} (writable : model.writableType? path = some type) :
    FieldType.at? model.schema.fields (Text.segments path) = some type := by
  unfold writableType? at writable
  split at writable
  · cases writable
  · exact writable

/-- What a set of a path settles to may be put there. -/
theorem fills_of_settled {salt : ByteArray} {path : String} {type : FieldType} {given : Json}
    (typed : FieldType.at? model.schema.fields (Text.segments path) = some type)
    (settled : model.settled salt path type given = .ok value) : model.Fills (Text.segments path) value := by
  obtain ⟨cast, own, finished⟩ := bind_eq_ok.mp settled
  cases finished
  have nonempty := Text.segments_ne_nil path
  rw [← Text.dotted_segments path] at own
  -- The value is hashed in a body of its own, of which nothing else can be told.
  have scratch : model.Shapes (Body.set [] path cast) :=
    shapes_nil.put nonempty (leads_of_typed typed) (fills_of_castValue nonempty typed own)
  have keys : ∀ key ∈ (Body.set [] path cast).keys, key ∈ model.schema.fields.keys := by
    obtain ⟨name, rest, same⟩ := List.exists_cons_of_ne_nil nonempty
    intro key member
    rw [Body.set, same] at member
    rcases Body.mem_keys_put member with rfl | among
    · exact FieldType.mem_keys_of_at? (same ▸ typed)
    · cases among
  have hashed := scratch.hashPassword keys salt
  intro below inner held also found
  rw [Body.extract_fst] at found
  cases there : (model.hashPassword salt (Body.set [] path cast)).get? path with
  | none =>
    rw [there] at found
    cases below with
    | nil =>
      cases found
      exact .fits (.null _)
    | cons _ _ => cases found
  | some result =>
    rw [there] at found
    refine hashed.places also ?_
    rw [Body.at?_append nonempty, ← Body.get?, there]
    exact found

theorem settled_of_settleAll {salt : Nat → ByteArray} {index : Nat} {sets settled : List (String × Json)}
    (done : model.settleAll salt index sets = .ok settled) {path : String} (member : (path, value) ∈ settled) :
    ∃ type given, ∃ index, (path, given) ∈ sets ∧ model.writableType? path = some type ∧
      model.settled (salt index) path type given = .ok value := by
  induction sets generalizing index settled with
  | nil =>
    cases done
    cases member
  | cons first rest ih =>
    obtain ⟨name, given⟩ := first
    rw [settleAll] at done
    split at done
    · obtain ⟨type, other, number, listed, rest⟩ := ih done member
      exact ⟨type, other, number, List.mem_cons_of_mem _ listed, rest⟩
    · rename_i type writable
      obtain ⟨result, own, others⟩ := bind_eq_ok.mp done
      obtain ⟨more, later, finished⟩ := bind_eq_ok.mp others
      cases finished
      rcases List.mem_cons.mp member with same | among
      · cases same
        exact ⟨type, given, index, List.mem_cons_self, writable, own⟩
      · obtain ⟨type, other, number, listed, rest⟩ := ih later among
        exact ⟨type, other, number, List.mem_cons_of_mem _ listed, rest⟩

theorem shapes_apply {salt : Nat → ByteArray} {payload : Json} {update : Update}
    (parsed : model.parseUpdate salt payload = .ok update) (shapes : model.Shapes body) :
    model.Shapes (update.apply body) := by
  cases payload with
  | object members =>
    obtain ⟨parts, _, rest⟩ := bind_eq_ok.mp parsed
    obtain ⟨sets, settled, finished⟩ := bind_eq_ok.mp rest
    cases finished
    refine List.foldlRecOn _ Body.remove ?_ fun held inside path _ => inside.drop (Text.segments_ne_nil path)
    refine List.foldlRecOn _ _ shapes fun held inside entry member => ?_
    obtain ⟨type, given, index, _, writable, own⟩ := settled_of_settleAll settled member
    have typed := typed_of_writable writable
    exact inside.put (Text.segments_ne_nil entry.1) (leads_of_typed typed) (fills_of_settled typed own)
  | _ => cases parsed

theorem shapes_applyUpdate {salt : Nat → ByteArray} {payload : Json} {update : Update} {document : Document}
    (parsed : model.parseUpdate salt payload = .ok update) (shapes : model.Shapes document.body)
    (now : Timestamp) : model.Shapes (model.applyUpdate now document update).2.body := by
  have applied := shapes_apply parsed shapes
  simp only [applyUpdate]
  split
  · exact applied
  · split
    · rename_i stamps
      exact applied.stamp stamps (.inr rfl) now
    · exact applied

/-! ### Rows -/

theorem Shapes.reread {again : Body} {levels : Nat} (shapes : model.Shapes body)
    (read : Json.rereadMembers levels body = some again) : model.Shapes again where
  keys {key held} found := by
    rcases Json.find?_of_rereadMembers read key with ⟨_, none⟩ | ⟨value, other, here, there, own⟩
    · cases none.symm.trans found
    · cases there.symm.trans found
      rcases shapes.keys here with declared | ⟨stamps, own', instant, rfl⟩
      · exact .inl declared
      · cases own
        exact .inr ⟨stamps, own', instant, rfl⟩
  places {place type held} typed found := by
    have nonempty : place ≠ [] := by
      rintro rfl
      cases typed
    have whole : (Json.object body).reread (levels + 1) = some (.object again) := by
      rw [Json.reread, read]
      rfl
    rw [Body.at?_eq_under? nonempty] at found
    rcases Json.under?_of_reread whole place with ⟨_, none⟩ | ⟨inner, other, _, here, there, own⟩
    · cases none.symm.trans found
    · cases there.symm.trans found
      rw [← Body.at?_eq_under? nonempty] at here
      cases shapes.places typed here with
      | fits fits => exact .fits (fits.reread own)
      | stamp instant stamped =>
        cases own
        exact .stamp instant stamped
      | password hash password same =>
        cases own
        exact .password hash password same

end Model

/-- Every write keeps what stands at declared places in form. -/
theorem Repository.keeps_shapes (registry : Registry) : Keeps registry Model.Shapes where
  insert _ := fun _ prepared => Model.shapes_of_prepareInsert prepared
  reread shapes read := shapes.reread read
  update _ := fun _ parsed _ shapes => Model.shapes_applyUpdate parsed shapes _

end Dossier
