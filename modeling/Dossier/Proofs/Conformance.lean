import Dossier.Proofs.StoredForms
import Dossier.Proofs.StoredPasswords

/-! Stored documents conform to their schemas: if the definitions are plain, a body has declared
keys and the two stamps only, and every value in it conforms to its type, however deep. -/
namespace Dossier

/-- A value of the form of its type; the members of an object conform to their types in turn. -/
inductive FieldType.Conforms : FieldType → Json → Prop where
  | flat {type : FieldType} {value : Json} (fits : type.Fits value) (flat : value.members? = none) :
      Conforms type value
  | object {fields : Keyed FieldType} {members : Body} (declared : ∀ key ∈ members.keys, key ∈ fields.keys)
      (inside : ∀ key type value, (key, value) ∈ members → fields.find? key = some type → Conforms type value) :
      Conforms (.object fields) (.object members)

/-- The bodies that documents of a schema may have: no id is in them, and every entry is of a
declared key with a value of its type, or is a stamp. -/
structure Schema.Conforms (schema : Schema) (body : Body) : Prop where
  noId : idKey ∉ body.keys
  entries : ∀ key value, (key, value) ∈ body →
    (∃ type, schema.fields.find? key = some type ∧ type.Conforms value) ∨
      schema.behaviors.stamps = true ∧ (key = createdKey ∨ key = updatedKey) ∧
        ∃ instant : Timestamp, value = .text instant.text

/-! ### From places to values -/

/-- Whatever stands below a value where something is declared fits. -/
def FieldType.FitsBelow (type : FieldType) (value : Json) : Prop :=
  ∀ below inner part, type.below? below = some inner → value.under? below = some part → inner.Fits part

theorem FieldType.FitsBelow.inside {fields : Keyed FieldType} {members : Body}
    (fits : FitsBelow (.object fields) (.object members)) {key : String} {type : FieldType} {value : Json}
    (declared : fields.find? key = some type) (found : members.find? key = some value) : type.FitsBelow value := by
  intro below inner part typed there
  refine fits (key :: below) inner part ?_ (by simp [Json.under?, Json.member?, Json.members?, found, there])
  change at? fields ([key] ++ below) = some inner
  rw [at?_append (by simp), at?, declared, Option.bind_some, typed]

mutual
theorem FieldType.conforms_of_fitsBelow : (value : Json) → value.Ordered → ∀ {type : FieldType},
    type.FitsBelow value → type.Conforms value
  | .object members => by
    intro ordered type fits
    cases fits [] type _ rfl rfl with
    | @object fields _ declared =>
      refine .object declared fun key type value member found => ?_
      have there := ordered.1.find?_eq_some.mpr member
      exact conforms_of_members members ordered.2 member (fits.inside found there)
  | .null | .bool _ | .number _ | .text _ | .array _ => fun _ type fits => .flat (fits [] type _ rfl rfl) rfl
theorem FieldType.conforms_of_members : (members : List (String × Json)) → Json.OrderedMembers members →
    ∀ {entry}, entry ∈ members → ∀ {type : FieldType}, type.FitsBelow entry.2 → type.Conforms entry.2
  | [] => by
    intro _ entry member
    cases member
  | (_, value) :: rest => by
    intro ordered entry member type fits
    rcases List.mem_cons.mp member with rfl | among
    · exact conforms_of_fitsBelow value ordered.1 fits
    · exact conforms_of_members rest ordered.2 among fits
end

/-! ### Plain definitions -/

section
variable {definitions : List Declaration} {hasher : Hasher} {options : CompileOptions} {registry : Registry}
  {name : String} {model : Model}

/-- Models of plain definitions declare no reserved name at the top. -/
theorem Registry.free_of_build (built : build definitions hasher options = .ok registry)
    (accepted : ∀ definition ∈ definitions, definition.validate = .ok ())
    (plain : ∀ definition ∈ definitions, definition.Plain)
    (found : registry.models.find? name = some model) :
    ∀ key ∈ model.schema.fields.keys, key ∉ reservedNames := by
  obtain ⟨_, _, definition, listed, expansion, schemaName, fields, expanded, inside, compiled⟩ :=
    parts_of_build built found
  have distinct : Field.DistinctAll fields := Declaration.distinctAll_of_expand
    (Declaration.checkInside_of_validate (accepted definition listed)) expanded inside
  have plainFields : Field.Plain fields := Declaration.plain_of_expand (plain definition listed) expanded inside
  obtain ⟨⟨after, within⟩, _⟩ := Schema.parts_of_compile compiled
  intro key member
  cases missing : model.schema.fields.find? key with
  | none => exact absurd member (Keyed.find?_eq_none.mp missing)
  | some type =>
    obtain ⟨field, among, rfl, _⟩ := (Field.find?_eq_some_iff within distinct.nodup).mp missing
    exact plainFields.free field among

theorem Model.Shapes.fits {body : Body} (shapes : model.Shapes body)
    (free : ∀ key ∈ model.schema.fields.keys, key ∉ reservedNames)
    (password : ∀ path, model.schema.behaviors.password = some path → model.HasPassword (Text.segments path))
    {place : List String} {type : FieldType} {value : Json}
    (typed : FieldType.at? model.schema.fields place = some type) (held : body.at? place = some value) :
    type.Fits value := by
  cases shapes.places typed held with
  | fits fits => exact fits
  | stamp instant stamped =>
    rcases stamped with rfl | rfl
    · exact absurd (by simp [reservedNames]) (free createdKey (FieldType.mem_keys_of_at? typed))
    · exact absurd (by simp [reservedNames]) (free updatedKey (FieldType.mem_keys_of_at? typed))
  | password hash own same =>
    have text := (password _ own).typed
    rw [same, typed] at text
    cases text
    exact .text hash

theorem Model.Shapes.conforms {body : Body} (shapes : model.Shapes body) (ordered : (Json.object body).Ordered)
    (free : ∀ key ∈ model.schema.fields.keys, key ∉ reservedNames)
    (password : ∀ path, model.schema.behaviors.password = some path → model.HasPassword (Text.segments path)) :
    model.schema.Conforms body where
  noId member := by
    cases missing : body.find? idKey with
    | none => exact Keyed.find?_eq_none.mp missing member
    | some value =>
      rcases shapes.keys missing with declared | ⟨_, own, _⟩
      · exact free idKey declared (by simp [reservedNames])
      · revert own
        decide
  entries key value member := by
    have found : body.find? key = some value := ordered.1.find?_eq_some.mpr member
    refine (shapes.keys found).imp_left fun declared => ?_
    cases typed : model.schema.fields.find? key with
    | none => exact absurd declared (Keyed.find?_eq_none.mp typed)
    | some type =>
      refine ⟨type, rfl, FieldType.conforms_of_fitsBelow value (Body.ordered_of_find? ordered found) ?_⟩
      intro below inner part also there
      have typed : FieldType.at? model.schema.fields ([key] ++ below) = some inner := by
        rw [FieldType.at?_append (by simp), FieldType.at?, typed, Option.bind_some, also]
      have held : body.at? ([key] ++ below) = some part := by
        rw [Body.at?_append (by simp), Body.at?, found, Option.bind_some, there]
      exact shapes.fits free password typed held

/-- In every store that requests reach, the body of every row conforms to the schema of its
collection, as it is stored and as it is read. -/
theorem Repository.conforms_of_reached (built : Registry.build definitions hasher options = .ok registry)
    (accepted : ∀ definition ∈ definitions, definition.validate = .ok ())
    (plain : ∀ definition ∈ definitions, definition.Plain) (depth : Nat) (requests : List Request)
    (ordered : ∀ request ∈ requests, request.envelope.Ordered) {row : Row}
    (stored : row ∈ (reached (registry.withDepth depth) requests).rows) :
    ∃ model, registry.lookup row.collection = .ok model ∧
      ∀ document, document = row.document ∨ row.read = .ok document → model.schema.Conforms document.body := by
  have keeps := keeps_shapes (registry.withDepth depth)
  have named : ∀ name model, (registry.withDepth depth).models.find? name = some model → model.name = name :=
    fun name model listed => (Registry.parts_of_build built listed).1
  have written := written_of_reached keeps named ordered stored
  obtain ⟨model, found, shapes⟩ := written.kept
  have known : registry.models.find? row.collection = some model := found
  have free := Registry.free_of_build built accepted plain known
  have password : ∀ path, model.schema.behaviors.password = some path → model.HasPassword (Text.segments path) :=
    fun path => Registry.hasPassword_of_build built accepted plain known
  refine ⟨model, by rw [Registry.lookup, known], fun document held => ?_⟩
  rcases held with rfl | read
  · exact shapes.conforms written.ordered free password
  · obtain ⟨whole, also⟩ := written.read keeps found read
    exact also.conforms whole free password

end

/-- The account that is added and then changed conforms to its schema. -/
theorem accountRequests_conform :
    ∃ row ∈ (Repository.reached (accountRegistry.withDepth 2) accountRequests).rows,
      ∃ model, accountRegistry.lookup row.collection = .ok model ∧
        ∀ document, document = row.document ∨ row.read = .ok document →
          model.schema.Conforms document.body := by
  have built : Registry.build [accounts] markingHasher {} = .ok accountRegistry := by cbv
  have accepted : ∀ definition ∈ [accounts], definition.validate = .ok () := by
    simpa using (by decide +kernel : accounts.validate = .ok ())
  have plain : ∀ definition ∈ [accounts], definition.Plain := by simpa using accounts_plain
  have collections : (Repository.reached (accountRegistry.withDepth 2) accountRequests).rows.map Row.collection =
      ["account"] := by decide +kernel
  obtain ⟨row, single, _⟩ := List.map_eq_singleton_iff.mp collections
  have stored : row ∈ (Repository.reached (accountRegistry.withDepth 2) accountRequests).rows := by simp [single]
  exact ⟨row, stored, Repository.conforms_of_reached built accepted plain 2 accountRequests
    ordered_accountRequests stored⟩

end Dossier
