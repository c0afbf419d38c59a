import Dossier.Model.Basic
import Dossier.Schema.Compile
import Dossier.Proofs.CastPlaces
import Dossier.Proofs.DeclaredFields
import Mathlib

/-! Compiled paths against declared fields. A schema knows its fields by dotted paths, while
casting walks the maps name by name; the two agree as long as no name has a dot in it. -/
namespace Dossier

def Kind.isModel : Kind → Bool
  | .model _ => true
  | _ => false

mutual
/-- The places of the fields of some kinds, in written order, depth first. -/
def Field.places (wanted : Kind → Bool) : Field → List (List String)
  | ⟨name, token, children⟩ =>
    match Kind.ofToken token with
    | .map => (placesAll wanted children).map (name :: ·)
    | kind => if wanted kind then [[name]] else []
def Field.placesAll (wanted : Kind → Bool) : List Field → List (List String)
  | [] => []
  | field :: rest => field.places wanted ++ placesAll wanted rest
end

/-- A field compiles to a type. -/
def Field.HasType (field : Field) (type : FieldType) : Prop :=
  ∃ model path before after, field.compile model path before = .ok (type, after)

namespace Field

/-! ### Places of fields of a kind -/

mutual
theorem stands_of_mem_places {wanted : Kind → Bool} {place : List String} {fields : List Field} :
    (field : Field) → field ∈ fields → place ∈ field.places wanted →
      ∃ inner, Stands fields place inner ∧ wanted inner.kind = true ∧ inner.kind ≠ .map
  | ⟨name, token, children⟩ => by
    intro listed member
    rw [places] at member
    split at member
    · rename_i isMap
      obtain ⟨rest, inside, rfl⟩ := List.mem_map.mp member
      obtain ⟨inner, within, found⟩ := stands_of_mem_placesAll children inside
      exact ⟨inner, .inside listed isMap within, found⟩
    · rename_i noMap
      split at member
      · rename_i isWanted
        rw [List.mem_singleton.mp member]
        exact ⟨_, .here listed, isWanted, noMap⟩
      · cases member
/-- Where a place is listed, a field of a wanted kind stands. -/
theorem stands_of_mem_placesAll {wanted : Kind → Bool} {place : List String} : (fields : List Field) →
    place ∈ placesAll wanted fields →
      ∃ inner, Stands fields place inner ∧ wanted inner.kind = true ∧ inner.kind ≠ .map
  | [] => by simp [placesAll]
  | field :: rest => by
    intro member
    rcases List.mem_append.mp member with own | later
    · exact stands_of_mem_places field List.mem_cons_self own
    · obtain ⟨inner, stands, found⟩ := stands_of_mem_placesAll rest later
      exact ⟨inner, stands.cons field, found⟩
end

theorem ne_nil_of_mem_placesAll {wanted : Kind → Bool} {fields : List Field} {place : List String}
    (member : place ∈ placesAll wanted fields) : place ≠ [] := by
  obtain ⟨_, stands, _⟩ := stands_of_mem_placesAll fields member
  exact stands.ne_nil

/-! ### What compilation makes of fields -/

mutual
/-- The type of a field depends on the field alone. -/
theorem compile_elsewhere : (field : Field) → ∀ {model path before type after},
    field.compile model path before = .ok (type, after) → ∀ other place gathered,
      ∃ result, field.compile other place gathered = .ok (type, result)
  | ⟨name, token, children⟩ => by
    intro compiled other place gathered
    rw [compile] at compiled ⊢
    split at compiled
    · cases compiled
      exact ⟨_, rfl⟩
    · cases compiled
      exact ⟨_, rfl⟩
    · obtain ⟨⟨inner, inside⟩, within, rest⟩ := bind_eq_ok.mp compiled
      obtain ⟨result, alike⟩ := compileAll_elsewhere children within other s!"{place}." gathered
      cases rest
      exact ⟨result, bind_eq_ok.mpr ⟨_, alike, rfl⟩⟩
    · cases compiled
      exact ⟨_, rfl⟩
    · cases compiled
    · cases compiled
theorem compileAll_elsewhere : (fields : List Field) → ∀ {model above types before result after},
    compileAll model above fields types before = .ok (result, after) → ∀ other place gathered,
      ∃ last, compileAll other place fields types gathered = .ok (result, last)
  | [] => by
    intro compiled other place gathered
    cases compiled
    exact ⟨_, rfl⟩
  | field :: rest => by
    intro compiled other place gathered
    rw [compileAll] at compiled ⊢
    obtain ⟨⟨type, inside⟩, own, others⟩ := bind_eq_ok.mp compiled
    obtain ⟨_, alike⟩ := compile_elsewhere field own other s!"{place}{field.name}" gathered
    obtain ⟨last, later⟩ := compileAll_elsewhere rest others other place _
    exact ⟨last, bind_eq_ok.mpr ⟨_, alike, later⟩⟩
end

theorem HasType.unique {field : Field} {type other : FieldType} (has : field.HasType type)
    (also : field.HasType other) : type = other := by
  obtain ⟨model, path, before, after, compiled⟩ := has
  obtain ⟨_, _, _, _, alsoCompiled⟩ := also
  obtain ⟨_, same⟩ := compile_elsewhere field alsoCompiled model path before
  rw [compiled] at same
  cases same
  rfl

/-- What is gathered has grown by the paths of the password fields and of the references
at some places. -/
def Grown (above : String) (passwords references : List (List String)) (before after : Gathered) : Prop :=
  after.passwords = before.passwords ++ passwords.map (above ++ Text.dotted ·) ∧
    after.references = before.references ++ references.map (above ++ Text.dotted ·)

theorem Grown.inside {above name : String} {passwords references : List (List String)}
    {before after : Gathered} (grown : Grown (above ++ name ++ ".") passwords references before after)
    (some : ∀ place ∈ passwords, place ≠ []) (all : ∀ place ∈ references, place ≠ []) :
    Grown above (passwords.map (name :: ·)) (references.map (name :: ·)) before after := by
  refine ⟨grown.1.trans ?_, grown.2.trans ?_⟩
  · rw [List.map_map]
    exact congrArg _ (List.map_congr_left fun place member =>
      (Text.append_dotted_cons above name (some place member)).symm)
  · rw [List.map_map]
    exact congrArg _ (List.map_congr_left fun place member =>
      (Text.append_dotted_cons above name (all place member)).symm)

mutual
/-- The paths that are recorded of passwords and references are those of their places. -/
theorem grown_of_compile {above : String} : (field : Field) → ∀ {model before type after},
    field.compile model (above ++ field.name) before = .ok (type, after) →
      Grown above (field.places (· == .password)) (field.places Kind.isModel) before after
  | ⟨name, token, children⟩ => by
    intro compiled
    rw [compile] at compiled
    simp only [places, Grown]
    split at compiled
    · rename_i kind
      cases compiled
      simp [kind, Kind.isModel]
    · rename_i kind
      cases compiled
      simp [kind, Kind.isModel, Text.dotted_singleton]
    · rename_i kind
      obtain ⟨⟨inner, inside⟩, within, rest⟩ := bind_eq_ok.mp compiled
      cases rest
      have deeper := grown_of_compileAll children within
      simpa [kind, Grown] using deeper.inside (fun _ => ne_nil_of_mem_placesAll)
        (fun _ => ne_nil_of_mem_placesAll)
    · rename_i kind
      cases compiled
      simp [kind, Kind.isModel, Text.dotted_singleton]
    · cases compiled
    · cases compiled
theorem grown_of_compileAll {above : String} : (fields : List Field) →
    ∀ {model types before result after},
      compileAll model above fields types before = .ok (result, after) →
        Grown above (placesAll (· == .password) fields) (placesAll Kind.isModel fields) before after
  | [] => by
    intro compiled
    cases compiled
    simp [Grown, placesAll]
  | field :: rest => by
    intro compiled
    rw [compileAll] at compiled
    obtain ⟨⟨type, inside⟩, own, others⟩ := bind_eq_ok.mp compiled
    have first : Grown above _ _ _ _ := grown_of_compile field own
    have later := grown_of_compileAll rest others
    simp only [Grown] at first later ⊢
    simp [placesAll, later, first]
end

/-! ### Types at places -/

theorem HasType.object {field : Field} {type : FieldType} (has : field.HasType type)
    (isMap : field.kind = .map) : ∃ inner, type = .object inner ∧
      ∃ model above before after, compileAll model above field.children [] before = .ok (inner, after) := by
  obtain ⟨name, token, children⟩ := field
  obtain ⟨model, path, before, after, compiled⟩ := has
  rw [compile] at compiled
  have kind : Kind.ofToken token = .map := isMap
  simp only [kind] at compiled
  obtain ⟨⟨inner, inside⟩, within, rest⟩ := bind_eq_ok.mp compiled
  cases rest
  exact ⟨inner, rfl, _, _, _, _, within⟩

theorem HasType.isMap {field : Field} {inner : List (String × FieldType)}
    (has : field.HasType (.object inner)) : field.kind = .map := by
  obtain ⟨name, token, children⟩ := field
  obtain ⟨model, path, before, after, compiled⟩ := has
  rw [compile] at compiled
  split at compiled
  · rename_i primitive kind
    cases primitive <;> simp [Primitive.fieldType] at compiled
  · simp at compiled
  · rename_i kind
    exact kind
  · simp at compiled
  · simp at compiled
  · simp at compiled

/-- Each of some fields has its type under its name, and nothing else is there. -/
theorem find?_of_compileAll {fields : List Field} {model above : String} {types result : Keyed FieldType}
    {before after : Gathered} (compiled : compileAll model above fields types before = .ok (result, after))
    (distinct : (fields.map Field.name).Nodup) (name : String) :
    (∃ field ∈ fields, field.name = name ∧ ∃ type, field.HasType type ∧ result.find? name = some type) ∨
      (name ∉ fields.map Field.name ∧ result.find? name = types.find? name) := by
  induction fields generalizing types before with
  | nil =>
    cases compiled
    exact .inr ⟨by simp, rfl⟩
  | cons field rest ih =>
    obtain ⟨fresh, later⟩ := List.nodup_cons.mp distinct
    rw [compileAll] at compiled
    obtain ⟨⟨type, inside⟩, own, others⟩ := bind_eq_ok.mp compiled
    rcases ih others later with ⟨other, member, named, typed⟩ | ⟨absent, kept⟩
    · exact .inl ⟨other, List.mem_cons_of_mem _ member, named, typed⟩
    · rw [Keyed.find?_insert] at kept
      by_cases same : field.name = name
      · rw [if_pos same] at kept
        exact .inl ⟨field, List.mem_cons_self, same, type, ⟨_, _, _, _, own⟩, kept⟩
      · rw [if_neg same] at kept
        exact .inr ⟨by simpa [Ne.symm same] using absent, kept⟩

/-- Every declared field has a type, under its name. -/
theorem find?_of_mem {fields : List Field} {model above : String} {types : Keyed FieldType}
    {before after : Gathered} (compiled : compileAll model above fields [] before = .ok (types, after))
    (distinct : (fields.map Field.name).Nodup) {field : Field} (member : field ∈ fields) :
    ∃ type, field.HasType type ∧ types.find? field.name = some type := by
  rcases find?_of_compileAll compiled distinct field.name with ⟨other, among, named, typed⟩ | ⟨absent, _⟩
  · obtain rfl := List.inj_on_of_nodup_map distinct among member named
    exact typed
  · exact absurd (List.mem_map_of_mem member) absent

theorem find?_eq_some_iff {fields : List Field} {model above : String} {types : Keyed FieldType}
    {before after : Gathered} (compiled : compileAll model above fields [] before = .ok (types, after))
    (distinct : (fields.map Field.name).Nodup) {name : String} {type : FieldType} :
    types.find? name = some type ↔ ∃ field ∈ fields, field.name = name ∧ field.HasType type := by
  constructor
  · intro found
    rcases find?_of_compileAll compiled distinct name with ⟨field, member, named, own, has, typed⟩ | ⟨_, none⟩
    · rw [found] at typed
      cases typed
      exact ⟨field, member, named, has⟩
    · rw [found] at none
      cases none
  · rintro ⟨field, member, rfl, has⟩
    obtain ⟨_, alsoHas, typed⟩ := find?_of_mem compiled distinct member
    rw [has.unique alsoHas]
    exact typed

theorem Stands.hasType {fields : List Field} {model above : String} {types : Keyed FieldType}
    {before after : Gathered} (compiled : compileAll model above fields [] before = .ok (types, after))
    (distinct : DistinctAll fields) {names : List String} {field : Field}
    (stands : Stands fields names field) : ∃ type, field.HasType type := by
  induction stands generalizing model above types before after with
  | here member =>
    obtain ⟨type, has, _⟩ := find?_of_mem compiled distinct.nodup member
    exact ⟨type, has⟩
  | inside member isMap within ih =>
    obtain ⟨_, own, _⟩ := find?_of_mem compiled distinct.nodup member
    obtain ⟨_, _, _, _, _, _, inside⟩ := own.object isMap
    exact ih inside ((distinct.distinct member).children isMap)

/-- A type stands at some names exactly if a field of that type is declared there. -/
theorem at?_eq_some_iff {fields : List Field} {model above : String} {types : Keyed FieldType}
    {before after : Gathered} (compiled : compileAll model above fields [] before = .ok (types, after))
    (distinct : DistinctAll fields) {names : List String} {type : FieldType} :
    FieldType.at? types names = some type ↔ ∃ field, Stands fields names field ∧ field.HasType type := by
  induction names generalizing fields model above types before after with
  | nil => simpa [FieldType.at?] using fun field stands => absurd rfl stands.ne_nil
  | cons name rest ih =>
    simp only [stands_cons_iff]
    cases rest with
    | nil =>
      rw [FieldType.at?, find?_eq_some_iff compiled distinct.nodup]
      constructor
      · rintro ⟨field, member, named, has⟩
        exact ⟨field, ⟨field, member, named, .inl ⟨rfl, rfl⟩⟩, has⟩
      · rintro ⟨field, ⟨first, member, named, ⟨_, rfl⟩ | ⟨_, within⟩⟩, has⟩
        · exact ⟨first, member, named, has⟩
        · exact absurd rfl within.ne_nil
    | cons next others =>
      constructor
      · intro found
        rw [FieldType.at?_cons_cons] at found
        split at found
        · rename_i inner here
          obtain ⟨outer, member, named, has⟩ := (find?_eq_some_iff compiled distinct.nodup).mp here
          obtain ⟨_, same, _, _, _, _, inside⟩ := has.object has.isMap
          cases same
          have deeper := (ih inside ((distinct.distinct member).children has.isMap)).mp found
          obtain ⟨field, within, typed⟩ := deeper
          exact ⟨field, ⟨outer, member, named, .inr ⟨has.isMap, within⟩⟩, typed⟩
        · cases found
      · rintro ⟨field, ⟨first, member, rfl, ⟨empty, _⟩ | ⟨isMap, within⟩⟩, has⟩
        · cases empty
        · obtain ⟨_, own, here⟩ := find?_of_mem compiled distinct.nodup member
          obtain ⟨inner, rfl, _, _, _, _, inside⟩ := own.object isMap
          rw [FieldType.at?_cons_cons, here]
          exact (ih inside ((distinct.distinct member).children isMap)).mpr ⟨field, within, has⟩

end Field

/-! ### Schemas -/

/-- The place of the password field that counts: of several the last. -/
def Field.designated? (fields : List Field) : Option (List String) :=
  (placesAll (· == .password) fields).getLast?

theorem Schema.name_of_compile {name : String} {fields : List Field} {options : CompileOptions}
    {schema : Schema} (compiled : compile name fields options = .ok schema) : schema.name = name := by
  obtain ⟨_, _, rest⟩ := bind_eq_ok.mp compiled
  simp only at rest
  split at rest <;> cases rest
  rfl

theorem Schema.stamps_of_compile {name : String} {fields : List Field} {options : CompileOptions}
    {schema : Schema} (compiled : compile name fields options = .ok schema) : schema.behaviors.stamps = true := by
  obtain ⟨_, _, rest⟩ := bind_eq_ok.mp compiled
  simp only at rest
  split at rest <;> cases rest
  rfl

theorem Schema.parts_of_compile {name : String} {fields : List Field} {options : CompileOptions}
    {schema : Schema} (compiled : compile name fields options = .ok schema) :
    (∃ after, Field.compileAll name "" fields [] {} = .ok (schema.fields, after)) ∧
      schema.behaviors.password = (Field.designated? fields).map Text.dotted := by
  obtain ⟨⟨types, after⟩, within, rest⟩ := bind_eq_ok.mp compiled
  have grown := Field.grown_of_compileAll fields within
  simp only at rest
  split at rest
  · cases rest
  · cases rest
    refine ⟨⟨after, within⟩, ?_⟩
    simp [grown.1, Field.designated?]

/-- What is stored of a field at some names: what its value is cast to, the password in it
hashed. -/
def Field.stored (hash : String → String) (fields : List Field) (names : List String) (cast : Json) : Json :=
  match designated? fields with
  | some place => if names <+: place then cast.hashedAt hash (place.drop names.length) else cast
  | none => cast

/-- A declared field is found by its path: it alone has the path, the type there is its own,
and what a payload gives for it is stored there. -/
structure Field.IsFaithful (model : Model) (fields : List Field) (names : List String) (field : Field) :
    Prop where
  alone : ∀ others other, Stands fields others other → Text.dotted others = Text.dotted names →
    others = names ∧ other = field
  typed : ∃ type, field.HasType type ∧ model.schema.fieldType? (Text.dotted names) = some type
  inserted : ∀ supply index payload document value,
    model.prepareInsert supply index payload = .ok document → payload.under? names = some value →
      ∃ type cast, field.HasType type ∧ castValue model.name (Text.dotted names) type value = .ok cast ∧
        document.body.get? (Text.dotted names) =
          some (stored (model.hasher.hash (supply.salt index)) fields names cast)

/-- The compiled paths of a schema are faithful to its declared fields. -/
def Model.IsFaithful (model : Model) (fields : List Field) : Prop :=
  ∀ names field, Field.Stands fields names field → IsFree names → field.IsFaithful model fields names

/-- No name on the way to a declared field has a dot in it. -/
def Field.Undotted (fields : List Field) : Prop :=
  ∀ names field, Stands fields names field → IsFree names → ∀ name ∈ names, Text.Undotted name

section
variable {fields : List Field} {model : Model}

theorem Field.undotted_of_isFaithful {after : Gathered}
    (compiled : compileAll model.name "" fields [] {} = .ok (model.schema.fields, after))
    (distinct : DistinctAll fields) (faithful : model.IsFaithful fields) : Undotted fields := by
  intro names field stands free name member
  obtain ⟨alone, ⟨type, _, typed⟩, _⟩ := faithful names field stands free
  obtain ⟨other, found, _⟩ := (at?_eq_some_iff compiled distinct).mp typed
  obtain ⟨same, _⟩ := alone _ other found (Text.dotted_segments _)
  exact Text.undotted_of_mem_segments (same ▸ member)

theorem undotted_of_mem_reservedNames {name : String} (member : name ∈ reservedNames) :
    Text.Undotted name := by
  have all : ∀ name ∈ reservedNames, Text.Undotted name := by decide +kernel
  exact all name member

/-- A path that begins with a free segment is that of a free place only. -/
theorem isFree_of_segments {names : List String} (nonempty : names ≠ [])
    (free : IsFree (Text.segments (Text.dotted names))) : IsFree names := by
  cases names with
  | nil => exact absurd rfl nonempty
  | cons name rest =>
    intro first same reserved
    cases same
    rw [Text.segments_dotted_cons (undotted_of_mem_reservedNames reserved)] at free
    exact free name rfl reserved

theorem Field.Undotted.segments (undotted : Undotted fields) {names : List String} {field : Field}
    (stands : Stands fields names field) (free : IsFree names) :
    Text.segments (Text.dotted names) = names :=
  Text.segments_dotted stands.ne_nil (undotted names field stands free)

/-- The password stands apart from a field or within it. -/
theorem Field.designated_place (undotted : Undotted fields) (distinct : DistinctAll fields)
    {place : List String} (designated : designated? fields = some place) {names : List String}
    {field : Field} (stands : Stands fields names field) (free : IsFree names) :
    (Text.Apart (Text.segments (Text.dotted place)) names ∧ ¬ names <+: place) ∨
      ∃ rest, place = names ++ rest ∧ Text.segments (Text.dotted place) = place := by
  have listed : place ∈ placesAll (· == .password) fields := List.mem_of_getLast? designated
  obtain ⟨password, standsToo, _, noMap⟩ := stands_of_mem_placesAll fields listed
  by_cases freeToo : IsFree place
  · rw [undotted.segments standsToo freeToo]
    by_cases within : names <+: place
    · obtain ⟨rest, rfl⟩ := within
      exact .inr ⟨rest, rfl, rfl⟩
    · refine .inl ⟨⟨fun above => ?_, within⟩, within⟩
      obtain ⟨rest, rfl⟩ := above
      have further : rest ≠ [] := fun empty => within (by simp [empty])
      obtain ⟨outer, there, isMap, _⟩ := stands.outer standsToo.ne_nil further
      rw [there.unique distinct standsToo] at isMap
      exact noMap isMap
  · cases place with
    | nil => exact absurd rfl standsToo.ne_nil
    | cons name rest =>
      have reserved : name ∈ reservedNames := by simpa [IsFree] using freeToo
      rw [Text.segments_dotted_cons (undotted_of_mem_reservedNames reserved)]
      cases names with
      | nil => exact absurd rfl stands.ne_nil
      | cons first others =>
        have apart : name ≠ first := fun same => free first rfl (same ▸ reserved)
        exact .inl ⟨.of_ne apart, (Text.Apart.of_ne (Ne.symm apart)).1⟩

/-- Where no name has a dot, compiled paths are faithful. -/
theorem Field.isFaithful_of_undotted {after : Gathered}
    (compiled : compileAll model.name "" fields [] {} = .ok (model.schema.fields, after))
    (password : model.schema.behaviors.password = (designated? fields).map Text.dotted)
    (distinct : DistinctAll fields) (undotted : Undotted fields) : model.IsFaithful fields := by
  intro names field stands free
  have segments := undotted.segments stands free
  obtain ⟨type, has⟩ := stands.hasType compiled distinct
  have typed : FieldType.at? model.schema.fields names = some type :=
    (at?_eq_some_iff compiled distinct).mpr ⟨field, stands, has⟩
  refine ⟨fun others other there same => ?_, ⟨type, has, ?_⟩, ?_⟩
  · have freeToo : IsFree others := isFree_of_segments there.ne_nil (by rwa [same, segments])
    have sameNames : others = names := by
      rw [← undotted.segments there freeToo, same, segments]
    exact ⟨sameNames, (sameNames ▸ there).unique distinct stands⟩
  · rw [Schema.fieldType?, segments, typed]
  · intro supply index payload document value prepared given
    obtain ⟨members, body, rfl, cast, kept⟩ := model.parts_of_prepareInsert prepared
    obtain ⟨result, own, there⟩ := at?_of_castMembers cast typed given
    refine ⟨type, result, has, by simpa using own, ?_⟩
    rw [Body.get?, segments, kept free, stored]
    cases designated : designated? fields with
    | none =>
      have unhashed : model.schema.behaviors.password = none := by rw [password, designated]; rfl
      simpa [Model.hashPassword, unhashed] using there
    | some place =>
      have path : model.schema.behaviors.password = some (Text.dotted place) := by
        rw [password, designated]
        rfl
      rcases designated_place undotted distinct designated stands free with ⟨apart, outside⟩ | ⟨rest, rfl, onTheWay⟩
      · rw [Model.at?_hashPassword_of_apart path apart, there]
        simp [outside]
      · rw [Model.at?_hashPassword path onTheWay stands.ne_nil, there]
        simp

end

/-- The compiled paths of a schema are faithful exactly if no name that leads to a declared
field has a dot in it. The rules of definitions let such names pass. -/
theorem Model.isFaithful_iff_undotted {definition : Declaration} {expansion : Expansion}
    {name : String} {fields : List Field} {options : CompileOptions} {schema : Schema}
    (accepted : definition.validate = .ok ()) (expanded : definition.expand = .ok expansion)
    (listed : (name, fields) ∈ expansion) (compiled : Schema.compile name fields options = .ok schema)
    (hasher : Hasher) : Model.IsFaithful ⟨schema, hasher⟩ fields ↔ Field.Undotted fields := by
  have distinct : Field.DistinctAll fields :=
    Declaration.distinctAll_of_expand (Declaration.checkInside_of_validate accepted) expanded listed
  obtain ⟨⟨after, within⟩, password⟩ := Schema.parts_of_compile compiled
  have named : (Model.mk schema hasher).name = name := Schema.name_of_compile compiled
  rw [← named] at within
  exact ⟨Field.undotted_of_isFaithful within distinct, Field.isFaithful_of_undotted within password distinct⟩

/-- A hasher that marks what it is given. -/
def markingHasher : Hasher where
  hash _ plain := "hash of " ++ plain
  verify candidate stored :=
    if stored.startsWith "hash of " then some (stored == "hash of " ++ candidate) else none

/-- Accounts with a password in a map. -/
def accounts : Declaration :=
  ⟨"account", [⟨"login", "text", []⟩, .map "secret" [⟨"pass", "password", []⟩]], []⟩

def accountSchema : Schema :=
  ⟨"account", [("login", .text), ("secret", .object [("pass", .text)])], ⟨true, some "secret.pass", []⟩⟩

theorem accounts_isFaithful_iff :
    Model.IsFaithful ⟨accountSchema, markingHasher⟩ accounts.fields ↔ Field.Undotted accounts.fields := by
  have accepted : accounts.validate = .ok () := by decide +kernel
  have expanded : accounts.expand = .ok [("account", accounts.fields)] := by cbv
  have compiled : Schema.compile "account" accounts.fields {} = .ok accountSchema := by cbv
  exact Model.isFaithful_iff_undotted accepted expanded (List.mem_singleton_self _) compiled _

/-- Accounts with a dot in the name of the password. -/
def dottedAccounts : Declaration := ⟨"account", [⟨"secret.pass", "password", []⟩], []⟩

def dottedAccountSchema : Schema :=
  ⟨"account", [("secret.pass", .text)], ⟨true, some "secret.pass", []⟩⟩

/-- The rules let the dot pass, but the path leads to no type, and no password is hashed. -/
theorem dottedAccounts_unhashed :
    dottedAccounts.validate = .ok () ∧ dottedAccounts.compile {} = .ok [dottedAccountSchema] ∧
      (dottedAccountSchema.fieldType? "secret.pass").isNone = true ∧
      ∀ salt, Model.hashPassword ⟨dottedAccountSchema, markingHasher⟩ salt
        [("secret.pass", .text "sesame")] = [("secret.pass", .text "sesame")] :=
  ⟨by decide +kernel, by cbv, by decide +kernel, fun salt => by cbv⟩

end Dossier
