import Dossier.Registry
import Dossier.Proofs.CompiledPaths

/-! Where the models of a registry come from, and what is so of them if their definitions
are plain. -/
namespace Dossier

/-- A declaration is another one or stands within it, at any depth. -/
inductive Declaration.Holds : Declaration → Declaration → Prop where
  | self (declaration : Declaration) : Holds declaration declaration
  | inside {declaration submodel inner : Declaration} (member : submodel ∈ declaration.submodels)
      (within : Holds submodel inner) : Holds declaration inner

/-- No name of a field has a dot in it, and none at the top is reserved. -/
structure Field.Plain (fields : List Field) : Prop where
  free : ∀ field ∈ fields, field.name ∉ reservedNames
  undotted : ∀ names field, Stands fields names field → ∀ name ∈ names, Text.Undotted name

/-- All fields that a definition declares have plain names. -/
def Declaration.Plain (definition : Declaration) : Prop :=
  ∀ declaration, definition.Holds declaration → Field.Plain declaration.fields

mutual
/-- The names of a field and of the fields inside it. -/
def Field.names : Field → List String
  | ⟨name, _, children⟩ => name :: namesAll children
def Field.namesAll : List Field → List String
  | [] => []
  | field :: rest => field.names ++ namesAll rest
end

namespace Field
variable {fields : List Field}

theorem names_of_mem {field : Field} (member : field ∈ fields) :
    field.name ∈ namesAll fields ∧ ∀ name ∈ namesAll field.children, name ∈ namesAll fields := by
  induction fields with
  | nil => cases member
  | cons first rest ih =>
    rw [namesAll]
    rcases List.mem_cons.mp member with rfl | among
    · obtain ⟨name, token, children⟩ := field
      simp +contextual [names]
    · obtain ⟨own, inside⟩ := ih among
      exact ⟨List.mem_append_right _ own, fun name listed => List.mem_append_right _ (inside name listed)⟩

theorem Stands.subset_names {names : List String} {field : Field} (stands : Stands fields names field) :
    ∀ name ∈ names, name ∈ namesAll fields := by
  induction stands with
  | here member =>
    intro name listed
    rw [List.mem_singleton.mp listed]
    exact (names_of_mem member).1
  | inside member _ _ ih =>
    intro name listed
    rcases List.mem_cons.mp listed with rfl | later
    · exact (names_of_mem member).1
    · exact (names_of_mem member).2 name (ih name later)

/-- Fields are plain if no name among them, at any depth, has a dot in it. -/
theorem plain_of_names (free : ∀ field ∈ fields, field.name ∉ reservedNames)
    (undotted : ∀ name ∈ namesAll fields, Text.Undotted name) : Plain fields :=
  ⟨free, fun _ _ stands name member => undotted name (stands.subset_names name member)⟩

theorem Plain.isFree (plain : Plain fields) {names : List String} {field : Field}
    (stands : Stands fields names field) : IsFree names := by
  cases stands with
  | here member =>
    intro name same
    cases same
    exact plain.free _ member
  | inside member _ _ =>
    intro name same
    cases same
    exact plain.free _ member

/-! ### Expansion -/

section
variable {promoter : Promoter} {schema : String}

mutual
/-- Promotion puts no field where none was. -/
theorem stands_of_resolve {above : String} : (field : Field) → ∀ {made result},
    field.resolve promoter schema above made = .ok result →
      result.1.name = field.name ∧ ∀ {names inner}, result.1.kind = .map →
        Stands result.1.children names inner →
          field.kind = .map ∧ ∃ original, Stands field.children names original
  | ⟨name, token, children⟩ => by
    intro resolved
    simp only [resolve] at resolved
    split at resolved
    · obtain ⟨_, _, rest⟩ := bind_eq_ok.mp resolved
      cases rest
      refine ⟨rfl, fun _ stands => ?_⟩
      cases stands with
      | here member => cases member
      | inside member _ _ => cases member
    · rename_i isMap
      obtain ⟨_, inside, rest⟩ := bind_eq_ok.mp resolved
      cases rest
      exact ⟨rfl, fun _ stands => ⟨isMap, stands_of_resolveAll children inside stands⟩⟩
    · cases resolved
      exact ⟨rfl, fun isMap stands => ⟨isMap, _, stands⟩⟩
theorem stands_of_resolveAll {above : String} : (fields : List Field) → ∀ {made result},
    resolveAll promoter schema above fields made = .ok result → ∀ {names inner},
      Stands result.1 names inner → ∃ original, Stands fields names original
  | [] => by
    intro resolved names inner stands
    cases resolved
    exact ⟨_, stands⟩
  | field :: rest => by
    intro resolved names inner stands
    simp only [resolveAll] at resolved
    obtain ⟨first, own, others⟩ := bind_eq_ok.mp resolved
    obtain ⟨later, rested, finished⟩ := bind_eq_ok.mp others
    cases finished
    obtain ⟨named, kept⟩ := stands_of_resolve field own
    have further {place : List String} {other : Field} (among : Stands later.1 place other) :
        ∃ original, Stands (field :: rest) place original := by
      obtain ⟨original, found⟩ := stands_of_resolveAll rest rested among
      exact ⟨original, found.cons field⟩
    cases stands with
    | here member =>
      rcases List.mem_cons.mp member with rfl | among
      · exact ⟨field, named ▸ .here List.mem_cons_self⟩
      · exact further (.here among)
    | inside member isMap within =>
      rcases List.mem_cons.mp member with rfl | among
      · obtain ⟨alsoMap, original, deeper⟩ := kept isMap within
        exact ⟨original, named ▸ .inside List.mem_cons_self alsoMap deeper⟩
      · exact further (.inside among isMap within)
end

theorem Plain.of_resolveAll {above : String} {made : Promotions} {result : List Field × Promotions}
    (plain : Plain fields) (resolved : resolveAll promoter schema above fields made = .ok result) :
    Plain result.1 where
  free field member := by
    obtain ⟨_, original⟩ := stands_of_resolveAll fields resolved (.here member)
    exact plain.isFree original _ rfl
  undotted names field stands := by
    obtain ⟨_, original⟩ := stands_of_resolveAll fields resolved stands
    exact plain.undotted names _ original

end
end Field

theorem Declaration.plain_of_expand {definition : Declaration} {expansion : Expansion}
    (plain : definition.Plain) (expanded : definition.expand = .ok expansion)
    {name : String} {fields : List Field} (member : (name, fields) ∈ expansion) : Field.Plain fields := by
  have ensures : Ensures Declaration.Plain Field.Plain :=
    ⟨fun own submodel listed inner within => own inner (.inside listed within),
      fun own _ _ _ _ resolved => (own _ (.self _)).of_resolveAll resolved⟩
  exact all_of_expand ensures plain expanded _ member

/-! ### Registries -/

theorem mem_of_addSchemas {known schemas result : List Schema}
    (added : addSchemas known schemas = .ok result) {schema : Schema} (member : schema ∈ result) :
    schema ∈ known ∨ schema ∈ schemas := by
  induction schemas generalizing known with
  | nil =>
    cases added
    exact .inl member
  | cons first rest ih =>
    rw [addSchemas] at added
    split at added
    · cases added
    · rcases ih added with earlier | later
      · rcases List.mem_append.mp earlier with before | own
        · exact .inl before
        · exact .inr (List.mem_singleton.mp own ▸ List.mem_cons_self)
      · exact .inr (List.mem_cons_of_mem _ later)

/-- A schema is compiled of one of the field lists that one of the definitions expands to. -/
def Schema.ComesFrom (schema : Schema) (definitions : List Declaration) (options : CompileOptions) :
    Prop :=
  ∃ definition ∈ definitions, ∃ expansion name fields, definition.expand = .ok expansion ∧
    (name, fields) ∈ expansion ∧ compile name fields options = .ok schema

theorem comesFrom_of_compileEach {options : CompileOptions} {definitions : List Declaration}
    {known result : List Schema} (compiled : compileEach options known definitions = .ok result)
    {schema : Schema} (member : schema ∈ result) :
    schema ∈ known ∨ schema.ComesFrom definitions options := by
  induction definitions generalizing known with
  | nil =>
    cases compiled
    exact .inl member
  | cons definition rest ih =>
    obtain ⟨schemas, own, others⟩ := bind_eq_ok.mp compiled
    obtain ⟨between, added, later⟩ := bind_eq_ok.mp others
    rcases ih later with earlier | ⟨other, listed, origin⟩
    · rcases mem_of_addSchemas added earlier with before | among
      · exact .inl before
      · obtain ⟨expansion, expanded, each⟩ := bind_eq_ok.mp own
        obtain ⟨⟨name, fields⟩, inside, done⟩ := exists_of_mapM each among
        exact .inr ⟨definition, List.mem_cons_self, expansion, name, fields, expanded, inside, done⟩
    · exact .inr ⟨other, List.mem_cons_of_mem _ listed, origin⟩

section
variable {definitions : List Declaration} {hasher : Hasher} {options : CompileOptions}
  {registry : Registry} {name : String} {model : Model}

/-- A registry finds its models under their names, each with the common hasher and a schema
of the definitions. -/
theorem Registry.parts_of_build (built : build definitions hasher options = .ok registry)
    (found : registry.models.find? name = some model) :
    model.name = name ∧ model.hasher = hasher ∧ model.schema.ComesFrom definitions options := by
  obtain ⟨schemas, compiled, finished⟩ := bind_eq_ok.mp built
  cases finished
  obtain ⟨schema, listed, same⟩ := List.mem_map.mp (Keyed.mem_ofEntries (Keyed.mem_of_find? found))
  obtain ⟨rfl, rfl⟩ := Prod.mk.inj same
  obtain ⟨between, each, rest⟩ := bind_eq_ok.mp compiled
  obtain ⟨_, _, kept⟩ := bind_eq_ok.mp rest
  cases kept
  have origin := comesFrom_of_compileEach each listed
  exact ⟨rfl, rfl, origin.resolve_left (by simp)⟩

/-- Every registered model stamps its documents. -/
theorem Registry.stamps_of_build (built : build definitions hasher options = .ok registry)
    (found : registry.models.find? name = some model) : model.schema.behaviors.stamps = true := by
  obtain ⟨_, _, _, _, _, _, _, _, _, compiled⟩ := parts_of_build built found
  exact Schema.stamps_of_compile compiled

theorem Registry.find?_of_lookup (known : registry.lookup name = .ok model) :
    registry.models.find? name = some model := by
  simp only [lookup] at known
  split at known
  · rename_i found
    exact found.trans (congrArg some (Except.ok.inj known))
  · cases known

/-! ### Passwords -/

/-- The password of a model is a text at a place that its path leads to and that is free. -/
structure Model.HasPassword (model : Model) (place : List String) : Prop where
  path : model.schema.behaviors.password = some (Text.dotted place)
  segments : Text.segments (Text.dotted place) = place
  free : IsFree place
  typed : FieldType.at? model.schema.fields place = some .text

theorem Field.HasType.text {field : Field} {type : FieldType} (has : field.HasType type)
    (password : field.kind = .password) : type = .text := by
  obtain ⟨_, token, _⟩ := field
  obtain ⟨_, _, _, _, compiled⟩ := has
  have kind : Kind.ofToken token = .password := password
  rw [compile] at compiled
  simp only [kind] at compiled
  cases compiled
  rfl

/-- Models of plain definitions that have a password have it at a place. -/
theorem Registry.hasPassword_of_build (built : build definitions hasher options = .ok registry)
    (accepted : ∀ definition ∈ definitions, definition.validate = .ok ())
    (plain : ∀ definition ∈ definitions, definition.Plain)
    (found : registry.models.find? name = some model) {path : String}
    (password : model.schema.behaviors.password = some path) :
    model.HasPassword (Text.segments path) := by
  obtain ⟨_, _, definition, listed, expansion, schemaName, fields, expanded, inside, compiled⟩ :=
    parts_of_build built found
  have distinct : Field.DistinctAll fields := Declaration.distinctAll_of_expand
    (Declaration.checkInside_of_validate (accepted definition listed)) expanded inside
  have plainFields : Field.Plain fields := Declaration.plain_of_expand (plain definition listed) expanded inside
  obtain ⟨⟨after, within⟩, designated⟩ := Schema.parts_of_compile compiled
  rw [password] at designated
  obtain ⟨place, last, same⟩ := Option.map_eq_some_iff.mp designated.symm
  obtain ⟨field, stands, isPassword, _⟩ :=
    Field.stands_of_mem_placesAll fields (List.mem_of_getLast? last)
  have segments : Text.segments (Text.dotted place) = place :=
    Text.segments_dotted stands.ne_nil (plainFields.undotted place field stands)
  rw [← same, segments]
  obtain ⟨type, has⟩ := stands.hasType within distinct
  have text : type = .text := has.text (beq_iff_eq.mp isPassword)
  exact ⟨same ▸ password, segments, plainFields.isFree stands,
    (Field.at?_eq_some_iff within distinct).mpr ⟨field, stands, text ▸ has⟩⟩

end

end Dossier
