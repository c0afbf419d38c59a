import Dossier.Proofs.RegisteredModels

/-! References of compiled schemas. Compilation records a path for each of them and looks the
path up again for its target; a build is closed under references as long as no name on the
way to one has a dot in it. -/
namespace Dossier

/-- A type stands at the end of some names, inside of objects only. -/
inductive FieldType.Occurs : Keyed FieldType → List String → FieldType → Prop where
  | here {fields : Keyed FieldType} {name : String} {type : FieldType}
      (member : (name, type) ∈ fields) : Occurs fields [name] type
  | inside {fields inner : Keyed FieldType} {name : String} {names : List String} {type : FieldType}
      (member : (name, .object inner) ∈ fields) (within : Occurs inner names type) :
      Occurs fields (name :: names) type

/-- At some names a schema has a reference to a model. -/
def Schema.Refers (schema : Schema) (names : List String) (target : String) : Prop :=
  FieldType.Occurs schema.fields names (.reference target)

/-- Every reference of a schema goes to a schema of its build, and what the schema lists are
the references it has, each once. -/
structure Schema.IsClosed (schema : Schema) (build : List Schema) : Prop where
  known : ∀ names target, schema.Refers names target → ∃ other ∈ build, other.name = target
  listed : ∃ occurrences : List (List String × String), occurrences.Nodup ∧
    (∀ names target, (names, target) ∈ occurrences ↔ schema.Refers names target) ∧
      schema.references = occurrences.map (Prod.map Text.dotted id)
  once : schema.references.Nodup

/-- No name on the way to a reference has a dot in it. -/
def Schema.HasPlainReferences (schema : Schema) : Prop :=
  ∀ names target, schema.Refers names target → ∀ name ∈ names, Text.Undotted name

namespace Field

/-! ### Places of references -/

theorem head_of_mem_places {wanted : Kind → Bool} {field : Field} {place : List String}
    (member : place ∈ field.places wanted) : place.head? = some field.name := by
  obtain ⟨_, stands, _⟩ := stands_of_mem_places field (List.mem_singleton_self _) member
  cases stands with
  | here same => rw [List.mem_singleton.mp same]; rfl
  | inside same _ _ => rw [List.mem_singleton.mp same]; rfl

mutual
theorem nodup_places {wanted : Kind → Bool} : (field : Field) → field.Distinct →
    (field.places wanted).Nodup
  | ⟨name, token, children⟩ => by
    intro distinct
    rw [places]
    split
    · rename_i isMap
      exact (nodup_placesAll children (distinct isMap)).map (List.cons_injective)
    · split <;> simp
/-- Fields that are distinct in each place stand in different places. -/
theorem nodup_placesAll {wanted : Kind → Bool} : (fields : List Field) → DistinctAll fields →
    (placesAll wanted fields).Nodup
  | [], _ => List.nodup_nil
  | field :: rest, distinct => by
    obtain ⟨fresh, own, later⟩ := distinct
    rw [placesAll]
    apply (nodup_places field own).append (nodup_placesAll rest later)
    intro place here there
    obtain ⟨_, stands, _⟩ := stands_of_mem_placesAll rest there
    have head := head_of_mem_places here
    cases stands with
    | here member => exact fresh (Option.some.inj head ▸ List.mem_map_of_mem member)
    | inside member _ _ => exact fresh (Option.some.inj head ▸ List.mem_map_of_mem member)
end

theorem HasType.reference_iff {field : Field} {target : String} {type : FieldType}
    (has : field.HasType type) : type = .reference target ↔ field.kind = .model target := by
  obtain ⟨name, token, children⟩ := field
  obtain ⟨model, path, before, after, compiled⟩ := has
  rw [compile] at compiled
  change _ ↔ Kind.ofToken token = .model target
  split at compiled
  · rename_i primitive kind
    cases compiled
    cases primitive <;> simp [Primitive.fieldType, kind]
  · rename_i kind
    cases compiled
    simp [kind]
  · rename_i kind
    obtain ⟨_, _, rest⟩ := bind_eq_ok.mp compiled
    cases rest
    simp [kind]
  · rename_i kind
    cases compiled
    simp [kind]
  · cases compiled
  · cases compiled

end Field

/-! ### What occurs in compiled types -/

namespace FieldType
variable {types : Keyed FieldType} {name : String} {names : List String} {type other : FieldType}

/-- What occurs in some types is found at its names. -/
def Traced (types : Keyed FieldType) : Prop :=
  ∀ names type, Occurs types names type → at? types names = some type

theorem not_occurs_nil : ¬ Occurs [] names type := by
  rintro (⟨⟨⟩⟩ | ⟨⟨⟩, _⟩)

theorem occurs_of_at? (found : at? types names = some type) : Occurs types names type := by
  induction names generalizing types with
  | nil => cases found
  | cons name rest ih =>
    cases rest with
    | nil => exact .here (Keyed.mem_of_find? found)
    | cons next others =>
      rw [at?_cons_cons] at found
      split at found
      · rename_i inner here
        exact .inside (Keyed.mem_of_find? here) (ih found)
      · cases found

theorem traced_of_ordered (ordered : types.Ordered)
    (inside : ∀ name inner, (name, .object inner) ∈ types → Traced inner) : Traced types := by
  intro names type occurs
  cases occurs with
  | here member => exact ordered.find?_eq_some.mpr member
  | @inside _ inner name rest _ member within =>
    have found : at? inner rest = some type := inside name inner member rest type within
    cases rest with
    | nil => cases found
    | cons next others =>
      rw [at?_cons_cons, ordered.find?_eq_some.mpr member]
      exact found

/-- What occurs after a type was put occurs in it or was there before. -/
theorem occurs_insert (occurs : Occurs (types.insert name other) names type) :
    Occurs [(name, other)] names type ∨ Occurs types names type := by
  cases occurs with
  | here member =>
    rcases Keyed.mem_insert member with same | before
    · exact .inl (.here (same ▸ List.mem_cons_self))
    · exact .inr (.here before)
  | inside member within =>
    rcases Keyed.mem_insert member with same | before
    · exact .inl (.inside (same ▸ List.mem_cons_self) within)
    · exact .inr (.inside before within)

end FieldType

namespace Field

mutual
theorem traced_of_compile : (field : Field) → ∀ {model path before inner after},
    field.compile model path before = .ok (.object inner, after) → FieldType.Traced inner
  | ⟨name, token, children⟩ => by
    intro compiled
    rw [compile] at compiled
    split at compiled
    · rename_i primitive _
      cases primitive <;> simp [Primitive.fieldType] at compiled
    · cases compiled
    · obtain ⟨_, within, rest⟩ := bind_eq_ok.mp compiled
      cases rest
      exact traced_of_compileAll children within List.Pairwise.nil (by simp)
    · cases compiled
    · cases compiled
    · cases compiled
theorem traced_of_compileAll : (fields : List Field) → ∀ {model above types before result after},
    compileAll model above fields types before = .ok (result, after) → types.Ordered →
      (∀ name inner, (name, .object inner) ∈ types → FieldType.Traced inner) → FieldType.Traced result
  | [] => by
    intro compiled ordered inside
    cases compiled
    exact FieldType.traced_of_ordered ordered inside
  | field :: rest => by
    intro compiled ordered inside
    rw [compileAll] at compiled
    obtain ⟨⟨type, between⟩, own, others⟩ := bind_eq_ok.mp compiled
    refine traced_of_compileAll rest others (ordered.insert _ _) fun name inner member => ?_
    rcases Keyed.mem_insert member with same | before
    · cases same
      exact traced_of_compile field own
    · exact inside name inner before
end

mutual
theorem mem_places_of_occurs {names : List String} {target : String} : (field : Field) →
    ∀ {model path before type after}, field.compile model path before = .ok (type, after) →
      FieldType.Occurs [(field.name, type)] names (.reference target) → names ∈ field.places Kind.isModel
  | ⟨name, token, children⟩ => by
    intro compiled occurs
    rw [compile] at compiled
    rw [places]
    split at compiled
    · rename_i primitive _
      cases compiled
      cases occurs with
      | here member => cases primitive <;> simp [Primitive.fieldType] at member
      | inside member _ => cases primitive <;> simp [Primitive.fieldType] at member
    · rename_i kind
      cases compiled
      cases occurs with
      | here member => simp_all [Kind.isModel]
      | inside member _ => simp at member
    · rename_i kind
      obtain ⟨_, within, rest⟩ := bind_eq_ok.mp compiled
      cases rest
      cases occurs with
      | here member => simp at member
      | inside member deeper =>
        obtain ⟨rfl, rfl⟩ : _ = name ∧ _ := by simpa using member
        have inside := (mem_placesAll_of_occurs children within deeper).resolve_left FieldType.not_occurs_nil
        simpa [kind] using inside
    · cases compiled
      cases occurs with
      | here member => simp at member
      | inside member _ => simp at member
    · cases compiled
    · cases compiled
/-- Wherever a reference occurs in the types of fields, its place is listed. -/
theorem mem_placesAll_of_occurs {names : List String} {target : String} : (fields : List Field) →
    ∀ {model above types before result after},
      compileAll model above fields types before = .ok (result, after) →
        FieldType.Occurs result names (.reference target) →
          FieldType.Occurs types names (.reference target) ∨ names ∈ placesAll Kind.isModel fields
  | [] => by
    intro compiled occurs
    cases compiled
    exact .inl occurs
  | field :: rest => by
    intro compiled occurs
    rw [compileAll] at compiled
    obtain ⟨⟨type, between⟩, own, others⟩ := bind_eq_ok.mp compiled
    rw [placesAll]
    rcases mem_placesAll_of_occurs rest others occurs with earlier | later
    · rcases FieldType.occurs_insert earlier with here | before
      · exact .inr (List.mem_append_left _ (mem_places_of_occurs field own here))
      · exact .inl before
    · exact .inr (List.mem_append_right _ later)
end

end Field

/-! ### References of one schema -/

namespace Schema
variable {name path target : String} {names : List String} {fields : List Field}
  {options : CompileOptions} {schema : Schema} {build : List Schema}

theorem populated_of_compile (compiled : compile name fields options = .ok schema) :
    schema.behaviors.populated = (Field.placesAll Kind.isModel fields).map Text.dotted := by
  obtain ⟨⟨types, after⟩, within, rest⟩ := bind_eq_ok.mp compiled
  have grown := Field.grown_of_compileAll fields within
  simp only at rest
  split at rest
  · cases rest
  · cases rest
    simp [grown.2]

/-- A listed reference is one that its path leads to. -/
theorem refers_of_mem_references (listed : (path, target) ∈ schema.references) :
    schema.Refers (Text.segments path) target := by
  obtain ⟨recorded, _, found⟩ := List.mem_filterMap.mp listed
  split at found
  · rename_i typed
    cases found
    exact FieldType.occurs_of_at? typed
  · cases found

/-- A schema whose references are listed, each once, has no dot in a name on the way to one. -/
theorem IsClosed.plain (closed : schema.IsClosed build) : schema.HasPlainReferences := by
  intro names target refers name member
  obtain ⟨occurrences, _, occurs, listed⟩ := closed.listed
  have here := (occurs names target).mpr refers
  have recorded : (Text.dotted names, target) ∈ schema.references := by
    rw [listed]
    exact List.mem_map.mpr ⟨_, here, rfl⟩
  -- A listed path leads to where its segments do, so with a dot in a name it counts for two places.
  have there := (occurs _ target).mpr (refers_of_mem_references recorded)
  have once := closed.once
  rw [listed] at once
  have same := List.inj_on_of_nodup_map once here there (by simp [Text.dotted_segments])
  exact Text.undotted_of_mem_segments ((Prod.mk.inj same).1 ▸ member)

section
variable (compiled : compile name fields options = .ok schema)
include compiled

theorem refers_iff : schema.Refers names target ↔
    FieldType.at? schema.fields names = some (.reference target) := by
  obtain ⟨⟨_, within⟩, _⟩ := parts_of_compile compiled
  exact ⟨Field.traced_of_compileAll fields within List.Pairwise.nil (by simp) _ _, FieldType.occurs_of_at?⟩

theorem mem_placesAll_of_refers (refers : schema.Refers names target) :
    names ∈ Field.placesAll Kind.isModel fields := by
  obtain ⟨⟨_, within⟩, _⟩ := parts_of_compile compiled
  exact (Field.mem_placesAll_of_occurs fields within refers).resolve_left FieldType.not_occurs_nil

/-- A reference is listed if no name on the way to it has a dot in it. -/
theorem mem_references (refers : schema.Refers names target) (plain : ∀ name ∈ names, Text.Undotted name) :
    (Text.dotted names, target) ∈ schema.references := by
  have place := mem_placesAll_of_refers compiled refers
  have typed : schema.fieldType? (Text.dotted names) = some (.reference target) := by
    rw [fieldType?, Text.segments_dotted (Field.ne_nil_of_mem_placesAll place) plain]
    exact (refers_iff compiled).mp refers
  apply List.mem_filterMap.mpr
  refine ⟨Text.dotted names, ?_, by simp [typed]⟩
  rw [populated_of_compile compiled]
  exact List.mem_map_of_mem place

end

section
variable (compiled : compile name fields options = .ok schema) (distinct : Field.DistinctAll fields)

include compiled distinct

/-- The places of references to models are those at which a schema refers to one. -/
theorem mem_placesAll_iff :
    names ∈ Field.placesAll Kind.isModel fields ↔ ∃ target, schema.Refers names target := by
  constructor
  · intro listed
    obtain ⟨⟨_, within⟩, _⟩ := parts_of_compile compiled
    obtain ⟨field, stands, isModel, _⟩ := Field.stands_of_mem_placesAll fields listed
    obtain ⟨type, has⟩ := stands.hasType within distinct
    cases kind : field.kind with
    | model target =>
      obtain rfl := (has.reference_iff).mpr kind
      exact ⟨target, (refers_iff compiled).mpr ((Field.at?_eq_some_iff within distinct).mpr ⟨field, stands, has⟩)⟩
    | _ => simp [kind, Kind.isModel] at isModel
  · rintro ⟨target, refers⟩
    exact mem_placesAll_of_refers compiled refers

theorem nodup_references (plain : schema.HasPlainReferences) : schema.references.Nodup := by
  have apart : schema.behaviors.populated.Nodup := by
    rw [populated_of_compile compiled]
    apply List.Nodup.map_on _ (Field.nodup_placesAll fields distinct)
    intro names listed others also same
    obtain ⟨target, refers⟩ := (mem_placesAll_iff compiled distinct).mp listed
    obtain ⟨other, refersToo⟩ := (mem_placesAll_iff compiled distinct).mp also
    exact Text.dotted_injective (Field.ne_nil_of_mem_placesAll listed) (Field.ne_nil_of_mem_placesAll also)
      (plain _ _ refers) (plain _ _ refersToo) same
  apply List.Nodup.filterMap _ apart
  intro path other reference first second
  split at first
  · split at second
    · cases first
      cases second
      rfl
    · cases second
  · cases first

theorem isClosed_of_plain (plain : schema.HasPlainReferences)
    (checked : ∀ reference ∈ schema.references, ∃ other ∈ build, other.name = reference.2) :
    schema.IsClosed build where
  known names target refers :=
    checked _ (mem_references compiled refers (plain names target refers))
  listed := by
    have back : Function.LeftInverse (Prod.map Text.dotted id) (Prod.map Text.segments (id : String → String)) :=
      fun reference => Prod.ext (Text.dotted_segments reference.1) rfl
    refine ⟨schema.references.map (Prod.map Text.segments id), ?_, fun names target => ?_, ?_⟩
    · exact (nodup_references compiled distinct plain).map back.injective
    · constructor
      · intro member
        obtain ⟨⟨path, _⟩, listed, same⟩ := List.mem_map.mp member
        cases same
        exact refers_of_mem_references listed
      · intro refers
        have free := plain names target refers
        refine List.mem_map.mpr ⟨_, mem_references compiled refers free, ?_⟩
        have place := mem_placesAll_of_refers compiled refers
        simp [Text.segments_dotted (Field.ne_nil_of_mem_placesAll place) free]
    · rw [List.map_map]
      exact (List.map_id'' back _).symm
  once := nodup_references compiled distinct plain

end
end Schema

/-! ### Builds -/

/-- No reference is found dangling. -/
def NeverDangles {α : Type} (outcome : Except CompileError α) : Prop :=
  ∀ model field target, outcome ≠ .error (.danglingReference model field target)

namespace NeverDangles
variable {α β : Type}

theorem ok (value : α) : NeverDangles (.ok value) := fun _ _ _ failed => nomatch failed

theorem bind {outcome : Except CompileError α} {next : α → Except CompileError β}
    (first : NeverDangles outcome) (later : ∀ value, NeverDangles (next value)) :
    NeverDangles (outcome >>= next) := by
  intro model field target failed
  cases outcome with
  | error fault =>
    cases failed
    exact first _ _ _ rfl
  | ok value => exact later value _ _ _ failed

theorem mapM {step : α → Except CompileError β} (each : ∀ item, NeverDangles (step item))
    (items : List α) : NeverDangles (items.mapM step) := by
  induction items with
  | nil => exact ok _
  | cons item rest ih =>
    rw [List.mapM_cons]
    exact (each item).bind fun _ => ih.bind fun _ => ok _

end NeverDangles

section
variable {promoter : Promoter}

mutual
theorem Field.neverDangles_resolve
    (promotes : ∀ schema path name made, NeverDangles (promoter schema path name made))
    (schema above : String) : (field : Field) → (made : Promotions) →
      NeverDangles (field.resolve promoter schema above made)
  | ⟨name, token, children⟩, made => by
    rw [resolve]
    split
    · exact (promotes _ _ _ _).bind fun _ => .ok _
    · exact (neverDangles_resolveAll promotes schema _ children made).bind fun _ => .ok _
    · exact .ok _
theorem Field.neverDangles_resolveAll
    (promotes : ∀ schema path name made, NeverDangles (promoter schema path name made))
    (schema above : String) : (fields : List Field) → (made : Promotions) →
      NeverDangles (resolveAll promoter schema above fields made)
  | [], made => .ok _
  | field :: rest, made => by
    rw [resolveAll]
    apply (neverDangles_resolve promotes schema above field made).bind
    intro first
    exact (neverDangles_resolveAll promotes schema above rest first.2).bind fun _ => .ok _
end

end

theorem Promotions.neverDangles_add (made : Promotions) (name : String) (fields : List Field) :
    NeverDangles (made.add name fields) := by
  unfold add
  split <;> simp [NeverDangles]

theorem neverDangles_promote (budget : Nat) (around : Surroundings) (schema path name : String)
    (made : Promotions) : NeverDangles (promote budget around schema path name made) := by
  induction budget generalizing around schema path name made with
  | zero =>
    simp only [promote]
    repeat' split
    all_goals simp [NeverDangles, Surroundings.cycle]
  | succ budget ih =>
    simp only [promote]
    split
    · simp [NeverDangles]
    · split
      · simp [NeverDangles, Surroundings.cycle]
      · split
        · split <;> simp [NeverDangles]
        · apply (Field.neverDangles_resolveAll (ih _) _ _ _ _).bind
          intro inside
          exact (Promotions.neverDangles_add _ _ _).bind fun _ => .ok _

theorem Declaration.neverDangles_expand (definition : Declaration) : NeverDangles definition.expand := by
  apply (Field.neverDangles_resolveAll (neverDangles_promote _ _) _ _ _ _).bind
  intro resolved
  exact (Promotions.neverDangles_add _ _ _).bind fun _ => .ok _

mutual
theorem Field.neverDangles_compile (model path : String) : (field : Field) → (gathered : Gathered) →
    NeverDangles (field.compile model path gathered)
  | ⟨name, token, children⟩, gathered => by
    rw [compile]
    split
    · exact .ok _
    · exact .ok _
    · exact (neverDangles_compileAll model _ children [] gathered).bind fun _ => .ok _
    · exact .ok _
    · simp [NeverDangles]
    · simp [NeverDangles]
theorem Field.neverDangles_compileAll (model above : String) : (fields : List Field) →
    (types : Keyed FieldType) → (gathered : Gathered) →
      NeverDangles (compileAll model above fields types gathered)
  | [], types, gathered => .ok _
  | field :: rest, types, gathered => by
    rw [compileAll]
    apply (neverDangles_compile model _ field gathered).bind
    intro own
    exact neverDangles_compileAll model above rest _ own.2
end

theorem Schema.neverDangles_compile (name : String) (fields : List Field) (options : CompileOptions) :
    NeverDangles (compile name fields options) := by
  apply (Field.neverDangles_compileAll name "" fields [] {}).bind
  intro within
  simp only
  split
  · exact NeverDangles.bind (fun _ _ _ failed => nomatch failed) fun _ => .ok _
  · exact .ok _

theorem neverDangles_addSchemas (schemas known : List Schema) : NeverDangles (addSchemas known schemas) := by
  induction schemas generalizing known with
  | nil => exact .ok _
  | cons schema rest ih =>
    rw [addSchemas]
    split
    · simp [NeverDangles]
    · exact ih _

theorem neverDangles_compileEach (options : CompileOptions) (definitions : List Declaration)
    (known : List Schema) : NeverDangles (compileEach options known definitions) := by
  induction definitions generalizing known with
  | nil => exact .ok _
  | cons definition rest ih =>
    have own : NeverDangles (definition.compile options) :=
      definition.neverDangles_expand.bind fun _ => .mapM (fun _ => Schema.neverDangles_compile _ _ _) _
    exact own.bind fun schemas => (neverDangles_addSchemas schemas known).bind ih

/-- In a build that passes the check, the references that are listed go to schemas of it. -/
theorem known_of_checkReferences {schemas : List Schema} (checked : checkReferences schemas = .ok ())
    {schema : Schema} (member : schema ∈ schemas) {reference : String × String}
    (listed : reference ∈ schema.references) : ∃ other ∈ schemas, other.name = reference.2 := by
  have own := forM_eq_ok.mp (forM_eq_ok.mp checked schema member) reference listed
  simp only at own
  split at own
  · rename_i known
    simpa using known
  · cases own

/-- Only a reference that is listed is found dangling, if no schema has the name it gives. -/
theorem dangling_of_checkReferences {schemas : List Schema} {model field target : String}
    (failed : checkReferences schemas = .error (.danglingReference model field target)) :
    ∃ schema ∈ schemas, schema.name = model ∧ (field, target) ∈ schema.references ∧
      ∀ other ∈ schemas, other.name ≠ target := by
  obtain ⟨schema, member, own⟩ := exists_of_forM failed
  obtain ⟨⟨path, wanted⟩, listed, fault⟩ := exists_of_forM own
  simp only at fault
  split at fault
  · cases fault
  · rename_i unknown
    cases fault
    exact ⟨schema, member, rfl, listed, by simpa using unknown⟩

theorem Schema.parts_of_compileEach {definitions : List Declaration} {options : CompileOptions}
    (accepted : ∀ definition ∈ definitions, definition.validate = .ok ()) {schemas : List Schema}
    (each : compileEach options [] definitions = .ok schemas) {schema : Schema} (member : schema ∈ schemas) :
    ∃ name fields, compile name fields options = .ok schema ∧ Field.DistinctAll fields := by
  obtain ⟨definition, listed, expansion, name, fields, expanded, inside, compiled⟩ :=
    (comesFrom_of_compileEach each member).resolve_left (by simp)
  exact ⟨name, fields, compiled, Declaration.distinctAll_of_expand
    (Declaration.checkInside_of_validate (accepted definition listed)) expanded inside⟩

theorem isClosed_iff_plain {definitions : List Declaration} {options : CompileOptions}
    (accepted : ∀ definition ∈ definitions, definition.validate = .ok ()) {schemas : List Schema}
    (built : compileAll definitions options = .ok schemas)
    {schema : Schema} (member : schema ∈ schemas) : schema.IsClosed schemas ↔ schema.HasPlainReferences := by
  obtain ⟨_, each, rest⟩ := bind_eq_ok.mp built
  obtain ⟨_, checked, finished⟩ := bind_eq_ok.mp rest
  cases finished
  obtain ⟨name, fields, compiled, distinct⟩ := Schema.parts_of_compileEach accepted each member
  constructor
  · exact Schema.IsClosed.plain
  · intro plain
    exact Schema.isClosed_of_plain compiled distinct plain fun _ => known_of_checkReferences checked member

/-- A reference that is found dangling is there and goes to no schema. -/
theorem refers_of_dangling {definitions : List Declaration} {options : CompileOptions}
    {model field target : String}
    (failed : compileAll definitions options = .error (.danglingReference model field target)) :
    ∃ schemas, compileEach options [] definitions = .ok schemas ∧ ∃ schema ∈ schemas,
      schema.name = model ∧ schema.Refers (Text.segments field) target ∧
        ∀ other ∈ schemas, other.name ≠ target := by
  unfold compileAll at failed
  cases each : compileEach options [] definitions with
  | error fault =>
    rw [each] at failed
    cases failed
    exact absurd each (neverDangles_compileEach options definitions [] _ _ _)
  | ok schemas =>
    rw [each] at failed
    change (checkReferences schemas >>= fun _ => .ok schemas) = _ at failed
    cases checked : checkReferences schemas with
    | ok => rw [checked] at failed; cases failed
    | error fault =>
      rw [checked] at failed
      cases failed
      obtain ⟨schema, member, named, listed, unknown⟩ := dangling_of_checkReferences checked
      exact ⟨schemas, rfl, schema, member, named, Schema.refers_of_mem_references listed, unknown⟩

/-- A build that compiles is closed under the references of a schema exactly if no name on the
way to one of these has a dot in it; and a reference that is found dangling is there and goes
to no schema. -/
theorem compileAll_closed {definitions : List Declaration} {options : CompileOptions}
    (accepted : ∀ definition ∈ definitions, definition.validate = .ok ()) :
    (∀ schemas, compileAll definitions options = .ok schemas →
      ∀ schema ∈ schemas, (schema.IsClosed schemas ↔ schema.HasPlainReferences)) ∧
    ∀ model field target, compileAll definitions options = .error (.danglingReference model field target) →
      ∃ schemas, compileEach options [] definitions = .ok schemas ∧ ∃ schema ∈ schemas,
        schema.name = model ∧ schema.Refers (Text.segments field) target ∧
          ∀ other ∈ schemas, other.name ≠ target := by
  constructor
  · intro schemas built schema member
    exact isClosed_iff_plain accepted built member
  · intro model field target failed
    exact refers_of_dangling failed

/-- Players, with the team of each in a map, and teams. -/
def roster : List Declaration :=
  [⟨"player", [⟨"name", "text", []⟩, .map "club" [⟨"team", "model.team", []⟩]], []⟩,
    ⟨"team", [⟨"title", "text", []⟩], []⟩]

def playerSchema : Schema :=
  ⟨"player", [("club", .object [("team", .reference "team")]), ("name", .text)], ⟨true, none, ["club.team"]⟩⟩

def teamSchema : Schema := ⟨"team", [("title", .text)], ⟨true, none, []⟩⟩

theorem roster_compiled : (∀ definition ∈ roster, definition.validate = .ok ()) ∧
    compileAll roster {} = .ok [playerSchema, teamSchema] := by
  constructor
  · decide +kernel
  · cbv

theorem roster_closed : playerSchema.IsClosed [playerSchema, teamSchema] ∧
    playerSchema.Refers ["club", "team"] "team" := by
  have refers : playerSchema.Refers ["club", "team"] "team" :=
    .inside (List.mem_cons_self) (.here List.mem_cons_self)
  refine ⟨((compileAll_closed roster_compiled.1).1 _ roster_compiled.2 _ List.mem_cons_self).mpr ?_, refers⟩
  intro names target other name member
  have only : names = ["club", "team"] := by
    cases other with
    | here listed => simp [playerSchema] at listed
    | inside listed within =>
      simp only [playerSchema, List.mem_cons, Prod.mk.injEq, FieldType.object.injEq, List.not_mem_nil,
        or_false, reduceCtorEq, and_false] at listed
      obtain ⟨rfl, rfl⟩ := listed
      cases within with
      | here last => simp_all
      | inside last _ => simp at last
  rw [only] at member
  have undotted : ∀ name ∈ ["club", "team"], Text.Undotted name := by decide +kernel
  exact undotted name member

/-- A reference with a dot in its name, to a model that is not there. -/
def ghostDefinition : Declaration := ⟨"m", [⟨"a.b", "model.ghost", []⟩], []⟩

def ghostSchema : Schema := ⟨"m", [("a.b", .reference "ghost")], ⟨true, none, ["a.b"]⟩⟩

/-- The rules let the dot pass, the reference is not listed, and the build compiles without the
model that it goes to. -/
theorem ghost_not_closed : ghostDefinition.validate = .ok () ∧
    compileAll [ghostDefinition] {} = .ok [ghostSchema] ∧ ghostSchema.Refers ["a.b"] "ghost" ∧
      ghostSchema.references = [] ∧ ¬ ghostSchema.IsClosed [ghostSchema] := by
  have refers : ghostSchema.Refers ["a.b"] "ghost" := .here List.mem_cons_self
  refine ⟨by decide +kernel, by cbv, refers, by cbv, fun closed => ?_⟩
  obtain ⟨other, member, named⟩ := closed.known _ _ refers
  obtain rfl := List.mem_singleton.mp member
  exact absurd named (by decide)

end Dossier
