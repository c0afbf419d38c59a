import Dossier.Proofs.ReferenceClosure

/-! Compilation of one list of fields. It succeeds if nothing in the list is at fault, and then
the schema is made up of what the list declares; otherwise it tells of the first fault. -/
namespace Dossier

/-- Fields of the kind can be stored. -/
def Kind.isStored : Kind → Bool
  | .primitive _ | .model _ | .map | .password => true
  | .submodel _ | .unknown => false

/-- The type that fields of a kind are stored as; what is in a map is told by its fields. -/
inductive Kind.Stores : Kind → FieldType → Prop where
  | primitive (given : Primitive) : Stores (.primitive given) given.fieldType
  | model (target : String) : Stores (.model target) (.reference target)
  | map (inner : List (String × FieldType)) : Stores .map (.object inner)
  | password : Stores .password .text

namespace Field

/-- Why a field of a model cannot be stored. -/
def fault? (model path : String) (field : Field) : Option CompileError :=
  match field.kind with
  | .submodel name => some (.missingSubmodel model path name)
  | .unknown => some (.unknownType model path field.token)
  | _ => none

/-- What is at fault in a walk below a path. -/
def faultsOf (model above : String) (walk : List (List String × Field)) : List CompileError :=
  walk.filterMap fun entry => entry.2.fault? model (above ++ Text.dotted entry.1)

/-- What is at fault in fields, in written order, depth first. -/
def faults (model : String) (fields : List Field) : List CompileError :=
  (walkAll fields).filterMap fun entry => entry.2.fault? model (Text.dotted entry.1)

/-- The paths of the fields of some kinds, in written order, depth first. -/
def paths (wanted : Kind → Bool) (fields : List Field) : List String :=
  ((walkAll fields).filter fun entry => wanted entry.2.kind).map fun entry => Text.dotted entry.1

theorem fault?_eq_none {model path : String} {field : Field} :
    field.fault? model path = none ↔ field.kind.isStored = true := by
  unfold fault?
  cases field.kind <;> simp [Kind.isStored]

theorem faults_eq_nil {model : String} {fields : List Field} : faults model fields = [] ↔
    ∀ names field, Stands fields names field → field.kind.isStored = true := by
  simp only [faults, List.filterMap_eq_nil_iff, fault?_eq_none, Prod.forall, mem_walkAll]

/-! ### The first fault -/

/-- In a map the same fields are at fault, with the name of the map in their paths. -/
theorem faultsOf_inside (model above name : String) (fields : List Field) :
    faultsOf model above ((walkAll fields).map (Prod.map (name :: ·) id)) =
      faultsOf model (above ++ name ++ ".") (walkAll fields) := by
  unfold faultsOf
  rw [List.filterMap_map]
  refine List.filterMap_congr fun entry member => ?_
  have nonempty : entry.1 ≠ [] := (mem_walkAll.mp member).ne_nil
  simp [Text.append_dotted_cons above name nonempty]

theorem eq_nil_of_ok {α : Type} {outcome : Except CompileError α} {faults : List CompileError}
    (settles : ∀ fault, outcome = .error fault ↔ faults.head? = some fault) {result : α}
    (done : outcome = .ok result) : faults = [] := by
  refine List.head?_eq_none_iff.mp (Option.eq_none_iff_forall_ne_some.mpr fun fault found => ?_)
  cases done.symm.trans ((settles fault).mpr found)

mutual
theorem compile_eq_error : (field : Field) → (model above : String) → (gathered : Gathered) →
    (fault : CompileError) → (field.compile model (above ++ field.name) gathered = .error fault ↔
      (faultsOf model above field.walk).head? = some fault)
  | ⟨name, token, children⟩, model, above, gathered, fault => by
    rw [compile, walk]
    split
    · rename_i kind
      simp [faultsOf, fault?, Field.kind, kind]
    · rename_i kind
      simp [faultsOf, fault?, Field.kind, kind]
    · rename_i kind
      have inside := compileAll_eq_error children model (above ++ name ++ ".") [] gathered fault
      have own : fault? model (above ++ Text.dotted [name]) ⟨name, token, children⟩ = none := by
        simp [fault?, Field.kind, kind]
      rw [bind_eq_error, if_pos kind, faultsOf, List.filterMap_cons, own]
      change _ ↔ (faultsOf model above _).head? = _
      rw [faultsOf_inside, ← inside]
      exact or_iff_left fun ⟨_, _, finished⟩ => nomatch finished
    · rename_i kind
      simp [faultsOf, fault?, Field.kind, kind]
    · rename_i kind
      simp [faultsOf, fault?, Field.kind, kind, Text.dotted_singleton]
    · rename_i kind
      simp [faultsOf, fault?, Field.kind, kind, Text.dotted_singleton]
/-- Compilation fails with the first fault there is. -/
theorem compileAll_eq_error : (fields : List Field) → (model above : String) → (types : Keyed FieldType) →
    (gathered : Gathered) → (fault : CompileError) →
      (compileAll model above fields types gathered = .error fault ↔
        (faultsOf model above (walkAll fields)).head? = some fault)
  | [], model, above, types, gathered, fault => by
    simp [compileAll, walkAll, faultsOf]
  | field :: rest, model, above, types, gathered, fault => by
    have own := compile_eq_error field model above gathered
    rw [compileAll, walkAll, faultsOf, List.filterMap_append, List.head?_append]
    change _ ↔ (faultsOf model above _).head?.or (faultsOf model above _).head? = _
    cases first : field.compile model (above ++ field.name) gathered with
    | error other =>
      rw [(own other).mp first]
      simp
    | ok result =>
      obtain ⟨type, between⟩ := result
      rw [eq_nil_of_ok own first, List.head?_nil, Option.none_or,
        ← compileAll_eq_error rest model above (types.insert field.name type) between]
      rfl
end

/-! ### Places in the walk -/

section
variable {wanted : Kind → Bool}

mutual
theorem places_eq_walk (noMap : wanted .map = false) : (field : Field) →
    field.places wanted = (field.walk.filter fun entry => wanted entry.2.kind).map Prod.fst
  | ⟨name, token, children⟩ => by
    rw [places, walk]
    split
    · rename_i kind
      rw [if_pos kind, placesAll_eq_walkAll noMap children]
      simp [Field.kind, kind, noMap, List.filter_map, Function.comp_def]
    · rename_i other
      rw [if_neg other]
      by_cases isWanted : wanted (Kind.ofToken token) = true <;> simp [Field.kind, isWanted]
/-- The places of the fields of some kinds are those that the walk comes to. -/
theorem placesAll_eq_walkAll (noMap : wanted .map = false) : (fields : List Field) →
    placesAll wanted fields = ((walkAll fields).filter fun entry => wanted entry.2.kind).map Prod.fst
  | [] => rfl
  | field :: rest => by
    rw [placesAll, walkAll, List.filter_append, List.map_append, places_eq_walk noMap field,
      placesAll_eq_walkAll noMap rest]
end

theorem paths_eq_places (noMap : wanted .map = false) (fields : List Field) :
    paths wanted fields = (placesAll wanted fields).map Text.dotted := by
  rw [paths, placesAll_eq_walkAll noMap, List.map_map]
  rfl

end

/-- A field has a type that its kind is stored as. -/
theorem HasType.stores {field : Field} {type : FieldType} (has : field.HasType type) : field.kind.Stores type := by
  obtain ⟨name, token, children⟩ := field
  obtain ⟨model, path, before, after, compiled⟩ := has
  change (Kind.ofToken token).Stores type
  rw [compile] at compiled
  split at compiled
  · rename_i given own
    cases compiled
    exact own ▸ .primitive given
  · rename_i target own
    cases compiled
    exact own ▸ .model target
  · rename_i own
    obtain ⟨⟨inner, _⟩, _, finished⟩ := bind_eq_ok.mp compiled
    cases finished
    exact own ▸ .map inner
  · rename_i own
    cases compiled
    exact own ▸ .password
  · cases compiled
  · cases compiled

end Field

/-! ### Schemas -/

/-- A schema is made up of what fields declare. -/
structure Schema.Describes (schema : Schema) (name : String) (fields : List Field) : Prop where
  name_eq : schema.name = name
  stamps : schema.behaviors.stamps = true
  /-- There is a type at the names of every field, as its kind is stored. -/
  declared : ∀ names field, Field.Stands fields names field →
    ∃ type, FieldType.Occurs schema.fields names type ∧ field.kind.Stores type
  /-- There is no type elsewhere. -/
  types : ∀ names type, FieldType.Occurs schema.fields names type →
    ∃ field, Field.Stands fields names field ∧ field.kind.Stores type
  single : ∀ names type other, FieldType.Occurs schema.fields names type →
    FieldType.Occurs schema.fields names other → type = other
  populated : schema.behaviors.populated = Field.paths Kind.isModel fields
  password : schema.behaviors.password = (Field.paths (· == .password) fields).getLast?

namespace Schema
variable {owner name : String} {fields : List Field} {options : CompileOptions} {schema : Schema}

theorem describes_of_compile (distinct : Field.DistinctAll fields)
    (compiled : compile name fields options = .ok schema) : schema.Describes name fields := by
  obtain ⟨⟨_, within⟩, password⟩ := parts_of_compile compiled
  have traced : FieldType.Traced schema.fields :=
    Field.traced_of_compileAll fields within List.Pairwise.nil (by simp)
  have typed {names : List String} {type : FieldType} : FieldType.Occurs schema.fields names type ↔
      ∃ field, Field.Stands fields names field ∧ field.HasType type := by
    rw [← Field.at?_eq_some_iff within distinct]
    exact ⟨traced names type, FieldType.occurs_of_at?⟩
  constructor
  · exact name_of_compile compiled
  · exact stamps_of_compile compiled
  · intro names field stands
    obtain ⟨type, has⟩ := stands.hasType within distinct
    exact ⟨type, typed.mpr ⟨field, stands, has⟩, has.stores⟩
  · intro names type occurs
    obtain ⟨field, stands, has⟩ := typed.mp occurs
    exact ⟨field, stands, has.stores⟩
  · intro names type other occurs also
    exact Option.some.inj ((traced names type occurs).symm.trans (traced names other also))
  · rw [populated_of_compile compiled, Field.paths_eq_places rfl]
  · rw [password, Field.designated?, Field.paths_eq_places rfl, List.getLast?_map]

/-- Compilation fails for a field that cannot be stored, and else only for the passwords. -/
theorem compile_eq_error {fault : CompileError} : compile name fields options = .error fault ↔
    (Field.faults name fields).head? = some fault ∨
      Field.faults name fields = [] ∧ options.strictPasswords = true ∧
        1 < (Field.paths (· == .password) fields).length ∧
        fault = .ambiguousPassword name (Field.paths (· == .password) fields) := by
  have first := Field.compileAll_eq_error fields name "" [] {}
  have start : Field.faultsOf name "" (Field.walkAll fields) = Field.faults name fields := by
    simp [Field.faultsOf, Field.faults]
  simp only [start] at first
  cases within : Field.compileAll name "" fields [] {} with
  | error other =>
    have found := (first other).mp within
    have failed : compile name fields options = .error other := by
      rw [compile, within]
      rfl
    have some : Field.faults name fields ≠ [] := by
      rintro none
      simp [none] at found
    simp [failed, found, some]
  | ok result =>
    obtain ⟨types, gathered⟩ := result
    have none : Field.faults name fields = [] := Field.eq_nil_of_ok first within
    have passwords : gathered.passwords = Field.paths (· == .password) fields := by
      rw [Field.paths_eq_places rfl]
      simpa using (Field.grown_of_compileAll fields within).1
    have outcome : compile name fields options =
        if options.strictPasswords = true ∧ 1 < gathered.passwords.length then
          .error (.ambiguousPassword name gathered.passwords)
        else .ok ⟨name, types, ⟨true, gathered.passwords.getLast?, gathered.references⟩⟩ := by
      rw [compile, within]
      change (if _ then _ else _) = _
      split_ifs <;> rfl
    rw [outcome, passwords]
    split_ifs with ambiguous
    · simp [none, ambiguous, eq_comm]
    · have never {rest : Prop} : ¬ (options.strictPasswords = true ∧
          1 < (Field.paths (· == .password) fields).length ∧ rest) := by
        rintro ⟨strict, many, _⟩
        exact ambiguous ⟨strict, many⟩
      simp [none, never]

/-- Compilation succeeds if no field is at fault and the passwords are not either. -/
theorem exists_compile_iff : (∃ schema, compile name fields options = .ok schema) ↔
    Field.faults name fields = [] ∧
      (options.strictPasswords = true → (Field.paths (· == .password) fields).length ≤ 1) := by
  constructor
  · rintro ⟨schema, compiled⟩
    have never {fault : CompileError} : compile name fields options ≠ .error fault := by simp [compiled]
    have none : Field.faults name fields = [] := by
      refine List.head?_eq_none_iff.mp (Option.eq_none_iff_forall_ne_some.mpr fun fault found => ?_)
      exact never (compile_eq_error.mpr (.inl found))
    refine ⟨none, fun strict => Nat.le_of_not_lt fun many => ?_⟩
    exact never (compile_eq_error.mpr (.inr ⟨none, strict, many, rfl⟩))
  · rintro ⟨none, few⟩
    cases outcome : compile name fields options with
    | ok schema => exact ⟨schema, rfl⟩
    | error fault =>
      rcases compile_eq_error.mp outcome with first | ⟨_, strict, many, _⟩
      · simp [none] at first
      · exact absurd (few strict) (Nat.not_le.mpr many)

/-- Compilation of fields is exact. It succeeds if every field can be stored and, under strict
options, there is one password at most; the schema then has the types of all declared fields and
lists the references to models, and of several passwords the last one counts. It fails with the
first fault of a field or else for the passwords, all of which it names. -/
theorem compile_exact (checked : Field.checkAll owner [] fields = .ok ()) :
    ((∃ schema, compile name fields options = .ok schema) ↔
      (∀ names field, Field.Stands fields names field → field.kind.isStored = true) ∧
        (options.strictPasswords = true → (Field.paths (· == .password) fields).length ≤ 1)) ∧
    (∀ schema, compile name fields options = .ok schema → schema.Describes name fields) ∧
    ∀ fault, compile name fields options = .error fault →
      (Field.faults name fields).head? = some fault ∨
        Field.faults name fields = [] ∧ fault = .ambiguousPassword name (Field.paths (· == .password) fields) := by
  have distinct := (Field.distinctAll_of_checkAll fields checked).1
  refine ⟨?_, fun schema => describes_of_compile distinct, fun fault failed => ?_⟩
  · rw [exists_compile_iff, Field.faults_eq_nil]
  · rcases compile_eq_error.mp failed with first | ⟨none, _, _, same⟩
    · exact .inl first
    · exact .inr ⟨none, same⟩

end Schema

/-- Keys of an owner, with more than one password. -/
def ledger : List Field :=
  [⟨"owner", "model.user", []⟩,
    .map "keys" [⟨"pin", "password", []⟩, ⟨"backup", "password", []⟩, ⟨"holder", "model.user", []⟩]]

def ledgerSchema : Schema :=
  ⟨"ledger", [("keys", .object [("backup", .text), ("holder", .reference "user"), ("pin", .text)]),
    ("owner", .reference "user")], ⟨true, some "keys.backup", ["owner", "keys.holder"]⟩⟩

theorem ledger_describes : Field.checkAll "ledger" [] ledger = .ok () ∧
    Schema.compile "ledger" ledger {} = .ok ledgerSchema ∧ ledgerSchema.Describes "ledger" ledger := by
  have checked : Field.checkAll "ledger" [] ledger = .ok () := by decide +kernel
  have compiled : Schema.compile "ledger" ledger {} = .ok ledgerSchema := by cbv
  exact ⟨checked, compiled, (Schema.compile_exact checked).2.1 _ compiled⟩

end Dossier
