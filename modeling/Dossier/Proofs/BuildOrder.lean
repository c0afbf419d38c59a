import Dossier.Proofs.ReferenceClosure

/-! Builds of definitions in any order. What becomes of a set of definitions is settled by the
schemas that they compile to one by one: these are the build if no two of them share a name and
no listed reference dangles. -/
namespace Dossier

/-- The schemas that definitions compile to, each on its own. -/
def CompileTo (options : CompileOptions) (definitions : List Declaration) (schemas : List Schema) : Prop :=
  ∃ groups, List.Forall₂ (fun definition group => definition.compile options = .ok group) definitions groups ∧
    groups.flatten = schemas

/-- Every definition compiles on its own, no two of all schemas share a name, and every
reference goes to one of them. -/
structure MakeUp (options : CompileOptions) (definitions : List Declaration) (schemas : List Schema) :
    Prop where
  compiled : CompileTo options definitions schemas
  distinct : (schemas.map Schema.name).Nodup
  resolved : ∀ schema ∈ schemas, ∀ names target, schema.Refers names target →
    ∃ other ∈ schemas, other.name = target

section
variable {options : CompileOptions} {definitions others : List Declaration}
  {known schemas result : List Schema}

/-! ### The schemas of a build -/

theorem addSchemas_eq_ok (distinct : (known.map Schema.name).Nodup) :
    addSchemas known schemas = .ok result ↔
      result = known ++ schemas ∧ ((known ++ schemas).map Schema.name).Nodup := by
  induction schemas generalizing known with
  | nil => simpa [addSchemas, eq_comm] using fun _ => distinct
  | cons schema rest ih =>
    rw [addSchemas]
    split
    · rename_i taken
      obtain ⟨other, member, same⟩ := List.any_eq_true.mp taken
      refine iff_of_false (by simp) fun grown => ?_
      obtain ⟨_, apart⟩ := grown
      rw [List.map_append, List.nodup_append] at apart
      exact apart.2.2 _ (List.mem_map_of_mem member) _ (List.mem_map_of_mem List.mem_cons_self)
        (beq_iff_eq.mp same)
    · rename_i free
      have grown : ((known ++ [schema]).map Schema.name).Nodup := by
        have fresh : ∀ other ∈ known, other.name ≠ schema.name := by simpa using free
        rw [List.map_append, List.nodup_append]
        refine ⟨distinct, by simp, fun name listed also member same => ?_⟩
        obtain ⟨other, among, rfl⟩ := List.mem_map.mp listed
        exact fresh other among (by simpa [same] using member)
      rw [ih grown, List.append_assoc, List.singleton_append]

theorem compileEach_eq_ok (distinct : (known.map Schema.name).Nodup) :
    compileEach options known definitions = .ok result ↔
      ∃ schemas, CompileTo options definitions schemas ∧ result = known ++ schemas ∧
        (result.map Schema.name).Nodup := by
  induction definitions generalizing known result with
  | nil =>
    constructor
    · intro finished
      cases finished
      exact ⟨[], ⟨[], .nil, rfl⟩, by simp, distinct⟩
    · rintro ⟨_, ⟨_, ⟨⟩, rfl⟩, rfl, _⟩
      simp [compileEach]
  | cons definition rest ih =>
    rw [compileEach]
    constructor
    · intro compiled
      obtain ⟨group, own, others⟩ := bind_eq_ok.mp compiled
      obtain ⟨between, added, later⟩ := bind_eq_ok.mp others
      obtain ⟨rfl, free⟩ := (addSchemas_eq_ok distinct).mp added
      obtain ⟨_, ⟨groups, each, rfl⟩, rfl, all⟩ := (ih free).mp later
      exact ⟨_, ⟨group :: groups, .cons own each, rfl⟩, by simp, all⟩
    · rintro ⟨_, ⟨_, _ | ⟨own, each⟩, rfl⟩, rfl, all⟩
      rename_i group groups
      rw [List.flatten_cons, ← List.append_assoc] at all ⊢
      have free : ((known ++ group).map Schema.name).Nodup := by
        rw [List.map_append] at all
        exact (List.nodup_append.mp all).1
      have added := (addSchemas_eq_ok distinct).mpr ⟨rfl, free⟩
      have later : compileEach options (known ++ group) rest = .ok (known ++ group ++ groups.flatten) :=
        (ih free).mpr ⟨_, ⟨groups, each, rfl⟩, rfl, all⟩
      exact bind_eq_ok.mpr ⟨group, own, bind_eq_ok.mpr ⟨_, added, later⟩⟩

theorem checkReferences_eq_ok : checkReferences schemas = .ok () ↔
    ∀ schema ∈ schemas, ∀ reference ∈ schema.references, ∃ other ∈ schemas, other.name = reference.2 := by
  constructor
  · intro checked schema member reference listed
    exact known_of_checkReferences checked member listed
  · intro resolved
    refine forM_eq_ok.mpr fun schema member => forM_eq_ok.mpr fun reference listed => ?_
    obtain ⟨other, among, same⟩ := resolved schema member reference listed
    have known : schemas.any (·.name == reference.2) = true :=
      List.any_eq_true.mpr ⟨other, among, beq_iff_eq.mpr same⟩
    exact if_pos known

/-- A build is what its definitions compile to, if the names are distinct and the listed
references go to schemas of it. -/
theorem compileAll_eq_ok : compileAll definitions options = .ok schemas ↔
    CompileTo options definitions schemas ∧ (schemas.map Schema.name).Nodup ∧
      ∀ schema ∈ schemas, ∀ reference ∈ schema.references, ∃ other ∈ schemas, other.name = reference.2 := by
  constructor
  · intro built
    obtain ⟨_, each, rest⟩ := bind_eq_ok.mp built
    obtain ⟨_, checked, finished⟩ := bind_eq_ok.mp rest
    cases finished
    obtain ⟨_, compiled, rfl, distinct⟩ := (compileEach_eq_ok (by simp)).mp each
    exact ⟨compiled, distinct, checkReferences_eq_ok.mp checked⟩
  · rintro ⟨compiled, distinct, resolved⟩
    have each : compileEach options [] definitions = .ok schemas :=
      (compileEach_eq_ok (by simp)).mpr ⟨schemas, compiled, rfl, distinct⟩
    exact bind_eq_ok.mpr ⟨schemas, each, bind_eq_ok.mpr ⟨_, checkReferences_eq_ok.mpr resolved, rfl⟩⟩

/-! ### Another order -/

theorem CompileTo.perm (compiled : CompileTo options definitions schemas) (reordered : definitions.Perm others) :
    ∃ also, CompileTo options others also ∧ schemas.Perm also := by
  obtain ⟨groups, each, rfl⟩ := compiled
  obtain ⟨permuted, eachToo, same⟩ := List.perm_comp_forall₂ reordered.symm each
  exact ⟨_, ⟨permuted, eachToo, rfl⟩, same.symm.flatten⟩

theorem CompileTo.exists_fields (compiled : CompileTo options definitions schemas) {schema : Schema}
    (member : schema ∈ schemas) : ∃ name fields, Schema.compile name fields options = .ok schema := by
  obtain ⟨groups, each, rfl⟩ := compiled
  obtain ⟨group, listed, among⟩ := List.mem_flatten.mp member
  obtain ⟨definition, _, own⟩ := exists_of_mapM (mapM_eq_ok.mpr each) listed
  obtain ⟨_, _, compiled⟩ := bind_eq_ok.mp own
  obtain ⟨⟨name, fields⟩, _, done⟩ := exists_of_mapM compiled among
  exact ⟨name, fields, done⟩

/-- In another order definitions build the same schemas. -/
theorem compileAll_perm (built : compileAll definitions options = .ok schemas) (reordered : definitions.Perm others) :
    ∃ also, compileAll others options = .ok also ∧ schemas.Perm also := by
  obtain ⟨compiled, distinct, resolved⟩ := compileAll_eq_ok.mp built
  obtain ⟨also, compiledToo, same⟩ := compiled.perm reordered
  refine ⟨also, compileAll_eq_ok.mpr ⟨compiledToo, (same.map _).nodup_iff.mp distinct, ?_⟩, same⟩
  intro schema member reference listed
  obtain ⟨other, among, named⟩ := resolved schema (same.mem_iff.mpr member) reference listed
  exact ⟨other, same.mem_iff.mp among, named⟩

theorem Registry.build_perm {hasher : Hasher} {registry : Registry}
    (built : build definitions hasher options = .ok registry) (reordered : definitions.Perm others) :
    build others hasher options = .ok registry := by
  obtain ⟨schemas, compiled, finished⟩ := bind_eq_ok.mp built
  cases finished
  obtain ⟨also, compiledToo, same⟩ := compileAll_perm compiled reordered
  have distinct := (compileAll_eq_ok.mp compiled).2.1
  refine bind_eq_ok.mpr ⟨also, compiledToo, ?_⟩
  have names : Keyed.keys (schemas.map fun schema => (schema.name, Model.mk schema hasher)) =
      schemas.map Schema.name := by
    simp [Keyed.keys, Function.comp_def]
  rw [Keyed.ofEntries_perm (names ▸ distinct) (same.map _)]
  rfl

/-- Two lists of definitions build alike: both or neither do, the same schemas and one registry. -/
structure BuildAlike (options : CompileOptions) (definitions others : List Declaration) : Prop where
  both : (∃ schemas, compileAll definitions options = .ok schemas) ↔
    ∃ schemas, compileAll others options = .ok schemas
  schemas : ∀ schemas also, compileAll definitions options = .ok schemas → compileAll others options = .ok also →
    schemas.Perm also
  registry : ∀ hasher registry, Registry.build definitions hasher options = .ok registry ↔
    Registry.build others hasher options = .ok registry

theorem buildAlike_of_perm (reordered : definitions.Perm others) : BuildAlike options definitions others where
  both := by
    constructor
    · rintro ⟨_, built⟩
      exact (compileAll_perm built reordered).imp fun _ => And.left
    · rintro ⟨_, built⟩
      exact (compileAll_perm built reordered.symm).imp fun _ => And.left
  schemas := by
    intro schemas also built builtToo
    obtain ⟨permuted, rebuilt, same⟩ := compileAll_perm built reordered
    rw [builtToo] at rebuilt
    cases rebuilt
    exact same
  registry hasher registry :=
    ⟨fun built => Registry.build_perm built reordered, fun built => Registry.build_perm built reordered.symm⟩

/-! ### Dangling references -/

/-- The references with a dot in a name on the way to them go to schemas of the build. -/
def ResolvesDotted (schemas : List Schema) : Prop :=
  ∀ schema ∈ schemas, ∀ names target, schema.Refers names target →
    (∃ name ∈ names, ¬ Text.Undotted name) →
    ∃ other ∈ schemas, other.name = target

theorem makeUp_iff (built : compileAll definitions options = .ok schemas) :
    MakeUp options definitions schemas ↔ ResolvesDotted schemas := by
  obtain ⟨compiled, distinct, listed⟩ := compileAll_eq_ok.mp built
  constructor
  · intro made schema member names target refers _
    exact made.resolved schema member names target refers
  · intro dotted
    refine ⟨compiled, distinct, fun schema member names target refers => ?_⟩
    by_cases plain : ∀ name ∈ names, Text.Undotted name
    · obtain ⟨name, fields, own⟩ := compiled.exists_fields member
      exact listed schema member _ (Schema.mem_references own refers plain)
    · exact dotted schema member names target refers (by simpa using plain)

theorem compileAll_of_makeUp (made : MakeUp options definitions schemas) :
    compileAll definitions options = .ok schemas :=
  compileAll_eq_ok.mpr ⟨made.compiled, made.distinct, fun schema member _ listed =>
    made.resolved schema member _ _ (Schema.refers_of_mem_references listed)⟩

theorem built_iff_makeUp : ((∃ schemas, compileAll definitions options = .ok schemas) ↔
    ∃ schemas, MakeUp options definitions schemas) ↔
      ∀ schemas, compileAll definitions options = .ok schemas → ResolvesDotted schemas := by
  constructor
  · intro settled schemas built
    obtain ⟨others, made⟩ := settled.mp ⟨schemas, built⟩
    have same : others = schemas := Except.ok.inj ((compileAll_of_makeUp made).symm.trans built)
    exact (makeUp_iff built).mp (same ▸ made)
  · intro dotted
    constructor
    · rintro ⟨schemas, built⟩
      exact ⟨schemas, (makeUp_iff built).mpr (dotted schemas built)⟩
    · rintro ⟨schemas, made⟩
      exact ⟨schemas, compileAll_of_makeUp made⟩

end

/-- The order of definitions does not matter to a build, and its schemas have distinct names.
Definitions build exactly if each compiles on its own, no two schemas share a name and no
reference dangles, provided that in what is built no reference dangles with a dot in a name on
the way to it. -/
theorem build_of_set (definitions : List Declaration) (options : CompileOptions) :
    (∀ others, definitions.Perm others → BuildAlike options definitions others) ∧
    (∀ schemas, compileAll definitions options = .ok schemas → (schemas.map Schema.name).Nodup) ∧
    (((∃ schemas, compileAll definitions options = .ok schemas) ↔ ∃ schemas, MakeUp options definitions schemas) ↔
      ∀ schemas, compileAll definitions options = .ok schemas → ResolvesDotted schemas) := by
  refine ⟨fun others reordered => buildAlike_of_perm reordered, fun schemas built => ?_, built_iff_makeUp⟩
  exact (compileAll_eq_ok.mp built).2.1

/-- With the teams before the players that refer to them the roster builds too. -/
theorem roster_reversed : ∃ schemas, compileAll roster.reverse {} = .ok schemas ∧
    [playerSchema, teamSchema].Perm schemas := by
  have alike := (build_of_set roster {}).1 _ (List.reverse_perm _).symm
  obtain ⟨schemas, built⟩ := alike.both.mp ⟨_, roster_compiled.2⟩
  exact ⟨schemas, built, alike.schemas _ _ roster_compiled.2 built⟩

/-- A definition builds although its only reference, which has a dot in its name, dangles. -/
theorem ghost_built_dangling : compileAll [ghostDefinition] {} = .ok [ghostSchema] ∧
    ¬ ∃ schemas, MakeUp {} [ghostDefinition] schemas := by
  have built : compileAll [ghostDefinition] {} = .ok [ghostSchema] := by cbv
  refine ⟨built, ?_⟩
  rintro ⟨schemas, made⟩
  have same : schemas = [ghostSchema] := Except.ok.inj ((compileAll_of_makeUp made).symm.trans built)
  subst same
  have refers : ghostSchema.Refers ["a.b"] "ghost" := .here List.mem_cons_self
  obtain ⟨other, member, named⟩ := made.resolved _ List.mem_cons_self _ _ refers
  obtain rfl := List.mem_singleton.mp member
  exact absurd named (by decide)

end Dossier
