import Dossier.Proofs.ExactExpansion
import Dossier.Proofs.ReferenceClosure

/-! References to promoted schemas. Expansion writes the name of such a schema into a token, and
compilation reads it back without the blanks at its two ends. -/
namespace Dossier

/-! ### Trimming -/

namespace Text

theorem trimStart_append {characters rest : List Char} (kept : trimStart characters ≠ []) :
    trimStart (characters ++ rest) = trimStart characters ++ rest := by
  unfold trimStart at kept ⊢
  rw [List.dropWhile_append, if_neg (by simpa using kept)]

theorem trimStart_trimStart (characters : List Char) : trimStart (trimStart characters) = trimStart characters :=
  List.dropWhile_idempotent isBlank characters

theorem trimEnd_append {characters rest : List Char} (kept : trimEnd rest ≠ []) :
    trimEnd (characters ++ rest) = characters ++ trimEnd rest := by
  unfold trimEnd at kept ⊢
  rw [List.reverse_append, trimStart_append (by simpa using kept)]
  simp

theorem trimEnd_trimEnd (characters : List Char) : trimEnd (trimEnd characters) = trimEnd characters := by
  unfold trimEnd
  rw [List.reverse_reverse, trimStart_trimStart]

/-- A text does not begin with a blank. -/
def StartsShown (text : String) : Prop := trimStart text.toList = text.toList

instance (text : String) : Decidable (StartsShown text) :=
  inferInstanceAs (Decidable (trimStart text.toList = text.toList))

end Text

/-- The name in a reference to a submodel has no blanks at its end. -/
theorem Kind.trimEnd_of_submodel {token target : String} (kind : ofToken token = .submodel target) :
    Text.trimEnd target.toList = target.toList := by
  have given : target = Text.trim (Text.splitFirstDot token).2 := by
    simp only [ofToken] at kind
    split at kind
    · cases kind
    · split_ifs at kind
      exact (submodel.inj kind).symm
  rw [given, Text.trim, String.toList_ofList, Text.trimEnd_trimEnd]

/-- The name of a promoted schema loses only the blanks at its beginning. -/
theorem toList_trim_derivedName {parent target : String} (ends : Text.trimEnd target.toList = target.toList) :
    (Text.trim (derivedName parent target)).toList = Text.trimStart parent.toList ++ '_' :: target.toList := by
  have start : Text.trimStart (parent.toList ++ '_' :: target.toList) =
      Text.trimStart parent.toList ++ '_' :: target.toList := by
    by_cases blank : Text.trimStart parent.toList = []
    · unfold Text.trimStart at blank ⊢
      rw [List.dropWhile_append, if_pos (by simp [blank]), blank]
      rfl
    · exact Text.trimStart_append blank
  have finish : Text.trimEnd ('_' :: target.toList) = '_' :: target.toList := by
    by_cases empty : target.toList = []
    · rw [empty]
      rfl
    · change Text.trimEnd (['_'] ++ target.toList) = _
      rw [Text.trimEnd_append (by rwa [ends]), ends]
      rfl
  rw [Text.trim, toList_derivedName, start, String.toList_ofList, Text.trimEnd_append (by simp [finish]), finish]

theorem trim_derivedName {parent target : String} (ends : Text.trimEnd target.toList = target.toList)
    (starts : Text.StartsShown parent) : Text.trim (derivedName parent target) = derivedName parent target := by
  apply String.toList_inj.mp
  rw [toList_trim_derivedName ends, starts, toList_derivedName]

theorem startsShown_trim_derivedName {parent target : String} (ends : Text.trimEnd target.toList = target.toList)
    (shown : Text.trimStart parent.toList ≠ []) : Text.StartsShown (Text.trim (derivedName parent target)) := by
  rw [Text.StartsShown, toList_trim_derivedName ends, Text.trimStart_append (by rwa [Text.trimStart_trimStart]),
    Text.trimStart_trimStart]

namespace Field
variable {schema goal : String}

/-- After rewriting, a field refers to a model if it did before or if it referred to a submodel. -/
theorem kind_rewritten_eq_model {field : Field} : (field.rewritten schema).kind = .model goal ↔
    field.kind = .model goal ∨
      ∃ target, field.kind = .submodel target ∧ goal = Text.trim (derivedName schema target) := by
  cases own : field.kind with
  | submodel target =>
    have ends := Kind.trimEnd_of_submodel own
    have named : (Text.trim (derivedName schema target)).isEmpty = false := by
      rw [String.isEmpty_eq_false_iff, ne_eq, ← String.toList_inj, toList_trim_derivedName ends]
      simp
    rw [rewritten_of_submodel own, kind, Kind.ofToken_model, named]
    simp [eq_comm]
  | map =>
    rw [rewritten_of_map own, kind_map]
    simp
  | _ =>
    rw [rewritten_of_plain (by simp [own]) (by simp [own])]
    simp [own]

end Field

/-! ### Compiled definitions -/

namespace Declaration
variable {definition : Declaration} {visit : Visit} {options : CompileOptions} {schemas : List Schema}
  {schema : Schema} {names : List String} {target goal : String}

/-- A definition that has a name is in the name of all its schemas. -/
theorem Reaches.starts (reached : definition.Reaches visit) :
    ∃ rest, visit.schema.toList = definition.name.toList ++ rest := by
  induction reached with
  | refl => exact ⟨[], by simp [Declaration.visit]⟩
  | tail _ leads ih =>
    obtain ⟨name, _, _, _, rfl⟩ := leads
    obtain ⟨rest, same⟩ := ih
    exact ⟨rest ++ '_' :: name.toList, by simp [Visit.next, toList_derivedName, same]⟩

theorem trimStart_ne_nil_of_validate (accepted : definition.validate = .ok ()) :
    Text.trimStart definition.name.toList ≠ [] := by
  intro blank
  have unnamed : isUnnamed definition.name = true := by
    rw [isUnnamed, Text.trim, blank]
    rfl
  simp [validate, unnamed] at accepted

/-- The schemas of a definition begin with a blank as its name does. -/
theorem Reaches.startsShown_iff (reached : definition.Reaches visit) (accepted : definition.validate = .ok ()) :
    Text.StartsShown visit.schema ↔ Text.StartsShown definition.name := by
  obtain ⟨rest, same⟩ := reached.starts
  rw [Text.StartsShown, same, Text.trimStart_append (trimStart_ne_nil_of_validate accepted),
    List.append_cancel_right_eq]
  rfl

/-- A definition that compiles expands, and every schema that it expands to compiles. -/
theorem expands_of_compile (compiled : definition.compile options = .ok schemas) :
    ∃ visits out, definition.expand = .ok out ∧ definition.Expands visits (.ok out) ∧
      out.mapM (fun (name, fields) => Schema.compile name fields options) = .ok schemas := by
  obtain ⟨out, expanded, each⟩ := bind_eq_ok.mp compiled
  obtain ⟨visits, expands⟩ := definition.exists_expands
  exact ⟨visits, out, expanded, expanded ▸ expands, each⟩

/-- A schema is compiled from the fields that a visit has made. -/
structure Compiles (visit : Visit) (options : CompileOptions) (schema : Schema) : Prop where
  compiled : Schema.compile visit.schema (Field.rewrittenAll visit.schema visit.fields) options = .ok schema
  distinct : Field.DistinctAll (Field.rewrittenAll visit.schema visit.fields)

/-- The schemas of a definition are those of its visits. -/
theorem compiles (accepted : definition.validate = .ok ()) (compiled : definition.compile options = .ok schemas) :
    (∀ visit, definition.Reaches visit → ∃ schema ∈ schemas, Compiles visit options schema) ∧
      ∀ schema ∈ schemas, ∃ visit, definition.Reaches visit ∧ Compiles visit options schema := by
  obtain ⟨visits, out, expanded, expands, each⟩ := expands_of_compile compiled
  have ordered := expands.isExpansion.ordered
  have distinct {name : String} {fields : List Field} (listed : (name, fields) ∈ out) : Field.DistinctAll fields :=
    distinctAll_of_expand (checkInside_of_validate accepted) expanded listed
  constructor
  · intro visit reached
    have listed := ordered.find?_eq_some.mp (expands.find?_iff.mpr ⟨visit, reached, rfl, rfl⟩)
    obtain ⟨schema, member, own⟩ := result_of_mapM each listed
    exact ⟨schema, member, own, distinct listed⟩
  · intro schema member
    obtain ⟨⟨name, fields⟩, listed, own⟩ := exists_of_mapM each member
    obtain ⟨visit, reached, rfl, rfl⟩ := expands.find?_iff.mp (ordered.find?_eq_some.mpr listed)
    exact ⟨visit, reached, own, distinct listed⟩

theorem Compiles.name_eq (compiles : Compiles visit options schema) : schema.name = visit.schema :=
  Schema.name_of_compile compiles.compiled

/-- A schema refers to the models that its fields were declared to refer to, and to schemas of
submodels by the names that are left of theirs. -/
theorem Compiles.refers_iff (compiles : Compiles visit options schema) : schema.Refers names goal ↔
    ∃ field, Field.Stands visit.fields names field ∧ (field.kind = .model goal ∨
      ∃ target, field.kind = .submodel target ∧ goal = Text.trim (derivedName visit.schema target)) := by
  obtain ⟨compiled, distinct⟩ := compiles
  obtain ⟨⟨_, within⟩, _⟩ := Schema.parts_of_compile compiled
  rw [Schema.refers_iff compiled, Field.at?_eq_some_iff within distinct]
  constructor
  · rintro ⟨field, stands, has⟩
    obtain ⟨declared, standsToo, rfl⟩ := Field.stands_rewritten.mp stands
    exact ⟨declared, standsToo, Field.kind_rewritten_eq_model.mp (has.reference_iff.mp rfl)⟩
  · rintro ⟨declared, stands, refers⟩
    have kind := Field.kind_rewritten_eq_model.mpr refers
    have standsToo : Field.Stands (Field.rewrittenAll visit.schema visit.fields) names
        (declared.rewritten visit.schema) := Field.stands_rewritten.mpr ⟨declared, stands, rfl⟩
    obtain ⟨type, has⟩ := standsToo.hasType within distinct
    obtain rfl := has.reference_iff.mpr kind
    exact ⟨_, standsToo, has⟩

end Declaration

/-- Promoted submodels are never dangling. -/
structure Declaration.ResolvesPromoted (definition : Declaration) (schemas : List Schema) : Prop where
  /-- A field that refers to a submodel is compiled to a reference to one of the schemas. -/
  promoted : ∀ visit, definition.Reaches visit → ∀ names field target, Field.Stands visit.fields names field →
    field.kind = .submodel target → ∃ schema ∈ schemas, schema.name = visit.schema ∧
      ∃ goal, schema.Refers names goal ∧ ∃ other ∈ schemas, other.name = goal
  /-- A reference that goes to no schema is one that was declared to go to a model. -/
  dangling : ∀ fault, checkReferences schemas = .error fault → ∃ visit path field target,
    definition.Reaches visit ∧ Field.Stands visit.fields (Text.segments path) field ∧
      field.kind = .model target ∧ fault = .danglingReference visit.schema path target

theorem exists_of_checkReferences {schemas : List Schema} {fault : CompileError}
    (failed : checkReferences schemas = .error fault) :
    ∃ model path target, fault = .danglingReference model path target := by
  obtain ⟨schema, _, own⟩ := exists_of_forM failed
  obtain ⟨⟨path, target⟩, _, same⟩ := exists_of_forM own
  simp only at same
  split at same <;> cases same
  exact ⟨schema.name, path, target, rfl⟩

namespace Declaration
variable {definition : Declaration} {options : CompileOptions} {schemas : List Schema}

theorem resolvesPromoted_of_trimmed (accepted : definition.validate = .ok ())
    (compiled : definition.compile options = .ok schemas)
    (trimmed : ∀ visit, definition.Reaches visit → ∀ target, Field.Mention visit.fields target →
      Text.trim (derivedName visit.schema target) = derivedName visit.schema target) :
    definition.ResolvesPromoted schemas := by
  obtain ⟨schemaOf, visitOf⟩ := compiles accepted compiled
  obtain ⟨visits, _, _, expands, _⟩ := expands_of_compile compiled
  have known {visit : Visit} (reached : definition.Reaches visit) {target : String}
      (mention : Field.Mention visit.fields target) :
      ∃ other ∈ schemas, other.name = Text.trim (derivedName visit.schema target) := by
    obtain ⟨_, _, _, begun⟩ := expands.opens (expands.mem_iff.mpr reached) mention
    obtain ⟨other, member, compiles⟩ := schemaOf _ (expands.reaches begun)
    rw [trimmed visit reached target mention]
    exact ⟨other, member, compiles.name_eq⟩
  constructor
  · intro visit reached names field target stands refers
    obtain ⟨schema, member, compiles⟩ := schemaOf visit reached
    exact ⟨schema, member, compiles.name_eq, _, compiles.refers_iff.mpr ⟨field, stands, .inr ⟨target, refers, rfl⟩⟩,
      known reached ⟨names, field, stands, refers⟩⟩
  · intro fault failed
    obtain ⟨model, path, target, rfl⟩ := exists_of_checkReferences failed
    obtain ⟨schema, member, rfl, listed, unknown⟩ := dangling_of_checkReferences failed
    obtain ⟨visit, reached, compiles⟩ := visitOf schema member
    have refersTo := Schema.refers_of_mem_references listed
    obtain ⟨field, stands, model | ⟨name, refers, rfl⟩⟩ := compiles.refers_iff.mp refersTo
    · exact ⟨visit, path, field, target, reached, stands, model, by rw [compiles.name_eq]⟩
    · obtain ⟨other, among, same⟩ := known reached ⟨_, field, stands, refers⟩
      exact absurd same (unknown other among)

/-- If the schema of a submodel that the definition refers to is found, then by its whole name. -/
theorem ResolvesPromoted.startsShown (resolves : definition.ResolvesPromoted schemas)
    (accepted : definition.validate = .ok ()) (compiled : definition.compile options = .ok schemas)
    {target : String} (mention : Field.Mention definition.fields target) : Text.StartsShown definition.name := by
  obtain ⟨_, visitOf⟩ := compiles accepted compiled
  obtain ⟨visits, _, _, expands, _⟩ := expands_of_compile compiled
  have distinct : Field.DistinctAll definition.fields := (parts_of_checkInside (checkInside_of_validate accepted)).1
  obtain ⟨names, field, stands, refers⟩ := mention
  obtain ⟨schema, member, named, goal, refersTo, other, among, same⟩ :=
    resolves.promoted definition.visit .refl names field target stands refers
  obtain ⟨visit, reached, compiles⟩ := visitOf schema member
  obtain rfl : visit = definition.visit :=
    expands.eq_of_schema_eq (expands.mem_iff.mpr reached) (expands.mem_iff.mpr .refl)
      (compiles.name_eq.symm.trans named)
  obtain ⟨_, standsToo, model | ⟨_, refersToo, rfl⟩⟩ := compiles.refers_iff.mp refersTo
  · obtain rfl := stands.unique distinct standsToo
    simp [refers] at model
  · obtain rfl := stands.unique distinct standsToo
    obtain rfl := Kind.submodel.inj (refers.symm.trans refersToo)
    obtain ⟨last, reachedToo, compilesToo⟩ := visitOf other among
    refine (reachedToo.startsShown_iff accepted).mp ?_
    rw [← compilesToo.name_eq, same]
    exact startsShown_trim_derivedName (Kind.trimEnd_of_submodel refers) (trimStart_ne_nil_of_validate accepted)

/-- Promoted submodels are never dangling exactly if the name of the definition does not begin
with a blank, or no field of it refers to a submodel. -/
theorem resolvesPromoted_iff (accepted : definition.validate = .ok ())
    (compiled : definition.compile options = .ok schemas) : definition.ResolvesPromoted schemas ↔
      Text.StartsShown definition.name ∨ ∀ target, ¬ Field.Mention definition.fields target := by
  constructor
  · intro resolves
    by_cases starts : Text.StartsShown definition.name
    · exact .inl starts
    · exact .inr fun target mention => starts (resolves.startsShown accepted compiled mention)
  · intro either
    refine resolvesPromoted_of_trimmed accepted compiled fun visit reached target mention => ?_
    rcases either with starts | none
    · obtain ⟨_, field, _, refers⟩ := mention
      exact trim_derivedName (Kind.trimEnd_of_submodel refers) ((reached.startsShown_iff accepted).mpr starts)
    · rcases Relation.ReflTransGen.cases_head reached with rfl | ⟨next, first, _⟩
      · exact absurd mention (none target)
      · obtain ⟨name, _, _, opens, _⟩ := first
        exact absurd opens.mention (none name)

end Declaration

/-- Users of any name, each in a group. -/
def grouped (name : String) : Declaration :=
  ⟨name, [⟨"g", "submodel.group", []⟩], [⟨"group", [⟨"t", "text", []⟩], []⟩]⟩

def groupedSchemas (name target : String) : List Schema :=
  [⟨name, [("g", .reference target)], ⟨true, none, ["g"]⟩⟩, ⟨name ++ "_group", [("t", .text)], ⟨true, none, []⟩⟩]

theorem grouped_resolvesPromoted : (grouped "user").validate = .ok () ∧
    (grouped "user").compile {} = .ok (groupedSchemas "user" "user_group") ∧
    (grouped "user").ResolvesPromoted (groupedSchemas "user" "user_group") := by
  have accepted : (grouped "user").validate = .ok () := by decide +kernel
  have compiled : (grouped "user").compile {} = .ok (groupedSchemas "user" "user_group") := by cbv
  exact ⟨accepted, compiled, (Declaration.resolvesPromoted_iff accepted compiled).mpr (.inl (by decide +kernel))⟩

/-- A blank before the name is lost from the reference, not from the schema. -/
theorem grouped_not_resolvesPromoted : (grouped " user").validate = .ok () ∧
    (grouped " user").compile {} = .ok (groupedSchemas " user" "user_group") ∧
    checkReferences (groupedSchemas " user" "user_group") = .error (.danglingReference " user" "g" "user_group") ∧
    ¬ (grouped " user").ResolvesPromoted (groupedSchemas " user" "user_group") := by
  have accepted : (grouped " user").validate = .ok () := by decide +kernel
  have compiled : (grouped " user").compile {} = .ok (groupedSchemas " user" "user_group") := by cbv
  refine ⟨accepted, compiled, by cbv, fun resolves => ?_⟩
  have mention : Field.Mention (grouped " user").fields "group" :=
    ⟨["g"], _, .here (List.mem_singleton_self _), by decide +kernel⟩
  exact absurd (resolves.startsShown accepted compiled mention) (by decide +kernel)

end Dossier
