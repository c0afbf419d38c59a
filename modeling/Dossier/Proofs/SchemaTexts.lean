import Dossier.Proofs.DefinitionTexts
import Dossier.Proofs.Outcomes
import Dossier.Schema.Compile
import Dossier.Schema.Format

/-! What is read of the text of a schema, in whichever order the members of its objects are
written: the schema itself, if its fields are listed as compiled schemas list them. -/
namespace Dossier
open Json

/-! ### Types of fields -/

namespace Json.Tree

/-- Members denote values if each of them does. -/
theorem exists_memberValues? {levels : Nat} {members : List (String × Json)}
    (each : ∀ member ∈ members, ∃ value, member.2.tree.value? levels = some value) :
    ∃ values, memberValues? levels (memberTrees members) = some values := by
  induction members with
  | nil => exact ⟨_, rfl⟩
  | cons member rest ih =>
    obtain ⟨value, own⟩ := each member List.mem_cons_self
    obtain ⟨values, later⟩ := ih fun other among => each other (List.mem_cons_of_mem _ among)
    obtain ⟨key, held⟩ := member
    exact ⟨(key, value) :: values, by simp [memberTrees, memberValues?, own, later]⟩

theorem exists_value?_object {levels : Nat} {members : List (String × Json)} (deep : levels ≠ 0)
    (each : ∀ member ∈ members, ∃ value, member.2.tree.value? (levels - 1) = some value) :
    ∃ value, (Json.object members).tree.value? levels = some value := by
  obtain ⟨levels, rfl⟩ := Nat.exists_eq_succ_of_ne_zero deep
  obtain ⟨values, found⟩ := exists_memberValues? each
  rw [Nat.succ_sub_one] at found
  exact ⟨.object (Keyed.ofEntries values), by rw [tree, value?, found, Option.map_some]⟩

end Json.Tree

namespace FieldType

mutual
/-- The fields of every object type are listed in the order of their names. -/
def Ordered : FieldType → Prop
  | .object fields => Keyed.Ordered fields ∧ OrderedAll fields
  | _ => True
def OrderedAll : List (String × FieldType) → Prop
  | [] => True
  | (_, type) :: rest => type.Ordered ∧ OrderedAll rest
end

/-- The object of a type: its kind, and what else the kind calls for. -/
def record (kind : String) (others : List (String × Option Json)) : List (String × Option Json) :=
  ("kind", some (.text kind)) :: others

mutual
/-- A type as an object whose members are arranged in an order, and so in the types inside. -/
def written (order : Arrangement) : FieldType → Json
  | .text => order.object (record "string" [])
  | .number => order.object (record "number" [])
  | .boolean => order.object (record "boolean" [])
  | .date => order.object (record "date" [])
  | .array => order.object (record "array" [])
  | .reference target => order.object (record "object_ref" [("target", some (.text target))])
  | .object fields => order.object (record "object" [("fields", some (.object (writtenAll order fields)))])
def writtenAll (order : Arrangement) : List (String × FieldType) → List (String × Json)
  | [] => []
  | (name, type) :: rest => (name, type.written order) :: writtenAll order rest
end

variable {order : Arrangement}

theorem writtenAll_eq_map (fields : List (String × FieldType)) :
    writtenAll order fields = fields.map fun field => (field.1, field.2.written order) := by
  induction fields with
  | nil => rfl
  | cons field rest ih => rw [writtenAll, ih, List.map_cons]

mutual
theorem written_byKey : (type : FieldType) → type.written .byKey = type.toJson
  | .text | .number | .boolean | .date | .array | .reference _ => rfl
  | .object fields => by
    rw [written, toJson, writtenAll_byKey fields]
    rfl
theorem writtenAll_byKey : (fields : List (String × FieldType)) → writtenAll .byKey fields = toJsonAll fields
  | [] => rfl
  | (name, type) :: rest => by rw [writtenAll, toJsonAll, written_byKey type, writtenAll_byKey rest]
end

theorem nesting_pos (type : FieldType) : 0 < (type.written order).nesting := by
  cases type <;> exact order.nesting_pos _

theorem partition_memberTrees (members : List (String × Json)) (key : String) :
    (memberTrees members).partition (·.1 == some key) =
      (memberTrees (members.filter (·.1 == key)), memberTrees (members.filter (·.1 != key))) := by
  simp [List.partition_eq_filter_filter, memberTrees_eq_map, List.filter_map, Function.comp_def, bne]

section
variable (order)

/-- The kind is told from the other members wherever it stands among them. -/
theorem splitKind_object {kind : String} {others : List (String × Option Json)}
    (distinct : ((record kind others).map Prod.fst).Nodup) (nested : Bool) (known : kind ∈ kinds) : ∃ rest, rest.Perm (present others) ∧
    splitKind nested (order.object (record kind others)).tree = some (kind, .object (memberTrees rest)) := by
  obtain ⟨absent, -⟩ := List.nodup_cons.mp distinct
  have perm : (order.arrange (present (record kind others))).Perm (("kind", .text kind) :: present others) :=
    order.perm_present distinct
  have notKind : ∀ member ∈ present others, member.1 ≠ "kind" := by
    rintro ⟨name, value⟩ member rfl
    have listed := List.mem_map_of_mem (f := Prod.fst) (mem_present.mp member)
    exact absent listed
  have alone : (order.arrange (present (record kind others))).filter (·.1 == "kind") =
      [("kind", .text kind)] := by
    refine List.perm_singleton.mp ((perm.filter _).trans ?_)
    rw [List.filter_cons_of_pos rfl, List.filter_eq_nil_iff.mpr (by simpa using notKind)]
  refine ⟨(order.arrange (present (record kind others))).filter (·.1 != "kind"), ?_, ?_⟩
  · refine (perm.filter _).trans ?_
    rw [List.filter_cons_of_neg (by simp), List.filter_eq_self.mpr (by simpa using notKind)]
  · rw [Arrangement.object, tree, splitKind, partition_memberTrees, alone]
    simp [memberTrees, tree, readKind, known]

theorem splitKind_alone {kind : String} (nested : Bool) (known : kind ∈ kinds) :
    splitKind nested (order.object (record kind [])).tree = some (kind, .object []) := by
  have distinct : ((record kind []).map Prod.fst).Nodup := by simp [record]
  obtain ⟨rest, perm, split⟩ := splitKind_object order distinct nested known
  rw [split, List.perm_nil.mp perm]
  rfl

theorem splitKind_detail {kind name : String} {detail : Json} (nested : Bool) (known : kind ∈ kinds)
    (differs : name ≠ "kind") : splitKind nested (order.object (record kind [(name, some detail)])).tree =
      some (kind, .object [(some name, detail.tree)]) := by
  have distinct : ((record kind [(name, some detail)]).map Prod.fst).Nodup := by simp [record, differs.symm]
  obtain ⟨rest, perm, split⟩ := splitKind_object order distinct nested known
  rw [split, List.perm_singleton.mp perm]
  rfl

end

theorem readOnly_alone {α : Type} {name : String} {read : Tree → Option α} {tree : Tree} :
    readOnly name read (.object [(some name, tree)]) = read tree := by
  simp [readOnly, Tree.fields?, Tree.known?, Tree.Fields.required]

/-- Types under names in order are read back if each of them is. -/
theorem keyed_written {levels : Nat} (deep : levels ≠ 0) {inner : Tree → Option FieldType}
    {fields : Keyed FieldType} (ordered : fields.Ordered)
    (each : ∀ field ∈ fields, inner (field.2.written order).tree = some field.2) :
    Tree.keyed levels inner (Json.object (writtenAll order fields)).tree = some fields := by
  rw [tree, Tree.keyed, if_neg deep, writtenAll_eq_map, memberTrees_eq_map, List.map_map]
  rw [mapM?_map, Option.map_some, Keyed.ofEntries_of_ordered ordered]
  intro field member
  simp [each field member]

theorem readWith_written {type : FieldType} (ordered : type.Ordered) (nested : Bool)
    {inner : Tree → Option FieldType} (each : ∀ fields, type = .object fields → ∀ field ∈ fields,
      inner (field.2.written order).tree = some field.2) :
    readWith nested inner (type.written order).tree = some type := by
  have plain {kind : String} (known : kind ∈ kinds) := splitKind_alone order nested known
  cases type with
  | reference target =>
    rw [readWith, written, splitKind_detail order nested (by decide) (by decide)]
    simp [readOnly_alone, tree, Tree.text?]
  | object fields =>
    have inside := keyed_written one_ne_zero ordered.1 (each fields rfl)
    rw [readWith, written, splitKind_detail order nested (by decide) (by decide)]
    simp [readOnly_alone, inside]
  | _ =>
    rw [readWith, written, plain (by decide)]
    rfl

theorem nesting_fields {fields : List (String × FieldType)} {levels : Nat}
    (shallow : (written order (.object fields)).nesting ≤ levels) :
    (Json.object (writtenAll order fields)).nesting ≤ levels - 1 :=
  order.nesting_given (by simp [record]) shallow (List.mem_cons_of_mem _ List.mem_cons_self)

mutual
/-- A type is read back at the levels that it nests. -/
theorem readWithin_written : (type : FieldType) → type.Ordered → ∀ levels nested,
    (type.written order).nesting ≤ levels → readWithin levels nested (type.written order).tree = some type
  | .text | .number | .boolean | .date | .array | .reference _ => by
    intro ordered levels nested shallow
    match levels with
    | 0 => exact absurd shallow (Nat.not_le.mpr (nesting_pos _))
    | 1 | levels + 2 => exact readWith_written ordered nested (by simp)
  | .object fields => by
    intro ordered levels nested shallow
    have inside := nesting_fields shallow
    match levels with
    | 0 | 1 => exact absurd inside (Nat.not_le.mpr (Nat.succ_pos _))
    | levels + 2 =>
      refine readWith_written ordered nested ?_
      rintro _ ⟨⟩ field member
      exact readWithin_writtenAll fields ordered.2 levels true (Nat.le_of_succ_le_succ inside) field member
theorem readWithin_writtenAll : (fields : List (String × FieldType)) → OrderedAll fields → ∀ levels nested,
    nestingMembers (writtenAll order fields) ≤ levels →
      ∀ field ∈ fields, readWithin levels nested (field.2.written order).tree = some field.2
  | [] => by simp
  | (name, type) :: rest => by
    intro ordered levels nested shallow field member
    obtain ⟨own, others⟩ := Nat.max_le.mp shallow
    rcases List.mem_cons.mp member with same | later
    · rw [same]
      exact readWithin_written type ordered.1 levels nested own
    · exact readWithin_writtenAll rest ordered.2 levels nested others field later
end

/-- The object of a type denotes a value if what is given beside the kind does. -/
theorem exists_value?_record {kind : String} {others : List (String × Option Json)} {levels : Nat}
    (distinct : ((record kind others).map Prod.fst).Nodup) (deep : levels ≠ 0)
    (each : ∀ name detail, (name, some detail) ∈ others → ∃ value, detail.tree.value? (levels - 1) = some value) :
    ∃ value, (order.object (record kind others)).tree.value? levels = some value := by
  refine Tree.exists_value?_object deep ?_
  rintro ⟨name, detail⟩ member
  rcases List.mem_cons.mp ((order.mem_arrange distinct).mp member) with same | other
  · cases same
    exact ⟨.text kind, rfl⟩
  · exact each name detail other

mutual
/-- All parts of what a type is written as denote values. -/
theorem exists_value?_written : (type : FieldType) → ∀ levels, (type.written order).nesting ≤ levels →
    ∃ value, (type.written order).tree.value? levels = some value
  | .text | .number | .boolean | .date | .array => by
    intro levels shallow
    have deep := Nat.ne_of_gt (Nat.lt_of_lt_of_le (nesting_pos _) shallow)
    exact exists_value?_record (by simp [record]) deep (by simp)
  | .reference target => by
    intro levels shallow
    have deep := Nat.ne_of_gt (Nat.lt_of_lt_of_le (nesting_pos _) shallow)
    refine exists_value?_record (by simp [record]) deep fun name detail given => ?_
    obtain ⟨-, rfl⟩ : name = "target" ∧ detail = .text target := by simpa using given
    exact ⟨.text target, rfl⟩
  | .object fields => by
    intro levels shallow
    have inside := nesting_fields shallow
    have deep := Nat.ne_of_gt (Nat.lt_of_lt_of_le (nesting_pos _) shallow)
    refine exists_value?_record (by simp [record]) deep fun name detail given => ?_
    obtain ⟨-, rfl⟩ : name = "fields" ∧ detail = .object (writtenAll order fields) := by simpa using given
    refine Tree.exists_value?_object (Nat.ne_of_gt (Nat.lt_of_lt_of_le (Nat.succ_pos _) inside)) ?_
    exact exists_value?_writtenAll fields _ (Nat.le_sub_one_of_lt inside)
theorem exists_value?_writtenAll : (fields : List (String × FieldType)) → ∀ levels,
    nestingMembers (writtenAll order fields) ≤ levels →
      ∀ member ∈ writtenAll order fields, ∃ value, member.2.tree.value? levels = some value
  | [] => fun _ _ member among => nomatch among
  | (name, type) :: rest => by
    intro levels shallow member among
    obtain ⟨own, others⟩ := Nat.max_le.mp shallow
    rcases List.mem_cons.mp among with same | later
    · rw [same]
      exact exists_value?_written type levels own
    · exact exists_value?_writtenAll rest levels others member later
end

theorem orderedAll_iff {fields : List (String × FieldType)} :
    OrderedAll fields ↔ ∀ field ∈ fields, field.2.Ordered := by
  induction fields with
  | nil => simp [OrderedAll]
  | cons field rest ih => simp [OrderedAll, ih]

theorem read_written {type : FieldType} (ordered : type.Ordered) {levels : Nat}
    (shallow : (type.written order).nesting ≤ levels) : read levels (type.written order).tree = some type := by
  obtain ⟨value, denoted⟩ := exists_value?_written type levels shallow
  rw [read, denoted, Option.bind_some, readWithin_written type ordered levels false shallow]

theorem readAll_written {fields : Keyed FieldType} (ordered : fields.Ordered) (types : OrderedAll fields)
    {levels : Nat} (shallow : (Json.object (writtenAll order fields)).nesting ≤ levels) :
    readAll levels (Json.object (writtenAll order fields)).tree = some fields := by
  have deep : 0 < levels := Nat.lt_of_lt_of_le (Nat.succ_pos _) shallow
  refine keyed_written (Nat.ne_of_gt deep) ordered fun field member => ?_
  refine read_written (orderedAll_iff.mp types field member) ?_
  have listed : (field.1, field.2.written order) ∈ writtenAll order fields :=
    writtenAll_eq_map fields ▸ List.mem_map_of_mem (f := fun field => (field.1, field.2.written order)) member
  exact nestingMembers_le_iff.mp (Nat.le_sub_one_of_lt shallow) _ listed

end FieldType

/-! ### Schemas -/

namespace Behaviors

def record (behaviors : Behaviors) : List (String × Option Json) :=
  [("auto_timestamp", some (.bool behaviors.stamps)), ("password_field", some (optionalText behaviors.password)),
    ("auto_populate_refs", some (.texts behaviors.populated))]

def written (order : Arrangement) (behaviors : Behaviors) : Json := order.object behaviors.record

theorem distinct_record (behaviors : Behaviors) : (behaviors.record.map Prod.fst).Nodup := by
  have distinct : ["auto_timestamp", "password_field", "auto_populate_refs"].Nodup := by decide
  exact distinct

/-- Behaviors are read back with their password or without one. -/
theorem read_written {order : Arrangement} {behaviors : Behaviors} {levels : Nat}
    (shallow : (behaviors.written order).nesting ≤ levels) :
    read levels (behaviors.written order).tree = some behaviors := by
  have distinct := behaviors.distinct_record
  have deep : levels ≠ 0 := Nat.ne_of_gt (Nat.lt_of_lt_of_le (order.nesting_pos _) shallow)
  have known : ∀ entry ∈ behaviors.record,
      entry.1 ∈ ["auto_timestamp", "password_field", "auto_populate_refs"] := by simp [record]
  have stamps := order.lookup_object distinct List.mem_cons_self
  have password := order.lookup_object distinct (List.mem_cons_of_mem _ List.mem_cons_self)
  have listed : ("auto_populate_refs", some (Json.texts behaviors.populated)) ∈ behaviors.record := by
    simp [record]
  have populated := order.lookup_object distinct listed
  have texts : Tree.list (levels - 1) Tree.text? (Json.texts behaviors.populated).tree =
      some behaviors.populated :=
    Tree.list_written (order.nesting_given distinct shallow listed) fun _ _ _ => rfl
  have nullable : Tree.nullable Tree.text? (optionalText behaviors.password).tree = some behaviors.password := by
    cases behaviors.password <;> rfl
  rw [read, written, order.fields?_object distinct deep known]
  simp [Tree.Fields.required, Tree.Fields.optional, stamps, password, populated, texts, nullable, tree, Tree.bool?]

end Behaviors

namespace Schema

/-- The fields of a schema are listed in the order of their names, at every depth. -/
structure Ordered (schema : Schema) : Prop where
  fields : Keyed.Ordered schema.fields
  types : FieldType.OrderedAll schema.fields

def record (order : Arrangement) (schema : Schema) : List (String × Option Json) :=
  [("name", some (.text schema.name)),
    ("storage_fields", some (.object (FieldType.writtenAll order schema.fields))),
    ("behaviors", some (schema.behaviors.written order))]

/-- A schema as an object whose members are arranged in an order, and so in all inside. -/
def written (order : Arrangement) (schema : Schema) : Json := order.object (schema.record order)

variable {order : Arrangement} {schema : Schema}

theorem written_byKey (schema : Schema) : schema.written .byKey = schema.toJson := by
  rw [written, record, toJson, FieldType.writtenAll_byKey]
  rfl

theorem distinct_record (schema : Schema) : ((schema.record order).map Prod.fst).Nodup := by
  have distinct : ["name", "storage_fields", "behaviors"].Nodup := by decide
  exact distinct

theorem read_written (ordered : schema.Ordered) {levels : Nat} (shallow : (schema.written order).nesting ≤ levels) :
    read levels (schema.written order).tree = some schema := by
  have distinct : ((schema.record order).map Prod.fst).Nodup := schema.distinct_record
  have deep : levels ≠ 0 := Nat.ne_of_gt (Nat.lt_of_lt_of_le (order.nesting_pos _) shallow)
  have known : ∀ entry ∈ schema.record order, entry.1 ∈ ["name", "storage_fields", "behaviors"] := by simp [record]
  have name := order.lookup_object distinct List.mem_cons_self
  have listed : ("storage_fields", some (Json.object (FieldType.writtenAll order schema.fields))) ∈
      schema.record order := by simp [record]
  have types := order.lookup_object distinct listed
  have fields : FieldType.readAll (levels - 1) (Json.object (FieldType.writtenAll order schema.fields)).tree =
      some schema.fields :=
    FieldType.readAll_written ordered.fields ordered.types (order.nesting_given distinct shallow listed)
  have given : ("behaviors", some (schema.behaviors.written order)) ∈ schema.record order := by simp [record]
  have held := order.lookup_object distinct given
  have behaviors := Behaviors.read_written (order.nesting_given distinct shallow given)
  rw [read, written, order.fields?_object distinct deep known]
  rw [tree] at fields
  simp [Tree.Fields.required, name, types, fields, held, behaviors, tree, Tree.text?]

theorem ofText?_written (ordered : schema.Ordered) (shallow : (schema.written order).nesting ≤ nestingLimit) :
    ofText? (schema.written order).render = some schema := by
  rw [ofText?, read?, tree_of_render, Option.bind_some, read_written ordered shallow]

end Schema

/-! ### Compiled schemas -/

theorem FieldType.orderedAll_insert {types : Keyed FieldType} (ordered : OrderedAll types) {name : String}
    {type : FieldType} (own : type.Ordered) : OrderedAll (types.insert name type) := by
  rw [orderedAll_iff] at ordered ⊢
  intro field member
  rcases Keyed.mem_insert member with rfl | earlier
  · exact own
  · exact ordered field earlier

mutual
theorem Field.ordered_of_compile : (field : Field) → ∀ {model path before type after},
    field.compile model path before = .ok (type, after) → FieldType.Ordered type
  | ⟨name, token, children⟩ => by
    intro compiled
    rw [compile] at compiled
    split at compiled
    · rename_i primitive _
      cases compiled
      cases primitive <;> trivial
    · cases compiled
      trivial
    · obtain ⟨⟨inner, inside⟩, within, rest⟩ := bind_eq_ok.mp compiled
      cases rest
      exact ordered_of_compileAll children .nil trivial within
    · cases compiled
      trivial
    · cases compiled
    · cases compiled
theorem Field.ordered_of_compileAll : (fields : List Field) → ∀ {model above types before result after},
    Keyed.Ordered types → FieldType.OrderedAll types →
      compileAll model above fields types before = .ok (result, after) →
        Keyed.Ordered result ∧ FieldType.OrderedAll result
  | [] => by
    intro ordered types compiled
    cases compiled
    exact ⟨ordered, types⟩
  | field :: rest => by
    intro ordered types compiled
    rw [compileAll] at compiled
    obtain ⟨⟨type, inside⟩, own, others⟩ := bind_eq_ok.mp compiled
    have ownType := ordered_of_compile field own
    exact ordered_of_compileAll rest (ordered.insert _ _) (FieldType.orderedAll_insert types ownType) others
end

/-- The fields of compiled schemas are listed in the order of their names. -/
theorem Schema.ordered_of_compile {name : String} {fields : List Field} {options : CompileOptions}
    {schema : Schema} (compiled : compile name fields options = .ok schema) : schema.Ordered := by
  obtain ⟨⟨types, gathered⟩, within, rest⟩ := bind_eq_ok.mp compiled
  obtain ⟨ordered, held⟩ := Field.ordered_of_compileAll fields .nil trivial within
  change (if _ then _ else _) = _ at rest
  split_ifs at rest
  · cases rest
  · cases rest
    exact ⟨ordered, held⟩

/-! ### Texts that are read back -/

/-- A definition is read back from its text, and from one whose members stand in another order. -/
structure Declaration.ReadsBack (definition : Declaration) : Prop where
  sorted : definition.toJson.nesting ≤ nestingLimit → parse definition.toJson.render = .ok definition
  arranged : ∀ order, (definition.written order).nesting ≤ nestingLimit →
    parse (definition.written order).render = .ok definition

/-- A schema is read back from its text, and from one whose members stand in another order. -/
structure Schema.ReadsBack (schema : Schema) : Prop where
  sorted : schema.toJson.nesting ≤ nestingLimit → ofText? schema.toJson.render = some schema
  arranged : ∀ order, (schema.written order).nesting ≤ nestingLimit →
    ofText? (schema.written order).render = some schema

/-- Definitions that follow the rules are read back from their texts, and schemas of any types
with or without a password. -/
theorem readsBack_of_accepted :
    (∀ definition : Declaration, definition.validate = .ok () → definition.ReadsBack) ∧
      ∀ schema : Schema, schema.Ordered → schema.ReadsBack := by
  refine ⟨fun definition accepted => ⟨?_, fun order => ?_⟩, fun schema ordered => ⟨?_, fun order => ?_⟩⟩
  · rw [← definition.written_byKey]
    exact Declaration.parse_written accepted
  · exact Declaration.parse_written accepted
  · rw [← schema.written_byKey]
    exact Schema.ofText?_written ordered
  · exact Schema.ofText?_written ordered

/-- Fields whose names are the keys of the format, a map, children where none count, and submodels
without fields. -/
def tangledDeclaration : Declaration where
  name := "kind"
  fields := [⟨"fields", "map", [⟨"na\"me\n", " text ", []⟩, ⟨"\u03c0", "model.note", [⟨"", "", []⟩]⟩]⟩,
    ⟨"children", "password", []⟩]
  submodels := [⟨"submodels", [], [⟨"inner", [⟨"type", "unheard", []⟩], []⟩]⟩]

/-- Types whose names are the keys of the format, and an object without fields. -/
def tangledSchema (password : Option String) : Schema where
  name := ""
  fields := [("fields", .object [("", .number), ("kind", .reference "\u0000")]), ("kind", .array),
    ("target", .object [])]
  behaviors := ⟨false, password, ["fields.kind"]⟩

theorem tangled_readsBack : Declaration.parse tangledDeclaration.toJson.render = .ok tangledDeclaration ∧
    Schema.ofText? (tangledSchema (some "kind")).toJson.render = some (tangledSchema (some "kind")) ∧
    Schema.ofText? ((tangledSchema none).written .asDeclared).render = some (tangledSchema none) := by
  have ordered (password : Option String) : (tangledSchema password).Ordered := by
    refine ⟨?_, ⟨?_, trivial, trivial, trivial⟩, trivial, ⟨.nil, trivial⟩, trivial⟩
    · have inOrder : ["fields", "kind", "target"].Pairwise (· < ·) := by decide +kernel
      exact Keyed.ordered_iff_keys.mpr inOrder
    · have inOrder : ["", "kind"].Pairwise (· < ·) := by decide +kernel
      exact Keyed.ordered_iff_keys.mpr inOrder
  obtain ⟨definitions, schemas⟩ := readsBack_of_accepted
  exact ⟨(definitions tangledDeclaration (by decide +kernel)).sorted (by decide +kernel),
    (schemas _ (ordered _)).sorted (by decide +kernel),
    (schemas _ (ordered none)).arranged .asDeclared (by decide +kernel)⟩

end Dossier
