import Dossier.Proofs.DurableTexts
import Dossier.Proofs.OrderedBodies
import Dossier.Proofs.SameValues

/-! What is read of the text of an envelope: the envelope itself, but that a value or an entity
of `null` is one that is not given. -/
namespace Dossier
open Json

theorem mapM?_map {α β : Type} {write : α → β} {read : β → Option α} {items : List α}
    (each : ∀ item ∈ items, read (write item) = some item) : (items.map write).mapM read = some items := by
  induction items with
  | nil => rfl
  | cons item rest ih =>
    have own := each item List.mem_cons_self
    have later := ih fun item member => each item (List.mem_cons_of_mem _ member)
    rw [List.map_cons, List.mapM_cons, own, later]
    rfl

theorem lookup_of_mem {α : Type} {entries : List (String × α)} (distinct : (entries.map Prod.fst).Nodup)
    {key : String} {value : α} (member : (key, value) ∈ entries) : entries.lookup key = some value := by
  obtain ⟨before, after, rfl⟩ := List.append_of_mem member
  rw [List.lookup_eq_some_iff]
  refine ⟨before, after, rfl, fun entry among => ?_⟩
  have differ : entry.1 ≠ key := by
    rw [List.map_append, List.map_cons] at distinct
    exact (List.nodup_append.mp distinct).2.2 _ (List.mem_map_of_mem among) _ List.mem_cons_self
  simpa using differ.symm

/-! ### Trees of items and of records -/

namespace Json

theorem memberTrees_eq_map (members : List (String × Json)) :
    memberTrees members = members.map fun member => (some member.1, member.2.tree) := by
  induction members with
  | nil => rfl
  | cons member rest ih => rw [memberTrees, ih, List.map_cons]

theorem trees_eq_map (items : List Json) : trees items = items.map tree := by
  induction items with
  | nil => rfl
  | cons item rest ih => rw [trees, ih, List.map_cons]

theorem orderedItems_iff {items : List Json} : OrderedItems items ↔ ∀ item ∈ items, item.Ordered := by
  induction items with
  | nil => simp [OrderedItems]
  | cons item rest ih => simp [OrderedItems, ih]

/-- Values in order with durable doubles are what their trees denote. -/
theorem value?_tree_of_durable {value : Json} {levels : Nat} (ordered : value.Ordered)
    (durable : value.Durable) (shallow : value.nesting ≤ levels) : value.tree.value? levels = some value := by
  rw [value?_tree value ordered, reread_of_durable value durable levels shallow]

/-- The members of a record that are given. -/
def present (record : List (String × Option Json)) : List (String × Json) :=
  record.filterMap fun (name, value) => value.map ((name, ·))

section
variable {record : List (String × Option Json)}

theorem mem_present {name : String} {value : Json} :
    (name, value) ∈ present record ↔ (name, some value) ∈ record := by
  simp [present, List.mem_filterMap]

theorem nodup_present (distinct : (record.map Prod.fst).Nodup) : ((present record).map Prod.fst).Nodup := by
  induction record with
  | nil => exact distinct
  | cons first rest ih =>
    obtain ⟨absent, others⟩ := List.nodup_cons.mp distinct
    obtain ⟨name, value⟩ := first
    cases value with
    | none => exact ih others
    | some value =>
      refine List.nodup_cons.mpr ⟨fun again => ?_, ih others⟩
      obtain ⟨⟨other, held⟩, among, same⟩ := List.mem_map.mp again
      exact absent (List.mem_map.mpr ⟨(other, some held), mem_present.mp among, same⟩)

end

namespace Tree

/-- The fields of the tree of an object. -/
def fieldsOf (members : List (String × Json)) : Fields := members.map fun member => (member.1, member.2.tree)

theorem known?_memberTrees {names : List String} {members : List (String × Json)}
    (known : ∀ member ∈ members, member.1 ∈ names) (distinct : (members.map Prod.fst).Nodup) :
    known? names (memberTrees members) = some (fieldsOf members) := by
  induction members with
  | nil => rfl
  | cons member rest ih =>
    obtain ⟨absent, others⟩ := List.nodup_cons.mp distinct
    obtain ⟨key, value⟩ := member
    have fresh : (fieldsOf rest).lookup key = none := by
      rw [List.lookup_eq_none_iff]
      intro entry among
      obtain ⟨other, member, rfl⟩ := List.mem_map.mp among
      have differ : key ≠ other.1 := fun same => absent (List.mem_map.mpr ⟨other, member, same.symm⟩)
      simpa using differ
    have later := ih (fun member among => known member (List.mem_cons_of_mem _ among)) others
    have here : names.contains key = true := List.contains_iff_mem.mpr (known (key, value) List.mem_cons_self)
    rw [memberTrees, known?, later]
    simp only [Option.bind_eq_bind, Option.bind_some, here, fresh, if_true, Option.isSome_none,
      Bool.false_eq_true, if_false]
    rfl

/-- What stands under the name of a field is the tree of the member of that name. -/
theorem lookup_fieldsOf {members : List (String × Json)} (distinct : (members.map Prod.fst).Nodup)
    {name : String} {value : Option Json} (held : ∀ other, (name, other) ∈ members ↔ value = some other) :
    (fieldsOf members).lookup name = value.map tree := by
  have keys : (fieldsOf members).map Prod.fst = members.map Prod.fst := by simp [fieldsOf, Function.comp_def]
  cases value with
  | some value =>
    refine lookup_of_mem (keys ▸ distinct) ?_
    exact List.mem_map.mpr ⟨_, (held value).mpr rfl, rfl⟩
  | none =>
    rw [Option.map_none, List.lookup_eq_none_iff]
    rintro entry among
    obtain ⟨⟨other, value⟩, listed, rfl⟩ := List.mem_map.mp among
    have differ : name ≠ other := by
      rintro rfl
      cases (held value).mp listed
    simpa using differ

section
variable {record : List (String × Option Json)} (distinct : (record.map Prod.fst).Nodup)
include distinct

theorem given_iff {name : String} {value : Option Json} (member : (name, value) ∈ record) (other : Json) :
    (name, some other) ∈ record ↔ value = some other := by
  refine ⟨fun also => ?_, fun given => given ▸ member⟩
  exact (Prod.mk.inj (List.inj_on_of_nodup_map distinct member also rfl)).2

/-- A record of known and distinct fields is read as those that are given. -/
theorem fields?_present {levels : Nat} (deep : levels ≠ 0) {names : List String}
    (known : ∀ entry ∈ record, entry.1 ∈ names) :
    fields? levels names (Json.object (present record)).tree = some (fieldsOf (present record)) := by
  rw [tree, fields?, if_neg deep]
  exact known?_memberTrees (fun _ among => known _ (mem_present.mp among)) (nodup_present distinct)

/-- What stands under the name of a field. -/
theorem lookup_present (name : String) (value : Option Json) (member : (name, value) ∈ record) :
    (fieldsOf (present record)).lookup name = value.map tree :=
  lookup_fieldsOf (nodup_present distinct) fun other => mem_present.trans (given_iff distinct member other)

end

/-- A list whose items are read back each is read back. -/
theorem list_trees {α : Type} {write : α → Json} {read : Tree → Option α} {levels : Nat} {items : List α}
    (deep : levels ≠ 0) (each : ∀ item ∈ items, read (write item).tree = some item) :
    Tree.list levels read (Json.array (items.map write)).tree = some items := by
  rw [tree, Tree.list, if_neg deep, trees_eq_map, List.map_map]
  exact mapM?_map each

end Tree
end Json

/-! ### Sort keys, clauses and filters -/

theorem Direction.read_word (direction : Direction) : read (.text direction.word) = some direction := by
  cases direction <;> decide +kernel

theorem SortKey.readAll_toJson {levels : Nat} (deep : levels ≠ 0) (keys : List SortKey) :
    readAll levels (toJson keys).tree = some keys := by
  rw [toJson, tree, readAll, if_neg deep, memberTrees_eq_map, List.map_map]
  refine mapM?_map fun key _ => ?_
  simp [tree, Tree.value?, Direction.read_word]

theorem Comparison.read_word (comparison : Comparison) :
    read (Json.text comparison.word).tree = some comparison := by
  cases comparison <;> decide +kernel

namespace Clause

def record (clause : Clause) : List (String × Option Json) :=
  [("field", some (.text clause.field)), ("match", some (.text clause.comparison.word)), ("value", clause.value)]

theorem distinct_record (clause : Clause) : (clause.record.map Prod.fst).Nodup := by
  have distinct : ["field", "match", "value"].Nodup := by decide
  exact distinct

theorem ordered_present (clause : Clause) : Keyed.Ordered (present clause.record) := by
  have two : ["field", "match"].Pairwise (· < ·) := by decide +kernel
  have three : ["field", "match", "value"].Pairwise (· < ·) := by decide +kernel
  obtain ⟨field, comparison, value⟩ := clause
  rw [Keyed.ordered_iff_keys]
  cases value with
  | none => exact two
  | some value => exact three

theorem toJson_eq (clause : Clause) : clause.toJson = .object (present clause.record) := by
  rw [toJson, Json.record, ← Keyed.ofEntries_of_ordered clause.ordered_present]
  rfl

section
variable {clause : Clause} {levels : Nat} (ordered : ∀ value ∈ clause.value, value.Ordered)
  (durable : clause.toJson.Durable) (shallow : clause.toJson.nesting ≤ levels)

include ordered in
theorem ordered_toJson : clause.toJson.Ordered := by
  rw [toJson_eq, ordered_object_iff]
  refine ⟨clause.ordered_present, ?_⟩
  rintro ⟨name, value⟩ among
  have member := mem_present.mp among
  simp only [record, List.mem_cons, Prod.mk.injEq, Option.some.injEq, List.not_mem_nil, or_false] at member
  rcases member with ⟨_, rfl⟩ | ⟨_, rfl⟩ | ⟨_, given⟩
  · trivial
  · trivial
  · exact ordered value given.symm

include ordered durable shallow

/-- A clause is read back, and whether it has a value with it. -/
theorem read_toJson : read levels clause.toJson.tree = some clause := by
  rw [toJson_eq] at durable shallow ⊢
  have deep : levels ≠ 0 := by
    rintro rfl
    cases shallow
  have known : ∀ entry ∈ clause.record, entry.1 ∈ ["field", "match", "value"] := by simp [record]
  have distinct := clause.distinct_record
  have field := Tree.lookup_present distinct "field" (some (.text clause.field)) (by simp [record])
  have comparison := Tree.lookup_present distinct "match" (some (.text clause.comparison.word)) (by simp [record])
  have value := Tree.lookup_present distinct "value" clause.value (by simp [record])
  have reads : (Tree.fieldsOf (present clause.record)).optional "value" none
      (fun tree => (tree.value? levels).map some) = some clause.value := by
    rw [Tree.Fields.optional, value]
    cases given : clause.value with
    | none => rfl
    | some held =>
      have member : ("value", held) ∈ present clause.record := mem_present.mpr (by simp [record, given])
      have own := nestingMembers_le_iff.mp (Nat.le_of_succ_le shallow) _ member
      simp [value?_tree_of_durable (ordered held given) (durableMembers_iff.mp durable _ member) own]
  rw [read, Tree.fields?_present distinct deep known]
  have word := Comparison.read_word clause.comparison
  rw [tree] at word
  simp [Tree.Fields.required, field, comparison, reads, word, Tree.text?, tree]

end
end Clause

namespace Filter

theorem not_read_array (levels : Nat) (clauses : List Clause) :
    Clause.read levels (Json.array (clauses.map Clause.toJson)).tree = none := by
  have noText (clause : Clause) : clause.toJson.tree.text? = none := by
    rw [Clause.toJson_eq]
    rfl
  cases clauses with
  | nil => cases levels <;> rfl
  | cons clause rest =>
    rw [Clause.read, tree, Tree.fields?]
    split
    · rfl
    · simp [trees, Tree.Fields.required, noText]

theorem toJson_ne_null (filter : Filter) : filter.toJson ≠ .null := by
  cases filter with
  | single clause => simp [toJson, Clause.toJson_eq]
  | all clauses => simp [toJson]

section
variable {filter : Filter} {levels : Nat}
  (ordered : ∀ clause ∈ filter.clauses, ∀ value ∈ clause.value, value.Ordered)
  (durable : filter.toJson.Durable) (shallow : filter.toJson.nesting ≤ levels)

include ordered in
theorem ordered_toJson : filter.toJson.Ordered := by
  cases filter with
  | single clause => exact Clause.ordered_toJson (ordered clause (List.mem_singleton_self clause))
  | all clauses =>
    rw [toJson, Json.Ordered, orderedItems_iff]
    intro item member
    obtain ⟨clause, listed, rfl⟩ := List.mem_map.mp member
    exact Clause.ordered_toJson (ordered clause listed)

include ordered durable shallow

/-- A single clause is read back as that, and a list of clauses as a list. -/
theorem read_toJson : read levels filter.toJson.tree = some filter := by
  rw [read, value?_tree_of_durable (ordered_toJson ordered) durable shallow, Option.bind_some]
  cases filter with
  | single clause =>
    have own := Clause.read_toJson (ordered clause (List.mem_singleton_self clause)) durable shallow
    simp only [toJson, own]
  | all clauses =>
    have deep : levels ≠ 0 := by
      rintro rfl
      cases shallow
    have each : ∀ clause ∈ clauses, Clause.read levels clause.toJson.tree = some clause := by
      intro clause listed
      have member : clause.toJson ∈ clauses.map Clause.toJson := List.mem_map_of_mem listed
      exact Clause.read_toJson (ordered clause listed) (durableItems_iff.mp durable _ member)
        (nestingItems_le_iff.mp (Nat.le_of_succ_le shallow) _ member)
    simp only [toJson, not_read_array, Tree.list_trees deep each, Option.map_some]

end
end Filter

/-! ### Envelopes -/

namespace Envelope

/-- All values in an envelope list their keys in order. -/
structure AllOrdered (envelope : Envelope) : Prop extends envelope.Ordered where
  clauses : ∀ filter ∈ envelope.filter, ∀ clause ∈ filter.clauses, ∀ value ∈ clause.value, value.Ordered

/-- The envelope with a value or an entity of `null` as one that is not given. -/
def withoutNulls (envelope : Envelope) : Envelope :=
  { envelope with
    value := envelope.value.filter fun value => !value.isNull
    entity := envelope.entity.filter fun value => !value.isNull }

def record (envelope : Envelope) : List (String × Option Json) :=
  [("model", some (.text envelope.model)), ("id", envelope.id.map .text), ("ids", envelope.ids.map .texts),
    ("value", envelope.value), ("entity", envelope.entity), ("entities", envelope.entities.map .array),
    ("filter", envelope.filter.map Filter.toJson), ("sort", envelope.sort.map SortKey.toJson),
    ("retFields", envelope.fields.map .texts)]

theorem toJson_eq (envelope : Envelope) : envelope.toJson = .object (present envelope.record) := rfl

theorem distinct_record (envelope : Envelope) : (envelope.record.map Prod.fst).Nodup := by
  have distinct : fieldNames.Nodup := by decide
  exact distinct

theorem nullable_tree {α : Type} {read : Tree → Option α} {value : Json} (present : value ≠ .null) :
    Tree.nullable read value.tree = (read value.tree).map some := by
  cases value with
  | null => exact absurd rfl present
  | _ => rfl

section
variable {record : List (String × Option Json)} {levels : Nat} (name : String)
  (distinct : (record.map Prod.fst).Nodup)
include distinct

/-- A field that is not written as `null` is read back, and so is its absence. -/
theorem optional_written {α : Type} (write : α → Json) {read : Tree → Option α} (held : Option α)
    (listed : (name, held.map write) ∈ record)
    (each : ∀ value ∈ held, write value ≠ .null ∧ read (write value).tree = some value) :
    optional (Tree.fieldsOf (present record)) name read = some held := by
  rw [optional, Tree.Fields.optional, Tree.lookup_present distinct name _ listed]
  cases held with
  | none => rfl
  | some value =>
    obtain ⟨present, reads⟩ := each value rfl
    simp [nullable_tree present, reads]

variable (inside : ∀ name value, (name, some value) ∈ record → value.Durable ∧ value.nesting ≤ levels)
include inside

/-- A value is read back unless it is `null`. -/
theorem optional_value (held : Option Json) (listed : (name, held) ∈ record)
    (ordered : ∀ value ∈ held, value.Ordered) :
    optional (Tree.fieldsOf (present record)) name (Tree.value? levels) =
      some (held.filter fun value => !value.isNull) := by
  rw [optional, Tree.Fields.optional, Tree.lookup_present distinct name _ listed]
  cases held with
  | none => rfl
  | some value =>
    obtain ⟨durable, shallow⟩ := inside name value listed
    have reads := value?_tree_of_durable (ordered value rfl) durable shallow
    cases null : value.isNull with
    | true =>
      cases value with
      | null => rfl
      | _ => cases null
    | false =>
      have present : value ≠ .null := by
        rintro rfl
        cases null
      simp [nullable_tree present, reads, Option.filter, null]

theorem optional_values (held : Option (List Json)) (listed : (name, held.map .array) ∈ record)
    (ordered : ∀ values ∈ held, ∀ value ∈ values, value.Ordered) :
    optional (Tree.fieldsOf (present record)) name (Tree.list levels (Tree.value? (levels - 1))) = some held := by
  refine optional_written name distinct _ held listed fun values given => ⟨by simp, ?_⟩
  obtain rfl : held = some values := given
  obtain ⟨durable, shallow⟩ := inside name _ listed
  have deep : 0 < levels := Nat.lt_of_lt_of_le (Nat.succ_pos _) shallow
  have reads : ∀ value ∈ values, value.tree.value? (levels - 1) = some value := fun value member =>
    value?_tree_of_durable (ordered values rfl value member) (durableItems_iff.mp durable value member)
      (nestingItems_le_iff.mp (Nat.le_sub_one_of_lt shallow) value member)
  have whole := Tree.list_trees (Nat.ne_of_gt deep) reads
  rwa [List.map_id'] at whole

theorem optional_texts (held : Option (List String)) (listed : (name, held.map .texts) ∈ record) :
    optional (Tree.fieldsOf (present record)) name (Tree.list levels Tree.text?) = some held := by
  refine optional_written name distinct _ held listed fun texts given => ⟨by simp [Json.texts], ?_⟩
  obtain rfl : held = some texts := given
  have deep : 0 < levels := Nat.lt_of_lt_of_le (Nat.succ_pos _) (inside name _ listed).2
  exact Tree.list_trees (Nat.ne_of_gt deep) fun _ _ => rfl

theorem optional_sort (held : Option (List SortKey)) (listed : (name, held.map SortKey.toJson) ∈ record) :
    optional (Tree.fieldsOf (present record)) name (SortKey.readAll levels) = some held := by
  refine optional_written name distinct _ held listed fun keys given => ⟨by simp [SortKey.toJson], ?_⟩
  obtain rfl : held = some keys := given
  have deep : 0 < levels := Nat.lt_of_lt_of_le (Nat.succ_pos _) (inside name _ listed).2
  exact SortKey.readAll_toJson (Nat.ne_of_gt deep) keys

theorem optional_filter (held : Option Filter) (listed : (name, held.map Filter.toJson) ∈ record)
    (ordered : ∀ filter ∈ held, ∀ clause ∈ filter.clauses, ∀ value ∈ clause.value, value.Ordered) :
    optional (Tree.fieldsOf (present record)) name (Filter.read levels) = some held := by
  refine optional_written name distinct _ held listed fun filter given => ⟨filter.toJson_ne_null, ?_⟩
  obtain rfl : held = some filter := given
  obtain ⟨durable, shallow⟩ := inside name _ listed
  exact Filter.read_toJson (ordered filter rfl) durable shallow

end

section
variable {envelope : Envelope} {levels : Nat} (ordered : envelope.AllOrdered)
  (durable : envelope.toJson.Durable) (shallow : envelope.toJson.nesting ≤ levels)
include ordered durable shallow

/-- What is read of the object that an envelope is written as. -/
theorem read_toJson : read levels envelope.toJson.tree = some envelope.withoutNulls := by
  rw [toJson_eq] at durable shallow ⊢
  have deep : levels ≠ 0 := by
    rintro rfl
    cases shallow
  have known : ∀ entry ∈ envelope.record, entry.1 ∈ fieldNames := by simp [record, fieldNames]
  -- Each field may nest one level less than the envelope.
  have inside (name : String) (value : Json) (listed : (name, some value) ∈ envelope.record) :
      value.Durable ∧ value.nesting ≤ levels - 1 := by
    have member := mem_present.mpr listed
    exact ⟨durableMembers_iff.mp durable _ member,
      nestingMembers_le_iff.mp (Nat.le_sub_one_of_lt shallow) _ member⟩
  have distinct := envelope.distinct_record
  have model := Tree.lookup_present distinct "model" (some (.text envelope.model)) (by simp [record])
  have id : optional (Tree.fieldsOf (present envelope.record)) "id" Tree.text? = some envelope.id :=
    optional_written "id" distinct .text envelope.id (by simp [record]) fun _ _ => ⟨by simp, rfl⟩
  have ids := optional_texts "ids" distinct inside envelope.ids (by simp [record])
  have value := optional_value "value" distinct inside envelope.value (by simp [record]) ordered.value
  have entity := optional_value "entity" distinct inside envelope.entity (by simp [record]) ordered.entity
  have entities := optional_values "entities" distinct inside envelope.entities (by simp [record])
    ordered.entities
  have filter := optional_filter "filter" distinct inside envelope.filter (by simp [record]) ordered.clauses
  have sort := optional_sort "sort" distinct inside envelope.sort (by simp [record])
  have fields := optional_texts "retFields" distinct inside envelope.fields (by simp [record])
  rw [read, Tree.fields?_present distinct deep known]
  simp [Tree.Fields.required, model, id, ids, value, entity, entities, filter, sort, fields, tree,
    Tree.text?, withoutNulls]

end

theorem ofText?_text {envelope : Envelope} (ordered : envelope.AllOrdered) (durable : envelope.toJson.Durable)
    (shallow : envelope.toJson.nesting ≤ nestingLimit) :
    ofText? envelope.text = some envelope.withoutNulls := by
  rw [ofText?, read?, text, tree_of_render, Option.bind_some, read_toJson ordered durable shallow]

/-! ### Equal envelopes -/

theorem sameOption_refl {α : Type} {same : α → α → Bool} (each : ∀ value, same value value = true)
    (held : Option α) : sameOption same held held = true := by
  cases held with
  | none => rfl
  | some value => exact each value

theorem sameClause_refl (clause : Clause) : sameClause clause clause = true := by
  simp [sameClause, sameOption_refl same_refl]

theorem sameFilter_refl (filter : Filter) : sameFilter filter filter = true := by
  cases filter with
  | single clause => exact sameClause_refl clause
  | all clauses =>
    rw [sameFilter]
    induction clauses with
    | nil => rfl
    | cons clause rest ih => simp [sameList, sameClause_refl, ih]

protected theorem same_refl (envelope : Envelope) : envelope.same envelope = true := by
  simp [same, sameOption_refl same_refl, sameOption_refl sameItems_refl, sameOption_refl sameFilter_refl]

theorem filter_notNull {held : Option Json} (present : held ≠ some .null) :
    held.filter (fun value => !value.isNull) = held := by
  cases held with
  | none => rfl
  | some value =>
    cases value with
    | null => exact absurd rfl present
    | _ => rfl

theorem same_withoutNulls_iff (envelope : Envelope) : envelope.same envelope.withoutNulls = true ↔
    envelope.value ≠ some .null ∧ envelope.entity ≠ some .null := by
  constructor
  · intro alike
    simp only [same, Bool.and_eq_true] at alike
    obtain ⟨⟨⟨⟨⟨⟨-, value⟩, entity⟩, -⟩, -⟩, -⟩, -⟩ := alike
    refine ⟨fun null => ?_, fun null => ?_⟩
    · rw [withoutNulls, null] at value
      cases value
    · rw [withoutNulls, null] at entity
      cases entity
  · rintro ⟨value, entity⟩
    have unchanged : envelope.withoutNulls = envelope := by
      rw [withoutNulls, filter_notNull value, filter_notNull entity]
    rw [unchanged]
    exact envelope.same_refl

/-- The text of an envelope is read, and as an equal envelope exactly if neither its value nor
its entity is `null`. Whatever these are, the filter is read back as one clause or as a list of
them, each with its value or without, and the sort keys in their order and as often as they
are repeated. -/
theorem text_roundtrip {envelope : Envelope} (ordered : envelope.AllOrdered) (durable : envelope.toJson.Durable)
    (shallow : envelope.toJson.nesting ≤ nestingLimit) :
    ∃ read, ofText? envelope.text = some read ∧
      (envelope.same read = true ↔ envelope.value ≠ some .null ∧ envelope.entity ≠ some .null) ∧
      read.filter = envelope.filter ∧ read.sort = envelope.sort :=
  ⟨envelope.withoutNulls, ofText?_text ordered durable shallow, envelope.same_withoutNulls_iff, rfl, rfl⟩

/-- An envelope with all its fields: clauses with a value, with `null` and with none, keys that
repeat, and an entity of `null`. -/
def fullEnvelope : Envelope where
  model := "note"
  id := some "a \"quoted\" id"
  ids := some ["first", "second"]
  value := some (.object [("share", .number (.double ⟨false, 0x18000000000000, 1022, by decide⟩)), ("size", .null)])
  entity := some .null
  entities := some [.null, .array [.bool true, .number (.whole .one)]]
  filter := some (.all [⟨"size", .gte, some .null⟩, ⟨"share", .eq, none⟩, ⟨"size", .lt, some (.text "ten")⟩])
  sort := some [⟨"size", .descending⟩, ⟨"share", .ascending⟩, ⟨"size", .ascending⟩]
  fields := some []

theorem text_roundtrip_full :
    ∃ read, ofText? fullEnvelope.text = some read ∧
      (fullEnvelope.same read = true ↔ fullEnvelope.value ≠ some .null ∧ fullEnvelope.entity ≠ some .null) ∧
      read.filter = fullEnvelope.filter ∧ read.sort = fullEnvelope.sort := by
  refine text_roundtrip ⟨⟨?_, ?_, ?_⟩, ?_⟩ ?_ ?_
  · rintro payload ⟨⟩
    decide +kernel
  · rintro payloads ⟨⟩
    decide +kernel
  · rintro payload ⟨⟩
    decide +kernel
  · rintro filter ⟨⟩
    decide +kernel
  · decide +kernel
  · decide +kernel

end Envelope
end Dossier
