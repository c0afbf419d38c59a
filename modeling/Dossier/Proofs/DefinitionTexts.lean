import Dossier.Proofs.EnvelopeTexts
import Dossier.Definition.Format

/-! What is read of the text of a definition, in whichever order the members of its objects are
written: the definition itself. -/
namespace Dossier
open Json

/-! ### Records in any order -/

namespace Json

/-- A way to write the members of a record in some order. -/
structure Arrangement where
  arrange : List (String × Json) → List (String × Json)
  perm : ∀ {members}, (members.map Prod.fst).Nodup → (arrange members).Perm members

namespace Arrangement

/-- The order in which the fields of a record are declared. -/
def asDeclared : Arrangement := ⟨id, fun _ => .refl _⟩

/-- The order of the keys. -/
def byKey : Arrangement where
  arrange := Keyed.ofEntries
  perm := by
    intro members distinct
    have ordered := Keyed.ordered_ofEntries members
    apply (List.perm_ext_iff_of_nodup ordered.nodup.of_map distinct.of_map).mpr
    rintro ⟨key, value⟩
    exact ⟨Keyed.mem_ofEntries, fun member => Keyed.mem_of_find? (Keyed.find?_ofEntries distinct member)⟩

variable (order : Arrangement)

/-- The object of the members of a record that are given. -/
def object (record : List (String × Option Json)) : Json := .object (order.arrange (present record))

theorem nesting_pos (record : List (String × Option Json)) : 0 < (order.object record).nesting :=
  Nat.succ_pos _

section
variable {record : List (String × Option Json)} (distinct : (record.map Prod.fst).Nodup)
include distinct

theorem perm_present : (order.arrange (present record)).Perm (present record) :=
  order.perm (nodup_present distinct)

theorem mem_arrange {name : String} {value : Json} :
    (name, value) ∈ order.arrange (present record) ↔ (name, some value) ∈ record :=
  (order.perm_present distinct).mem_iff.trans mem_present

theorem nodup_arrange : ((order.arrange (present record)).map Prod.fst).Nodup :=
  ((order.perm_present distinct).map Prod.fst).nodup_iff.mpr (nodup_present distinct)

/-- A record of known and distinct fields is read as those that are given. -/
theorem fields?_object {levels : Nat} (deep : levels ≠ 0) {names : List String}
    (known : ∀ entry ∈ record, entry.1 ∈ names) : Tree.fields? levels names (order.object record).tree =
      some (Tree.fieldsOf (order.arrange (present record))) := by
  rw [object, tree, Tree.fields?, if_neg deep]
  refine Tree.known?_memberTrees (fun _ among => ?_) (order.nodup_arrange distinct)
  exact known _ ((order.mem_arrange distinct).mp among)

/-- What stands under the name of a field. -/
theorem lookup_object {name : String} {value : Option Json} (member : (name, value) ∈ record) :
    (Tree.fieldsOf (order.arrange (present record))).lookup name = value.map tree :=
  Tree.lookup_fieldsOf (order.nodup_arrange distinct) fun other =>
    (order.mem_arrange distinct).trans (Tree.given_iff distinct member other)

/-- What is given in a record nests one level less than its object. -/
theorem nesting_given {levels : Nat} (shallow : (order.object record).nesting ≤ levels) {name : String}
    {value : Json} (member : (name, some value) ∈ record) : value.nesting ≤ levels - 1 :=
  nestingMembers_le_iff.mp (Nat.le_sub_one_of_lt shallow) (name, value) ((order.mem_arrange distinct).mpr member)

end
end Arrangement

/-- A list is read back if its items are, of which each nests one level less. -/
theorem Tree.list_written {α : Type} {write : α → Json} {read : Tree → Option α} {levels : Nat} {items : List α}
    (shallow : (Json.array (items.map write)).nesting ≤ levels)
    (each : ∀ item ∈ items, (write item).nesting ≤ levels - 1 → read (write item).tree = some item) :
    Tree.list levels read (Json.array (items.map write)).tree = some items := by
  have deep : 0 < levels := Nat.lt_of_lt_of_le (Nat.succ_pos _) shallow
  refine Tree.list_trees (Nat.ne_of_gt deep) fun item member => each item member ?_
  exact nestingItems_le_iff.mp (Nat.le_sub_one_of_lt shallow) _ (List.mem_map_of_mem member)

/-- A list that is left out if it is empty is read back. -/
theorem Arrangement.optional_nonEmpty (order : Arrangement) {record : List (String × Option Json)} {α : Type}
    {write : α → Json} {read : Tree → Option α} {levels : Nat} {items : List α} {name : String}
    (distinct : (record.map Prod.fst).Nodup) (shallow : (order.object record).nesting ≤ levels)
    (member : (name, nonEmpty (items.map write)) ∈ record)
    (each : ∀ item ∈ items, (write item).nesting ≤ levels - 2 → read (write item).tree = some item) :
    (Tree.fieldsOf (order.arrange (present record))).optional name [] (Tree.list (levels - 1) read) =
      some items := by
  rw [Tree.Fields.optional, order.lookup_object distinct member]
  cases items with
  | nil => rfl
  | cons first rest => exact Tree.list_written (order.nesting_given distinct shallow member) each

end Json

/-! ### Fields -/

namespace Field

def record (name token : String) (children : List Json) : List (String × Option Json) :=
  [("name", some (.text name)), ("type", some (.text token)), ("children", nonEmpty children)]

theorem distinct_record (name token : String) (children : List Json) :
    ((record name token children).map Prod.fst).Nodup := by
  have distinct : ["name", "type", "children"].Nodup := by decide
  exact distinct

mutual
/-- A field as an object whose members are arranged in an order, and so in the fields inside. -/
def written (order : Arrangement) : Field → Json
  | ⟨name, token, children⟩ => order.object (record name token (writtenAll order children))
def writtenAll (order : Arrangement) : List Field → List Json
  | [] => []
  | field :: rest => field.written order :: writtenAll order rest
end

variable {order : Arrangement}

theorem writtenAll_eq_map (fields : List Field) : writtenAll order fields = fields.map (written order) := by
  induction fields with
  | nil => rfl
  | cons field rest ih => rw [writtenAll, ih, List.map_cons]

mutual
theorem written_byKey : (field : Field) → field.written .byKey = field.toJson
  | ⟨name, token, children⟩ => by
    rw [written, toJson, writtenAll_byKey children]
    rfl
theorem writtenAll_byKey : (fields : List Field) → writtenAll .byKey fields = toJsonAll fields
  | [] => rfl
  | field :: rest => by rw [writtenAll, toJsonAll, written_byKey field, writtenAll_byKey rest]
end

/-- In the order of declaration the name of a field comes before its type. -/
example : (written .asDeclared ⟨"size", "number", []⟩).render =
    "\x7b\"name\":\"size\",\"type\":\"number\"\x7d" := by decide +kernel

theorem nesting_pos (field : Field) : 0 < (field.written order).nesting := by
  cases field
  exact order.nesting_pos _

theorem readWith_written {levels : Nat} {child : Tree → Option Field} {field : Field}
    (shallow : (field.written order).nesting ≤ levels)
    (each : ∀ inner ∈ field.children, (inner.written order).nesting ≤ levels - 2 →
      child (inner.written order).tree = some inner) :
    readWith levels child (field.written order).tree = some field := by
  obtain ⟨name, token, children⟩ := field
  rw [written, writtenAll_eq_map] at shallow ⊢
  have distinct := distinct_record name token (children.map (written order))
  have deep : levels ≠ 0 := Nat.ne_of_gt (Nat.lt_of_lt_of_le (order.nesting_pos _) shallow)
  have known : ∀ entry ∈ record name token (children.map (written order)),
      entry.1 ∈ ["name", "type", "children"] := by simp [record]
  have named := order.lookup_object distinct List.mem_cons_self
  have typed := order.lookup_object distinct (List.mem_cons_of_mem _ List.mem_cons_self)
  have listed : ("children", nonEmpty (children.map (written order))) ∈
      record name token (children.map (written order)) := by simp [record]
  have inside := order.optional_nonEmpty distinct shallow listed each
  rw [readWith, order.fields?_object distinct deep known]
  simp [Tree.Fields.required, named, typed, inside, tree, Tree.text?]

mutual
/-- A field is read back at the levels that it nests. -/
theorem read_written : (field : Field) → ∀ levels, (field.written order).nesting ≤ levels →
    read levels (field.written order).tree = some field
  | ⟨name, token, children⟩ => by
    intro levels shallow
    match levels with
    | 0 => exact absurd shallow (Nat.not_le.mpr (nesting_pos _))
    | 1 =>
      exact readWith_written shallow fun inner _ flat => absurd flat (Nat.not_le.mpr inner.nesting_pos)
    | levels + 2 =>
      exact readWith_written shallow fun inner member => readAll_written children inner member levels
theorem readAll_written : (fields : List Field) → ∀ field ∈ fields, ∀ levels,
    (field.written order).nesting ≤ levels → read levels (field.written order).tree = some field
  | [] => by simp
  | field :: rest => by
    intro other member levels shallow
    rcases List.mem_cons.mp member with same | later
    · rw [same] at shallow ⊢
      exact read_written field levels shallow
    · exact readAll_written rest other later levels shallow
end

end Field

/-! ### Definitions -/

namespace Declaration

def record (name : String) (fields submodels : List Json) : List (String × Option Json) :=
  [("name", some (.text name)), ("fields", some (.array fields)), ("submodels", nonEmpty submodels)]

theorem distinct_record (name : String) (fields submodels : List Json) :
    ((record name fields submodels).map Prod.fst).Nodup := by
  have distinct : ["name", "fields", "submodels"].Nodup := by decide
  exact distinct

mutual
/-- A declaration as an object whose members are arranged in an order, and so in all inside. -/
def written (order : Arrangement) : Declaration → Json
  | ⟨name, fields, submodels⟩ =>
    order.object (record name (Field.writtenAll order fields) (writtenAll order submodels))
def writtenAll (order : Arrangement) : List Declaration → List Json
  | [] => []
  | declaration :: rest => declaration.written order :: writtenAll order rest
end

variable {order : Arrangement}

theorem writtenAll_eq_map (declarations : List Declaration) :
    writtenAll order declarations = declarations.map (written order) := by
  induction declarations with
  | nil => rfl
  | cons declaration rest ih => rw [writtenAll, ih, List.map_cons]

mutual
theorem written_byKey : (declaration : Declaration) → declaration.written .byKey = declaration.toJson
  | ⟨name, fields, submodels⟩ => by
    rw [written, toJson, Field.writtenAll_byKey, writtenAll_byKey submodels]
    rfl
theorem writtenAll_byKey : (declarations : List Declaration) →
    writtenAll .byKey declarations = toJsonAll declarations
  | [] => rfl
  | declaration :: rest => by rw [writtenAll, toJsonAll, written_byKey declaration, writtenAll_byKey rest]
end

theorem nesting_pos (declaration : Declaration) : 0 < (declaration.written order).nesting := by
  cases declaration
  exact order.nesting_pos _

theorem readWith_written {levels : Nat} {submodel : Tree → Option Declaration} {declaration : Declaration}
    (shallow : (declaration.written order).nesting ≤ levels)
    (each : ∀ inner ∈ declaration.submodels, (inner.written order).nesting ≤ levels - 2 →
      submodel (inner.written order).tree = some inner) :
    readWith levels submodel (declaration.written order).tree = some declaration := by
  obtain ⟨name, fields, submodels⟩ := declaration
  rw [written, writtenAll_eq_map, Field.writtenAll_eq_map] at shallow ⊢
  have distinct := distinct_record name (fields.map (Field.written order)) (submodels.map (written order))
  have deep : levels ≠ 0 := Nat.ne_of_gt (Nat.lt_of_lt_of_le (order.nesting_pos _) shallow)
  have known : ∀ entry ∈ record name (fields.map (Field.written order)) (submodels.map (written order)),
      entry.1 ∈ ["name", "fields", "submodels"] := by simp [record]
  have named := order.lookup_object distinct List.mem_cons_self
  have listed : ("fields", some (Json.array (fields.map (Field.written order)))) ∈
      record name (fields.map (Field.written order)) (submodels.map (written order)) := by simp [record]
  have held := order.lookup_object distinct listed
  have reads : Field.readAll (levels - 1) (Json.array (fields.map (Field.written order))).tree = some fields :=
    Tree.list_written (order.nesting_given distinct shallow listed) fun field _ => field.read_written _
  have within : ("submodels", nonEmpty (submodels.map (written order))) ∈
      record name (fields.map (Field.written order)) (submodels.map (written order)) := by simp [record]
  have inside := order.optional_nonEmpty distinct shallow within each
  rw [readWith, order.fields?_object distinct deep known]
  rw [tree] at reads
  simp [Tree.Fields.required, named, held, reads, inside, tree, Tree.text?]

mutual
/-- A declaration is read back at the levels that it nests. -/
theorem read_written : (declaration : Declaration) → ∀ levels, (declaration.written order).nesting ≤ levels →
    read levels (declaration.written order).tree = some declaration
  | ⟨name, fields, submodels⟩ => by
    intro levels shallow
    match levels with
    | 0 => exact absurd shallow (Nat.not_le.mpr (nesting_pos _))
    | 1 =>
      exact readWith_written shallow fun inner _ flat => absurd flat (Nat.not_le.mpr inner.nesting_pos)
    | levels + 2 =>
      exact readWith_written shallow fun inner member => readAll_written submodels inner member levels
theorem readAll_written : (declarations : List Declaration) → ∀ declaration ∈ declarations, ∀ levels,
    (declaration.written order).nesting ≤ levels →
      read levels (declaration.written order).tree = some declaration
  | [] => by simp
  | declaration :: rest => by
    intro other member levels shallow
    rcases List.mem_cons.mp member with same | later
    · rw [same] at shallow ⊢
      exact read_written declaration levels shallow
    · exact readAll_written rest other later levels shallow
end

theorem ofText?_written {definition : Declaration} (shallow : (definition.written order).nesting ≤ nestingLimit) :
    ofText? (definition.written order).render = some definition := by
  rw [ofText?, read?, tree_of_render, Option.bind_some, definition.read_written _ shallow]

/-- What follows the rules is read back as it is. -/
theorem parse_written {definition : Declaration} (accepted : definition.validate = .ok ())
    (shallow : (definition.written order).nesting ≤ nestingLimit) :
    parse (definition.written order).render = .ok definition := by
  simp only [parse, parseAt, ofText?_written shallow, accepted]

end Declaration

end Dossier
