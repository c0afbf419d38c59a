import Dossier.Store.Basic
import Dossier.Proofs.OrderedBodies
import Dossier.Proofs.Paths
import Dossier.Proofs.StoredTexts
import Mathlib.Data.List.Nodup

/-! The rows of a store after something was written, and the documents that are read
of them. -/
namespace Dossier

/-! ### Reading -/

namespace Json

mutual
/-- Reading back keeps the keys in order. -/
theorem ordered_of_reread : (value : Json) → ∀ {levels read}, value.Ordered →
    value.reread levels = some read → read.Ordered
  | .null | .bool _ | .text _ => by
    intro _ found
    cases found
    trivial
  | .number n => by
    intro _ found
    obtain ⟨_, _, rfl⟩ := Option.map_eq_some_iff.mp found
    trivial
  | .array items => by
    rename_i levels read
    intro ordered found
    cases levels with
    | zero => cases found
    | succ levels =>
      obtain ⟨_, inside, rfl⟩ := Option.map_eq_some_iff.mp found
      exact ordered_of_rereadItems items ordered inside
  | .object members => by
    rename_i levels read
    intro ordered found
    cases levels with
    | zero => cases found
    | succ levels =>
      obtain ⟨again, inside, rfl⟩ := Option.map_eq_some_iff.mp found
      refine ⟨Keyed.ordered_iff_keys.mpr ?_, ordered_of_rereadMembers members ordered.2 inside⟩
      rw [Keyed.keys, keys_of_rereadMembers inside]
      exact Keyed.ordered_iff_keys.mp ordered.1
theorem ordered_of_rereadItems : (items : List Json) → ∀ {levels read}, OrderedItems items →
    rereadItems levels items = some read → OrderedItems read
  | [] => by
    intro _ found
    cases found
    trivial
  | item :: rest => by
    intro ordered found
    simp only [rereadItems, Option.bind_eq_bind, Option.bind_eq_some_iff] at found
    obtain ⟨_, own, _, later, finished⟩ := found
    cases finished
    exact ⟨ordered_of_reread item ordered.1 own, ordered_of_rereadItems rest ordered.2 later⟩
theorem ordered_of_rereadMembers : (members : List (String × Json)) → ∀ {levels read},
    OrderedMembers members → rereadMembers levels members = some read → OrderedMembers read
  | [] => by
    intro _ found
    cases found
    trivial
  | (key, value) :: rest => by
    intro ordered found
    simp only [rereadMembers, Option.bind_eq_bind, Option.bind_eq_some_iff] at found
    obtain ⟨_, own, _, later, finished⟩ := found
    cases finished
    exact ⟨ordered_of_reread value ordered.1 own, ordered_of_rereadMembers rest ordered.2 later⟩
end

/-- What is read back at a key is the value there, read back. -/
theorem find?_of_rereadMembers {levels : Nat} {members read : Body}
    (found : rereadMembers levels members = some read) (key : String) :
    (members.find? key = none ∧ read.find? key = none) ∨
      ∃ value again, members.find? key = some value ∧ read.find? key = some again ∧
        value.reread levels = some again := by
  induction members generalizing read with
  | nil =>
    cases found
    exact .inl ⟨rfl, rfl⟩
  | cons member rest ih =>
    obtain ⟨name, value⟩ := member
    simp only [rereadMembers, Option.bind_eq_bind, Option.bind_eq_some_iff] at found
    obtain ⟨again, own, _, later, finished⟩ := found
    cases finished
    by_cases same : name = key
    · exact .inr ⟨value, again, by simp [Keyed.find?, same], by simp [Keyed.find?, same], own⟩
    · simpa [Keyed.find?, same] using ih later

/-- What is read back at a place is the value there, read back. -/
theorem under?_of_reread {value read : Json} {levels : Nat} (found : value.reread levels = some read)
    (names : List String) :
    (value.under? names = none ∧ read.under? names = none) ∨
      ∃ inner again levels, value.under? names = some inner ∧ read.under? names = some again ∧
        inner.reread levels = some again := by
  induction names generalizing value read levels with
  | nil => exact .inr ⟨value, read, levels, rfl, rfl, found⟩
  | cons name rest ih =>
    cases value with
    | object members =>
      cases levels with
      | zero => cases found
      | succ levels =>
        obtain ⟨again, inside, rfl⟩ := Option.map_eq_some_iff.mp found
        simp only [under?, member?, members?, Option.bind_some]
        rcases find?_of_rereadMembers inside name with ⟨none, also⟩ | ⟨held, inner, here, there, own⟩
        · exact .inl ⟨by simp [none], by simp [also]⟩
        · simpa only [here, there, Option.bind_some] using ih own
    | number n =>
      obtain ⟨_, _, rfl⟩ := Option.map_eq_some_iff.mp found
      exact .inl ⟨rfl, rfl⟩
    | array items =>
      cases levels with
      | zero => cases found
      | succ levels =>
        obtain ⟨_, _, rfl⟩ := Option.map_eq_some_iff.mp found
        exact .inl ⟨rfl, rfl⟩
    | _ =>
      cases found
      exact .inl ⟨rfl, rfl⟩

end Json

/-- The levels of nesting below a body. -/
def Row.levels : Nat := Json.nestingLimit - 1

/-- A document is read with its id, and with its body read back. -/
theorem Row.read_eq_ok {row : Row} {document : Document} (ordered : (Json.object row.document.body).Ordered) :
    row.read = .ok document ↔ document.id = row.document.id ∧
      Json.rereadMembers levels row.document.body = some document.body := by
  have read : Json.parseBody? (Json.object row.document.body).render =
      Json.rereadMembers levels row.document.body := by
    rw [Json.parseBody?, Json.parse?_render _ ordered]
    change ((Json.rereadMembers levels row.document.body).map Json.object).bind Json.members? = _
    cases Json.rereadMembers levels row.document.body <;> rfl
  rw [Row.read, read]
  cases Json.rereadMembers levels row.document.body with
  | none => simp
  | some body =>
    obtain ⟨id, held⟩ := document
    simp [eq_comm]

section
variable {row : Row} {document : Document} (ordered : (Json.object row.document.body).Ordered)
  (done : row.read = .ok document)
include ordered done

theorem Row.reread_of_read : (Json.object row.document.body).reread (levels + 1) = some (.object document.body) := by
  rw [Json.reread, ((read_eq_ok ordered).mp done).2]
  rfl

theorem Row.ordered_of_read : (Json.object document.body).Ordered :=
  Json.ordered_of_reread _ ordered (reread_of_read ordered done)

end

def Row.IsReadable (row : Row) : Prop := ∃ document, row.read = .ok document

theorem Row.isReadable_iff {row : Row} (ordered : (Json.object row.document.body).Ordered) :
    row.IsReadable ↔ (Json.rereadMembers levels row.document.body).isSome = true := by
  rw [Option.isSome_iff_exists]
  constructor
  · rintro ⟨document, read⟩
    exact ⟨document.body, ((read_eq_ok ordered).mp read).2⟩
  · rintro ⟨body, found⟩
    exact ⟨⟨row.document.id, body⟩, (read_eq_ok ordered).mpr ⟨rfl, found⟩⟩

theorem Row.id_of_read {row : Row} {document : Document} (done : row.read = .ok document) :
    document.id = row.document.id := by
  unfold read at done
  split at done <;> cases done
  rfl

theorem Row.error_of_read {row : Row} {error : StoreError} (failed : row.read = .error error) :
    error = .invalidData row.collection row.document.id := by
  unfold read at failed
  split at failed <;> cases failed
  rfl

/-! ### Values that cannot be read back -/

/-- Empty arrays, one within the other. -/
def Json.nested : (depth : Nat) → Json
  | 0 => .array []
  | depth + 1 => .array [nested depth]

theorem Json.reread_nested (levels : Nat) : (nested levels).reread levels = none := by
  induction levels with
  | zero => rfl
  | succ levels ih => simp [nested, reread, rereadItems, ih]

theorem Json.ordered_nested (depth : Nat) : (nested depth).Ordered := by
  induction depth with
  | zero => trivial
  | succ depth ih => exact ⟨ih, trivial⟩

theorem Row.not_isReadable {row : Row} {key : String} (ordered : (Json.object row.document.body).Ordered)
    (held : row.document.body.find? key = some (Json.nested levels)) : ¬ row.IsReadable := by
  rintro ⟨document, read⟩
  obtain ⟨_, found⟩ := (read_eq_ok ordered).mp read
  rcases Json.find?_of_rereadMembers found key with ⟨absent, _⟩ | ⟨value, again, here, _, own⟩
  · cases held.symm.trans absent
  · cases held.symm.trans here
    cases (Json.reread_nested levels).symm.trans own

theorem Row.read_of_not_isReadable {row : Row} (unreadable : ¬ row.IsReadable) :
    row.read = .error (.invalidData row.collection row.document.id) := by
  cases read : row.read with
  | ok document => exact absurd ⟨document, read⟩ unreadable
  | error fault => rw [error_of_read read]

/-! ### Querying -/

/-- The order in which conditions are tested leaves none out. -/
theorem Query.mem_inTestOrder {query : Query} {byInsertion : Bool} {entry : String × Condition} :
    entry ∈ query.inTestOrder byInsertion ↔ entry ∈ query := by
  have first : entry ∈ query.idFirst ↔ entry ∈ query := by
    rw [idFirst, List.mem_append, List.mem_filter, List.mem_filter, ← and_or_left]
    by_cases same : entry.1 = idKey <;> simp [same]
  unfold inTestOrder
  split
  · split
    · exact .rfl
    · exact first
  · exact first

theorem SortKey.mem_telling {keys : List SortKey} {key : SortKey} (member : key ∈ telling keys) : key ∈ keys := by
  cases keys with
  | nil => exact member
  | cons first rest =>
    rw [telling] at member
    split at member
    · exact List.mem_singleton.mp member ▸ List.mem_cons_self
    · exact member

theorem SortKey.perm_of_sort {keys : List SortKey} {documents sorted : List Document}
    (done : sort keys documents = .ok sorted) : sorted.Perm documents := by
  obtain ⟨entries, measured, finished⟩ := bind_eq_ok.mp done
  cases finished
  have same : entries.map (·.2) = documents := by
    have steps := mapM_eq_ok.mp measured
    clear measured done
    induction steps with
    | nil => rfl
    | cons own _ ih =>
      obtain ⟨_, _, measured⟩ := bind_eq_ok.mp own
      cases measured
      rw [List.map_cons, ih]
  exact same ▸ (List.mergeSort_perm entries _).map Prod.snd

/-- Without keys nothing is moved. -/
theorem SortKey.sort_nil (documents : List Document) : sort [] documents = .ok documents := by
  have measured : documents.mapM (fun document => do return (← cells [] document, document)) =
      (.ok (documents.map ([], ·)) : Except StoreError (List (List Cell × Document))) :=
    mapM_of_ok fun _ _ => rfl
  rw [sort, measured]
  refine congrArg Except.ok ?_
  rw [List.mergeSort_of_pairwise, List.map_map]
  · exact List.map_id'' (fun _ => rfl) _
  · exact List.pairwise_of_forall fun _ _ => rfl

/-! ### Rows -/

theorem EntityId.eq_of_text {id other : EntityId} (same : id.text = other.text) : id = other := by
  obtain ⟨text, _⟩ := id
  obtain ⟨text', _⟩ := other
  obtain rfl : text = text' := same
  rfl

namespace Store
variable {store after : Store} {collection : String} {document : Document} {documents : List Document}
  {row : Row}

theorem eq_of_key {other : Row} (member : row ∈ store.rows) (also : other ∈ store.rows)
    (same : row.key = other.key) : row = other :=
  List.inj_on_of_nodup_map store.distinct member also same

theorem nodup_documents (store : Store) (collection : String) : (store.documents collection).Nodup := by
  have apart : ((store.rows.filter (·.collection = collection)).map Row.key).Nodup :=
    store.distinct.sublist (List.filter_sublist.map Row.key)
  refine List.Nodup.of_map (fun document => (collection, document.id)) ?_
  unfold documents
  rw [List.map_map]
  refine (List.map_congr_left fun row member => ?_) ▸ apart
  have same : row.collection = collection := of_decide_eq_true (List.mem_filter.mp member).2
  rw [Row.key, same]
  rfl

theorem mem_documents : document ∈ store.documents collection ↔ ⟨collection, document⟩ ∈ store.rows := by
  constructor
  · intro member
    obtain ⟨row, kept, rfl⟩ := List.mem_map.mp member
    obtain ⟨stored, here⟩ := List.mem_filter.mp kept
    obtain rfl : row.collection = collection := of_decide_eq_true here
    exact stored
  · intro stored
    exact List.mem_map.mpr ⟨_, List.mem_filter.mpr ⟨stored, decide_eq_true rfl⟩, rfl⟩

theorem eq_of_id {other : Document} (member : document ∈ store.documents collection)
    (also : other ∈ store.documents collection) (same : document.id = other.id) : document = other := by
  have key : (⟨collection, document⟩ : Row).key = (⟨collection, other⟩ : Row).key := by rw [Row.key, Row.key, same]
  exact congrArg Row.document (eq_of_key (mem_documents.mp member) (mem_documents.mp also) key)

/-- Documents of a collection and what is read of them. -/
def ReadAs (collection : String) (documents answers : List Document) : Prop :=
  List.Forall₂ (fun document answer => Row.read ⟨collection, document⟩ = .ok answer) documents answers

theorem ReadAs.ids {documents answers : List Document} (read : ReadAs collection documents answers) :
    documents.map Document.id = answers.map Document.id := by
  induction read with
  | nil => rfl
  | cons own _ ih => rw [List.map_cons, List.map_cons, ih, Row.id_of_read own]

theorem rows_of_insert (inserted : store.insert collection document = .ok after) :
    after.rows = store.rows ++ [⟨collection, document⟩] := by
  simp only [insert] at inserted
  split at inserted
  · cases inserted
  · cases inserted
    rfl

theorem rows_of_insertMany (inserted : store.insertMany collection documents = .ok after) :
    after.rows = store.rows ++ documents.map (⟨collection, ·⟩) := by
  induction documents generalizing store with
  | nil =>
    cases inserted
    simp
  | cons document rest ih =>
    obtain ⟨between, first, later⟩ := bind_eq_ok.mp inserted
    rw [ih later, rows_of_insert first]
    simp

theorem mem_replaceMany (member : row ∈ (store.replaceMany collection documents).2.rows) :
    (row ∈ store.rows ∧ ∀ document ∈ documents, row.key ≠ (collection, document.id)) ∨
      ∃ document ∈ documents, row = ⟨collection, document⟩ := by
  induction documents generalizing store with
  | nil => exact .inl ⟨member, by simp⟩
  | cons document rest ih =>
    rcases ih member with ⟨earlier, apart⟩ | ⟨other, among, same⟩
    · obtain ⟨old, listed, written⟩ := List.mem_map.mp earlier
      by_cases hit : old.key = (collection, document.id)
      · rw [if_pos hit] at written
        exact .inr ⟨document, List.mem_cons_self, written.symm⟩
      · rw [if_neg hit] at written
        subst written
        refine .inl ⟨listed, fun other among => ?_⟩
        rcases List.mem_cons.mp among with rfl | later
        · exact hit
        · exact apart other later
    · exact .inr ⟨other, List.mem_cons_of_mem _ among, same⟩

/-- Writing documents over others leaves every row in its place, and all but theirs as it is. -/
theorem exists_map_replaceMany (store : Store) (collection : String) (documents : List Document) :
    ∃ write : Row → Row, (store.replaceMany collection documents).2.rows = store.rows.map write ∧
      ∀ row, (write row).key = row.key ∧
        (write row = row ∨ row.collection = collection ∧ row.document.id ∈ documents.map Document.id) := by
  -- Rows are written over one document after the other: by the first, then by the rest.
  induction documents generalizing store with
  | nil => exact ⟨id, (List.map_id _).symm, fun row => ⟨rfl, .inl rfl⟩⟩
  | cons document rest ih =>
    obtain ⟨later, rows, kept⟩ := ih (store.overwrite collection document)
    let first (row : Row) : Row := if row.key = (collection, document.id) then ⟨collection, document⟩ else row
    have overwritten : (store.overwrite collection document).rows = store.rows.map first := rfl
    refine ⟨later ∘ first, ?_, fun row => ?_⟩
    · rw [← List.map_map, ← overwritten]
      exact rows
    · obtain ⟨key, place⟩ := kept (first row)
      by_cases hit : row.key = (collection, document.id)
      · have same : first row = ⟨collection, document⟩ := if_pos hit
        refine ⟨?_, .inr ⟨congrArg Prod.fst hit, ?_⟩⟩
        · exact key.trans (same ▸ hit.symm)
        · exact List.mem_cons.mpr (.inl (congrArg Prod.snd hit))
      · have same : first row = row := if_neg hit
        rw [same] at key place
        rw [Function.comp, same]
        exact ⟨key, place.imp_right (.imp_right (List.mem_cons_of_mem _))⟩

theorem keys_replaceMany (store : Store) (collection : String) (documents : List Document) :
    (store.replaceMany collection documents).2.rows.map Row.key = store.rows.map Row.key := by
  obtain ⟨write, rows, kept⟩ := store.exists_map_replaceMany collection documents
  rw [rows, List.map_map]
  exact List.map_congr_left fun row _ => (kept row).1

theorem mem_of_get {id : EntityId} (found : store.get collection id = .ok (some document)) :
    ∃ row ∈ store.rows, row.collection = collection ∧ row.read = .ok document := by
  simp only [get] at found
  split at found
  · rename_i row here
    refine ⟨row, List.mem_of_find?_eq_some here, ?_, ?_⟩
    · have key := List.find?_some here
      simp [Row.key] at key
      exact key.1
    · cases read : row.read with
      | error error => simp [read, Except.map] at found
      | ok value => simpa [read, Except.map] using found
  · cases found

/-- Unsorted, the selected documents are read one after the other. -/
theorem find_unsorted (store : Store) (collection : String) (query : Query) :
    store.find collection query [] =
      (store.selected collection query true >>= List.mapM fun document => Row.read ⟨collection, document⟩) := by
  have unsorted : (if query.asksForOneId then [] else SortKey.telling []) = [] := by split <;> rfl
  unfold find
  simp only [unsorted, SortKey.sort_nil]
  rfl

theorem filterM_of_selected {query : Query} {byInsertion : Bool}
    (passed : store.selected collection query byInsertion = .ok documents) :
    (store.documents collection).filterM (Query.test · (query.inTestOrder byInsertion)) = .ok documents := by
  unfold selected at passed
  split at passed
  · exact passed
  · cases passed

theorem sublist_of_selected {query : Query} {byInsertion : Bool}
    (passed : store.selected collection query byInsertion = .ok documents) :
    documents.Sublist (store.documents collection) := by
  rw [eq_filter_of_filterM (filterM_of_selected passed)]
  exact List.filter_sublist

theorem mem_of_find {query : Query} {keys : List SortKey}
    (found : store.find collection query keys = .ok documents) (member : document ∈ documents) :
    ∃ row ∈ store.rows, row.collection = collection ∧ row.read = .ok document := by
  obtain ⟨selected, passed, rest⟩ := bind_eq_ok.mp found
  obtain ⟨sorted, done, reading⟩ := bind_eq_ok.mp rest
  obtain ⟨written, among, read⟩ := exists_of_mapM reading member
  have chosen : written ∈ selected := (SortKey.perm_of_sort done).mem_iff.mp among
  exact ⟨_, mem_documents.mp ((sublist_of_selected passed).subset chosen), rfl, read⟩

end Store
end Dossier
