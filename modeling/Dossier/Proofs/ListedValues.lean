import Dossier.Proofs.CollectionDocuments
import Dossier.Proofs.Selections
import Dossier.Proofs.SortedAnswers

/-! Looking for any of some values under a field. It finds what looking for each of the values
finds, as long as there is a value, documents have one where `null` is asked for too, and what is
found can be read. -/
namespace Dossier

theorem Keyed.insert_perm {α : Type} {entries : Keyed α} {key : String} (fresh : key ∉ entries.keys) (value : α) :
    (entries.insert key value).Perm ((key, value) :: entries) := by
  induction entries with
  | nil => exact .refl _
  | cons first rest ih =>
    obtain ⟨name, held⟩ := first
    obtain ⟨other, later⟩ := not_or.mp (mt List.mem_cons.mpr fresh)
    rw [insert]
    split
    · exact .refl _
    · rw [if_neg fun same => other same.symm]
      exact ((ih later).cons _).trans (.swap ..)

/-! ### Conditions -/

theorem Document.canSee_of_isOk {document : Document} {field : String}
    (looked : (Cell.ofField document field).isOk = true) : document.CanSee field := by
  cases own : Cell.ofField document field with
  | ok cell => exact ⟨cell, own⟩
  | error fault => simp [own, Except.isOk, Except.toBool] at looked

/-- The values that make a list hold are those that are equal on their own, but `null`. -/
theorem Condition.holds_among_iff {values : List Json} {field : String} {cell : Cell} :
    (among values).holds field cell = true ↔
      ∃ value ∈ values, value ≠ .null ∧ (compare .eq value).holds field cell = true := by
  have single (value : Json) : relates .eq cell (Cell.ofOperand field value) = true ↔
      value ≠ .null ∧ (compare .eq value).holds field cell = true := by
    cases value with
    | null => simp [relates, Cell.ofOperand, Cell.ofJson, Cell.isNone]
    | _ => simp [holds]
  rw [holds, List.any_eq_true]
  exact exists_congr fun value => and_congr_right fun _ => single value

namespace Query
variable {query others : Query} {document : Document} {field : String} {condition : Condition}

section
variable (fresh : field ∉ others.keys)
include fresh

theorem passes_insert : passes (others.insert field condition) document = true ↔
    condition.holds field (document.seen field) = true ∧ others.passes document = true := by
  rw [passes, (Keyed.insert_perm fresh condition).all_eq, List.all_cons, Bool.and_eq_true]
  rfl

theorem canSee_insert : (∀ entry ∈ others.insert field condition, document.CanSee entry.1) ↔
    document.CanSee field ∧ ∀ entry ∈ others, document.CanSee entry.1 := by
  simp only [(Keyed.insert_perm fresh condition).mem_iff, List.forall_mem_cons]

theorem isAnswerable_insert : isAnswerable (others.insert field condition) = true ↔
    isAnswerable [(field, condition)] = true ∧ others.isAnswerable = true := by
  rw [isAnswerable, (Keyed.insert_perm fresh condition).all_eq, ← List.singleton_append, List.all_append,
    Bool.and_eq_true]
  rfl

end
end Query

namespace Store
variable {store : Store} {collection : String} {query : Query} {keys : List SortKey} {answers : List Document}

section
variable (answerable : query.isAnswerable = true)
  (can : ∀ document ∈ store.documents collection, ∀ entry ∈ query, document.CanSee entry.1)
include answerable can

/-- What is found is what is read of the documents that pass. -/
theorem readAs_of_find (done : store.find collection query keys = .ok answers) :
    ∃ found, found.Perm ((store.documents collection).filter query.passes) ∧ ReadAs collection found answers := by
  obtain ⟨chosen, picked, rest⟩ := bind_eq_ok.mp done
  rw [selected_of_canSee answerable can] at picked
  cases picked
  obtain ⟨sorted, sorting, reading⟩ := bind_eq_ok.mp rest
  exact ⟨sorted, SortKey.perm_of_sort sorting, mapM_eq_ok.mp reading⟩

/-- Whatever passes can be read, and is among what is found. -/
theorem exists_read_of_find (done : store.find collection query keys = .ok answers) {stored : Document}
    (listed : stored ∈ store.documents collection) (passes : query.passes stored = true) :
    ∃ answer ∈ answers, Row.read ⟨collection, stored⟩ = .ok answer := by
  obtain ⟨found, perm, read⟩ := readAs_of_find answerable can done
  exact result_of_mapM (mapM_eq_ok.mpr read) (perm.mem_iff.mpr (List.mem_filter.mpr ⟨listed, passes⟩))

theorem mem_iff_of_find (done : store.find collection query keys = .ok answers) {document : Document} :
    document ∈ answers ↔ ∃ stored ∈ store.documents collection, query.passes stored = true ∧
      Row.read ⟨collection, stored⟩ = .ok document := by
  constructor
  · intro member
    obtain ⟨found, perm, read⟩ := readAs_of_find answerable can done
    obtain ⟨stored, among, own⟩ := exists_of_mapM (mapM_eq_ok.mpr read) member
    obtain ⟨listed, passes⟩ := List.mem_filter.mp (perm.mem_iff.mp among)
    exact ⟨stored, listed, passes, own⟩
  · rintro ⟨stored, listed, passes, own⟩
    obtain ⟨answer, member, same⟩ := exists_read_of_find answerable can done listed passes
    cases own.symm.trans same
    exact member

theorem ids_of_find (done : store.find collection query keys = .ok answers) :
    (answers.map Document.id).Perm (((store.documents collection).filter query.passes).map Document.id) := by
  obtain ⟨found, perm, read⟩ := readAs_of_find answerable can done
  rw [← read.ids]
  exact perm.map Document.id

theorem nodup_of_find (done : store.find collection query keys = .ok answers) : answers.Nodup := by
  refine .of_map Document.id ((ids_of_find answerable can done).nodup_iff.mpr ?_)
  exact (store.nodup_ids collection).sublist (List.filter_sublist.map Document.id)

/-- What is found is counted. -/
theorem count_of_find (done : store.find collection query keys = .ok answers) :
    store.count collection query = .ok answers.length := by
  have length := (ids_of_find answerable can done).length_eq
  rw [List.length_map, List.length_map] at length
  rw [count, selected_of_canSee answerable can, length]
  rfl

/-- What is found is deleted. -/
theorem deleteMany_of_find (done : store.find collection query keys = .ok answers) :
    ∃ left, store.deleteMany collection query = .ok (answers.length, left) ∧
      left.rows = store.rows.filter fun row =>
        !(row.collection = collection && (answers.map Document.id).contains row.document.id) := by
  have ids := ids_of_find answerable can done
  have length := ids.length_eq
  rw [List.length_map] at length
  have same (id : EntityId) : (answers.map Document.id).contains id =
      (((store.documents collection).filter query.passes).map Document.id).contains id := by
    rw [Bool.eq_iff_iff, List.contains_iff_mem, List.contains_iff_mem, ids.mem_iff]
  rw [deleteMany, selected_of_canSee answerable can, length]
  exact ⟨_, rfl, List.filter_congr fun row _ => by rw [same]⟩

/-- A query is answered if what passes can be read. -/
theorem exists_find (sortable : ∀ document ∈ store.documents collection, ∀ key ∈ keys, document.CanSee key.field)
    (readable : ∀ document ∈ store.documents collection, query.passes document = true →
      (⟨collection, document⟩ : Row).IsReadable) : ∃ answers, store.find collection query keys = .ok answers := by
  have picked := selected_of_canSee answerable can keys.isEmpty
  obtain ⟨sorted, sorting⟩ : ∃ sorted, SortKey.sort (if query.asksForOneId then [] else SortKey.telling keys)
      ((store.documents collection).filter query.passes) = .ok sorted := by
    refine SortKey.exists_sort fun document member key listed => ?_
    refine sortable document (List.mem_filter.mp member).1 key ?_
    split at listed
    · cases listed
    · exact SortKey.mem_telling listed
  obtain ⟨answers, reading⟩ : ∃ answers,
      sorted.mapM (fun document => Row.read ⟨collection, document⟩) = .ok answers := by
    refine exists_mapM fun document member => ?_
    obtain ⟨listed, passes⟩ := List.mem_filter.mp ((SortKey.perm_of_sort sorting).mem_iff.mp member)
    exact readable document listed passes
  exact ⟨answers, bind_eq_ok.mpr ⟨_, picked, bind_eq_ok.mpr ⟨sorted, sorting, reading⟩⟩⟩

end

/-! ### Any of some values -/

/-- Documents are what the store answers with, asked for any of some values under a field besides
other conditions: what it answers with, asked for one of the values, and each once. Counting them
and deleting them comes to the same. -/
structure AnswersAnyOf (store : Store) (collection field : String) (values : List Json) (others : Query)
    (keys : List SortKey) (answers : List Document) : Prop where
  found : store.find collection (others.insert field (.among values)) keys = .ok answers
  once : answers.Nodup
  each : ∀ value ∈ values, ∃ equal, store.find collection (others.insert field (.compare .eq value)) keys = .ok equal
  any : ∀ document, document ∈ answers ↔ ∃ value ∈ values, ∃ equal,
    store.find collection (others.insert field (.compare .eq value)) keys = .ok equal ∧ document ∈ equal
  counted : store.count collection (others.insert field (.among values)) = .ok answers.length
  deleted : ∃ left, store.deleteMany collection (others.insert field (.among values)) = .ok (answers.length, left) ∧
    left.rows = store.rows.filter fun row =>
      !(row.collection = collection && (answers.map Document.id).contains row.document.id)

/-- Asking for any of some values under a field is answered with the documents of one of them,
whatever is asked for besides of other fields that the store can look up, and in whatever order. -/
def FindsAnyOf (store : Store) (collection field : String) (values : List Json) : Prop :=
  ∀ (others : Query) (keys : List SortKey), others.isAnswerable = true → field ∉ others.keys →
    (∀ document ∈ store.documents collection, (∀ entry ∈ others, document.CanSee entry.1) ∧
      ∀ key ∈ keys, document.CanSee key.field) →
        ∃ answers, store.AnswersAnyOf collection field values others keys answers

/-- What a list of values and the documents of a collection have to be like. -/
structure CanAnswerAnyOf (store : Store) (collection field : String) (values : List Json) : Prop where
  /-- There is a value, or ids are asked for. -/
  listed : values = [] → field = idKey
  /-- The store can look the field up. -/
  seen : ∀ document ∈ store.documents collection, document.CanSee field
  /-- No document is without the field if `null` is asked for. -/
  given : Json.null ∈ values → ∀ document ∈ store.documents collection, document.seen field ≠ .none
  /-- What has one of the values can be read. -/
  readable : ∀ document ∈ store.documents collection, ∀ value ∈ values,
    (Condition.compare .eq value).holds field (document.seen field) = true → (⟨collection, document⟩ : Row).IsReadable

section
variable {field : String} {values : List Json} {others : Query}

/-- A document has any of the values if it has one of them. -/
theorem CanAnswerAnyOf.passes_among_iff (fit : store.CanAnswerAnyOf collection field values)
    (fresh : field ∉ others.keys) {document : Document} (stored : document ∈ store.documents collection) :
    Query.passes (others.insert field (.among values)) document = true ↔
      ∃ value ∈ values, Query.passes (others.insert field (.compare .eq value)) document = true := by
  simp only [Query.passes_insert fresh, Condition.holds_among_iff]
  constructor
  · rintro ⟨⟨value, member, -, held⟩, rest⟩
    exact ⟨value, member, held, rest⟩
  · rintro ⟨value, member, held, rest⟩
    refine ⟨⟨value, member, ?_, held⟩, rest⟩
    -- Of a document that has the field, `null` is not a value.
    rintro rfl
    exact fit.given member document stored (Cell.isNone_iff.mp held)

theorem CanAnswerAnyOf.answersAnyOf (fit : store.CanAnswerAnyOf collection field values)
    (answerable : others.isAnswerable = true) (fresh : field ∉ others.keys)
    (can : ∀ document ∈ store.documents collection, (∀ entry ∈ others, document.CanSee entry.1) ∧
      ∀ key ∈ keys, document.CanSee key.field) :
    ∃ answers, store.AnswersAnyOf collection field values others keys answers := by
  have canAll (condition : Condition) : ∀ document ∈ store.documents collection,
      ∀ entry ∈ others.insert field condition, document.CanSee entry.1 := fun document member =>
    (Query.canSee_insert fresh).mpr ⟨fit.seen document member, (can document member).1⟩
  have sortable := fun document member => (can document member).2
  have answersOne (value : Json) : Query.isAnswerable (others.insert field (.compare .eq value)) = true :=
    (Query.isAnswerable_insert fresh).mpr ⟨rfl, answerable⟩
  have answersAll : Query.isAnswerable (others.insert field (.among values)) = true := by
    refine (Query.isAnswerable_insert fresh).mpr ⟨?_, answerable⟩
    cases values with
    | nil => simp [Query.isAnswerable, fit.listed rfl]
    | cons value rest => rfl
  have equal (value : Json) (member : value ∈ values) :
      ∃ equal, store.find collection (others.insert field (.compare .eq value)) keys = .ok equal :=
    exists_find (answersOne value) (canAll _) sortable fun document stored passes =>
      fit.readable document stored value member ((Query.passes_insert fresh).mp passes).1
  have among {document : Document} (stored : document ∈ store.documents collection) :=
    fit.passes_among_iff fresh stored
  obtain ⟨answers, found⟩ : ∃ answers,
      store.find collection (others.insert field (.among values)) keys = .ok answers := by
    refine exists_find answersAll (canAll _) sortable fun document stored passes => ?_
    obtain ⟨value, member, own⟩ := (among stored).mp passes
    exact fit.readable document stored value member ((Query.passes_insert fresh).mp own).1
  refine ⟨answers, {
    found
    once := nodup_of_find answersAll (canAll _) found
    each := equal
    any := fun document => ?_
    counted := count_of_find answersAll (canAll _) found
    deleted := deleteMany_of_find answersAll (canAll _) found }⟩
  rw [mem_iff_of_find answersAll (canAll _) found]
  constructor
  · rintro ⟨stored, listed, passes, own⟩
    obtain ⟨value, member, passesOne⟩ := (among listed).mp passes
    obtain ⟨results, done⟩ := equal value member
    exact ⟨value, member, results, done,
      (mem_iff_of_find (answersOne value) (canAll _) done).mpr ⟨stored, listed, passesOne, own⟩⟩
  · rintro ⟨value, member, results, done, passing⟩
    obtain ⟨stored, listed, passes, own⟩ := (mem_iff_of_find (answersOne value) (canAll _) done).mp passing
    exact ⟨stored, listed, (among listed).mpr ⟨value, member, passes⟩, own⟩

/-- A condition that is answered can be looked up. -/
theorem canSee_of_find {condition : Condition} (done : store.find collection [(field, condition)] keys = .ok answers) :
    ∀ document ∈ store.documents collection, document.CanSee field := by
  intro document member
  by_cases same : field = idKey
  · exact ⟨_, if_pos same⟩
  · obtain ⟨chosen, picked, _⟩ := bind_eq_ok.mp done
    have filtered := filterM_of_selected picked
    rw [inTestOrder_single same] at filtered
    obtain ⟨_, tested⟩ := answers_of_filterM filtered document member
    obtain ⟨cell, own, _⟩ := bind_eq_ok.mp tested
    exact ⟨cell, own⟩

theorem isAnswerable_of_find (done : store.find collection query keys = .ok answers) : query.isAnswerable = true := by
  obtain ⟨chosen, picked, _⟩ := bind_eq_ok.mp done
  unfold selected at picked
  split at picked
  · assumption
  · cases picked

theorem AnswersAnyOf.canAnswerAnyOf (asked : store.AnswersAnyOf collection field values [] [] answers) :
    store.CanAnswerAnyOf collection field values := by
  have found : store.find collection [(field, .among values)] [] = .ok answers := asked.found
  have seen := canSee_of_find found
  have can (condition : Condition) : ∀ document ∈ store.documents collection,
      ∀ entry ∈ [(field, condition)], document.CanSee entry.1 := fun document member =>
    List.forall_mem_singleton.mpr (seen document member)
  have passes (condition : Condition) (document : Document) :
      Query.passes [(field, condition)] document = condition.holds field (document.seen field) :=
    Bool.and_true _
  have answerable := isAnswerable_of_find found
  refine ⟨?_, seen, fun null document member nothing => ?_, fun document member value listed held => ?_⟩
  · rintro rfl
    simpa [Query.isAnswerable] using answerable
  · obtain ⟨equal, done⟩ := asked.each .null null
    have held : Query.passes [(field, .compare .eq .null)] document = true := by
      rw [passes, nothing]
      rfl
    obtain ⟨answer, among, read⟩ := exists_read_of_find rfl (can _) done member held
    have kept := (asked.any answer).mpr ⟨.null, null, equal, done, among⟩
    obtain ⟨stored, listed, own, same⟩ := (mem_iff_of_find answerable (can _) found).mp kept
    obtain rfl : stored = document :=
      eq_of_id listed member ((Row.id_of_read same).symm.trans (Row.id_of_read read))
    rw [passes, nothing] at own
    simp [Condition.holds, Condition.relates, Cell.isNone] at own
  · obtain ⟨equal, done⟩ := asked.each value listed
    obtain ⟨answer, _, read⟩ := exists_read_of_find rfl (can _) done member ((passes _ _).trans held)
    exact ⟨answer, read⟩

/-- Asking for any of some values under a field finds what asking for each of them finds exactly
if there is a value, or ids are asked for, and of every document of the collection the field can
be looked up, is there if `null` is among the values, and can be read if it has one of the values. -/
theorem findsAnyOf_iff : store.FindsAnyOf collection field values ↔ store.CanAnswerAnyOf collection field values := by
  constructor
  · intro finds
    obtain ⟨answers, asked⟩ := finds [] [] rfl (by simp [Keyed.keys]) (by simp)
    exact asked.canAnswerAnyOf
  · intro fit others keys answerable fresh can
    exact fit.answersAnyOf answerable fresh can

end

/-- Notes of one of three sizes, a truth value, a double and an array: the size of one is the double. -/
theorem noteStore_findsAnyOf : noteStore.FindsAnyOf "note" "size"
    [.bool true, .number (.double wideDouble), .array [.null]] := by
  have each : ∀ document ∈ noteStore.documents "note", (Json.object document.body).Ordered ∧
      (Json.rereadMembers Row.levels document.body).isSome = true := by decide +kernel
  refine findsAnyOf_iff.mpr ⟨nofun, ?_, by simp, ?_⟩
  · intro document member
    have seen : ∀ document ∈ noteStore.documents "note", (Cell.ofField document "size").isOk = true := by
      decide +kernel
    exact Document.canSee_of_isOk (seen document member)
  · intro document member _ _ _
    exact (Row.isReadable_iff (each document member).1).mpr (each document member).2

/-- No note has a size of none, but the store fails to say so; and the note that has no size is found
with `null`, but not with a list of `null`. -/
theorem unsizedNote_not_findsAnyOf : noteStore.find "note" [("size", .among [])] [] = .error .database ∧
    ¬ noteStore.FindsAnyOf "note" "size" [] ∧ ¬ noteStore.FindsAnyOf "note" "size" [.null] := by
  refine ⟨by cbv, fun finds => ?_, fun finds => ?_⟩
  · obtain ⟨answers, asked⟩ := finds [] [] rfl (by simp [Keyed.keys]) (by simp)
    exact absurd (asked.canAnswerAnyOf.listed rfl) (by decide)
  · obtain ⟨answers, asked⟩ := finds [] [] rfl (by simp [Keyed.keys]) (by simp)
    have unsized : ∃ document ∈ noteStore.documents "note", document.seen "size" = .none := by decide +kernel
    obtain ⟨document, member, none⟩ := unsized
    exact asked.canAnswerAnyOf.given (by simp) document member none

end Store
end Dossier
