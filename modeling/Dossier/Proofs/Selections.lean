import Dossier.Proofs.CellOrder
import Dossier.Proofs.FailedRequests

/-! Reading, updating and deleting by one selector. All three pick the same documents, exactly
as long as the rows that are stored can be read. -/
namespace Dossier

/-! ### Selectors -/

theorem Condition.exists_of_mapM {f : Json → Except RequestError Json} {comparison : Comparison} {value : Json}
    {condition : Condition} (done : mapM f (compare comparison value) = .ok condition) :
    ∃ value, condition = compare comparison value := by
  obtain ⟨other, _, finished⟩ := bind_eq_ok.mp done
  cases finished
  exact ⟨other, rfl⟩

namespace Query

/-- All conditions compare with one value. -/
def Compares (query : Query) : Prop := ∀ entry ∈ query, ∃ comparison value, entry.2 = .compare comparison value

theorem compares_of_castQuery {model : Model} {filter : Filter} {query : Query}
    (cast : model.castQuery filter.query = .ok query) : query.Compares := by
  intro entry member
  obtain ⟨⟨field, condition⟩, listed, own⟩ := exists_of_mapM cast member
  obtain ⟨clause, _, given⟩ := List.mem_filterMap.mp (Keyed.mem_ofEntries listed)
  obtain ⟨value, _, same⟩ := Option.map_eq_some_iff.mp given
  cases same
  obtain ⟨result, done, finished⟩ := bind_eq_ok.mp own
  cases finished
  obtain ⟨_, _, rest⟩ := bind_eq_ok.mp done
  refine ⟨clause.comparison, ?_⟩
  split at rest
  · exact Condition.exists_of_mapM rest
  · split at rest
    any_goals
      cases rest
      exact ⟨value, rfl⟩
    exact Condition.exists_of_mapM rest

theorem inTestOrder_of_compares {query : Query} (compares : query.Compares) (byInsertion : Bool) :
    query.inTestOrder byInsertion = query.idFirst := by
  unfold inTestOrder
  split
  · rename_i found
    obtain ⟨_, _, same⟩ := compares _ (Keyed.mem_of_find? found)
    cases same
  · rfl

theorem inTestOrder_ids (chosen : List EntityId) (byInsertion : Bool) :
    (ids chosen).inTestOrder byInsertion = ids chosen := by
  unfold inTestOrder
  have alone : (ids chosen).idFirst = ids chosen := by simp [idFirst, ids]
  split
  · rw [alone, ite_self]
  · exact alone

theorem test_ids (chosen : List EntityId) (document : Document) :
    test document (ids chosen) = .ok (chosen.contains document.id) := by
  have own : Cell.ofField document idKey = .ok (.text document.id.text) := by simp [Cell.ofField]
  have equal (id : EntityId) : Condition.relates .eq (.text document.id.text)
      (Cell.ofOperand idKey (.text id.text)) = (document.id == id) := by
    rw [Bool.eq_iff_iff, beq_iff_eq]
    simp only [Condition.relates, Cell.ofOperand, Cell.ofJson, Cell.isNone, Comparison.allows, Bool.not_false,
      Bool.true_and, beq_iff_eq]
    constructor
    · intro same
      exact EntityId.eq_of_text (Cell.text.inj (Cell.eq_of_compare same))
    · rintro rfl
      exact Cell.compare_self _
  have held : (Condition.among (chosen.map fun id => Json.text id.text)).holds idKey (.text document.id.text) =
      chosen.contains document.id := by
    rw [Condition.holds, List.any_map, List.contains_eq_any_beq]
    exact congrArg chosen.any (funext equal)
  rw [ids, test, own]
  change (if Condition.holds _ _ _ = true then Except.ok true else Except.ok false) = _
  rw [held]
  cases chosen.contains document.id <;> rfl

end Query

/-- By ids a store always answers. -/
theorem Store.selected_ids (store : Store) (collection : String) (ids : List EntityId) (byInsertion : Bool) :
    store.selected collection (Query.ids ids) byInsertion =
      .ok ((store.documents collection).filter fun document => ids.contains document.id) := by
  have answerable : (Query.ids ids).isAnswerable = true := by cases ids <;> simp [Query.ids, Query.isAnswerable]
  unfold selected
  rw [if_pos answerable, Query.inTestOrder_ids]
  exact filterM_of_ok fun document _ => Query.test_ids ids document

namespace Store
variable {store : Store} {collection : String} {id : EntityId}

theorem selected_ids_of_missing (missing : store.contains collection id = false) (byInsertion : Bool) :
    store.selected collection (Query.ids [id]) byInsertion = .ok [] := by
  rw [selected_ids]
  apply congrArg Except.ok
  apply List.filter_eq_nil_iff.mpr
  intro document member own
  have key : (⟨collection, document⟩ : Row).key = (collection, id) := by
    rw [Row.key, List.mem_singleton.mp (List.contains_iff_mem.mp own)]
  rw [contains_iff.mpr ⟨_, mem_documents.mp member, key⟩] at missing
  cases missing

theorem selected_ids_of_mem {row : Row} (member : row ∈ store.rows) (byInsertion : Bool) :
    store.selected row.collection (Query.ids [row.document.id]) byInsertion = .ok [row.document] := by
  have stored : row.document ∈ store.documents row.collection := mem_documents.mpr member
  have only (other : Document) : other ∈ (store.documents row.collection).filter
      (fun other => [row.document.id].contains other.id) ↔ other ∈ [row.document] := by
    rw [List.mem_filter, List.mem_singleton, List.contains_iff_mem, List.mem_singleton]
    constructor
    · intro found
      exact eq_of_id found.1 stored found.2
    · intro same
      rw [same]
      exact ⟨stored, rfl⟩
  have once := (store.nodup_documents row.collection).filter fun other => [row.document.id].contains other.id
  rw [selected_ids, List.perm_singleton.mp
    ((List.perm_ext_iff_of_nodup once (List.nodup_singleton row.document)).mpr only)]

end Store

namespace Repository
variable {registry : Registry} {store : Store} {model : Model} {envelope : Envelope} {supply : Supply}

/-- A selector tests its conditions in one order, whatever it is for. -/
theorem selected_of_selector? {query : Query} (selects : selector? model envelope = .ok (some query))
    (collection : String) (byInsertion : Bool) :
    store.selected collection query byInsertion = store.selected collection query false := by
  have order : query.inTestOrder byInsertion = query.inTestOrder false := by
    unfold selector? at selects
    split at selects
    · obtain ⟨ids, _, finished⟩ := bind_eq_ok.mp selects
      cases finished
      rw [Query.inTestOrder_ids, Query.inTestOrder_ids]
    · split at selects
      · obtain ⟨_, cast, finished⟩ := bind_eq_ok.mp selects
        cases finished
        have compares := Query.compares_of_castQuery cast
        rw [Query.inTestOrder_of_compares compares, Query.inTestOrder_of_compares compares]
      · cases selects
  unfold Store.selected
  rw [order]

theorem unselected_of_selector? (nothing : selector? model envelope = .ok none) :
    envelope.ids = none ∧ envelope.filter = none := by
  unfold selector? at nothing
  split at nothing
  · obtain ⟨_, _, finished⟩ := bind_eq_ok.mp nothing
    cases finished
  · rename_i unnamed
    split at nothing
    · obtain ⟨_, _, finished⟩ := bind_eq_ok.mp nothing
      cases finished
    · rename_i unfiltered
      exact ⟨unnamed, unfiltered⟩

/-! ### Picking -/

/-- No sort key is refused, and the store can look each of them up in all documents of a model. -/
def Sortable (store : Store) (model : Model) (keys : List SortKey) : Prop :=
  model.checkSort keys = .ok () ∧
    ∀ document ∈ store.documents model.name, ∀ key ∈ keys, ∃ cell, Cell.ofField document key.field = .ok cell

/-- Reading answers with some documents of the model, as they are shown. -/
def Fetches (registry : Registry) (store : Store) (model : Model) (envelope : Envelope) (supply : Supply)
    (found : List Document) (entities : List Body) : Prop :=
  outcome registry store ⟨.getEntities, envelope, supply⟩ = .ok (.found entities) ∧
    ∃ documents, Store.ReadAs model.name found documents ∧ List.Forall₂ (fun document entity =>
      present registry store model document envelope.shown = .ok entity) documents entities

/-- What is selected by an envelope is read, is updated if it changes, and is deleted; nothing
else is. -/
structure Picks (registry : Registry) (store : Store) (model : Model) (envelope : Envelope) (supply : Supply)
    (found : List Document) (entities : List Body) : Prop where
  stored : found ⊆ store.documents model.name
  once : found.Nodup
  named : ∀ raws, envelope.ids = some raws → ∀ document ∈ store.documents model.name,
    (document ∈ found ↔ some document.id ∈ raws.map EntityId.parse?)
  fetched : Fetches registry store model envelope supply found entities
  updated : ∃ modified, outcome registry store ⟨.updateEntities, envelope, supply⟩ =
    .ok (.updatedAll entities.length modified)
  changed : ∃ write : Row → Row,
    (after registry store ⟨.updateEntities, envelope, supply⟩).rows = store.rows.map write ∧
      ∀ row ∈ store.rows, (write row).key = row.key ∧
        (write row = row ∨ row.collection = model.name ∧ row.document ∈ found)
  deleted : outcome registry store ⟨.deleteEntities, envelope, supply⟩ = .ok (.deletedAll entities.length)
  gone : (after registry store ⟨.deleteEntities, envelope, supply⟩).rows = store.rows.filter fun row =>
    !(row.collection = model.name && (found.map Document.id).contains row.document.id)

/-- Reading, updating and deleting by the selector of an envelope pick the same documents. -/
structure SelectsAlike (registry : Registry) (store : Store) (model : Model) (envelope : Envelope)
    (supply : Supply) : Prop where
  /-- All three fail alike or pick the same documents, if there is an update to make of them. -/
  selected : envelope.ids.isSome ∨ envelope.filter.isSome →
    (∃ value ∈ envelope.value, ∃ update, model.parseUpdate supply.salt value = .ok update) →
      (∃ fault, ∀ operation ∈ [Operation.getEntities, .updateEntities, .deleteEntities],
        outcome registry store ⟨operation, envelope, supply⟩ = .error fault) ∨
      ∃ found entities, Picks registry store model envelope supply found entities
  /-- Without a selector all documents are read and none is written. -/
  whole : envelope.ids = none → envelope.filter = none →
    (∃ found entities, found.Perm (store.documents model.name) ∧
      Fetches registry store model envelope supply found entities) ∧
    ∀ operation ∈ [Operation.updateEntities, .deleteEntities],
      outcome registry store ⟨operation, envelope, supply⟩ = .error (.missingSelector model.name operation)

end Repository

theorem SortKey.exists_sort {keys : List SortKey} {documents : List Document}
    (seen : ∀ document ∈ documents, ∀ key ∈ keys, ∃ cell, Cell.ofField document key.field = .ok cell) :
    ∃ sorted, sort keys documents = .ok sorted := by
  obtain ⟨entries, measured⟩ : ∃ entries,
      documents.mapM (fun document => do return (← cells keys document, document)) = .ok entries := by
    apply exists_mapM
    intro document member
    obtain ⟨held, own⟩ := exists_mapM (seen document member)
    exact ⟨(held, document), bind_eq_ok.mpr ⟨held, own, rfl⟩⟩
  exact ⟨_, bind_eq_ok.mpr ⟨entries, measured, rfl⟩⟩

theorem Store.selected_nil (store : Store) (collection : String) (byInsertion : Bool) :
    store.selected collection [] byInsertion = .ok (store.documents collection) := by
  have all : (store.documents collection).filterM (Query.test · (Query.inTestOrder [] byInsertion)) =
      .ok ((store.documents collection).filter fun _ => true) := filterM_of_ok fun _ _ => rfl
  rw [List.filter_true] at all
  exact all

namespace Repository
variable {registry : Registry} {store : Store} {model : Model} {envelope : Envelope} {supply : Supply}

theorem parseId_eq_ok {raw : String} {id : EntityId} :
    parseId model raw = .ok id ↔ EntityId.parse? raw = some id := by
  unfold parseId
  cases EntityId.parse? raw <;> simp

theorem map_parse?_of_parseIds {raws : List String} {ids : List EntityId}
    (parsed : raws.mapM (parseId model) = .ok ids) : raws.map EntityId.parse? = ids.map some := by
  have steps := mapM_eq_ok.mp parsed
  clear parsed
  induction steps with
  | nil => rfl
  | cons own _ ih => rw [List.map_cons, List.map_cons, ih, parseId_eq_ok.mp own]

theorem requireSelector_of_selector? {query : Query} (selects : selector? model envelope = .ok (some query))
    (operation : Operation) : requireSelector model envelope operation = .ok query :=
  bind_eq_ok.mpr ⟨some query, selects, rfl⟩

/-- Unsorted, a selector reads what it would write. -/
theorem find_of_selector? {query : Query} (selects : selector? model envelope = .ok (some query)) :
    store.find model.name query [] =
      (store.selected model.name query false >>= List.mapM fun document => Row.read ⟨model.name, document⟩) := by
  rw [Store.find_unsorted, selected_of_selector? selects]

section
variable {query : Query} {value : Json} {update : Update} {documents : List Document}
  (known : registry.lookup envelope.model = .ok model)
  (required : requireSelector model envelope .updateEntities = .ok query) (given : envelope.value = some value)
  (parsed : model.parseUpdate supply.salt value = .ok update)
  (finding : store.find model.name query [] = .ok documents)
include known required given parsed finding

/-- What an update of a selection answers and leaves, once its documents are read. -/
theorem updateEntities_of_find :
    outcome registry store ⟨.updateEntities, envelope, supply⟩ = .ok (.updatedAll documents.length
        (store.replaceMany model.name (Plan.changed model supply.now update documents)).1) ∧
      after registry store ⟨.updateEntities, envelope, supply⟩ =
        (store.replaceMany model.name (Plan.changed model supply.now update documents)).2 := by
  have payload : payload model "value" envelope.value = .ok value := congrArg (payload model "value") given
  have found : (store.find model.name query []).mapError RequestError.store = .ok documents :=
    congrArg (Except.mapError _) finding
  constructor
  · rw [outcome_updateEntities]
    exact bind_eq_ok.mpr ⟨model, known, bind_eq_ok.mpr ⟨query, required, bind_eq_ok.mpr ⟨value, payload,
      bind_eq_ok.mpr ⟨update, parsed, bind_eq_ok.mpr ⟨documents, found, rfl⟩⟩⟩⟩⟩
  · have planned : plan registry store ⟨.updateEntities, envelope, supply⟩ =
        .ok (.change model value update documents) :=
      bind_eq_ok.mpr ⟨model, known, bind_eq_ok.mpr ⟨query, required, bind_eq_ok.mpr ⟨value, payload,
        bind_eq_ok.mpr ⟨update, parsed, bind_eq_ok.mpr ⟨documents, found, rfl⟩⟩⟩⟩⟩
    rw [after_eq, planned]
    rfl

/-- What is updated was read: of a row that changes there is a document among those that were read. -/
theorem exists_write :
    ∃ write : Row → Row, (after registry store ⟨.updateEntities, envelope, supply⟩).rows = store.rows.map write ∧
      ∀ row, (write row).key = row.key ∧
        (write row = row ∨ row.collection = model.name ∧ row.document.id ∈ documents.map Document.id) := by
  obtain ⟨write, rows, kept⟩ :=
    store.exists_map_replaceMany model.name (Plan.changed model supply.now update documents)
  refine ⟨write, ?_, fun row => ⟨(kept row).1, (kept row).2.imp_right (.imp_right fun listed => ?_)⟩⟩
  · rw [(updateEntities_of_find known required given parsed finding).2]
    exact rows
  · obtain ⟨result, among, same⟩ := List.mem_map.mp listed
    obtain ⟨document, read, applied⟩ := mem_changed.mp among
    exact List.mem_map.mpr ⟨document, read, (id_of_applied applied).symm.trans same⟩

end

theorem outcome_deleteEntities_of_selected (known : registry.lookup envelope.model = .ok model) {query : Query}
    (selects : selector? model envelope = .ok (some query)) {chosen : List Document}
    (picked : store.selected model.name query false = .ok chosen) :
    outcome registry store ⟨.deleteEntities, envelope, supply⟩ = .ok (.deletedAll chosen.length) := by
  rw [outcome_deleteEntities]
  exact bind_eq_ok.mpr ⟨model, known, bind_eq_ok.mpr ⟨query, requireSelector_of_selector? selects _,
    bind_eq_ok.mpr ⟨chosen, congrArg (Except.mapError _) picked, rfl⟩⟩⟩

theorem rows_of_deleteEntities (known : registry.lookup envelope.model = .ok model) {query : Query}
    (required : requireSelector model envelope .deleteEntities = .ok query) {chosen : List Document}
    (picked : store.selected model.name query false = .ok chosen) :
    (after registry store ⟨.deleteEntities, envelope, supply⟩).rows = store.rows.filter fun row =>
      !(row.collection = model.name && (chosen.map Document.id).contains row.document.id) := by
  have planned : plan registry store ⟨.deleteEntities, envelope, supply⟩ =
      .ok (.drop model fun document => (chosen.map Document.id).contains document.id) :=
    bind_eq_ok.mpr ⟨model, known, bind_eq_ok.mpr ⟨query, required,
      bind_eq_ok.mpr ⟨chosen, congrArg (Except.mapError _) picked, rfl⟩⟩⟩
  rw [after_eq, planned]
  rfl

/-- The documents of some ids are those that the ids are read as, whatever a filter says. -/
theorem mem_of_ids {raws : List String} (named : envelope.ids = some raws) {query : Query}
    (selects : selector? model envelope = .ok (some query)) {chosen : List Document}
    (picked : store.selected model.name query false = .ok chosen) {document : Document}
    (member : document ∈ store.documents model.name) :
    document ∈ chosen ↔ some document.id ∈ raws.map EntityId.parse? := by
  unfold selector? at selects
  rw [named] at selects
  obtain ⟨ids, parsed, finished⟩ := bind_eq_ok.mp selects
  cases finished
  rw [Store.selected_ids] at picked
  cases picked
  rw [map_parse?_of_parseIds parsed, List.mem_filter, and_iff_right member]
  simp

section
variable (closed : registry.IsClosed) (known : registry.lookup envelope.model = .ok model)
  (readable : ∀ row ∈ store.rows, registry.Knows row.collection → row.IsReadable)
  (sortable : Sortable store model envelope.sortKeys)
include closed known readable

theorem exists_read {documents : List Document} (stored : documents ⊆ store.documents model.name) :
    ∃ answers, documents.mapM (fun document => Row.read ⟨model.name, document⟩) = .ok answers :=
  exists_mapM fun _ member =>
    readable _ (Store.mem_documents.mp (stored member)) (closed.knows_name known)

include sortable in
/-- Reading answers with what is selected. -/
theorem exists_fetches {selection : Option Query} (selects : selector? model envelope = .ok selection)
    {chosen : List Document} (picked : store.selected model.name (selection.getD []) envelope.sortKeys.isEmpty =
      .ok chosen) :
    ∃ found entities, found.Perm chosen ∧ Fetches registry store model envelope supply found entities := by
  have registered := closed.find?_name known
  have within := (Store.sublist_of_selected picked).subset
  let used := if (selection.getD []).asksForOneId then [] else SortKey.telling envelope.sortKeys
  obtain ⟨sorted, sorting⟩ : ∃ sorted, SortKey.sort used chosen = .ok sorted := by
    refine SortKey.exists_sort fun document member key listed => sortable.2 document (within member) key ?_
    simp only [used] at listed
    split at listed
    · cases listed
    · exact SortKey.mem_telling listed
  have perm := SortKey.perm_of_sort sorting
  obtain ⟨documents, reading⟩ := exists_read closed known readable fun _ member => within (perm.subset member)
  obtain ⟨entities, shown⟩ : ∃ entities,
      documents.mapM (fun document => present registry store model document envelope.shown) = .ok entities :=
    exists_mapM fun _ _ =>
      exists_of_present closed registered (fun row member kept _ => readable row member kept) envelope.shown
  have finding : (store.find model.name (selection.getD []) envelope.sortKeys).mapError RequestError.store =
      .ok documents := by
    have found : store.find model.name (selection.getD []) envelope.sortKeys = .ok documents :=
      bind_eq_ok.mpr ⟨chosen, picked, bind_eq_ok.mpr ⟨sorted, sorting, reading⟩⟩
    rw [found]
    rfl
  refine ⟨sorted, entities, perm, ?_, documents, mapM_eq_ok.mp reading, mapM_eq_ok.mp shown⟩
  rw [outcome_getEntities]
  exact bind_eq_ok.mpr ⟨model, known, bind_eq_ok.mpr ⟨selection, selects, bind_eq_ok.mpr ⟨(), sortable.1,
    bind_eq_ok.mpr ⟨documents, finding, bind_eq_ok.mpr ⟨entities, shown, rfl⟩⟩⟩⟩⟩

include sortable in
/-- If the store answers to the selector, all three operations pick what is selected. -/
theorem exists_picks {query : Query} (selects : selector? model envelope = .ok (some query))
    {chosen : List Document} (picked : store.selected model.name query false = .ok chosen)
    {value : Json} (given : envelope.value = some value) {update : Update}
    (parsed : model.parseUpdate supply.salt value = .ok update) :
    ∃ found entities, Picks registry store model envelope supply found entities := by
  -- A read tests the conditions in another order than a delete, which is no other for a selector.
  have whichever := fun byInsertion => (selected_of_selector? selects model.name byInsertion).trans picked
  have required := requireSelector_of_selector? selects
  have sublist := Store.sublist_of_selected picked
  obtain ⟨found, entities, perm, fetched⟩ : ∃ found entities, found.Perm chosen ∧
      Fetches registry store model envelope supply found entities :=
    exists_fetches closed known readable sortable selects (whichever _)
  have stored : found ⊆ store.documents model.name := fun _ member => sublist.subset (perm.subset member)
  have count : entities.length = chosen.length := by
    obtain ⟨_, documents, read, shown⟩ := fetched
    rw [← perm.length_eq, read.length_eq, shown.length_eq]
  obtain ⟨documents, reading⟩ := exists_read closed known readable sublist.subset
  have read : Store.ReadAs model.name chosen documents := mapM_eq_ok.mp reading
  have finding : store.find model.name query [] = .ok documents := by
    rw [find_of_selector? selects, picked]
    exact reading
  refine ⟨found, entities, {
    stored
    once := perm.nodup_iff.mpr ((store.nodup_documents model.name).sublist sublist)
    named := fun raws named document member => perm.mem_iff.trans (mem_of_ids named selects picked member)
    fetched
    updated := ⟨(store.replaceMany model.name (Plan.changed model supply.now update documents)).1, ?_⟩
    changed := ?_
    deleted := ?_
    gone := ?_ }⟩
  · rw [count, read.length_eq]
    exact (updateEntities_of_find known (required _) given parsed finding).1
  · obtain ⟨write, rows, kept⟩ := exists_write known (required _) given parsed finding
    refine ⟨write, rows, fun row member => ⟨(kept row).1, (kept row).2.imp_right fun place => ?_⟩⟩
    obtain ⟨here, listed⟩ := place
    rw [← read.ids] at listed
    obtain ⟨document, among, same⟩ := List.mem_map.mp listed
    have own : row.document ∈ store.documents model.name := Store.mem_documents.mpr (here ▸ member)
    exact ⟨here, perm.mem_iff.mpr (Store.eq_of_id (sublist.subset among) own same ▸ among)⟩
  · rw [count]
    exact outcome_deleteEntities_of_selected known selects picked
  · rw [rows_of_deleteEntities known (required _) picked]
    refine List.filter_congr fun row _ => ?_
    have same : (found.map Document.id).contains row.document.id =
        (chosen.map Document.id).contains row.document.id := by
      rw [Bool.eq_iff_iff, List.contains_iff_mem, List.contains_iff_mem, (perm.map _).mem_iff]
    rw [same]

include sortable in
theorem selectsAlike_of_readable : SelectsAlike registry store model envelope supply where
  selected := by
    rintro chosen ⟨value, given, update, parsed⟩
    have payload : payload model "value" envelope.value = .ok value := congrArg (payload model "value") given
    cases selects : selector? model envelope with
    | error fault =>
      refine .inl ⟨fault, fun operation listed => ?_⟩
      fin_cases listed
      · simp [outcome_getEntities, known, selects]
      · simp [outcome_updateEntities, requireSelector, known, selects]
      · simp [outcome_deleteEntities, requireSelector, known, selects]
    | ok selection =>
      cases selection with
      | none =>
        obtain ⟨unnamed, unfiltered⟩ := unselected_of_selector? selects
        simp [unnamed, unfiltered] at chosen
      | some query =>
        have required := requireSelector_of_selector? selects
        cases picked : store.selected model.name query false with
        | error fault =>
          have finding (keys : List SortKey) : store.find model.name query keys = .error fault := by
            rw [Store.find, (selected_of_selector? selects model.name _).trans picked]
            rfl
          refine .inl ⟨.store fault, fun operation listed => ?_⟩
          fin_cases listed
          · simp [outcome_getEntities, known, selects, sortable.1, finding]
          · simp [outcome_updateEntities, known, required, payload, parsed, finding]
          · simp [outcome_deleteEntities, known, required, picked]
        | ok documents => exact .inr (exists_picks closed known readable sortable selects picked given parsed)
  whole := by
    intro unnamed unfiltered
    have selects : selector? model envelope = .ok none := by simp [selector?, unnamed, unfiltered]
    have missing (operation : Operation) : requireSelector model envelope operation =
        .error (.missingSelector model.name operation) := by
      rw [requireSelector, selects]
      rfl
    refine ⟨exists_fetches closed known readable sortable selects (store.selected_nil _ _), ?_⟩
    intro operation listed
    fin_cases listed
    · simp [outcome_updateEntities, known, missing]
    · simp [outcome_deleteEntities, known, missing]

end

/-- Reading, updating and deleting pick the same documents whatever the selector is, exactly if
the rows of registered models can be read. -/
theorem selectsAlike_iff {definitions : List Declaration} {hasher : Hasher} {options : CompileOptions}
    {base : Registry} (built : Registry.build definitions hasher options = .ok base) (depth : Nat) (store : Store)
    (supply : Supply) :
    (∀ model envelope, base.lookup envelope.model = .ok model → Sortable store model envelope.sortKeys →
      SelectsAlike (base.withDepth depth) store model envelope supply) ↔
    ∀ row ∈ store.rows, base.Knows row.collection → row.IsReadable := by
  have closed := Registry.isClosed_of_build built depth
  constructor
  · rintro alike row member ⟨model, known⟩
    have name : model.name = row.collection := closed.named (Registry.find?_of_lookup known)
    let envelope : Envelope := { model := row.collection }
    have sortable : Sortable store model envelope.sortKeys := ⟨rfl, by simp [envelope, Envelope.sortKeys]⟩
    obtain ⟨⟨found, entities, all, _, documents, read, _⟩, _⟩ := (alike model envelope known sortable).whole rfl rfl
    have listed : row.document ∈ found := all.mem_iff.mpr (Store.mem_documents.mpr (name ▸ member))
    obtain ⟨answer, _, own⟩ := result_of_mapM (mapM_eq_ok.mpr read) listed
    rw [name] at own
    exact ⟨answer, own⟩
  · intro readable model envelope known sortable
    exact selectsAlike_of_readable closed known readable sortable

/-- A document that cannot be read is in the way of reading by its id, but not of deleting. -/
theorem outcomes_of_unreadable {document : Document} (known : registry.lookup envelope.model = .ok model)
    (selects : selector? model envelope = .ok (some (Query.ids [document.id]))) (unsorted : envelope.sortKeys = [])
    (stored : ⟨model.name, document⟩ ∈ store.rows) (unreadable : ¬ (⟨model.name, document⟩ : Row).IsReadable) :
    outcome registry store ⟨.getEntities, envelope, supply⟩ =
      .error (.store (.invalidData model.name document.id)) ∧
    outcome registry store ⟨.deleteEntities, envelope, supply⟩ = .ok (.deletedAll 1) := by
  have picked (byInsertion : Bool) : store.selected model.name (Query.ids [document.id]) byInsertion =
      .ok [document] := Store.selected_ids_of_mem stored byInsertion
  constructor
  · have finding : store.find model.name (Query.ids [document.id]) [] =
        .error (.invalidData model.name document.id) := by
      rw [Store.find_unsorted, picked]
      simp [Row.read_of_not_isReadable unreadable]
    have accepted : model.checkSort [] = .ok () := rfl
    rw [outcome_getEntities, known]
    simp [selects, unsorted, accepted, finding]
  · exact outcome_deleteEntities_of_selected known selects (picked false)

/-- Players of one name, who are to get another. -/
def annsEnvelope : Envelope where
  model := "player"
  filter := some (.single ⟨"name", .eq, some (.text "ann")⟩)
  value := some (.object [("name", .text "eve")])

theorem anns_selectAlike :
    let registry := rosterRegistry.withDepth 2
    let store := reached registry rosterRequests
    store.rows.length = 2 ∧ (outcome registry store ⟨.deleteEntities, annsEnvelope, rosterSupply⟩).isOk = true ∧
      SelectsAlike registry store ⟨playerSchema, markingHasher⟩ annsEnvelope rosterSupply := by
  intro registry store
  have built : Registry.build roster markingHasher {} = .ok rosterRegistry := by cbv
  have each : ∀ row ∈ store.rows, (Json.object row.document.body).Ordered ∧
      (Json.rereadMembers Row.levels row.document.body).isSome = true := by decide +kernel
  have readable : ∀ row ∈ store.rows, rosterRegistry.Knows row.collection → row.IsReadable :=
    fun row member _ => (Row.isReadable_iff (each row member).1).mpr (each row member).2
  have sortable : Sortable store ⟨playerSchema, markingHasher⟩ annsEnvelope.sortKeys :=
    ⟨by cbv, by simp [annsEnvelope, Envelope.sortKeys]⟩
  refine ⟨by decide +kernel, by decide +kernel, ?_⟩
  exact (selectsAlike_iff built 2 store rosterSupply).mpr readable _ _ (by cbv) sortable

/-- Notes with an array in a map in a map. -/
def deepDeclaration : Declaration := ⟨"note", [.map "a" [.map "b" [⟨"c", "array", []⟩]]], []⟩

def deepModel : Model :=
  ⟨⟨"note", [("a", .object [("b", .object [("c", .array)])])], ⟨true, none, []⟩⟩, markingHasher⟩

def deepRegistry : Registry := { models := [("note", deepModel)] }

def deepId : EntityId := EntityId.mint 0 0

/-- A note is added and then given an array that is nested as deeply as a request can be. -/
def deepRequests : List Request :=
  [⟨.addEntity, { model := "note", entity := some (.object [("_id", .text deepId.text)]) }, rosterSupply⟩,
    ⟨.updateEntities,
      { model := "note", ids := some [deepId.text], value := some (.object [("a.b.c", .nested 124)]) },
      rosterSupply⟩]

/-- The note by its id, with nothing to change. -/
def deepEnvelope : Envelope := { model := "note", ids := some [deepId.text], value := some (.object []) }

/-- Below two maps the array is nested more deeply than what is read can be: the note cannot be
read by its id, but it can be deleted. -/
theorem deepNote_not_selectsAlike :
    let registry := deepRegistry.withDepth 2
    let store := reached registry deepRequests
    Registry.build [deepDeclaration] markingHasher {} = .ok deepRegistry ∧
      outcome registry store ⟨.getEntities, deepEnvelope, rosterSupply⟩ =
        .error (.store (.invalidData "note" deepId)) ∧
      outcome registry store ⟨.deleteEntities, deepEnvelope, rosterSupply⟩ = .ok (.deletedAll 1) ∧
        ¬ SelectsAlike registry store deepModel deepEnvelope rosterSupply := by
  intro registry store
  have only : store.rows.length = 1 ∧ ∀ row ∈ store.rows, row.key = ("note", deepId) ∧
      (Json.object row.document.body).Ordered ∧
        (Json.rereadMembers Row.levels row.document.body).isSome = false := by decide +kernel
  obtain ⟨⟨collection, document⟩, alone⟩ := List.length_eq_one_iff.mp only.1
  have stored : ⟨collection, document⟩ ∈ store.rows := alone ▸ List.mem_singleton_self _
  obtain ⟨key, ordered, none⟩ := only.2 _ stored
  obtain ⟨rfl, id⟩ : collection = "note" ∧ document.id = deepId := Prod.mk.inj key
  have unreadable : ¬ (⟨"note", document⟩ : Row).IsReadable := by
    rw [Row.isReadable_iff ordered, none]
    exact Bool.false_ne_true
  have selects : selector? deepModel deepEnvelope = .ok (some (Query.ids [document.id])) := by
    have canonical : EntityId.parse? deepId.text = some deepId := by decide +kernel
    have ids : [deepId.text].mapM (parseId deepModel) = .ok [document.id] :=
      mapM_eq_ok.mpr (.cons (parseId_eq_ok.mpr (canonical.trans (congrArg some id.symm))) .nil)
    exact bind_eq_ok.mpr ⟨[document.id], ids, rfl⟩
  have known : registry.lookup deepEnvelope.model = .ok deepModel := by cbv
  obtain ⟨fails, deletes⟩ := outcomes_of_unreadable known selects rfl stored unreadable
  refine ⟨by cbv, id ▸ fails, deletes, fun alike => ?_⟩
  have parsed : deepModel.parseUpdate rosterSupply.salt (.object []) = .ok ⟨[], []⟩ := by cbv
  rcases alike.selected (.inl rfl) ⟨.object [], rfl, _, parsed⟩ with ⟨fault, failed⟩ | ⟨_, _, picks⟩
  · cases deletes.symm.trans (failed .deleteEntities (by simp))
  · cases fails.symm.trans picks.fetched.1

end Repository
end Dossier
