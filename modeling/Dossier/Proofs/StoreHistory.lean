import Dossier.Proofs.CollectionDocuments

/-! The store against its history: what was added to a collection, changed in it and removed from
it. After every call the store holds what its history makes, and tells what its history means it
to tell. -/
namespace Dossier.Store

/-! ### Calls -/

/-- What writes documents of a collection. -/
inductive Call where
  | insert (collection : String) (document : Document)
  | insertMany (collection : String) (documents : List Document)
  | replace (collection : String) (document : Document)
  | replaceMany (collection : String) (documents : List Document)
  | delete (collection : String) (id : EntityId)
  | deleteMany (collection : String) (query : Query)

/-- What is told of a call that succeeds. -/
inductive Reply where
  | written
  | found (there : Bool)
  | counted (count : Nat)
deriving DecidableEq

namespace Call

def collection : Call → String
  | insert collection _ | insertMany collection _ | replace collection _ | replaceMany collection _
  | delete collection _ | deleteMany collection _ => collection

/-- The documents that a call gives. -/
def documents : Call → List Document
  | insert _ document | replace _ document => [document]
  | insertMany _ documents | replaceMany _ documents => documents
  | delete _ _ | deleteMany _ _ => []

def perform (store : Store) : Call → Except StoreError (Reply × Store)
  | insert collection document => (store.insert collection document).map (.written, ·)
  | insertMany collection documents => (store.insertMany collection documents).map (.written, ·)
  | replace collection document => .ok (Prod.map .found id (store.replace collection document))
  | replaceMany collection documents => .ok (Prod.map .counted id (store.replaceMany collection documents))
  | delete collection given => .ok (Prod.map .found id (store.delete collection given))
  | deleteMany collection query => (store.deleteMany collection query).map (Prod.map .counted id)

/-- The store after a call. What fails leaves it as it was. -/
def after (store : Store) (call : Call) : Store :=
  match call.perform store with
  | .ok (_, after) => after
  | .error _ => store

/-- The store after some calls, the first of them made on the empty store. -/
def run (calls : List Call) : Store := calls.foldl after .empty

end Call

/-! ### Histories -/

/-- What happened to a document of a collection. -/
inductive Event where
  | added (collection : String) (document : Document)
  | changed (collection : String) (document : Document)
  | removed (collection : String) (id : EntityId)

/-- What happened to the documents of a store, the last first. -/
abbrev History := List Event

namespace History

/-- The ids of a collection, in the order in which they were last added. -/
def ids (collection : String) : History → List EntityId
  | [] => []
  | .added place document :: earlier =>
    if place = collection then ids collection earlier ++ [document.id] else ids collection earlier
  | .changed _ _ :: earlier => ids collection earlier
  | .removed place id :: earlier =>
    if place = collection then (ids collection earlier).filter (· ≠ id) else ids collection earlier

/-- The body that an id of a collection was last given, unless the document was removed since. -/
def body? (collection : String) (id : EntityId) : History → Option Body
  | [] => none
  | .added place document :: earlier | .changed place document :: earlier =>
    if place = collection ∧ document.id = id then some document.body else body? collection id earlier
  | .removed place other :: earlier =>
    if place = collection ∧ other = id then none else body? collection id earlier

/-- The documents of a collection with the bodies that they were last given. -/
def documents (history : History) (collection : String) : List Document :=
  (history.ids collection).filterMap fun id => (history.body? collection id).map (⟨id, ·⟩)

end History

/-- The first of some ids that is taken or was there before. -/
def firstTaken (taken : List EntityId) : List EntityId → Option EntityId
  | [] => none
  | id :: rest => if id ∈ taken then some id else firstTaken (taken ++ [id]) rest

theorem firstTaken_eq_none {taken ids : List EntityId} :
    firstTaken taken ids = none ↔ ids.Nodup ∧ ∀ id ∈ ids, id ∉ taken := by
  induction ids generalizing taken with
  | nil => simp [firstTaken]
  | cons id rest ih =>
    rw [firstTaken]
    by_cases there : id ∈ taken
    · simp [there]
    · rw [if_neg there, ih, List.nodup_cons, List.forall_mem_cons]
      simp only [List.mem_append, List.mem_singleton, not_or]
      constructor
      · rintro ⟨apart, free⟩
        exact ⟨⟨fun again => (free id again).2 rfl, apart⟩, there, fun other member => (free other member).1⟩
      · rintro ⟨⟨once, apart⟩, _, free⟩
        exact ⟨apart, fun other member => ⟨free other member, fun same => once (same ▸ member)⟩⟩

/-- The documents that a query selects among some. -/
def choose (query : Query) (documents : List Document) : Except StoreError (List Document) :=
  if query.isAnswerable then documents.filterM (Query.test · (query.inTestOrder false)) else .error .database

namespace Call

/-- What a call comes to, given what happened before it: what is told, and what happens. -/
def meant (history : History) : Call → Except StoreError (Reply × List Event)
  | insert collection document =>
    if document.id ∈ history.ids collection then .error (.conflict collection document.id)
    else .ok (.written, [.added collection document])
  | insertMany collection documents =>
    match firstTaken (history.ids collection) (documents.map Document.id) with
    | some id => .error (.conflict collection id)
    | none => .ok (.written, documents.map (.added collection))
  | replace collection document =>
    let there := document.id ∈ history.ids collection
    .ok (.found there, if there then [.changed collection document] else [])
  | replaceMany collection documents =>
    let there := documents.filter (·.id ∈ history.ids collection)
    .ok (.counted there.length, there.map (.changed collection))
  | delete collection id => .ok (.found (id ∈ history.ids collection), [.removed collection id])
  | deleteMany collection query => do
    let chosen ← choose query (history.documents collection)
    return (.counted chosen.length, chosen.map (.removed collection ·.id))

end Call

namespace History

/-- What happened up to a call and by it. -/
def record (history : History) (call : Call) : History :=
  match call.meant history with
  | .ok (_, events) => events.reverse ++ history
  | .error _ => history

/-- What happens by some calls, the first of which nothing happened before. -/
def ofCalls (calls : List Call) : History := calls.foldl record []

end History

/-! ### Stores that mirror their history -/

/-- The documents of a store are those of a history. -/
structure Mirrors (store : Store) (history : History) : Prop where
  ids : ∀ collection, (store.documents collection).map Document.id = history.ids collection
  bodies : ∀ collection document, document ∈ store.documents collection ↔
    history.body? collection document.id = some document.body

namespace Mirrors
variable {store after : Store} {history : History} {collection : String} {document : Document}
  {documents : List Document} {id : EntityId}

theorem empty : Mirrors .empty [] :=
  ⟨fun _ => rfl, fun _ _ => by simp [Store.empty, Store.documents, History.body?]⟩

theorem documents_eq (mirrors : store.Mirrors history) (collection : String) :
    store.documents collection = history.documents collection := by
  rw [History.documents, ← mirrors.ids, List.filterMap_map]
  refine Eq.trans List.filterMap_some.symm (List.filterMap_congr fun document member => ?_)
  simp [Function.comp, (mirrors.bodies collection document).mp member]

theorem mem_ids (mirrors : store.Mirrors history) :
    id ∈ (store.documents collection).map Document.id ↔ id ∈ history.ids collection := by
  rw [mirrors.ids]

theorem contains_eq (mirrors : store.Mirrors history) (collection : String) (id : EntityId) :
    store.contains collection id = decide (id ∈ history.ids collection) := by
  rw [Store.contains_eq, mirrors.ids]

theorem isSome_body? (mirrors : store.Mirrors history) :
    (history.body? collection id).isSome = true ↔ id ∈ history.ids collection := by
  rw [← mirrors.ids, Option.isSome_iff_exists, List.mem_map]
  constructor
  · rintro ⟨body, last⟩
    exact ⟨⟨id, body⟩, (mirrors.bodies collection ⟨id, body⟩).mpr last, rfl⟩
  · rintro ⟨document, member, rfl⟩
    exact ⟨document.body, (mirrors.bodies collection document).mp member⟩

/-! #### One event -/

theorem added (mirrors : store.Mirrors history) (inserted : store.insert collection document = .ok after) :
    after.Mirrors (.added collection document :: history) := by
  have free : document.id ∉ history.ids collection := by
    intro taken
    cases (insert_of_taken (mirrors.mem_ids.mpr taken)).symm.trans inserted
  refine ⟨fun place => ?_, fun place other => ?_⟩
  · rw [documents_of_insert inserted, List.map_append, mirrors.ids, History.ids]
    by_cases here : collection = place
    · simp [here]
    · simp [here, Ne.symm here]
  · rw [documents_of_insert inserted, List.mem_append, mirrors.bodies, History.body?]
    by_cases own : collection = place ∧ document.id = other.id
    · obtain ⟨rfl, same⟩ := own
      have before : history.body? collection other.id = none := by
        rw [← Option.not_isSome_iff_eq_none, mirrors.isSome_body?, ← same]
        exact free
      obtain ⟨id, body⟩ := document
      obtain ⟨_, held⟩ := other
      obtain rfl : id = _ := same
      simp [before, eq_comm]
    · rw [if_neg own]
      refine or_iff_left fun member => own ?_
      split at member
      · rename_i here
        exact ⟨here.symm, congrArg Document.id (List.mem_singleton.mp member).symm⟩
      · cases member

theorem changed (mirrors : store.Mirrors history) (there : document.id ∈ history.ids collection) :
    (store.overwrite collection document).Mirrors (.changed collection document :: history) := by
  refine ⟨fun place => ?_, fun place other => ?_⟩
  · rw [documents_overwrite, List.map_map, History.ids, ← mirrors.ids]
    refine List.map_congr_left fun held _ => ?_
    simp only [Function.comp]
    split
    · rename_i hit
      exact hit.2.symm
    · rfl
  · rw [documents_overwrite, List.mem_map, History.body?]
    by_cases own : collection = place ∧ document.id = other.id
    · obtain ⟨rfl, same⟩ := own
      rw [if_pos ⟨rfl, same⟩]
      constructor
      · rintro ⟨held, _, written⟩
        split at written
        · rw [written]
        · rename_i miss
          exact absurd ⟨rfl, (congrArg Document.id written).trans same.symm⟩ miss
      · intro body
        obtain ⟨held, member, id⟩ := List.mem_map.mp (mirrors.mem_ids.mpr there)
        refine ⟨held, member, (if_pos ⟨rfl, id⟩).trans ?_⟩
        obtain ⟨_, _⟩ := document
        obtain ⟨_, _⟩ := other
        cases same
        cases body
        rfl
    · rw [if_neg own, ← mirrors.bodies]
      constructor
      · rintro ⟨held, member, written⟩
        split at written
        · rename_i hit
          exact absurd ⟨hit.1.symm, congrArg Document.id written⟩ own
        · exact written ▸ member
      · intro member
        exact ⟨other, member, if_neg fun hit => own ⟨hit.1.symm, hit.2.symm⟩⟩

theorem removed (mirrors : store.Mirrors history) (collection : String) (id : EntityId) :
    (store.delete collection id).2.Mirrors (.removed collection id :: history) := by
  have listed (place : String) : (store.delete collection id).2.documents place =
      (store.documents place).filter fun document => (place, document.id) ≠ (collection, id) :=
    documents_keep store _ place
  refine ⟨fun place => ?_, fun place other => ?_⟩
  · rw [listed, History.ids, ← mirrors.ids]
    by_cases here : collection = place
    · simp [here, List.filter_map, Function.comp_def]
    · simp [here, Ne.symm here]
  · rw [listed, List.mem_filter, mirrors.bodies, History.body?]
    by_cases own : collection = place ∧ id = other.id
    · simp [own]
    · rw [if_neg own]
      refine and_iff_left (decide_eq_true fun key => own ?_)
      exact ⟨(Prod.mk.inj key).1.symm, (Prod.mk.inj key).2.symm⟩

/-! #### One call -/

/-- Many documents are inserted one after the other, up to the first whose id is taken. -/
theorem insertMany (mirrors : store.Mirrors history) (collection : String) (documents : List Document) :
    (∃ id, firstTaken (history.ids collection) (documents.map Document.id) = some id ∧
      store.insertMany collection documents = .error (.conflict collection id)) ∨
    ∃ after, firstTaken (history.ids collection) (documents.map Document.id) = none ∧
      store.insertMany collection documents = .ok after ∧
        after.Mirrors ((documents.map (.added collection)).reverse ++ history) := by
  induction documents generalizing store history with
  | nil => exact .inr ⟨store, rfl, rfl, mirrors⟩
  | cons document rest ih =>
    rw [List.map_cons, firstTaken]
    by_cases taken : document.id ∈ history.ids collection
    · refine .inl ⟨document.id, if_pos taken, ?_⟩
      rw [Store.insertMany, List.foldlM_cons, insert_of_taken (mirrors.mem_ids.mpr taken)]
      rfl
    · obtain ⟨between, inserted⟩ := exists_insert fun listed => taken (mirrors.mem_ids.mp listed)
      have first := mirrors.added inserted
      have ids : History.ids collection (.added collection document :: history) =
          history.ids collection ++ [document.id] := if_pos rfl
      have step : store.insertMany collection (document :: rest) = between.insertMany collection rest := by
        rw [Store.insertMany, List.foldlM_cons, inserted]
        rfl
      rw [if_neg taken, ← ids, step]
      simpa using ih first

/-- Documents are replaced one after the other, which takes no ids and frees none. -/
theorem replaceMany {taken : List EntityId} (mirrors : store.Mirrors history)
    (ids : history.ids collection = taken) (documents : List Document) :
    (store.replaceMany collection documents).1 = (documents.filter (·.id ∈ taken)).length ∧
      (store.replaceMany collection documents).2.Mirrors
        (((documents.filter (·.id ∈ taken)).map (Event.changed collection)).reverse ++ history) := by
  induction documents generalizing store history with
  | nil => exact ⟨rfl, mirrors⟩
  | cons document rest ih =>
    have contained := mirrors.contains_eq collection document.id
    rw [ids] at contained
    by_cases there : document.id ∈ taken
    · obtain ⟨count, after⟩ := ih (mirrors.changed (ids ▸ there)) ids
      refine ⟨?_, ?_⟩
      · simp [Store.replaceMany, Store.replace, contained, there, count, Nat.add_comm]
      · simpa [Store.replaceMany, Store.replace, there] using after
    · have absent : document.id ∉ (store.documents collection).map Document.id := by
        rwa [mirrors.ids, ids]
      obtain ⟨count, after⟩ := ih mirrors ids
      refine ⟨?_, ?_⟩
      · simp [Store.replaceMany, Store.replace, contained, there, overwrite_of_free absent, count]
      · simpa [Store.replaceMany, Store.replace, there, overwrite_of_free absent] using after

theorem deleteMany (mirrors : store.Mirrors history) (collection : String) (ids : List EntityId) :
    (store.keep fun row => !(row.collection = collection && ids.contains row.document.id)).Mirrors
      ((ids.map (.removed collection)).reverse ++ history) := by
  induction ids generalizing store history with
  | nil =>
    have same : (store.keep fun row => !(row.collection = collection && ([] : List EntityId).contains row.document.id)) =
        store := eq_of_rows (by simp [keep])
    rw [same]
    exact mirrors
  | cons id rest ih =>
    rw [keep_cons]
    simpa using ih (mirrors.removed collection id)

/-- Whatever is called, the store tells what its history means the call to tell, and mirrors what
happens by it. -/
theorem step (mirrors : store.Mirrors history) (call : Call) :
    (call.perform store).map Prod.fst = (call.meant history).map Prod.fst ∧
      (call.after store).Mirrors (history.record call) := by
  cases call with
  | insert collection document =>
    by_cases taken : document.id ∈ history.ids collection
    · have failed := insert_of_taken (mirrors.mem_ids.mpr taken)
      simpa [Call.after, Call.perform, History.record, Call.meant, failed, taken, Except.map] using mirrors
    · obtain ⟨after, inserted⟩ := exists_insert fun listed => taken (mirrors.mem_ids.mp listed)
      simpa [Call.after, Call.perform, History.record, Call.meant, inserted, taken, Except.map] using
        mirrors.added inserted
  | insertMany collection documents =>
    rcases mirrors.insertMany collection documents with ⟨id, first, failed⟩ | ⟨after, free, inserted, later⟩
    · simpa [Call.after, Call.perform, History.record, Call.meant, failed, first, Except.map] using mirrors
    · simpa [Call.after, Call.perform, History.record, Call.meant, inserted, free, Except.map] using later
  | replace collection document =>
    have contained := mirrors.contains_eq collection document.id
    refine ⟨by simp [Call.perform, Call.meant, Store.replace, contained, Except.map], ?_⟩
    by_cases there : document.id ∈ history.ids collection
    · simpa [Call.after, Call.perform, History.record, Call.meant, Store.replace, there] using mirrors.changed there
    · have same := overwrite_of_free fun listed => there (mirrors.mem_ids.mp listed)
      simpa [Call.after, Call.perform, History.record, Call.meant, Store.replace, there, same] using mirrors
  | replaceMany collection documents =>
    obtain ⟨count, later⟩ := mirrors.replaceMany rfl documents
    exact ⟨congrArg (fun count => Except.ok (Reply.counted count)) count, later⟩
  | delete collection id =>
    have contained := mirrors.contains_eq collection id
    exact ⟨congrArg (fun there => Except.ok (Reply.found there)) contained, mirrors.removed collection id⟩
  | deleteMany collection query =>
    have chosen : store.selected collection query false = choose query (history.documents collection) := by
      rw [← mirrors.documents_eq]
      rfl
    simp only [Call.after, Call.perform, History.record, Call.meant, Store.deleteMany, chosen]
    cases choose query (history.documents collection) with
    | error fault => exact ⟨rfl, mirrors⟩
    | ok documents =>
      refine ⟨congrArg (fun count => Except.ok (Reply.counted count)) (List.length_map _), ?_⟩
      have later := mirrors.deleteMany collection (documents.map Document.id)
      rwa [List.map_map] at later

/-- After any calls the store mirrors what happened by them. -/
theorem run (calls : List Call) : (Call.run calls).Mirrors (.ofCalls calls) := by
  suffices ∀ store history, store.Mirrors history →
      (calls.foldl Call.after store).Mirrors (calls.foldl History.record history) from this _ _ empty
  induction calls with
  | nil => exact fun _ _ mirrors => mirrors
  | cons call rest ih => exact fun _ _ mirrors => ih _ _ (mirrors.step call).2

end Mirrors

end Dossier.Store
