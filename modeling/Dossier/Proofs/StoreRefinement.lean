import Dossier.Proofs.DurableTexts
import Dossier.Proofs.Population
import Dossier.Proofs.Selections
import Dossier.Proofs.StoreHistory

/-! The store as a map of each collection in the order of insertion. What is read of it are the
bodies that were written, if their texts can be read and denote them. -/
namespace Dossier.Store

/-! ### The map that the store is -/

/-- The documents of a batch have ids that are free in a collection, each of them another one. -/
def Fresh (history : History) (collection : String) (documents : List Document) : Prop :=
  (documents.map Document.id).Nodup ∧ ∀ document ∈ documents, document.id ∉ history.ids collection

instance (history : History) (collection : String) (documents : List Document) :
    Decidable (Fresh history collection documents) :=
  inferInstanceAs (Decidable (_ ∧ _))

/-- A store that is, for every collection, the map in the order of insertion that its history
makes. -/
structure Refines (store : Store) (history : History) : Prop where
  /-- Each id is there at most once. -/
  distinct : ∀ collection, (history.ids collection).Nodup
  given : ∀ collection id, (history.body? collection id).isSome = true ↔ id ∈ history.ids collection
  /-- What is got is read of the body that the id was last given. -/
  get : ∀ collection id, store.get collection id =
    (history.body? collection id).mapM fun body => Row.read ⟨collection, ⟨id, body⟩⟩
  /-- All documents are found in the order of the insertion of their ids. -/
  find : ∀ collection, store.find collection [] [] =
    (history.documents collection).mapM fun document => Row.read ⟨collection, document⟩
  told : ∀ call : Call, (call.perform store).map Prod.fst = (call.meant history).map Prod.fst
  insert : ∀ collection document fault, store.insert collection document = .error fault ↔
    document.id ∈ history.ids collection ∧ fault = .conflict collection document.id
  insertMany : ∀ collection documents, (∃ after, store.insertMany collection documents = .ok after) ↔
    Fresh history collection documents
  /-- A batch is inserted like its documents one by one, or it leaves the store as it was. -/
  oneByOne : ∀ collection documents, (Call.insertMany collection documents).after store =
    if Fresh history collection documents then (documents.map (Call.insert collection)).foldl Call.after store
    else store
  /-- Those are counted that are replaced. -/
  replaceMany : ∀ collection documents, store.replaceMany collection documents =
    (documents.countP (·.id ∈ history.ids collection),
      (documents.map (Call.replace collection)).foldl Call.after store)
  elsewhere : ∀ (call : Call) (collection : String), collection ≠ call.collection →
    (call.after store).documents collection = store.documents collection

section
variable {store after : Store} {history : History} {collection : String} {documents : List Document}

theorem eq_foldl_of_insertMany (inserted : store.insertMany collection documents = .ok after) :
    (documents.map (Call.insert collection)).foldl Call.after store = after := by
  induction documents generalizing store with
  | nil =>
    cases inserted
    rfl
  | cons document rest ih =>
    obtain ⟨between, first, later⟩ := bind_eq_ok.mp inserted
    have own : (Call.insert collection document).after store = between := by
      simp [Call.after, Call.perform, first, Except.map]
    rw [List.map_cons, List.foldl_cons, own]
    exact ih later

theorem replaceMany_eq_foldl (store : Store) (collection : String) (documents : List Document) :
    (store.replaceMany collection documents).2 = (documents.map (Call.replace collection)).foldl Call.after store := by
  induction documents generalizing store with
  | nil => rfl
  | cons document rest ih => exact ih (store.overwrite collection document)

theorem documents_elsewhere (store : Store) (call : Call) {collection : String} (other : collection ≠ call.collection) :
    (call.after store).documents collection = store.documents collection := by
  cases call with
  | insert place document =>
    simp only [Call.after, Call.perform]
    cases inserted : store.insert place document with
    | error fault => rfl
    | ok after => exact (documents_of_insert inserted collection).trans (by simp [show collection ≠ place from other])
  | insertMany place documents =>
    simp only [Call.after, Call.perform]
    cases inserted : store.insertMany place documents with
    | error fault => rfl
    | ok after =>
      exact (documents_of_insertMany inserted collection).trans (by simp [show collection ≠ place from other])
  | replace place document =>
    refine (documents_overwrite store place document collection).trans ?_
    simp [show collection ≠ place from other]
  | replaceMany place documents => exact documents_replaceMany_of_ne other documents
  | delete place id =>
    refine (documents_keep store _ collection).trans (List.filter_eq_self.mpr fun document _ => ?_)
    simp [Row.key, show collection ≠ place from other]
  | deleteMany place query =>
    simp only [Call.after, Call.perform, Store.deleteMany]
    cases store.selected place query false with
    | error fault => rfl
    | ok documents =>
      refine (documents_keep store _ collection).trans (List.filter_eq_self.mpr fun document _ => ?_)
      simp [show collection ≠ place from other]

theorem Mirrors.exists_insertMany (mirrors : store.Mirrors history) (collection : String) (documents : List Document) :
    (∃ after, store.insertMany collection documents = .ok after) ↔ Fresh history collection documents := by
  have free : firstTaken (history.ids collection) (documents.map Document.id) = none ↔
      Fresh history collection documents := by
    rw [firstTaken_eq_none, List.forall_mem_map, Fresh]
  rw [← free]
  rcases mirrors.insertMany collection documents with ⟨id, first, failed⟩ | ⟨after, none, inserted, _⟩
  · simp [first, failed]
  · simp [none, inserted]

theorem Mirrors.refines (mirrors : store.Mirrors history) : store.Refines history where
  distinct collection := mirrors.ids collection ▸ store.nodup_ids collection
  given collection id := mirrors.isSome_body?
  get collection id := by
    cases last : history.body? collection id with
    | none =>
      refine get_of_not_contains ?_
      rw [mirrors.contains_eq, decide_eq_false_iff_not, ← mirrors.isSome_body?, last]
      exact Bool.false_ne_true
    | some body =>
      have member := mem_documents.mp ((mirrors.bodies collection ⟨id, body⟩).mpr last)
      exact get_of_mem member rfl
  find collection := by
    rw [find_unsorted, selected_nil, mirrors.documents_eq]
    rfl
  told call := (mirrors.step call).1
  insert collection document fault := by
    rw [← mirrors.ids]
    by_cases taken : document.id ∈ (store.documents collection).map Document.id
    · simp [insert_of_taken taken, taken, eq_comm]
    · obtain ⟨after, inserted⟩ := exists_insert taken
      simp [inserted, taken]
  insertMany := mirrors.exists_insertMany
  oneByOne collection documents := by
    simp only [Call.after, Call.perform]
    cases inserted : store.insertMany collection documents with
    | error fault =>
      rw [if_neg fun fresh => ?_]
      · rfl
      · obtain ⟨after, also⟩ := (mirrors.exists_insertMany collection documents).mpr fresh
        cases inserted.symm.trans also
    | ok after =>
      rw [if_pos ((mirrors.exists_insertMany collection documents).mp ⟨after, inserted⟩)]
      exact (eq_foldl_of_insertMany inserted).symm
  replaceMany collection documents := by
    refine Prod.ext ?_ (replaceMany_eq_foldl store collection documents)
    rw [List.countP_eq_length_filter]
    exact (mirrors.replaceMany rfl documents).1
  elsewhere call _ other := documents_elsewhere store call other

end

/-! ### Bodies that are returned as they were given -/

/-- The document that an event gives to the store. -/
def Event.document? : Event → Option Document
  | added _ document | changed _ document => some document
  | removed _ _ => none

namespace History
variable {history : History} {collection : String} {id : EntityId} {body : Body} {calls : List Call}

theorem exists_of_body? (last : history.body? collection id = some body) :
    ∃ event ∈ history, event.document? = some ⟨id, body⟩ := by
  induction history with
  | nil => cases last
  | cons event earlier ih =>
    cases event with
    | added place document | changed place document =>
      rw [body?] at last
      split at last
      · rename_i own
        cases last
        refine ⟨_, List.mem_cons_self, ?_⟩
        rw [← own.2]
        rfl
      · obtain ⟨event, member, gives⟩ := ih last
        exact ⟨event, List.mem_cons_of_mem _ member, gives⟩
    | removed place other =>
      rw [body?] at last
      split at last
      · cases last
      · obtain ⟨event, member, gives⟩ := ih last
        exact ⟨event, List.mem_cons_of_mem _ member, gives⟩

/-- Nothing is written by a call but the documents that it gives. -/
theorem mem_documents_of_meant {call : Call} {reply : Reply} {events : List Event} {event : Event}
    {document : Document} (meant : call.meant history = .ok (reply, events)) (member : event ∈ events)
    (gives : event.document? = some document) : document ∈ call.documents := by
  cases call with
  | insert collection given =>
    simp only [Call.meant] at meant
    split at meant <;> cases meant
    cases List.mem_singleton.mp member
    cases gives
    exact List.mem_singleton_self _
  | insertMany collection documents =>
    simp only [Call.meant] at meant
    split at meant <;> cases meant
    obtain ⟨given, listed, rfl⟩ := List.mem_map.mp member
    cases gives
    exact listed
  | replace collection given =>
    cases meant
    split at member
    · cases List.mem_singleton.mp member
      cases gives
      exact List.mem_singleton_self _
    · cases member
  | replaceMany collection documents =>
    cases meant
    obtain ⟨given, listed, rfl⟩ := List.mem_map.mp member
    cases gives
    exact List.mem_of_mem_filter listed
  | delete collection id =>
    cases meant
    cases List.mem_singleton.mp member
    cases gives
  | deleteMany collection query =>
    obtain ⟨chosen, _, finished⟩ := bind_eq_ok.mp meant
    cases finished
    obtain ⟨given, _, rfl⟩ := List.mem_map.mp member
    cases gives

theorem mem_documents_of_ofCalls {event : Event} {document : Document} (member : event ∈ ofCalls calls)
    (gives : event.document? = some document) : ∃ call ∈ calls, document ∈ call.documents := by
  suffices ∀ history : History, event ∈ calls.foldl record history →
      event ∈ history ∨ ∃ call ∈ calls, document ∈ call.documents from
    (this [] member).resolve_left List.not_mem_nil
  clear member
  induction calls with
  | nil => exact fun _ => .inl
  | cons call rest ih =>
    intro history member
    rcases ih _ member with recorded | ⟨later, listed, given⟩
    · rw [record] at recorded
      split at recorded
      · rename_i meant
        rcases List.mem_append.mp recorded with happened | before
        · exact .inr ⟨call, List.mem_cons_self, mem_documents_of_meant meant (List.mem_reverse.mp happened) gives⟩
        · exact .inl before
      · exact .inl recorded
    · exact .inr ⟨later, List.mem_cons_of_mem _ listed, given⟩

/-- A call gives the body that an id was last given. -/
theorem given_of_body? (last : body? collection id (.ofCalls calls) = some body) :
    ∃ call ∈ calls, ⟨id, body⟩ ∈ call.documents := by
  obtain ⟨event, member, gives⟩ := exists_of_body? last
  exact mem_documents_of_ofCalls member gives

end History

/-- A store that returns the bodies of its history. -/
structure Exact (store : Store) (history : History) : Prop where
  get : ∀ collection id, store.get collection id = .ok ((history.body? collection id).map (⟨id, ·⟩))
  find : ∀ collection, store.find collection [] [] = .ok (history.documents collection)

/-- A body whose text can be read, and denotes the body. -/
def Lasting (body : Body) : Prop := Json.nestingMembers body ≤ Row.levels ∧ (Json.object body).Durable

instance (body : Body) : Decidable (Lasting body) := inferInstanceAs (Decidable (_ ∧ _))

theorem read_eq_self_iff {collection : String} {document : Document} (ordered : (Json.object document.body).Ordered) :
    Row.read ⟨collection, document⟩ = .ok document ↔ Lasting document.body :=
  (Row.read_eq_ok ordered).trans ((and_iff_right rfl).trans Json.rereadMembers_eq_self_iff)

theorem Refines.get_of_read {store : Store} {history : History} (refines : store.Refines history)
    {collection : String} {id : EntityId} {body : Body} {document : Document}
    (last : history.body? collection id = some body) (read : Row.read ⟨collection, ⟨id, body⟩⟩ = .ok document) :
    store.get collection id = .ok (some document) := by
  rw [refines.get, last]
  exact congrArg (Except.map some) read

section
variable {calls : List Call} (ordered : ∀ call ∈ calls, ∀ document ∈ call.documents, (Json.object document.body).Ordered)
include ordered

theorem read_last_iff {collection : String} {id : EntityId} {body : Body}
    (last : History.body? collection id (.ofCalls calls) = some body) :
    Row.read ⟨collection, ⟨id, body⟩⟩ = .ok ⟨id, body⟩ ↔ Lasting body := by
  obtain ⟨call, made, given⟩ := History.given_of_body? last
  have inOrder : (Json.object body).Ordered := ordered call made _ given
  exact read_eq_self_iff inOrder

theorem exact_iff : (Call.run calls).Exact (.ofCalls calls) ↔
    ∀ collection id body, History.body? collection id (.ofCalls calls) = some body → Lasting body := by
  have refines := (Mirrors.run calls).refines
  constructor
  · intro exact collection id body last
    have got : (Row.read ⟨collection, ⟨id, body⟩⟩).map some = .ok (some ⟨id, body⟩) := by
      have same := (refines.get collection id).symm.trans (exact.get collection id)
      rwa [last] at same
    cases read : Row.read ⟨collection, ⟨id, body⟩⟩ with
    | error fault =>
      rw [read] at got
      cases got
    | ok document =>
      rw [read] at got
      cases got
      exact (read_last_iff ordered last).mp read
  · intro lasting
    refine ⟨fun collection id => ?_, fun collection => ?_⟩
    · cases last : History.body? collection id (.ofCalls calls) with
      | none =>
        rw [refines.get, last]
        rfl
      | some body =>
        exact refines.get_of_read last ((read_last_iff ordered last).mpr (lasting collection id body last))
    · rw [refines.find]
      refine (mapM_of_ok (f := id) fun document listed => ?_).trans (congrArg Except.ok (List.map_id _))
      obtain ⟨id, _, given⟩ := List.mem_filterMap.mp listed
      obtain ⟨body, last, rfl⟩ := Option.map_eq_some_iff.mp given
      exact (read_last_iff ordered last).mpr (lasting collection id body last)

end

/-- The store is an insertion-ordered map for each collection, whatever is written. What is read of
it are the bodies that were written exactly if the texts of those that are left denote them. -/
theorem refines_history {calls : List Call}
    (ordered : ∀ call ∈ calls, ∀ document ∈ call.documents, (Json.object document.body).Ordered) :
    (Call.run calls).Refines (.ofCalls calls) ∧
      ((Call.run calls).Exact (.ofCalls calls) ↔
        ∀ collection id body, History.body? collection id (.ofCalls calls) = some body → Lasting body) :=
  ⟨(Mirrors.run calls).refines, exact_iff ordered⟩

theorem lasting_of_calls {calls : List Call} (lasting : ∀ call ∈ calls, ∀ document ∈ call.documents, Lasting document.body)
    {collection : String} {id : EntityId} {body : Body}
    (last : History.body? collection id (.ofCalls calls) = some body) : Lasting body := by
  obtain ⟨call, made, given⟩ := History.given_of_body? last
  exact lasting call made _ given

def samplePlayer (serial : Nat) (name : String) : Document := ⟨EntityId.mint 0 serial, [("name", .text name)]⟩

/-- Of two players the first is deleted and inserted again, and the other is replaced. -/
def sampleCalls : List Call :=
  [.insertMany "player" [samplePlayer 0 "ann", samplePlayer 1 "bob"], .insert "player" (samplePlayer 0 "eve"),
    .replace "player" (samplePlayer 1 "cid"), .delete "player" (EntityId.mint 0 0),
    .insert "player" (samplePlayer 0 "dan")]

theorem sampleCalls_refined :
    (∀ call ∈ sampleCalls, ∀ document ∈ call.documents, (Json.object document.body).Ordered) ∧
      (Call.run sampleCalls).Refines (.ofCalls sampleCalls) ∧ (Call.run sampleCalls).Exact (.ofCalls sampleCalls) ∧
        (History.documents (.ofCalls sampleCalls) "player").map Document.id =
          [EntityId.mint 0 1, EntityId.mint 0 0] := by
  have ordered : ∀ call ∈ sampleCalls, ∀ document ∈ call.documents, (Json.object document.body).Ordered := by
    decide +kernel
  have lasting : ∀ call ∈ sampleCalls, ∀ document ∈ call.documents, Lasting document.body := by decide +kernel
  obtain ⟨refines, exact_iff⟩ := refines_history ordered
  exact ⟨ordered, refines, exact_iff.mpr fun _ _ _ last => lasting_of_calls lasting last, by decide +kernel⟩

/-- The greatest double below `2 ^ 63`. The sixteen digits of its shortest text are read as that
power. -/
def belowPower : Double := ⟨false, 0x1FFFFFFFFFFFFF, 1084, by decide⟩

def power : Double := ⟨false, 0x10000000000000, 1085, by decide⟩

def weighedPlayer (weight : Double) : Document := ⟨EntityId.mint 0 0, [("weight", .number (.double weight))]⟩

/-- A player is inserted, and got with another weight. -/
theorem weighedPlayer_not_exact :
    let calls := [Call.insert "player" (weighedPlayer belowPower)]
    (Call.run calls).get "player" (EntityId.mint 0 0) = .ok (some (weighedPlayer power)) ∧
      ¬ (Call.run calls).Exact (.ofCalls calls) := by
  intro calls
  have misread : (Number.double belowPower).reread = some (.double power) := by decide +kernel
  have ordered : (Json.object (weighedPlayer belowPower).body).Ordered := by decide +kernel
  have read : Row.read ⟨"player", weighedPlayer belowPower⟩ = .ok (weighedPlayer power) := by
    refine (Row.read_eq_ok ordered).mpr ⟨rfl, ?_⟩
    simp [weighedPlayer, Json.rereadMembers, Json.reread, misread]
  have last : History.body? "player" (EntityId.mint 0 0) (.ofCalls calls) = some (weighedPlayer belowPower).body :=
    if_pos ⟨rfl, rfl⟩
  have got : (Call.run calls).get "player" (EntityId.mint 0 0) = .ok (some (weighedPlayer power)) :=
    (Mirrors.run calls).refines.get_of_read last read
  refine ⟨got, fun exact => ?_⟩
  have given : (Call.run calls).get "player" (EntityId.mint 0 0) = .ok (some (weighedPlayer belowPower)) :=
    exact.get "player" (EntityId.mint 0 0)
  cases got.symm.trans given

end Dossier.Store
