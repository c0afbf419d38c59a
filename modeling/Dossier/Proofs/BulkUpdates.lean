import Dossier.Proofs.AppliedUpdates
import Dossier.Proofs.CollectionDocuments
import Dossier.Proofs.EntityRequests
import Dossier.Proofs.Selections

/-! Updating the documents of a selection at once or one after the other. Either way each of them
is read, updated and written back if that changed it, so all orders leave the same store, up to the
stamps of the changes. -/
namespace Dossier

/-! ### Writing back -/

/-- A row after its document was read, updated at an instant and, if that changed it, written back. -/
def Row.revised (model : Model) (update : Update) (now : Timestamp) (row : Row) : Row :=
  match row.read with
  | .ok document =>
    match model.applyUpdate now document update with
    | (true, result) => ⟨row.collection, result⟩
    | (false, _) => row
  | .error _ => row

/-- Two rows of one document that differ at most in the instant of its last change. -/
def Row.SameButStamp (row other : Row) : Prop :=
  row = other ∨ row.key = other.key ∧ ∃ (body : Body) (now later : Timestamp),
    row.document.body = body.insert updatedKey (.text now.text) ∧
      other.document.body = body.insert updatedKey (.text later.text)

namespace Store

/-- Writes a document back that was read before, if an update changes it. -/
def writeBack (store : Store) (model : Model) (update : Update) (now : Timestamp) (document : Document) : Store :=
  match model.applyUpdate now document update with
  | (true, result) => (store.replace model.name result).2
  | (false, _) => store

/-- Gets, updates and replaces the document of an id, if there is one. -/
def reviseOne (model : Model) (update : Update) (clock : EntityId → Timestamp) (store : Store) (id : EntityId) :
    Except StoreError Store := do
  match ← store.get model.name id with
  | some document => return store.writeBack model update (clock id) document
  | none => return store

/-- Gets, updates and replaces the documents of some ids, one after the other and each at an
instant of its own. -/
def reviseEach (model : Model) (update : Update) (clock : EntityId → Timestamp) (store : Store)
    (ids : List EntityId) : Except StoreError Store :=
  ids.foldlM (reviseOne model update clock) store

end Store

namespace Row
variable {row : Row} {model : Model} {update : Update} {now later : Timestamp} {document : Document}

theorem revised_of_unchanged (read : row.read = .ok document) (unchanged : update.changes document.body = false) :
    row.revised model update now = row := by
  simp only [revised, read, Model.applyUpdate_of_unchanged unchanged]

theorem revised_of_changed (read : row.read = .ok document) (changed : update.changes document.body = true) :
    row.revised model update now = ⟨row.collection, (model.applyUpdate now document update).2⟩ := by
  simp only [revised, read, Model.applyUpdate_of_changed changed]

theorem key_revised (row : Row) (model : Model) (update : Update) (now : Timestamp) :
    (row.revised model update now).key = row.key := by
  cases read : row.read with
  | error fault => simp only [revised, read]
  | ok document =>
    cases outcome : update.changes document.body with
    | false => rw [revised_of_unchanged read outcome]
    | true =>
      rw [revised_of_changed read outcome, key, key, Repository.id_of_applyUpdate, id_of_read read]

/-- The instant of a revision is seen in the stamp only. -/
theorem sameButStamp_revised (row : Row) (model : Model) (update : Update) (now later : Timestamp) :
    (row.revised model update now).SameButStamp (row.revised model update later) := by
  cases read : row.read with
  | error fault =>
    left
    simp only [revised, read]
  | ok document =>
    cases outcome : update.changes document.body with
    | false =>
      left
      rw [revised_of_unchanged read outcome, revised_of_unchanged read outcome]
    | true =>
      rw [revised_of_changed read outcome, revised_of_changed read outcome,
        Model.applyUpdate_of_changed outcome, Model.applyUpdate_of_changed outcome]
      cases model.schema.behaviors.stamps with
      | false =>
        left
        simp only [Bool.false_eq_true, if_false]
      | true =>
        right
        simp only [if_true]
        constructor
        · simp only [key]
        · exact ⟨update.apply document.body, now, later, rfl, rfl⟩

end Row

namespace Store
variable {store : Store} {model : Model} {update : Update} {clock : EntityId → Timestamp} {ids : List EntityId}
  {row : Row} {document : Document}

/-- A store with the documents of some ids revised, each at an instant of its own. -/
def revised (store : Store) (model : Model) (update : Update) (clock : EntityId → Timestamp)
    (ids : List EntityId) : Store :=
  let revise (row : Row) : Row :=
    if row.collection = model.name ∧ row.document.id ∈ ids then row.revised model update (clock row.document.id)
    else row
  ⟨store.rows.map revise, by
    have same : Row.key ∘ revise = Row.key := by
      funext row
      simp only [Function.comp, revise]
      split
      · exact row.key_revised ..
      · rfl
    rw [List.map_map, same]
    exact store.distinct⟩

theorem rows_revised (store : Store) (model : Model) (update : Update) (clock : EntityId → Timestamp)
    (ids : List EntityId) : (store.revised model update clock ids).rows = store.rows.map fun row =>
      if row.collection = model.name ∧ row.document.id ∈ ids then row.revised model update (clock row.document.id)
      else row := rfl

theorem revised_nil (store : Store) (model : Model) (update : Update) (clock : EntityId → Timestamp) :
    store.revised model update clock [] = store := by
  apply eq_of_rows
  simp [rows_revised]

/-- Only which documents are revised matters, and when. -/
theorem revised_congr {others : List EntityId} {also : EntityId → Timestamp} (same : ∀ id, id ∈ ids ↔ id ∈ others)
    (instants : ∀ id ∈ ids, clock id = also id) :
    store.revised model update clock ids = store.revised model update also others := by
  apply eq_of_rows
  apply List.map_congr_left
  intro row _
  by_cases chosen : row.collection = model.name ∧ row.document.id ∈ ids
  · rw [if_pos chosen, if_pos ⟨chosen.1, (same _).mp chosen.2⟩, instants _ chosen.2]
  · rw [if_neg chosen, if_neg fun also => chosen ⟨also.1, (same _).mpr also.2⟩]

theorem sameButStamp_revised_rows (store : Store) (model : Model) (update : Update) (clock also : EntityId → Timestamp)
    (ids : List EntityId) : List.Forall₂ Row.SameButStamp (store.revised model update clock ids).rows
      (store.revised model update also ids).rows := by
  rw [rows_revised, rows_revised, List.forall₂_map_left_iff, List.forall₂_map_right_iff, List.forall₂_same]
  intro row _
  split
  · exact row.sameButStamp_revised ..
  · exact .inl rfl

theorem rows_writeBack (store : Store) (model : Model) (update : Update) (now : Timestamp) (document : Document) :
    (store.writeBack model update now document).rows = store.rows.map fun row =>
      if update.changes document.body = true ∧ row.key = (model.name, document.id) then
        ⟨model.name, (model.applyUpdate now document update).2⟩
      else row := by
  cases outcome : update.changes document.body with
  | false => simp [writeBack, Model.applyUpdate_of_unchanged outcome]
  | true => simp only [writeBack, Model.applyUpdate_of_changed outcome, replace, overwrite, true_and]

section
variable (member : row ∈ store.rows) (here : row.collection = model.name) (fresh : row.document.id ∉ ids)
  (read : row.read = .ok document)
include member here fresh read

/-- What was not revised yet is got as it was. -/
theorem get_revised : (store.revised model update clock ids).get model.name row.document.id = .ok (some document) := by
  have kept : row ∈ (store.revised model update clock ids).rows := by
    rw [rows_revised]
    apply List.mem_map.mpr
    refine ⟨row, member, ?_⟩
    rw [if_neg fun chosen => fresh chosen.2]
  exact get_of_read kept (by rw [Row.key, here]) read

/-- Writing one more document back revises it. -/
theorem writeBack_revised : (store.revised model update clock ids).writeBack model update (clock row.document.id) document =
    store.revised model update clock (row.document.id :: ids) := by
  have id : document.id = row.document.id := Row.id_of_read read
  apply eq_of_rows
  rw [rows_writeBack, rows_revised, rows_revised, List.map_map]
  apply List.map_congr_left
  intro other listed
  rw [Function.comp]
  by_cases same : other.key = row.key
  · obtain rfl := eq_of_key listed member same
    have own : other.key = (model.name, document.id) := by rw [Row.key, here, id]
    have unrevised : ¬ (other.collection = model.name ∧ other.document.id ∈ ids) := fun chosen => fresh chosen.2
    rw [if_neg unrevised, if_pos (And.intro here List.mem_cons_self)]
    cases outcome : update.changes document.body with
    | false => rw [if_neg (by simp), Row.revised_of_unchanged read outcome]
    | true => rw [if_pos (And.intro rfl own), Row.revised_of_changed read outcome, here]
  · have kept (chosen : Prop) [Decidable chosen] :
        (if chosen then other.revised model update (clock other.document.id) else other).key = other.key := by
      split
      · exact other.key_revised ..
      · rfl
    have apart : other.key ≠ (model.name, document.id) := by
      rw [id, ← here]
      exact same
    have elsewhere : other.collection = model.name ∧ other.document.id ∈ ids ↔
        other.collection = model.name ∧ other.document.id ∈ row.document.id :: ids := by
      rw [List.mem_cons]
      constructor
      · intro chosen
        exact ⟨chosen.1, .inr chosen.2⟩
      · intro chosen
        refine ⟨chosen.1, chosen.2.resolve_left ?_⟩
        intro equal
        exact same (Prod.ext (chosen.1.trans here.symm) equal)
    rw [kept, if_neg fun hit => apart hit.2]
    simp only [elsewhere]

theorem reviseOne_revised : reviseOne model update clock (store.revised model update clock ids) row.document.id =
    .ok (store.revised model update clock (row.document.id :: ids)) := by
  rw [reviseOne, get_revised member here fresh read, ← writeBack_revised member here fresh read]
  rfl

end

/-- Steps that revise one more document each revise all of them. -/
theorem foldlM_revised {Item : Type} {name : Item → EntityId} {step : Store → Item → Except StoreError Store}
    {items : List Item} (distinct : (items.map name).Nodup)
    (revises : ∀ item ∈ items, ∀ done, name item ∉ done →
      step (store.revised model update clock done) item =
        .ok (store.revised model update clock (name item :: done))) :
    items.foldlM step store = .ok (store.revised model update clock (items.map name)) := by
  -- Nothing is revised twice, so each step finds its document as it was at first.
  have general (done : List EntityId) (apart : ∀ item ∈ items, name item ∉ done) :
      items.foldlM step (store.revised model update clock done) =
        .ok (store.revised model update clock ((items.map name).reverse ++ done)) := by
    induction items generalizing done with
    | nil => rfl
    | cons item rest ih =>
      obtain ⟨once, others⟩ := List.nodup_cons.mp distinct
      have fresh : ∀ later ∈ rest, name later ∉ name item :: done := by
        intro later listed
        rw [List.mem_cons, not_or]
        constructor
        · intro same
          exact once (same ▸ List.mem_map_of_mem listed)
        · exact apart later (List.mem_cons_of_mem _ listed)
      have first := revises item List.mem_cons_self done (apart item List.mem_cons_self)
      rw [List.foldlM_cons, first, List.map_cons, List.reverse_cons, List.append_assoc]
      exact ih others (fun later listed => revises later (List.mem_cons_of_mem _ listed)) _ fresh
  have all := general [] (by simp)
  rw [revised_nil] at all
  rw [all, List.append_nil]
  apply congrArg Except.ok
  exact revised_congr (fun _ => List.mem_reverse) fun _ _ => rfl

/-- One after the other, the documents of some ids are revised in whatever order. -/
theorem reviseEach_eq (distinct : ids.Nodup)
    (readable : ∀ id ∈ ids, ∃ row ∈ store.rows, row.key = (model.name, id) ∧ row.IsReadable) :
    reviseEach model update clock store ids = .ok (store.revised model update clock ids) := by
  have all : ids.foldlM (reviseOne model update clock) store =
      .ok (store.revised model update clock (ids.map fun id => id)) := by
    apply foldlM_revised
    · rwa [List.map_id']
    · intro id listed done fresh
      obtain ⟨row, member, key, document, read⟩ := readable id listed
      obtain ⟨here, rfl⟩ : row.collection = model.name ∧ row.document.id = id := Prod.mk.inj key
      exact reviseOne_revised member here fresh read
  rwa [List.map_id'] at all

/-- Written back as they were read, the documents of a selection are revised. -/
theorem foldl_writeBack {chosen documents : List Document} {now : Timestamp}
    (within : chosen ⊆ store.documents model.name) (distinct : (chosen.map Document.id).Nodup)
    (read : ReadAs model.name chosen documents) :
    documents.foldl (fun store document => store.writeBack model update now document) store =
      store.revised model update (fun _ => now) (chosen.map Document.id) := by
  have all : documents.foldlM (fun store document => (pure (store.writeBack model update now document) :
      Except StoreError Store)) store = .ok (store.revised model update (fun _ => now) (documents.map Document.id)) := by
    apply foldlM_revised
    · rwa [← read.ids]
    · intro answer listed done fresh
      obtain ⟨document, member, own⟩ := exists_of_mapM (mapM_eq_ok.mpr read) listed
      have stored : ⟨model.name, document⟩ ∈ store.rows := mem_documents.mp (within member)
      rw [Row.id_of_read own] at fresh ⊢
      exact congrArg Except.ok (writeBack_revised stored rfl fresh own)
  rw [List.foldlM_pure] at all
  rw [read.ids]
  exact Except.ok.inj all

/-- What a batch writes is written back document by document. -/
theorem replaceMany_changed (store : Store) (model : Model) (update : Update) (now : Timestamp)
    (documents : List Document) :
    (store.replaceMany model.name (Repository.Plan.changed model now update documents)).2 =
      documents.foldl (fun store document => store.writeBack model update now document) store := by
  induction documents generalizing store with
  | nil => rfl
  | cons document rest ih =>
    rw [List.foldl_cons, ← ih]
    cases outcome : update.changes document.body with
    | false => simp [Repository.Plan.changed, writeBack, Model.applyUpdate_of_unchanged outcome]
    | true => simp [Repository.Plan.changed, writeBack, Model.applyUpdate_of_changed outcome, replaceMany]

/-- Of documents that are all there, all are counted. -/
theorem count_replaceMany {documents : List Document}
    (stored : ∀ document ∈ documents, store.contains model.name document.id = true) :
    (store.replaceMany model.name documents).1 = documents.length := by
  induction documents generalizing store with
  | nil => rfl
  | cons document rest ih =>
    have kept (id : EntityId) : (store.overwrite model.name document).contains model.name id =
        store.contains model.name id := by
      have keys := store.keys_replaceMany model.name [document]
      rw [contains, contains, ← keys]
      rfl
    have others : ((store.overwrite model.name document).replaceMany model.name rest).1 = rest.length := by
      apply ih
      intro other listed
      rw [kept]
      exact stored other (List.mem_cons_of_mem _ listed)
    simp only [replaceMany, replace, stored document List.mem_cons_self, others, if_true, List.length_cons]
    exact Nat.add_comm 1 _

end Store
namespace Repository
variable {registry : Registry} {store : Store} {model : Model} {envelope : Envelope} {supply : Supply}
  {update : Update} {query : Query} {chosen documents : List Document} {value : Json}

/-- An update of all documents that are selected is an update of each of them. -/
structure Revises (registry : Registry) (store : Store) (model : Model) (envelope : Envelope) (supply : Supply)
    (update : Update) (chosen : List Document) : Prop where
  /-- It counts all of them, and those that are changed. -/
  counted : ∃ documents, Store.ReadAs model.name chosen documents ∧
    (documents.filter fun document => update.changes document.body).length ≤ chosen.length ∧
      outcome registry store ⟨.updateEntities, envelope, supply⟩ = .ok (.updatedAll chosen.length
        (documents.filter fun document => update.changes document.body).length)
  /-- It leaves what is left when they are got, updated and replaced one after the other, in any
  order and at any instants, but for the stamps of these instants. -/
  each : ∀ (clock : EntityId → Timestamp) (order : List EntityId), order.Perm (chosen.map Document.id) →
    ∃ left, Store.reviseEach model update clock store order = .ok left ∧
      List.Forall₂ Row.SameButStamp left.rows (after registry store ⟨.updateEntities, envelope, supply⟩).rows ∧
        ((∀ id ∈ order, clock id = supply.now) → left = after registry store ⟨.updateEntities, envelope, supply⟩)
  /-- It touches no other rows, and none that it does not change. -/
  rewritten : ∃ write : Row → Row,
    (after registry store ⟨.updateEntities, envelope, supply⟩).rows = store.rows.map write ∧
      ∀ row ∈ store.rows, (write row).key = row.key ∧
        ((row.collection = model.name → row.document ∉ chosen) → write row = row) ∧
        ∀ document, row.read = .ok document → update.changes document.body = false → write row = row

/-- An update of a selection is an update of each document of it, if the store can tell which these
are. -/
structure UpdatesEach (registry : Registry) (store : Store) (model : Model) (envelope : Envelope) (supply : Supply)
    (query : Query) (update : Update) : Prop where
  answered : ∀ chosen, store.selected model.name query false = .ok chosen →
    Revises registry store model envelope supply update chosen
  unanswered : ∀ fault, store.selected model.name query false = .error fault →
    outcome registry store ⟨.updateEntities, envelope, supply⟩ = .error (.store fault) ∧
      after registry store ⟨.updateEntities, envelope, supply⟩ = store

/-- One update of one document is a revision. -/
theorem after_updateEntity_of_reviseOne {id : EntityId} (known : registry.lookup envelope.model = .ok model)
    (given : envelope.id = some id.text) (asked : envelope.value = some value)
    (parsed : model.parseUpdate supply.salt value = .ok update) {left : Store}
    (revised : Store.reviseOne model update (fun _ => supply.now) store id = .ok left) :
    after registry store ⟨.updateEntity, envelope, supply⟩ = left := by
  obtain ⟨found, got, rest⟩ := bind_eq_ok.mp revised
  cases found with
  | none =>
    cases rest
    rw [after_eq, plan_updateEntity known given asked parsed got]
    rfl
  | some document =>
    cases rest
    rw [after_updateEntity known given asked parsed got (Prod.mk.eta).symm]
    cases outcome : update.changes document.body with
    | false => simp [Store.writeBack, Model.applyUpdate_of_unchanged outcome]
    | true => simp [Store.writeBack, Model.applyUpdate_of_changed outcome, Store.replace]

section
variable (known : registry.lookup envelope.model = .ok model)
  (required : requireSelector model envelope .updateEntities = .ok query) (asked : envelope.value = some value)
  (parsed : model.parseUpdate supply.salt value = .ok update)
include known required asked parsed

/-- Without an answer of the store nothing is written. -/
theorem updateEntities_of_error {fault : StoreError} (failing : store.find model.name query [] = .error fault) :
    outcome registry store ⟨.updateEntities, envelope, supply⟩ = .error (.store fault) ∧
      after registry store ⟨.updateEntities, envelope, supply⟩ = store := by
  have given : payload model "value" envelope.value = .ok value := congrArg (payload model "value") asked
  have failed : (store.find model.name query []).mapError RequestError.store = .error (.store fault) :=
    congrArg (Except.mapError _) failing
  constructor
  · rw [outcome_updateEntities]
    simp only [known, required, given, parsed, failed, ok_bind, error_bind]
  · rw [after_eq]
    simp only [plan, known, required, given, parsed, failed, ok_bind, error_bind, Plan.outcome]

end

theorem length_changed (model : Model) (now : Timestamp) (update : Update) (documents : List Document) :
    (Plan.changed model now update documents).length =
      (documents.filter fun document => update.changes document.body).length := by
  have told (document : Document) : (model.applyUpdate now document update).1 = update.changes document.body := by
    cases outcome : update.changes document.body with
    | false => rw [Model.applyUpdate_of_unchanged outcome]
    | true => rw [Model.applyUpdate_of_changed outcome]
  rw [Plan.changed, List.length_map, List.filter_map, List.length_map]
  simp only [Function.comp_def, told]

/-- Of documents that were read, those that change are counted, for all of them are there. -/
theorem count_changed (within : chosen ⊆ store.documents model.name) {documents : List Document}
    (read : Store.ReadAs model.name chosen documents) {now : Timestamp} :
    (store.replaceMany model.name (Plan.changed model now update documents)).1 =
      (documents.filter fun document => update.changes document.body).length := by
  have stored : ∀ document ∈ Plan.changed model now update documents,
      store.contains model.name document.id = true := by
    intro result changed
    obtain ⟨document, among, applied⟩ := mem_changed.mp changed
    rw [Store.contains_eq, decide_eq_true_iff, id_of_applied applied]
    have listed : document.id ∈ chosen.map Document.id := read.ids ▸ List.mem_map_of_mem among
    exact List.map_subset _ within listed
  rw [Store.count_replaceMany stored, length_changed]

section
variable (known : registry.lookup envelope.model = .ok model)
  (selects : selector? model envelope = .ok (some query)) (asked : envelope.value = some value)
  (parsed : model.parseUpdate supply.salt value = .ok update)
include known selects asked parsed

theorem revises_of_readable (picked : store.selected model.name query false = .ok chosen)
    (readable : ∀ document ∈ chosen, (⟨model.name, document⟩ : Row).IsReadable) :
    Revises registry store model envelope supply update chosen := by
  have required := requireSelector_of_selector? selects .updateEntities
  have within : chosen ⊆ store.documents model.name := (Store.sublist_of_selected picked).subset
  have distinct : (chosen.map Document.id).Nodup :=
    (store.nodup_ids model.name).sublist ((Store.sublist_of_selected picked).map _)
  obtain ⟨documents, reading⟩ : ∃ documents, chosen.mapM (fun document => Row.read ⟨model.name, document⟩) =
      .ok documents := exists_mapM readable
  have read : Store.ReadAs model.name chosen documents := mapM_eq_ok.mp reading
  have finding : store.find model.name query [] = .ok documents := by
    rw [find_of_selector? selects, picked]
    exact reading
  obtain ⟨answered, left⟩ := updateEntities_of_find known required asked parsed finding
  have result : after registry store ⟨.updateEntities, envelope, supply⟩ =
      store.revised model update (fun _ => supply.now) (chosen.map Document.id) := by
    rw [left, Store.replaceMany_changed, Store.foldl_writeBack within distinct read]
  constructor
  case counted =>
    rw [count_changed within read, ← read.length_eq] at answered
    refine ⟨documents, read, ?_, answered⟩
    rw [read.length_eq]
    exact List.length_filter_le _ _
  case each =>
    intro clock order perm
    have rows : ∀ id ∈ order, ∃ row ∈ store.rows, row.key = (model.name, id) ∧ row.IsReadable := by
      intro id listed
      obtain ⟨document, member, rfl⟩ := List.mem_map.mp (perm.subset listed)
      exact ⟨⟨model.name, document⟩, Store.mem_documents.mp (within member), rfl, readable document member⟩
    have same (also : EntityId → Timestamp) (instants : ∀ id ∈ order, clock id = also id) :
        store.revised model update clock order = store.revised model update also (chosen.map Document.id) :=
      Store.revised_congr (fun id => perm.mem_iff) instants
    refine ⟨store.revised model update clock order, Store.reviseEach_eq (perm.nodup_iff.mpr distinct) rows, ?_, ?_⟩
    · rw [result, same clock fun _ _ => rfl]
      exact store.sameButStamp_revised_rows model update clock _ _
    · intro once
      rw [result, same (fun _ => supply.now) once]
  case rewritten =>
    refine ⟨_, congrArg Store.rows result, ?_⟩
    intro row member
    refine ⟨?_, ?_, ?_⟩
    · split
      · exact row.key_revised ..
      · rfl
    · intro other
      apply if_neg
      intro hit
      obtain ⟨document, listed, id⟩ := List.mem_map.mp hit.2
      have own : row.document ∈ store.documents model.name := Store.mem_documents.mpr (hit.1 ▸ member)
      exact other hit.1 (Store.eq_of_id (within listed) own id ▸ listed)
    · intro document read unchanged
      split
      · exact Row.revised_of_unchanged read unchanged
      · rfl

/-- What is updated was read. -/
theorem readable_of_updateEntities (picked : store.selected model.name query false = .ok chosen) {response : Response}
    (answered : outcome registry store ⟨.updateEntities, envelope, supply⟩ = .ok response) :
    ∀ document ∈ chosen, (⟨model.name, document⟩ : Row).IsReadable := by
  intro document member
  have required := requireSelector_of_selector? selects .updateEntities
  have reading : store.find model.name query [] =
      chosen.mapM fun document => Row.read ⟨model.name, document⟩ := by
    rw [find_of_selector? selects, picked]
    rfl
  cases read : chosen.mapM fun document => Row.read ⟨model.name, document⟩ with
  | ok documents =>
    obtain ⟨answer, _, own⟩ := result_of_mapM read member
    exact ⟨answer, own⟩
  | error fault =>
    have failed := (updateEntities_of_error known required asked parsed (reading.trans read)).1
    cases failed.symm.trans answered

/-- Updates of selections are updates of each document exactly as long as the selected rows can be
read. -/
theorem updatesEach_iff : UpdatesEach registry store model envelope supply query update ↔
    ∀ chosen, store.selected model.name query false = .ok chosen →
      ∀ document ∈ chosen, (⟨model.name, document⟩ : Row).IsReadable := by
  constructor
  · intro each chosen picked
    obtain ⟨_, _, _, answered⟩ := (each.answered chosen picked).counted
    exact readable_of_updateEntities known selects asked parsed picked answered
  · intro readable
    constructor
    · intro chosen picked
      exact revises_of_readable known selects asked parsed picked (readable chosen picked)
    · intro fault failed
      have required := requireSelector_of_selector? selects .updateEntities
      have failing : store.find model.name query [] = .error fault := by
        rw [find_of_selector? selects, failed]
        rfl
      exact updateEntities_of_error known required asked parsed failing

end

theorem anns_updateEach :
    let registry := rosterRegistry.withDepth 2
    let store := reached registry rosterRequests
    store.contains "player" (EntityId.mint 0 0) = true ∧
      UpdatesEach registry store ⟨playerSchema, markingHasher⟩ annsEnvelope rosterSupply
        [("name", .compare .eq (.text "ann"))] ⟨[("name", .text "eve")], []⟩ := by
  intro registry store
  obtain ⟨stored, each⟩ : store.contains "player" (EntityId.mint 0 0) = true ∧ ∀ row ∈ store.rows,
      (Json.object row.document.body).Ordered ∧
        (Json.rereadMembers Row.levels row.document.body).isSome = true := by decide +kernel
  have known : registry.lookup annsEnvelope.model = .ok ⟨playerSchema, markingHasher⟩ := by cbv
  have selects : selector? ⟨playerSchema, markingHasher⟩ annsEnvelope =
      .ok (some [("name", .compare .eq (.text "ann"))]) := by cbv
  have parsed : Model.parseUpdate ⟨playerSchema, markingHasher⟩ rosterSupply.salt (.object [("name", .text "eve")]) =
      .ok ⟨[("name", .text "eve")], []⟩ := by cbv
  refine ⟨stored, (updatesEach_iff known selects rfl parsed).mpr ?_⟩
  intro chosen picked document member
  have listed : ⟨"player", document⟩ ∈ store.rows :=
    Store.mem_documents.mp ((Store.sublist_of_selected picked).subset member)
  obtain ⟨ordered, read⟩ := each _ listed
  exact (Row.isReadable_iff ordered).mpr read

/-- A note beside the one that is nested too deeply. -/
def plainId : EntityId := EntityId.mint 0 1

def mixedRequests : List Request :=
  deepRequests ++ [⟨.addEntity, { model := "note", entity := some (.object [("_id", .text plainId.text)]) }, rosterSupply⟩]

/-- Both notes, whose arrays are to be emptied. -/
def mixedEnvelope : Envelope :=
  { model := "note", ids := some [deepId.text, plainId.text], value := some (.object [("a.b.c", .array [])]) }

/-- One note that cannot be read is in the way of the update of the other one, which can be updated
on its own. -/
theorem mixedNotes_not_updateEach :
    let registry := deepRegistry.withDepth 2
    let store := reached registry mixedRequests
    let update : Update := ⟨[("a.b.c", .array [])], []⟩
    Registry.build [deepDeclaration] markingHasher {} = .ok deepRegistry ∧
      deepModel.parseUpdate rosterSupply.salt (.object [("a.b.c", .array [])]) = .ok update ∧
      (∃ left, Store.reviseOne deepModel update (fun _ => rosterSupply.now) store plainId = .ok left) ∧
      (∀ response, outcome registry store ⟨.updateEntities, mixedEnvelope, rosterSupply⟩ ≠ .ok response) ∧
      ¬ UpdatesEach registry store deepModel mixedEnvelope rosterSupply (Query.ids [deepId, plainId]) update := by
  intro registry store update
  have known : registry.lookup mixedEnvelope.model = .ok deepModel := by cbv
  have selects : selector? deepModel mixedEnvelope = .ok (some (Query.ids [deepId, plainId])) := by cbv
  have parsed : deepModel.parseUpdate rosterSupply.salt (.object [("a.b.c", .array [])]) = .ok update := by cbv
  obtain ⟨stored, rows⟩ : store.contains "note" deepId = true ∧ ∀ row ∈ store.rows,
      (Json.object row.document.body).Ordered ∧
        (Json.rereadMembers Row.levels row.document.body).isSome = decide (row.key = ("note", plainId)) := by
    decide +kernel
  have alone : ∃ left, Store.reviseOne deepModel update (fun _ => rosterSupply.now) store plainId = .ok left := by
    obtain ⟨found, got⟩ : ∃ found, store.get "note" plainId = .ok found := by
      apply Store.exists_of_get
      intro row member key
      apply (Row.isReadable_iff (rows row member).1).mpr
      rw [(rows row member).2, key]
      rfl
    cases found with
    | none => exact ⟨store, bind_eq_ok.mpr ⟨none, got, rfl⟩⟩
    | some document => exact ⟨_, bind_eq_ok.mpr ⟨some document, got, rfl⟩⟩
  have fails (response : Response) :
      outcome registry store ⟨.updateEntities, mixedEnvelope, rosterSupply⟩ ≠ .ok response := by
    intro answered
    obtain ⟨⟨collection, document⟩, member, key⟩ := Store.contains_iff.mp stored
    obtain ⟨rfl, id⟩ : collection = "note" ∧ document.id = deepId := Prod.mk.inj key
    have chosen : document ∈ (store.documents "note").filter fun document =>
        [deepId, plainId].contains document.id := by
      rw [List.mem_filter, id]
      exact ⟨Store.mem_documents.mpr member, by simp⟩
    have readable : (⟨"note", document⟩ : Row).IsReadable :=
      readable_of_updateEntities known selects rfl parsed (store.selected_ids ..) answered document chosen
    have apart : ("note", deepId) ≠ ("note", plainId) := by decide +kernel
    rw [Row.isReadable_iff (rows _ member).1, (rows _ member).2, key, decide_eq_false apart] at readable
    cases readable
  refine ⟨by cbv, parsed, alone, fails, ?_⟩
  intro each
  obtain ⟨_, _, _, answered⟩ := (each.answered _ (store.selected_ids ..)).counted
  exact fails _ answered

end Repository
end Dossier
