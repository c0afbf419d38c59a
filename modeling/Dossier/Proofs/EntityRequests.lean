import Dossier.Proofs.Population

/-! Requests for one document: how they are planned, what they leave of the store and what they
answer, if nothing is in their way. -/
namespace Dossier

namespace EntityId

theorem ne_empty (id : EntityId) : id.text.isEmpty = false := by
  have size : id.text.toList.length = 36 := beq_iff_eq.mp (Bool.and_eq_true_iff.mp id.canonical).1
  refine Bool.eq_false_iff.mpr fun empty => ?_
  rw [String.isEmpty_iff.mp empty] at size
  cases size

end EntityId

namespace Repository
variable {registry : Registry} {store : Store} {envelope : Envelope} {supply : Supply} {model : Model}
  {document result : Document} {id : EntityId}

theorem requireId_of_text (given : envelope.id = some id.text) (operation : Operation) :
    requireId model envelope operation = .ok id := by
  simp [requireId, given, EntityId.trim_text, EntityId.ne_empty, parseId, EntityId.parse?_text]

section
variable (looked : registry.lookup envelope.model = .ok model) {entity : Json}
  (given : envelope.entity = some entity) (prepared : model.prepareInsert supply 0 entity = .ok document)
include looked given prepared

theorem after_addEntity {left : Store} (inserted : store.insert model.name document = .ok left) :
    after registry store ⟨.addEntity, envelope, supply⟩ = left := by
  have planned : plan registry store ⟨.addEntity, envelope, supply⟩ = .ok (.add model [(entity, document)]) :=
    bind_eq_ok.mpr ⟨model, looked, bind_eq_ok.mpr ⟨entity, congrArg (payload model "entity") given,
      bind_eq_ok.mpr ⟨document, prepared, rfl⟩⟩⟩
  rw [after_eq, planned]
  simp only [Plan.outcome, Plan.perform, Store.insertMany, List.map_cons, List.map_nil, List.foldlM_cons,
    List.foldlM_nil, inserted]
  rfl

/-- A document is added at the end, if its id is free. -/
theorem rows_of_addEntity (free : (model.name, document.id) ∉ store.rows.map Row.key) :
    (after registry store ⟨.addEntity, envelope, supply⟩).rows = store.rows ++ [⟨model.name, document⟩] := by
  have inserted : store.insert model.name document =
      .ok ⟨store.rows ++ [⟨model.name, document⟩], _⟩ := dif_neg free
  rw [after_addEntity looked given prepared inserted]

end

/-- What follows a write reads the store that is left. -/
theorem Answers.writes {α β : Type} {change : Store → Except RequestError (α × Store)} {next : α → Action β}
    {more : α × Store → Except RequestError β} (later : ∀ result left, Answers (next result) left (more (result, left))) :
    Answers (Action.write change >>= next) store (change store >>= more) := by
  rw [Answers, Action.run_bind, Action.run_write]
  cases change store with
  | error fault => rfl
  | ok done => exact later done.1 done.2

/-- The document is shown out of the store that it is added to. -/
theorem outcome_addEntity (registry : Registry) (store : Store) (envelope : Envelope) (supply : Supply) :
    outcome registry store ⟨.addEntity, envelope, supply⟩ = (do
      let model ← registry.lookup envelope.model
      let entity ← payload model "entity" envelope.entity
      let document ← model.prepareInsert supply 0 entity
      let (_, left) ← insertDocument model document store
      if envelope.shown.isEmpty then return .added document.id []
      match ← (left.get model.name document.id).mapError .store with
      | some stored => return .added document.id (← present registry left model stored envelope.shown)
      | none => return .added document.id []) := by
  refine Answers.asks (Action.run_ofExcept _ _) fun model => Answers.asks (Action.run_ofExcept _ _) fun entity =>
    Answers.asks (Action.run_ofExcept _ _) fun document => Answers.writes fun _ left => ?_
  dsimp only
  split
  · rfl
  · refine Answers.asks (Action.run_query _ _) fun found => ?_
    cases found with
    | none => rfl
    | some stored => exact Answers.asks (run_showDocument ..) fun _ => rfl

theorem outcome_addEntities (registry : Registry) (store : Store) (envelope : Envelope) (supply : Supply) :
    outcome registry store ⟨.addEntities, envelope, supply⟩ = (do
      let model ← registry.lookup envelope.model
      let entities ← payload model "entities" envelope.entities
      let documents ← entities.zipIdx.mapM fun (entity, index) => model.prepareInsert supply index entity
      let _ ← insertDocuments model documents store
      return .addedAll (documents.map Document.id)) :=
  Answers.asks (Action.run_ofExcept _ _) fun _ => Answers.asks (Action.run_ofExcept _ _) fun _ =>
    Answers.asks (Action.run_ofExcept _ _) fun _ => Answers.writes fun _ _ => rfl

theorem outcome_getEntity (registry : Registry) (store : Store) (envelope : Envelope) (supply : Supply) :
    outcome registry store ⟨.getEntity, envelope, supply⟩ = (do
      let model ← registry.lookup envelope.model
      let id ← requireId model envelope .getEntity
      match ← (store.get model.name id).mapError .store with
      | some document => return .fetched (some (← present registry store model document envelope.shown))
      | none => return .fetched none) := by
  refine Answers.asks (Action.run_ofExcept _ _) fun _ => Answers.asks (Action.run_ofExcept _ _) fun _ =>
    Answers.asks (Action.run_query _ _) fun found => ?_
  cases found with
  | none => rfl
  | some document => exact Answers.asks (run_showDocument ..) fun _ => rfl

/-- The document is shown out of the store that the update leaves. -/
theorem outcome_updateEntity (registry : Registry) (store : Store) (envelope : Envelope) (supply : Supply) :
    outcome registry store ⟨.updateEntity, envelope, supply⟩ = (do
      let model ← registry.lookup envelope.model
      let id ← requireId model envelope .updateEntity
      let value ← payload model "value" envelope.value
      let update ← model.parseUpdate supply.salt value
      match ← (store.get model.name id).mapError .store with
      | none => return .updated none
      | some document =>
        let (changes, result) := model.applyUpdate supply.now document update
        let left := if changes then store.overwrite model.name result else store
        return .updated (some (← present registry left model result []))) := by
  refine Answers.asks (Action.run_ofExcept _ _) fun model => Answers.asks (Action.run_ofExcept _ _) fun id =>
    Answers.asks (Action.run_ofExcept _ _) fun value => Answers.asks (Action.run_ofExcept _ _) fun update =>
      Answers.asks (Action.run_query _ _) fun found => ?_
  cases found with
  | none => rfl
  | some document =>
    dsimp only
    rcases model.applyUpdate supply.now document update with ⟨_ | _, result⟩
    · exact Answers.asks (run_showDocument ..) fun _ => rfl
    · simp only [if_true]
      rw [Answers, Action.run_bind, Action.run_write]
      exact Answers.asks (run_showDocument ..) fun _ => rfl

section
variable (looked : registry.lookup envelope.model = .ok model) {value : Json} (asked : envelope.value = some value)
  {update : Update} (parsed : model.parseUpdate supply.salt value = .ok update)
include looked asked parsed

theorem plan_of_requireId (requires : requireId model envelope .updateEntity = .ok id) {found : Option Document}
    (got : store.get model.name id = .ok found) : plan registry store ⟨.updateEntity, envelope, supply⟩ =
      .ok (.change model value update found.toList) := by
  have read : (store.get model.name id).mapError RequestError.store = .ok found := by
    rw [got]
    rfl
  exact bind_eq_ok.mpr ⟨model, looked, bind_eq_ok.mpr ⟨id, requires,
    bind_eq_ok.mpr ⟨value, congrArg (payload model "value") asked, bind_eq_ok.mpr ⟨update, parsed,
      bind_eq_ok.mpr ⟨found, read, rfl⟩⟩⟩⟩⟩

/-- A document that an update changes is written over. -/
theorem after_of_requireId (requires : requireId model envelope .updateEntity = .ok id)
    (got : store.get model.name id = .ok (some document)) {changes : Bool}
    (applied : model.applyUpdate supply.now document update = (changes, result)) :
    after registry store ⟨.updateEntity, envelope, supply⟩ =
      if changes then store.overwrite model.name result else store := by
  rw [after_eq, plan_of_requireId looked asked parsed requires got, Plan.outcome, Option.toList,
    perform_change applied]
  rfl

end

section
variable (looked : registry.lookup envelope.model = .ok model) (given : envelope.id = some id.text) {value : Json}
  (asked : envelope.value = some value) {update : Update} (parsed : model.parseUpdate supply.salt value = .ok update)
include looked given asked parsed

theorem plan_updateEntity {found : Option Document} (got : store.get model.name id = .ok found) :
    plan registry store ⟨.updateEntity, envelope, supply⟩ = .ok (.change model value update found.toList) :=
  plan_of_requireId looked asked parsed (requireId_of_text given _) got

theorem after_updateEntity (got : store.get model.name id = .ok (some document)) {changes : Bool}
    (applied : model.applyUpdate supply.now document update = (changes, result)) :
    after registry store ⟨.updateEntity, envelope, supply⟩ =
      if changes then store.overwrite model.name result else store :=
  after_of_requireId looked asked parsed (requireId_of_text given _) got applied

end

/-! ### What answers tell -/

theorem fetched_iff {value : Body} :
    outcome registry store ⟨.getEntity, envelope, supply⟩ = .ok (.fetched (some value)) ↔
      ∃ model id document, registry.lookup envelope.model = .ok model ∧ requireId model envelope .getEntity = .ok id ∧
        store.get model.name id = .ok (some document) ∧
          present registry store model document envelope.shown = .ok value := by
  rw [outcome_getEntity]
  constructor
  · intro answered
    obtain ⟨model, looked, rest⟩ := bind_eq_ok.mp answered
    obtain ⟨id, asked, others⟩ := bind_eq_ok.mp rest
    obtain ⟨found, got, shows⟩ := bind_eq_ok.mp others
    cases found with
    | none => cases shows
    | some document =>
      obtain ⟨shown, presented, finished⟩ := bind_eq_ok.mp shows
      cases finished
      exact ⟨model, id, document, looked, asked, ok_of_mapError got, presented⟩
  · rintro ⟨model, id, document, looked, asked, got, presented⟩
    refine bind_eq_ok.mpr ⟨model, looked, bind_eq_ok.mpr ⟨id, asked, bind_eq_ok.mpr ⟨some document, ?_,
      bind_eq_ok.mpr ⟨value, presented, rfl⟩⟩⟩⟩
    rw [got]
    rfl

/-- An update that answers a document shows it out of the store that it leaves. -/
theorem updated_iff {value : Body} :
    outcome registry store ⟨.updateEntity, envelope, supply⟩ = .ok (.updated (some value)) ↔
      ∃ model id payload update document changes result, registry.lookup envelope.model = .ok model ∧
        requireId model envelope .updateEntity = .ok id ∧ envelope.value = some payload ∧
          model.parseUpdate supply.salt payload = .ok update ∧ store.get model.name id = .ok (some document) ∧
            model.applyUpdate supply.now document update = (changes, result) ∧
              let left := after registry store ⟨.updateEntity, envelope, supply⟩
              left = (if changes then store.overwrite model.name result else store) ∧
                present registry left model result [] = .ok value := by
  rw [outcome_updateEntity]
  constructor
  · intro answered
    obtain ⟨model, looked, rest⟩ := bind_eq_ok.mp answered
    obtain ⟨id, asked, others⟩ := bind_eq_ok.mp rest
    obtain ⟨payload, given, more⟩ := bind_eq_ok.mp others
    obtain ⟨update, parsed, further⟩ := bind_eq_ok.mp more
    obtain ⟨found, got, shows⟩ := bind_eq_ok.mp further
    cases found with
    | none => cases shows
    | some document =>
      rcases applied : model.applyUpdate supply.now document update with ⟨changes, result⟩
      simp only [applied] at shows
      obtain ⟨shown, presented, finished⟩ := bind_eq_ok.mp shows
      cases finished
      have stored := ok_of_mapError got
      have left := after_of_requireId looked (ok_of_payload given) parsed asked stored applied
      refine ⟨model, id, payload, update, document, changes, result, looked, asked, ok_of_payload given, parsed,
        stored, applied, left, ?_⟩
      rw [left]
      exact presented
  · rintro ⟨model, id, payload, update, document, changes, result, looked, asked, given, parsed, got, applied, left,
      presented⟩
    rw [left] at presented
    refine bind_eq_ok.mpr ⟨model, looked, bind_eq_ok.mpr ⟨id, asked, bind_eq_ok.mpr ⟨payload, by rw [given]; rfl,
      bind_eq_ok.mpr ⟨update, parsed, bind_eq_ok.mpr ⟨some document, by rw [got]; rfl, ?_⟩⟩⟩⟩⟩
    simp only [applied]
    exact bind_eq_ok.mpr ⟨value, presented, rfl⟩

/-- A document that was added is in the store, and if it is shown, it is as it is read back. -/
theorem of_added {value : Body}
    (answered : outcome registry store ⟨.addEntity, envelope, supply⟩ = .ok (.added id value)) :
    ∃ model entity document, registry.lookup envelope.model = .ok model ∧ envelope.entity = some entity ∧
      model.prepareInsert supply 0 entity = .ok document ∧ document.id = id ∧
        let left := after registry store ⟨.addEntity, envelope, supply⟩
        store.insert model.name document = .ok left ∧
          (envelope.shown ≠ [] → ∃ stored, left.get model.name id = .ok (some stored) ∧
            present registry left model stored envelope.shown = .ok value) := by
  rw [outcome_addEntity] at answered
  obtain ⟨model, looked, rest⟩ := bind_eq_ok.mp answered
  obtain ⟨entity, given, others⟩ := bind_eq_ok.mp rest
  obtain ⟨document, prepared, more⟩ := bind_eq_ok.mp others
  obtain ⟨⟨_, left⟩, written, shows⟩ := bind_eq_ok.mp more
  have inserted : store.insert model.name document = .ok left := by
    unfold insertDocument at written
    cases done : store.insert model.name document <;> rw [done] at written <;> cases written
    rfl
  have same := after_addEntity looked (ok_of_payload given) prepared inserted
  refine ⟨model, entity, document, looked, ok_of_payload given, prepared, ?_⟩
  rw [same]
  simp only [List.isEmpty_iff] at shows
  split at shows
  · rename_i none
    cases shows
    exact ⟨rfl, inserted, fun asked => absurd none asked⟩
  · obtain ⟨found, got, presented⟩ := bind_eq_ok.mp shows
    have stored := ok_of_mapError got
    cases found with
    | none =>
      -- The document is there, so something is read.
      have missing := Store.contains_eq_false_of_get stored
      have there : left.contains model.name document.id = true :=
        Store.contains_iff.mpr ⟨⟨model.name, document⟩, by simp [Store.rows_of_insert inserted], rfl⟩
      cases missing.symm.trans there
    | some read =>
      obtain ⟨shown, presented, finished⟩ := bind_eq_ok.mp presented
      cases finished
      exact ⟨rfl, inserted, fun _ => ⟨read, stored, presented⟩⟩

/-- Documents that were added together are in the store, one for each entity. -/
theorem of_addedAll {ids : List EntityId}
    (answered : outcome registry store ⟨.addEntities, envelope, supply⟩ = .ok (.addedAll ids)) :
    ∃ model entities documents, registry.lookup envelope.model = .ok model ∧ envelope.entities = some entities ∧
      entities.zipIdx.mapM (fun (entity, index) => model.prepareInsert supply index entity) = .ok documents ∧
        documents.map Document.id = ids ∧
          store.insertMany model.name documents = .ok (after registry store ⟨.addEntities, envelope, supply⟩) := by
  rw [outcome_addEntities] at answered
  obtain ⟨model, looked, rest⟩ := bind_eq_ok.mp answered
  obtain ⟨entities, given, others⟩ := bind_eq_ok.mp rest
  obtain ⟨documents, prepared, more⟩ := bind_eq_ok.mp others
  obtain ⟨⟨_, left⟩, written, finished⟩ := bind_eq_ok.mp more
  cases finished
  have inserted : store.insertMany model.name documents = .ok left := by
    unfold insertDocuments at written
    cases done : store.insertMany model.name documents <;> rw [done] at written <;> cases written
    rfl
  have planned : plan registry store ⟨.addEntities, envelope, supply⟩ = .ok (.add model (entities.zip documents)) :=
    bind_eq_ok.mpr ⟨model, looked, bind_eq_ok.mpr ⟨entities, given, bind_eq_ok.mpr ⟨documents, prepared, rfl⟩⟩⟩
  refine ⟨model, entities, documents, looked, ok_of_payload given, prepared, rfl, ?_⟩
  rw [inserted, after_eq, planned]
  simp only [Plan.outcome, Plan.perform, snd_zip_of_mapM prepared, inserted]
  rfl

end Repository

/-! ### Writing nothing and null -/

/-- A text in what is put into nothing is in the value that is put. -/
theorem Body.text_of_put_nil {names place : List String} {value : Json} {text : String} (nonempty : names ≠ [])
    (also : place ≠ []) (held : (Body.put [] value names).at? place = some (.text text)) :
    ∃ below, place = names ++ below ∧ value.under? below = some (.text text) := by
  by_cases below : names <+: place
  · obtain ⟨rest, rfl⟩ := below
    rw [Body.at?_put _ _ nonempty] at held
    exact ⟨rest, rfl, held⟩
  · by_cases above : place <+: names
    · obtain ⟨rest, rfl⟩ := above
      have further : rest ≠ [] := fun empty => below (by simp [empty])
      rw [Body.at?_put_above _ _ also further] at held
      cases held
    · rw [Body.at?_put_of_apart _ _ ⟨below, above⟩] at held
      obtain ⟨name, rest, rfl⟩ := List.exists_cons_of_ne_nil also
      rw [Body.at?_cons] at held
      cases held

namespace Model
variable {model : Model}

/-- What is not hashed when it is put alone settles to what it is cast to. -/
theorem settled_of_unhashed {path : String} {type : FieldType} {value result : Json} {salt : ByteArray}
    (cast : castValue model.name path type value = .ok result)
    (unhashed : model.hashPassword salt (Body.set [] path result) = Body.set [] path result) :
    model.settled salt path type value = .ok result := by
  refine bind_eq_ok.mpr ⟨result, cast, ?_⟩
  rw [unhashed, Body.extract_fst, Body.get?_set]
  rfl

/-- Nothing is hashed where there is no text. -/
theorem settled_of_textless {path : String} {type : FieldType} {value result : Json}
    (cast : castValue model.name path type value = .ok result)
    (textless : ∀ names text, result.under? names ≠ some (.text text)) (salt : ByteArray) :
    model.settled salt path type value = .ok result := by
  refine settled_of_unhashed cast ?_
  unfold hashPassword
  split
  · rfl
  · split
    · rename_i held
      obtain ⟨below, _, text⟩ :=
        Body.text_of_put_nil (Text.segments_ne_nil path) (Text.segments_ne_nil _) held
      exact absurd text (textless below _)
    · rfl

theorem settled_null (salt : ByteArray) (path : String) (type : FieldType) :
    model.settled salt path type .null = .ok .null := by
  refine settled_of_textless (by cases type <;> rfl) (fun names text held => ?_) salt
  cases names <;> cases held

theorem requested_of_plain {key : String} (plain : key.toList.head? ≠ some '$') (value : Json) :
    model.requested key value = .ok ([(key, value)], []) := by
  have operator : ∀ name : String, name.toList.head? = some '$' → key ≠ name := by
    rintro name leads rfl
    exact plain leads
  unfold requested
  rw [if_neg (operator "$set" (by decide)), if_neg (operator "$unset" (by decide)), if_neg plain]

/-- Members without operators among their keys are all put. -/
theorem parseUpdate_of_plain {members : List (String × Json)}
    (plain : ∀ entry ∈ members, entry.1.toList.head? ≠ some '$') (salt : Nat → ByteArray) :
    model.parseUpdate salt (.object members) = (model.settleAll salt 0 members).map (⟨·, []⟩) := by
  have asked : members.mapM (fun entry => model.requested entry.1 entry.2) =
      .ok (members.map fun entry => ([entry], [])) := by
    refine mapM_eq_ok.mpr (List.forall₂_map_right_iff.mpr (List.forall₂_same.mpr fun entry member => ?_))
    exact requested_of_plain (plain entry member) entry.2
  change (members.mapM (fun entry => model.requested entry.1 entry.2) >>= fun parts =>
    model.settleAll salt 0 (parts.flatMap (·.1)) >>= fun sets => pure (⟨sets,
      (parts.flatMap (·.2)).filter fun path => (model.writableType? path).isSome⟩ : Update)) = _
  have sets : (members.map fun entry => ([entry], ([] : List String))).flatMap (·.1) = members := by
    simp [List.flatMap_map]
  have unsets : (members.map fun entry => ([entry], ([] : List String))).flatMap (·.2) = [] := by
    simp [List.flatMap_map]
  rw [asked]
  change (model.settleAll salt 0 _ >>= fun settled => _) = _
  rw [sets, unsets]
  cases model.settleAll salt 0 members <;> rfl

/-- An update that puts null at one path. -/
theorem parseUpdate_null {salt : Nat → ByteArray} {path : String} {type : FieldType}
    (writable : model.writableType? path = some type) (plain : path.toList.head? ≠ some '$') :
    model.parseUpdate salt (.object [(path, .null)]) = .ok ⟨[(path, .null)], []⟩ := by
  have settles : model.settleAll salt 0 [(path, .null)] = .ok [(path, .null)] := by
    rw [settleAll, writable]
    exact bind_eq_ok.mpr ⟨.null, model.settled_null _ _ _, rfl⟩
  rw [parseUpdate_of_plain (by simpa using plain), settles]
  rfl

/-- A body with nothing but its stamps. -/
def stampedBody (now : Timestamp) : Body := [(createdKey, .text now.text), (updatedKey, .text now.text)]

theorem prepareInsert_empty (stamps : model.schema.behaviors.stamps = true) (supply : Supply) (index : Nat) :
    model.prepareInsert supply index (.object []) = .ok ⟨supply.id index, stampedBody supply.now⟩ := by
  have unhashed : model.hashPassword (supply.salt index) [] = [] := by
    unfold hashPassword
    split
    · rfl
    · rename_i path _
      have missing : Body.get? [] path = none := by
        obtain ⟨name, rest, same⟩ := List.exists_cons_of_ne_nil (Text.segments_ne_nil path)
        rw [Body.get?, same, Body.at?_cons]
        rfl
      rw [missing]
  have keys : ¬ updatedKey < createdKey ∧ createdKey ≠ updatedKey ∧ createdKey ≠ idKey ∧
      updatedKey ≠ idKey := by decide
  refine bind_eq_ok.mpr ⟨supply.id index, rfl, bind_eq_ok.mpr ⟨[], rfl, ?_⟩⟩
  rw [unhashed]
  simp [Document.make, stamp, stamps, Keyed.insert, Keyed.erase, stampedBody, keys]
  rfl

theorem ordered_stampedBody (now : Timestamp) : (Json.object (stampedBody now)).Ordered := by
  have before : createdKey < updatedKey := by decide
  exact ⟨List.pairwise_cons.mpr ⟨by simpa using before, List.pairwise_singleton _ _⟩,
    trivial, trivial, trivial⟩

theorem read_stampedBody (collection : String) (id : EntityId) (now : Timestamp) :
    (⟨collection, id, stampedBody now⟩ : Row).read = .ok ⟨id, stampedBody now⟩ :=
  (Row.read_eq_ok (ordered_stampedBody now)).mpr ⟨rfl, rfl⟩

end Model
end Dossier
