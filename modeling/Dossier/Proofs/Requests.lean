import Dossier.Repository
import Dossier.Proofs.StoreRows

/-! Requests to the repository, and the stores they leave one after the other. Whatever a
request answers, it writes by one plan, which is made of the store before it. -/
namespace Dossier
variable {α β : Type}

/-! ### Steps on the store -/

namespace Action

theorem run_bind (step : Action α) (next : α → Action β) (store : Store) :
    (step >>= next).run.run store = match step.run.run store with
      | (.ok answer, between) => (next answer).run.run between
      | (.error error, between) => (.error error, between) := by
  rw [ExceptT.run_bind, StateT.run_bind]
  change (match step.run.run store with | (outcome, between) => _) = _
  rcases step.run.run store with ⟨_ | _, _⟩ <;> rfl

theorem run_ofExcept (result : Except RequestError α) (store : Store) :
    (ofExcept result).run.run store = (result, store) := by
  cases result <;> rfl

theorem run_query (ask : Store → Except StoreError α) (store : Store) :
    (query ask).run.run store = ((ask store).mapError RequestError.store, store) := by
  have got : (get : Action Store).run.run store = (.ok store, store) := rfl
  rw [query, run_bind, got]
  cases asked : ask store <;> simp only [asked] <;> rfl

theorem run_write (change : Store → Except RequestError (α × Store)) (store : Store) :
    (write change).run.run store = match change store with
      | .ok (answer, after) => (.ok answer, after)
      | .error error => (.error error, store) := by
  have unfolded : (write change).run.run store = (match change store with
      | .ok (answer, after) => (do set after; return answer : Action α)
      | .error error => throw error).run.run store := rfl
  rw [unfolded]
  rcases change store with _ | ⟨_, _⟩ <;> rfl

theorem run_mapM {step : α → Action β} {ask : α → Store → Except RequestError β}
    (asks : ∀ item store, (step item).run.run store = (ask item store, store)) (items : List α) (store : Store) :
    (items.mapM step).run.run store = (items.mapM fun item => ask item store, store) := by
  induction items with
  | nil => rfl
  | cons item rest ih =>
    rw [List.mapM_cons, run_bind, asks, List.mapM_cons]
    cases ask item store with
    | error fault => rfl
    | ok answer =>
      dsimp only
      rw [run_bind, ih]
      cases rest.mapM fun item => ask item store <;> rfl

/-- A step that leaves every store as it is. -/
def Reads (step : Action α) : Prop := ∀ store, (step.run.run store).2 = store

theorem Reads.pure (answer : α) : Reads (Pure.pure answer : Action α) := fun _ => rfl

theorem Reads.bind {step : Action α} {next : α → Action β} (first : step.Reads)
    (later : ∀ answer, (next answer).Reads) : (step >>= next).Reads := by
  intro store
  have same := first store
  rw [run_bind]
  split
  · rename_i answer between ran
    rw [later answer between, ← same, ran]
  · rename_i error between ran
    rw [← same, ran]

theorem Reads.ofExcept (result : Except RequestError α) : (Action.ofExcept result).Reads :=
  fun store => congrArg Prod.snd (run_ofExcept result store)

theorem Reads.query (ask : Store → Except StoreError α) : (Action.query ask).Reads :=
  fun store => congrArg Prod.snd (run_query ask store)

theorem Reads.mapM {step : α → Action β} (reads : ∀ item, (step item).Reads) (items : List α) :
    (items.mapM step).Reads := by
  induction items with
  | nil => exact .pure _
  | cons item rest ih =>
    rw [List.mapM_cons]
    exact (reads item).bind fun _ => ih.bind fun _ => .pure _

end Action

/-! ### Requests -/

structure Request where
  operation : Operation
  envelope : Envelope
  supply : Supply

namespace Repository

theorem reads_showDocument (registry : Registry) (model : Model) (document : Document)
    (fields : List String) : (showDocument registry model document fields).Reads :=
  Action.Reads.bind (fun _ => rfl) fun _ => .ofExcept _

theorem run_showDocument {registry : Registry} (model : Model) (document : Document) (fields : List String)
    (store : Store) :
    (showDocument registry model document fields).run.run store =
      (present registry store model document fields, store) := by
  rw [showDocument, Action.run_bind]
  exact Action.run_ofExcept _ _

/-- What a request answers. -/
def outcome (registry : Registry) (store : Store) (request : Request) : Except RequestError Response :=
  ((execute registry request.supply request.operation request.envelope).run.run store).1

/-- The store that a request leaves, whether it succeeds or fails. -/
def after (registry : Registry) (store : Store) (request : Request) : Store :=
  ((execute registry request.supply request.operation request.envelope).run.run store).2

/-- The store that some requests leave, one after the other, of an empty one. -/
def reached (registry : Registry) (requests : List Request) : Store :=
  requests.foldl (after registry) .empty

/-- What a request is about to do to the documents of a model. -/
inductive Plan where
  | nothing
  /-- The payloads with the documents that they become. -/
  | add (model : Model) (entries : List (Json × Document))
  /-- The payload with the update that it asks for, and the documents as they are read. -/
  | change (model : Model) (value : Json) (update : Update) (found : List Document)
  | drop (model : Model) (dropped : Document → Bool)

/-- The plan of a request; it is made before anything is written. -/
def plan (registry : Registry) (store : Store) (request : Request) : Except RequestError Plan := do
  let envelope := request.envelope
  let model ← registry.lookup envelope.model
  match request.operation with
  | .addEntity =>
    let entity ← payload model "entity" envelope.entity
    let document ← model.prepareInsert request.supply 0 entity
    return .add model [(entity, document)]
  | .addEntities =>
    let entities ← payload model "entities" envelope.entities
    let documents ← entities.zipIdx.mapM fun (entity, index) =>
      model.prepareInsert request.supply index entity
    return .add model (entities.zip documents)
  | .getEntity | .getEntities => return .nothing
  | .updateEntity =>
    let id ← requireId model envelope .updateEntity
    let value ← payload model "value" envelope.value
    let update ← model.parseUpdate request.supply.salt value
    let found ← (store.get model.name id).mapError .store
    return .change model value update found.toList
  | .updateEntities =>
    let query ← requireSelector model envelope .updateEntities
    let value ← payload model "value" envelope.value
    let update ← model.parseUpdate request.supply.salt value
    let found ← (store.find model.name query []).mapError .store
    return .change model value update found
  | .deleteEntity =>
    let id ← requireId model envelope .deleteEntity
    return .drop model fun document => document.id = id
  | .deleteEntities =>
    let query ← requireSelector model envelope .deleteEntities
    let selected ← (store.selected model.name query false).mapError .store
    return .drop model fun document => (selected.map Document.id).contains document.id

/-- The documents that an update changes, as it leaves them. -/
def Plan.changed (model : Model) (now : Timestamp) (update : Update) (found : List Document) :
    List Document :=
  ((found.map fun document => model.applyUpdate now document update).filter (·.1)).map (·.2)

theorem id_of_applyUpdate (model : Model) (now : Timestamp) (document : Document) (update : Update) :
    (model.applyUpdate now document update).2.id = document.id := by
  simp only [Model.applyUpdate]
  split <;> rfl

theorem id_of_applied {model : Model} {now : Timestamp} {document result : Document} {update : Update} {changes : Bool}
    (applied : model.applyUpdate now document update = (changes, result)) : result.id = document.id := by
  rw [← id_of_applyUpdate model now document update, applied]

theorem mem_changed {model : Model} {now : Timestamp} {update : Update} {found : List Document} {result : Document} :
    result ∈ Plan.changed model now update found ↔
      ∃ document ∈ found, model.applyUpdate now document update = (true, result) := by
  simp [Plan.changed]

/-- Carries out a plan. Only an id that is taken is in its way. -/
def Plan.perform (now : Timestamp) (store : Store) : Plan → Except StoreError Store
  | nothing => .ok store
  | add model entries => store.insertMany model.name (entries.map (·.2))
  | change model _ update found => .ok (store.replaceMany model.name (changed model now update found)).2
  | drop model dropped =>
    .ok (store.keep fun row => !(row.collection = model.name && dropped row.document))

/-- A document that is to be changed is written over if it changes. -/
theorem perform_change {model : Model} {now : Timestamp} {update : Update} {document result : Document}
    {changes : Bool} (applied : model.applyUpdate now document update = (changes, result)) (value : Json)
    (store : Store) : (Plan.change model value update [document]).perform now store =
      .ok (if changes then store.overwrite model.name result else store) := by
  cases changes with
  | false =>
    have idle : Plan.changed model now update [document] = [] := by simp [Plan.changed, applied]
    simp [Plan.perform, idle, Store.replaceMany]
  | true =>
    have busy : Plan.changed model now update [document] = [result] := by simp [Plan.changed, applied]
    simp [Plan.perform, busy, Store.replaceMany, Store.replace]

/-- The store after a plan is carried out, if there is one and nothing is in its way. -/
def Plan.outcome (now : Timestamp) (store : Store) : Except RequestError Plan → Store
  | .ok plan => (plan.perform now store).toOption.getD store
  | .error _ => store

/-- A step leaves the store as a plan does. -/
def Carries (step : Action α) (now : Timestamp) (store : Store) (plan : Except RequestError Plan) : Prop :=
  (step.run.run store).2 = Plan.outcome now store plan

section
variable {now : Timestamp} {store : Store} {next : α → Action β}

theorem Carries.ofExcept {result : Except RequestError α} {plan : α → Except RequestError Plan}
    (later : ∀ answer, result = .ok answer → Carries (next answer) now store (plan answer)) :
    Carries (Action.ofExcept result >>= next) now store (result >>= plan) := by
  rw [Carries, Action.run_bind, Action.run_ofExcept]
  cases result with
  | error error => rfl
  | ok answer => exact later answer rfl

theorem Carries.query {ask : Store → Except StoreError α} {plan : α → Except RequestError Plan}
    (later : ∀ answer, Carries (next answer) now store (plan answer)) :
    Carries (Action.query ask >>= next) now store ((ask store).mapError .store >>= plan) := by
  rw [Carries, Action.run_bind, Action.run_query]
  cases ask store with
  | error error => rfl
  | ok answer => exact later answer

theorem Carries.reads {step : Action α} {plan : Plan} (reads : step.Reads)
    (idle : plan.perform now store = .ok store) : Carries step now store (.ok plan) := by
  rw [Carries, reads store, Plan.outcome, idle]
  rfl

theorem Carries.write {change : Store → Except RequestError (α × Store)} {plan : Plan}
    (same : (match change store with | .ok result => result.2 | .error _ => store) =
      (plan.perform now store).toOption.getD store)
    (later : ∀ answer, (next answer).Reads) :
    Carries (Action.write change >>= next) now store (.ok plan) := by
  rw [Carries, Action.run_bind, Action.run_write, Plan.outcome, ← same]
  cases change store with
  | error error => rfl
  | ok result => exact later _ _

end

theorem snd_zip_of_mapM {supply : Supply} {model : Model} {entities : List Json}
    {documents : List Document}
    (prepared : entities.zipIdx.mapM (fun (entity, index) => model.prepareInsert supply index entity) =
      .ok documents) : (entities.zip documents).map (·.2) = documents := by
  refine List.map_snd_zip ?_
  have lengths := (mapM_eq_ok.mp prepared).length_eq
  simp at lengths
  omega

/-- A request carries out its plan, or leaves the store as it is. -/
theorem after_eq (registry : Registry) (store : Store) (request : Request) :
    after registry store request = Plan.outcome request.supply.now store (plan registry store request) := by
  obtain ⟨operation, envelope, supply⟩ := request
  refine Carries.ofExcept fun model _ => ?_
  cases operation with
  | addEntity =>
    refine Carries.ofExcept fun entity _ => Carries.ofExcept fun document _ => Carries.write ?_ fun _ => ?_
    · simp only [insertDocument, Plan.perform, Store.insertMany, List.map_cons, List.map_nil,
        List.foldlM_cons, List.foldlM_nil]
      cases store.insert model.name document <;> rfl
    · split
      · exact .pure _
      · refine (Action.Reads.query _).bind fun found => ?_
        cases found with
        | none => exact .pure _
        | some stored => exact Action.Reads.bind (reads_showDocument _ _ _ _) fun _ => .pure _
  | addEntities =>
    refine Carries.ofExcept fun entities _ => Carries.ofExcept fun documents prepared =>
      Carries.write ?_ fun _ => .pure _
    simp only [insertDocuments, Plan.perform, snd_zip_of_mapM prepared]
    cases store.insertMany model.name documents <;> rfl
  | getEntity =>
    refine Carries.reads ?_ rfl
    refine (Action.Reads.ofExcept _).bind fun id => (Action.Reads.query _).bind fun found => ?_
    cases found with
    | none => exact .pure _
    | some document => exact Action.Reads.bind (reads_showDocument _ _ _ _) fun _ => .pure _
  | getEntities =>
    refine Carries.reads ?_ rfl
    refine (Action.Reads.ofExcept _).bind fun query => (Action.Reads.ofExcept _).bind fun _ =>
      (Action.Reads.query _).bind fun documents => Action.Reads.bind ?_ fun _ => .pure _
    exact .mapM (fun _ => reads_showDocument _ _ _ _) documents
  | updateEntity =>
    refine Carries.ofExcept fun id _ => Carries.ofExcept fun value _ => Carries.ofExcept fun update _ =>
      Carries.query fun found => ?_
    cases found with
    | none => rfl
    | some document =>
      rcases applied : model.applyUpdate supply.now document update with ⟨changes, result⟩
      have performed := perform_change applied value store
      simp only [applied]
      cases changes with
      | false => exact Carries.reads (Action.Reads.bind (reads_showDocument _ _ _ _) fun _ => .pure _) performed
      | true =>
        refine Carries.write ?_ fun _ => Action.Reads.bind (reads_showDocument _ _ _ _) fun _ => .pure _
        rw [Option.toList, performed]
        rfl
  | updateEntities =>
    exact Carries.ofExcept fun query _ => Carries.ofExcept fun value _ => Carries.ofExcept fun update _ =>
      Carries.query fun documents => Carries.write rfl fun _ => .pure _
  | deleteEntity =>
    refine Carries.ofExcept fun id _ => Carries.write ?_ fun _ => .pure _
    have same : (fun row : Row => decide (row.key ≠ (model.name, id))) =
        fun row => !(row.collection = model.name && row.document.id = id) := by
      funext row
      simp [Row.key]
    simp only [Store.delete, same]
    rfl
  | deleteEntities =>
    refine Carries.ofExcept fun query _ => ?_
    rw [Carries, Action.run_bind, Action.run_write]
    simp only [Store.deleteMany]
    cases store.selected model.name query false <;> rfl

/-! ### What the operations answer -/

/-- A step answers something, whatever it writes. -/
def Answers {α : Type} (step : Action α) (store : Store) (answer : Except RequestError α) : Prop :=
  (step.run.run store).1 = answer

section
variable {α β : Type} {next : α → Action β} {more : α → Except RequestError β}

theorem Answers.asks {step : Action α} {answer : Except RequestError α}
    (same : step.run.run store = (answer, store)) (later : ∀ result, Answers (next result) store (more result)) :
    Answers (step >>= next) store (answer >>= more) := by
  rw [Answers, Action.run_bind, same]
  cases answer with
  | error fault => rfl
  | ok result => exact later result

end

theorem outcome_getEntities (registry : Registry) (store : Store) (envelope : Envelope) (supply : Supply) :
    outcome registry store ⟨.getEntities, envelope, supply⟩ = (do
      let model ← registry.lookup envelope.model
      let query ← selector? model envelope
      model.checkSort envelope.sortKeys
      let documents ← (store.find model.name (query.getD []) envelope.sortKeys).mapError .store
      let entities ← documents.mapM fun document => present registry store model document envelope.shown
      return .found entities) :=
  Answers.asks (Action.run_ofExcept _ _) fun _ => Answers.asks (Action.run_ofExcept _ _) fun _ =>
    Answers.asks (Action.run_ofExcept _ _) fun _ => Answers.asks (Action.run_query _ _) fun _ =>
      Answers.asks (Action.run_mapM (fun _ _ => run_showDocument ..) _ _) fun _ => rfl

theorem outcome_updateEntities (registry : Registry) (store : Store) (envelope : Envelope) (supply : Supply) :
    outcome registry store ⟨.updateEntities, envelope, supply⟩ = (do
      let model ← registry.lookup envelope.model
      let query ← requireSelector model envelope .updateEntities
      let value ← payload model "value" envelope.value
      let update ← model.parseUpdate supply.salt value
      let documents ← (store.find model.name query []).mapError .store
      return .updatedAll documents.length
        (store.replaceMany model.name (Plan.changed model supply.now update documents)).1) :=
  Answers.asks (Action.run_ofExcept _ _) fun _ => Answers.asks (Action.run_ofExcept _ _) fun _ =>
    Answers.asks (Action.run_ofExcept _ _) fun _ => Answers.asks (Action.run_ofExcept _ _) fun _ =>
      Answers.asks (Action.run_query _ _) fun _ => rfl

theorem outcome_deleteEntities (registry : Registry) (store : Store) (envelope : Envelope) (supply : Supply) :
    outcome registry store ⟨.deleteEntities, envelope, supply⟩ = (do
      let model ← registry.lookup envelope.model
      let query ← requireSelector model envelope .deleteEntities
      let chosen ← (store.selected model.name query false).mapError .store
      return .deletedAll chosen.length) := by
  refine Answers.asks (Action.run_ofExcept _ _) fun model => Answers.asks (Action.run_ofExcept _ _) fun query => ?_
  rw [Answers, Action.run_bind, Action.run_write]
  simp only [Store.deleteMany]
  cases store.selected model.name query false with
  | error fault => rfl
  | ok chosen => exact congrArg (fun count => Except.ok (Response.deletedAll count)) (List.length_map _)

/-! ### What plans are made of -/

theorem ok_of_payload {model : Model} {name : String} {given : Option α} {value : α}
    (found : payload model name given = .ok value) : given = some value := by
  cases given <;> cases found
  rfl

theorem ok_of_mapError {ε ε' : Type} {outcome : Except ε α} {f : ε → ε'} {result : α}
    (done : outcome.mapError f = .ok result) : outcome = .ok result := by
  cases outcome <;> cases done
  rfl

/-- What a plan for the documents of a model takes from the request and from the store. -/
inductive Planned (model : Model) (store : Store) (request : Request) : Plan → Prop where
  | nothing : Planned model store request .nothing
  | add {entries : List (Json × Document)}
      (prepared : ∀ entry ∈ entries, (entry.1 ∈ request.envelope.entity ∨
        ∃ payloads ∈ request.envelope.entities, entry.1 ∈ payloads) ∧
          ∃ index, model.prepareInsert request.supply index entry.1 = .ok entry.2) :
      Planned model store request (.add model entries)
  | change {value : Json} {update : Update} {found : List Document}
      (given : request.envelope.value = some value)
      (parsed : model.parseUpdate request.supply.salt value = .ok update)
      (read : ∀ document ∈ found,
        ∃ row ∈ store.rows, row.collection = model.name ∧ row.read = .ok document) :
      Planned model store request (.change model value update found)
  | drop (dropped : Document → Bool) : Planned model store request (.drop model dropped)

theorem planned_of_plan {registry : Registry} {store : Store} {request : Request} {plan : Plan}
    (made : Repository.plan registry store request = .ok plan) :
    ∃ model, registry.lookup request.envelope.model = .ok model ∧ Planned model store request plan := by
  obtain ⟨operation, envelope, supply⟩ := request
  obtain ⟨model, known, rest⟩ := bind_eq_ok.mp made
  refine ⟨model, known, ?_⟩
  cases operation with
  | addEntity =>
    obtain ⟨entity, given, others⟩ := bind_eq_ok.mp rest
    obtain ⟨document, prepared, finished⟩ := bind_eq_ok.mp others
    cases finished
    refine .add fun entry member => ?_
    obtain rfl := List.mem_singleton.mp member
    exact ⟨.inl (ok_of_payload given), 0, prepared⟩
  | addEntities =>
    obtain ⟨entities, given, others⟩ := bind_eq_ok.mp rest
    obtain ⟨documents, prepared, finished⟩ := bind_eq_ok.mp others
    cases finished
    exact .add fun entry member =>
      ⟨.inr ⟨entities, ok_of_payload given, (List.of_mem_zip member).1⟩, mem_zip_of_mapM prepared member⟩
  | getEntity | getEntities =>
    cases rest
    exact .nothing
  | updateEntity =>
    obtain ⟨id, _, afterId⟩ := bind_eq_ok.mp rest
    obtain ⟨value, given, afterValue⟩ := bind_eq_ok.mp afterId
    obtain ⟨update, parsed, afterUpdate⟩ := bind_eq_ok.mp afterValue
    obtain ⟨found, got, finished⟩ := bind_eq_ok.mp afterUpdate
    cases finished
    refine .change (ok_of_payload given) parsed fun document member => ?_
    obtain rfl := Option.mem_toList.mp member
    exact Store.mem_of_get (ok_of_mapError got)
  | updateEntities =>
    obtain ⟨query, _, afterQuery⟩ := bind_eq_ok.mp rest
    obtain ⟨value, given, afterValue⟩ := bind_eq_ok.mp afterQuery
    obtain ⟨update, parsed, afterUpdate⟩ := bind_eq_ok.mp afterValue
    obtain ⟨found, got, finished⟩ := bind_eq_ok.mp afterUpdate
    cases finished
    exact .change (ok_of_payload given) parsed fun document => Store.mem_of_find (ok_of_mapError got)
  | deleteEntity =>
    obtain ⟨id, _, finished⟩ := bind_eq_ok.mp rest
    cases finished
    exact .drop _
  | deleteEntities =>
    obtain ⟨query, _, others⟩ := bind_eq_ok.mp rest
    obtain ⟨selected, _, finished⟩ := bind_eq_ok.mp others
    cases finished
    exact .drop _

/-! ### What rows come from -/

/-- How a row comes to be in the store that a request leaves: it was there and nothing that the
request plans changes it, or it was inserted, or it was changed. -/
inductive Arises (registry : Registry) (store : Store) (request : Request) : Row → Prop where
  | kept {row : Row} (member : row ∈ store.rows)
      (unchanged : ∀ {model value update found},
        plan registry store request = .ok (.change model value update found) →
          ∀ document ∈ found, (model.name, document.id) = row.key →
            (model.applyUpdate request.supply.now document update).1 = false) :
      Arises registry store request row
  | inserted {model : Model} {payload : Json} {index : Nat} {document : Document}
      (looked : registry.lookup request.envelope.model = .ok model)
      (given : payload ∈ request.envelope.entity ∨ ∃ payloads ∈ request.envelope.entities, payload ∈ payloads)
      (prepared : model.prepareInsert request.supply index payload = .ok document)
      (fresh : (model.name, document.id) ∉ store.rows.map Row.key) :
      Arises registry store request ⟨model.name, document⟩
  | changed {model : Model} {value : Json} {update : Update} {found : List Document} {document result : Document}
      {stored : Row} (looked : registry.lookup request.envelope.model = .ok model)
      (planned : plan registry store request = .ok (.change model value update found))
      (given : request.envelope.value = some value)
      (parsed : model.parseUpdate request.supply.salt value = .ok update)
      (among : document ∈ found) (member : stored ∈ store.rows) (own : stored.collection = model.name)
      (read : stored.read = .ok document)
      (applied : model.applyUpdate request.supply.now document update = (true, result)) :
      Arises registry store request ⟨model.name, result⟩

/-- What is inserted has ids that are free before. -/
theorem fresh_of_insertMany {store result : Store} {collection : String} {documents : List Document}
    (inserted : store.insertMany collection documents = .ok result) {document : Document}
    (member : document ∈ documents) : (collection, document.id) ∉ store.rows.map Row.key := by
  have distinct := result.distinct
  rw [Store.rows_of_insertMany inserted, List.map_append, List.nodup_append] at distinct
  intro taken
  exact distinct.2.2 _ taken _ (List.mem_map_of_mem (List.mem_map_of_mem member)) rfl

theorem arises_of_after {registry : Registry} {store : Store} {request : Request} {row : Row}
    (member : row ∈ (after registry store request).rows) : Arises registry store request row := by
  rw [after_eq] at member
  cases made : plan registry store request with
  | error fault =>
    rw [made] at member
    exact .kept member fun planned => by cases made.symm.trans planned
  | ok plan =>
    rw [made] at member
    simp only [Plan.outcome] at member
    obtain ⟨model, looked, planned⟩ := planned_of_plan made
    cases planned with
    | nothing => exact .kept member fun also => by cases made.symm.trans also
    | drop dropped =>
      exact .kept (List.mem_filter.mp member).1 fun also => by cases made.symm.trans also
    | @add entries prepared =>
      cases performed : (Plan.add model entries).perform request.supply.now store with
      | error fault =>
        rw [performed] at member
        exact .kept member fun also => by cases made.symm.trans also
      | ok result =>
        rw [performed] at member
        have stored : row ∈ result.rows := member
        rw [Store.rows_of_insertMany performed] at stored
        rcases List.mem_append.mp stored with earlier | added
        · exact .kept earlier fun also => by cases made.symm.trans also
        · obtain ⟨document, listed, rfl⟩ := List.mem_map.mp added
          have fresh := fresh_of_insertMany performed listed
          obtain ⟨⟨payload, _⟩, among, rfl⟩ := List.mem_map.mp listed
          obtain ⟨given, index, own⟩ := prepared _ among
          exact .inserted looked given own fresh
    | @change value update found given parsed read =>
      rcases Store.mem_replaceMany member with ⟨kept, apart⟩ | ⟨result, changed, rfl⟩
      · refine .kept kept fun also document among key => ?_
        cases made.symm.trans also
        -- A document that is changed is written over the row of its key.
        refine Bool.eq_false_iff.mpr fun changes => ?_
        have listed := mem_changed.mpr ⟨document, among, Prod.ext changes rfl⟩
        refine apart _ listed ?_
        rw [← key, id_of_applyUpdate]
      · obtain ⟨document, among, applied⟩ := mem_changed.mp changed
        obtain ⟨stored, listed, own, done⟩ := read document among
        exact .changed looked made given parsed among listed own done applied

end Repository
end Dossier
