import Dossier.Proofs.Population
import Dossier.Proofs.Requests

/-! Requests that fail. They leave the store as it is: whatever is in the way of a request is met
before it writes, and behind that nothing is but a row that cannot be read. -/
namespace Dossier

/-- Every row of a store that is left can be read, or could be before it was written over. -/
def Store.LeavesReadable (store left : Store) : Prop :=
  ∀ row ∈ left.rows, row.IsReadable ∨ ∃ old ∈ store.rows, old.key = row.key ∧ old.IsReadable

/-- The operations that are there to write. -/
def Operation.Writes : Operation → Prop
  | getEntity | getEntities => False
  | _ => True

namespace Store
variable {store left : Store} {collection : String} {document : Document} {row : Row}

theorem LeavesReadable.of_insert (readable : store.LeavesReadable left)
    (inserted : store.insert collection document = .ok left) : ∀ row ∈ left.rows, row.IsReadable := by
  intro row member
  rcases readable row member with reads | ⟨old, earlier, same, reads⟩
  · exact reads
  · have kept : old ∈ left.rows := by
      rw [rows_of_insert inserted]
      exact List.mem_append_left _ earlier
    exact eq_of_key kept member same ▸ reads

theorem mem_of_mem_overwrite (member : row ∈ (store.overwrite collection document).rows)
    (different : row.key ≠ (collection, document.id)) : row ∈ store.rows := by
  obtain ⟨old, listed, written⟩ := List.mem_map.mp member
  by_cases hit : old.key = (collection, document.id)
  · rw [if_pos hit] at written
    exact absurd (written ▸ rfl) different
  · rw [if_neg hit] at written
    exact written ▸ listed

theorem LeavesReadable.of_overwrite (readable : store.LeavesReadable (store.overwrite collection document)) :
    ∀ row ∈ (store.overwrite collection document).rows, row.key ≠ (collection, document.id) →
      row.IsReadable := by
  intro row member different
  rcases readable row member with reads | ⟨old, earlier, same, reads⟩
  · exact reads
  · exact eq_of_key earlier (mem_of_mem_overwrite member different) same ▸ reads

theorem LeavesReadable.self (readable : store.LeavesReadable store) : ∀ row ∈ store.rows, row.IsReadable := by
  intro row member
  rcases readable row member with reads | ⟨old, earlier, same, reads⟩
  · exact reads
  · exact eq_of_key earlier member same ▸ reads

end Store

namespace Repository
variable {α β : Type}

/-! ### Plans that can be carried out -/

/-- There is a plan, and nothing is in its way. -/
def Plan.Feasible (now : Timestamp) (store : Store) (plan : Except RequestError Plan) : Prop :=
  ∃ made left, plan = .ok made ∧ made.perform now store = .ok left

theorem Plan.outcome_of_not_feasible {now : Timestamp} {store : Store} {plan : Except RequestError Plan}
    (obstructed : ¬ Feasible now store plan) : outcome now store plan = store := by
  cases plan with
  | error fault => rfl
  | ok made =>
    rw [outcome]
    cases performed : made.perform now store with
    | error fault => rfl
    | ok left => exact absurd ⟨made, left, rfl, performed⟩ obstructed

/-- If what the plan leaves can be read, the step succeeds exactly if the plan can be carried
out. -/
def Honors (step : Action α) (now : Timestamp) (store : Store) (plan : Except RequestError Plan) : Prop :=
  store.LeavesReadable (Plan.outcome now store plan) →
    ((∃ answer, (step.run.run store).1 = .ok answer) ↔ Plan.Feasible now store plan)

section
variable {now : Timestamp} {store : Store} {next : α → Action β}

theorem Honors.ofExcept {result : Except RequestError α} {plan : α → Except RequestError Plan}
    (later : ∀ answer, result = .ok answer → Honors (next answer) now store (plan answer)) :
    Honors (Action.ofExcept result >>= next) now store (result >>= plan) := by
  intro readable
  rw [Action.run_bind, Action.run_ofExcept]
  cases result with
  | error fault => simp [Plan.Feasible]
  | ok answer => exact later answer rfl readable

theorem Honors.query {ask : Store → Except StoreError α} {plan : α → Except RequestError Plan}
    (later : ∀ answer, ask store = .ok answer → Honors (next answer) now store (plan answer)) :
    Honors (Action.query ask >>= next) now store ((ask store).mapError .store >>= plan) := by
  intro readable
  rw [Action.run_bind, Action.run_query]
  cases asked : ask store with
  | error fault => simp [Plan.Feasible]
  | ok answer =>
    rw [asked] at readable
    exact later answer asked readable

theorem Honors.write {change : Store → Except RequestError (α × Store)} {plan : Plan}
    (same : (∃ result, change store = .ok result) ↔ ∃ left, plan.perform now store = .ok left)
    (later : ∀ answer left, change store = .ok (answer, left) →
      store.LeavesReadable (Plan.outcome now store (.ok plan)) →
        ∃ final, ((next answer).run.run left).1 = .ok final) :
    Honors (Action.write change >>= next) now store (.ok plan) := by
  intro readable
  have feasible : Plan.Feasible now store (.ok plan) ↔ ∃ left, plan.perform now store = .ok left := by
    simp [Plan.Feasible]
  rw [feasible, ← same, Action.run_bind, Action.run_write]
  cases written : change store with
  | error fault => simp
  | ok result =>
    obtain ⟨final, done⟩ := later result.1 result.2 written readable
    exact ⟨fun _ => ⟨result, rfl⟩, fun _ => ⟨final, done⟩⟩

theorem Honors.answered {step : Action α} {plan : Plan} {left : Store}
    (performed : plan.perform now store = .ok left)
    (answers : store.LeavesReadable left → ∃ answer, (step.run.run store).1 = .ok answer) :
    Honors step now store (.ok plan) := by
  intro readable
  rw [Plan.outcome, performed] at readable
  exact iff_of_true (answers readable) ⟨plan, left, rfl, performed⟩

end

/-! ### Requests that write -/

section
variable {registry : Registry} {model : Model} (closed : registry.IsClosed)
  (registered : registry.models.find? model.name = some model)
include closed registered

/-- A document can be shown if all others in the store can be read. -/
theorem exists_of_showDocument {store : Store} {document : Document}
    (readable : ∀ row ∈ store.rows, row.key ≠ (model.name, document.id) → row.IsReadable)
    (fields : List String) (respond : Body → Response) :
    ∃ answer, ((do return respond (← showDocument registry model document fields) :
      Action Response).run.run store).1 = .ok answer := by
  obtain ⟨body, shown⟩ := exists_of_present closed registered (fun row member _ => readable row member) fields
  refine ⟨respond body, ?_⟩
  rw [Action.run_bind, run_showDocument, shown]
  rfl

/-- Behind its write, nothing is in the way of adding a document. -/
theorem exists_after_add {left : Store} (readable : ∀ row ∈ left.rows, row.IsReadable) (id : EntityId)
    (fields : List String) :
    ∃ answer, ((do
      if fields.isEmpty then return .added id []
      match ← Action.query (·.get model.name id) with
      | some stored => return .added id (← showDocument registry model stored fields)
      | none => return .added id [] : Action Response).run.run left).1 = .ok answer := by
  split
  · exact ⟨_, rfl⟩
  · obtain ⟨found, got⟩ : ∃ found, left.get model.name id = .ok found :=
      Store.exists_of_get fun row member _ => readable row member
    rw [Action.run_bind, Action.run_query, got]
    cases found with
    | none => exact ⟨_, rfl⟩
    | some stored =>
      exact exists_of_showDocument closed registered (fun row member _ => readable row member) fields _

theorem honors_addEntity (supply : Supply) (envelope : Envelope) (store : Store) :
    Honors (addEntity registry supply model envelope) supply.now store (do
      let entity ← payload model "entity" envelope.entity
      let document ← model.prepareInsert supply 0 entity
      return .add model [(entity, document)]) := by
  refine Honors.ofExcept fun entity _ => Honors.ofExcept fun document _ => Honors.write ?_ ?_
  · simp only [insertDocument, Plan.perform, Store.insertMany, List.map_cons, List.map_nil,
      List.foldlM_cons, List.foldlM_nil, bind_pure]
    cases store.insert model.name document <;> simp
  · intro answer left written readable
    have inserted : store.insert model.name document = .ok left := by
      unfold insertDocument at written
      split at written
      · rename_i after done
        cases written
        exact done
      · cases written
    have same : Plan.outcome supply.now store (.ok (.add model [(entity, document)])) = left := by
      simp only [Plan.outcome, Plan.perform, Store.insertMany, List.map_cons, List.map_nil,
        List.foldlM_cons, List.foldlM_nil, bind_pure, inserted]
      rfl
    rw [same] at readable
    exact exists_after_add closed registered (readable.of_insert inserted) document.id envelope.shown

theorem honors_updateEntity (supply : Supply) (envelope : Envelope) (store : Store) :
    Honors (updateEntity registry supply model envelope) supply.now store (do
      let id ← requireId model envelope .updateEntity
      let value ← payload model "value" envelope.value
      let update ← model.parseUpdate supply.salt value
      let found ← (store.get model.name id).mapError .store
      return .change model value update found.toList) := by
  refine Honors.ofExcept fun id _ => Honors.ofExcept fun value _ => Honors.ofExcept fun update _ =>
    Honors.query fun found _ => ?_
  cases found with
  | none => exact Honors.answered rfl fun _ => ⟨_, rfl⟩
  | some document =>
    rcases applied : model.applyUpdate supply.now document update with ⟨changes, result⟩
    have performed := perform_change applied value store
    simp only [applied]
    cases changes with
    | false =>
      refine Honors.answered performed fun readable => ?_
      exact exists_of_showDocument closed registered (fun row member _ => readable.self row member) [] _
    | true =>
      refine Honors.write (iff_of_true ⟨_, rfl⟩ ⟨_, performed⟩) fun answer left written readable => ?_
      cases written
      rw [Option.toList, Plan.outcome, performed] at readable
      -- The row just written is the one that showing its document does not read.
      exact exists_of_showDocument closed registered readable.of_overwrite [] _

end

/-- A request that is there to write succeeds exactly if it can carry out its plan. -/
theorem honors_execute {registry : Registry} (closed : registry.IsClosed) {store : Store} {request : Request}
    (writes : request.operation.Writes) :
    Honors (execute registry request.supply request.operation request.envelope) request.supply.now store
      (plan registry store request) := by
  obtain ⟨operation, envelope, supply⟩ := request
  refine Honors.ofExcept fun model known => ?_
  have registered := closed.find?_name known
  cases operation with
  | addEntity => exact honors_addEntity closed registered supply envelope store
  | addEntities =>
    refine Honors.ofExcept fun entities _ => Honors.ofExcept fun documents prepared =>
      Honors.write ?_ fun _ _ _ _ => ⟨_, rfl⟩
    simp only [insertDocuments, Plan.perform, snd_zip_of_mapM prepared]
    cases store.insertMany model.name documents <;> simp
  | getEntity | getEntities => cases writes
  | updateEntity => exact honors_updateEntity closed registered supply envelope store
  | updateEntities =>
    exact Honors.ofExcept fun query _ => Honors.ofExcept fun value _ => Honors.ofExcept fun update _ =>
      Honors.query fun documents _ => Honors.write (iff_of_true ⟨_, rfl⟩ ⟨_, rfl⟩) fun _ _ _ _ => ⟨_, rfl⟩
  | deleteEntity =>
    exact Honors.ofExcept fun id _ => Honors.write (iff_of_true ⟨_, rfl⟩ ⟨_, rfl⟩) fun _ _ _ _ => ⟨_, rfl⟩
  | deleteEntities =>
    refine Honors.ofExcept fun query _ => ?_
    cases selected : store.selected model.name query false with
    | error fault =>
      refine fun _ => iff_of_false ?_ ?_
      · rw [Action.run_bind, Action.run_write]
        simp [Store.deleteMany, selected]
      · simp [Plan.Feasible]
    | ok documents =>
      refine Honors.write (iff_of_true ?_ ⟨_, rfl⟩) fun _ _ _ _ => ⟨_, rfl⟩
      simp [Store.deleteMany, selected, pure, Except.pure]

/-- A request that only reads has nothing planned, and it answers only if its model is there. -/
theorem plan_of_reading {registry : Registry} {store : Store} {request : Request}
    (reads : ¬ request.operation.Writes) :
    (∃ fault, plan registry store request = .error fault ∧ outcome registry store request = .error fault) ∨
      plan registry store request = .ok .nothing := by
  obtain ⟨operation, envelope, supply⟩ := request
  simp only [plan, outcome, execute, Action.run_bind, Action.run_ofExcept]
  cases registry.lookup envelope.model with
  | error fault => exact .inl ⟨fault, rfl, rfl⟩
  | ok model =>
    cases operation with
    | getEntity | getEntities => exact .inr rfl
    | _ => exact absurd trivial reads

/-- A request is all or nothing: if it fails the store is as before, if it succeeds its plan has
been carried out, and nothing that could fail comes behind a write. -/
structure Atomic (registry : Registry) (store : Store) (request : Request) : Prop where
  failed : ∀ fault, outcome registry store request = .error fault → after registry store request = store
  succeeded : ∀ response, outcome registry store request = .ok response →
    ∃ made, plan registry store request = .ok made ∧
      made.perform request.supply.now store = .ok (after registry store request)
  answered : request.operation.Writes → ∀ made left, plan registry store request = .ok made →
    made.perform request.supply.now store = .ok left →
      ∃ response, outcome registry store request = .ok response

/-- Requests to a registry that was built are all or nothing, if the rows that are stored can be
read. -/
theorem atomic_of_readable {definitions : List Declaration} {hasher : Hasher} {options : CompileOptions}
    {base : Registry} (built : Registry.build definitions hasher options = .ok base) (depth : Nat)
    {store : Store} {request : Request}
    (readable : store.LeavesReadable (after (base.withDepth depth) store request)) :
    Atomic (base.withDepth depth) store request := by
  have closed : (base.withDepth depth).IsClosed := Registry.isClosed_of_build built depth
  have left := after_eq (base.withDepth depth) store request
  by_cases writes : request.operation.Writes
  · have honored := honors_execute closed writes (left ▸ readable)
    refine ⟨fun fault failed => ?_, fun response answered => ?_, fun _ made next planned performed => ?_⟩
    · rw [left]
      apply Plan.outcome_of_not_feasible
      intro feasible
      obtain ⟨response, answered⟩ := honored.mpr feasible
      cases failed.symm.trans answered
    · obtain ⟨made, next, planned, performed⟩ := honored.mp ⟨response, answered⟩
      refine ⟨made, planned, ?_⟩
      rw [left, planned, Plan.outcome, performed]
      rfl
    · exact honored.mpr ⟨made, next, planned, performed⟩
  · rcases plan_of_reading writes with ⟨fault, unplanned, failed⟩ | idle
    · rw [unplanned] at left
      refine ⟨fun _ _ => left, fun response answered => ?_, fun also => absurd also writes⟩
      cases failed.symm.trans answered
    · rw [idle] at left
      exact ⟨fun _ _ => left, fun _ _ => ⟨.nothing, idle, congrArg Except.ok left.symm⟩,
        fun also => absurd also writes⟩

end Repository

/-! ### A roster of players -/

def rosterRegistry : Registry :=
  { models := [("player", ⟨playerSchema, markingHasher⟩), ("team", ⟨teamSchema, markingHasher⟩)] }

def rosterSupply : Supply := ⟨⟨1, by decide⟩, EntityId.mint 0, fun _ => ByteArray.empty⟩

/-- A player of a team, both with the first id. -/
def rosterPlayer : Json :=
  .object [("_id", .text (EntityId.mint 0 0).text),
    ("club", .object [("team", .text (EntityId.mint 0 0).text)]), ("name", .text "ann")]

/-- A team is added, and then a player of it. -/
def rosterRequests : List Request :=
  [⟨.addEntity, { model := "team", entity := some (.object [("title", .text "reds")]) }, rosterSupply⟩,
    ⟨.addEntity, { model := "player", entity := some rosterPlayer }, rosterSupply⟩]

/-- Two more players, of whom the second has an id that is taken. -/
def rosterBatch : Request :=
  let another : Json := .object [("_id", .text (EntityId.mint 0 1).text), ("name", .text "bob")]
  ⟨.addEntities, { model := "player", entities := some [another, rosterPlayer] }, rosterSupply⟩

open Repository in
theorem rosterBatch_atomic :
    let registry := rosterRegistry.withDepth 2
    let store := reached registry rosterRequests
    store.rows.length = 2 ∧ (∃ fault, outcome registry store rosterBatch = .error fault) ∧
      Atomic registry store rosterBatch := by
  intro registry store
  have built : Registry.build roster markingHasher {} = .ok rosterRegistry := by cbv
  have readable : ∀ row ∈ (after registry store rosterBatch).rows, (Json.object row.document.body).Ordered ∧
      (Json.rereadMembers Row.levels row.document.body).isSome = true := by decide +kernel
  refine ⟨by decide +kernel, ?_, atomic_of_readable built 2 fun row member => .inl ?_⟩
  · have fails : (outcome registry store rosterBatch).isOk = false := by decide +kernel
    cases answered : outcome registry store rosterBatch with
    | error fault => exact ⟨fault, rfl⟩
    | ok response =>
      rw [answered] at fails
      cases fails
  · exact (Row.isReadable_iff (readable row member).1).mpr (readable row member).2

end Dossier
