import Dossier.Proofs.RegisteredModels
import Dossier.Proofs.Requests

/-! What every write keeps of the documents. A property that insertion gives to bodies, and that
reading back and updates keep, holds of every row of every store that requests reach. -/
namespace Dossier.Repository

/-- A property of bodies that every document of a registered model has from its insertion on. -/
structure Keeps (registry : Registry) (holds : Model → Body → Prop) : Prop where
  insert : ∀ {name model}, registry.models.find? name = some model →
    ∀ {supply index payload document}, payload.Ordered →
      model.prepareInsert supply index payload = .ok document → holds model document.body
  reread : ∀ {model body again}, holds model body → Json.rereadMembers Row.levels body = some again →
    holds model again
  update : ∀ {name model}, registry.models.find? name = some model →
    ∀ {salt payload update document now}, payload.Ordered → model.parseUpdate salt payload = .ok update →
      (Json.object document.body).Ordered → holds model document.body →
        holds model (model.applyUpdate now document update).2.body

/-- A row of a registered model, with its keys in order, of which a property holds. -/
structure Written (registry : Registry) (holds : Model → Body → Prop) (row : Row) : Prop where
  ordered : (Json.object row.document.body).Ordered
  kept : ∃ model, registry.models.find? row.collection = some model ∧ holds model row.document.body

section
variable {registry : Registry} {holds : Model → Body → Prop} {row : Row} {model : Model} {document : Document}

theorem Written.own (written : Written registry holds row)
    (found : registry.models.find? row.collection = some model) : holds model row.document.body := by
  obtain ⟨other, known, own⟩ := written.kept
  exact Option.some.inj (known.symm.trans found) ▸ own

/-- The document that is read of a row has what the row has. -/
theorem Written.read (written : Written registry holds row) (keeps : Keeps registry holds)
    (found : registry.models.find? row.collection = some model) (done : row.read = .ok document) :
    (Json.object document.body).Ordered ∧ holds model document.body := by
  obtain ⟨_, again⟩ := (Row.read_eq_ok written.ordered).mp done
  exact ⟨Row.ordered_of_read written.ordered done, keeps.reread (written.own found) again⟩

theorem written_of_prepareInsert (keeps : Keeps registry holds) (known : registry.models.find? model.name = some model)
    {supply : Supply} {index : Nat} {payload : Json} (inOrder : payload.Ordered)
    (prepared : model.prepareInsert supply index payload = .ok document) :
    Written registry holds ⟨model.name, document⟩ :=
  ⟨Model.ordered_of_prepareInsert inOrder prepared, model, known, keeps.insert known inOrder prepared⟩

/-- The document that is read of a row can take its place again after an update. -/
theorem Written.applyUpdate (written : Written registry holds row) (keeps : Keeps registry holds)
    (found : registry.models.find? row.collection = some model) (done : row.read = .ok document)
    {salt : Nat → ByteArray} {payload : Json} {update : Update} (inOrder : payload.Ordered)
    (parsed : model.parseUpdate salt payload = .ok update) (now : Timestamp) :
    Written registry holds ⟨row.collection, (model.applyUpdate now document update).2⟩ := by
  obtain ⟨whole, held⟩ := written.read keeps found done
  exact ⟨Model.ordered_applyUpdate whole (Model.ordered_of_parseUpdate inOrder parsed) now, model, found,
    keeps.update found inOrder parsed whole held⟩

variable {store : Store} {request : Request}

/-- A request keeps what holds of every row. -/
theorem written_after (keeps : Keeps registry holds)
    (named : ∀ name model, registry.models.find? name = some model → model.name = name)
    (ordered : request.envelope.Ordered) (before : ∀ row ∈ store.rows, Written registry holds row)
    (member : row ∈ (after registry store request).rows) : Written registry holds row := by
  cases arises_of_after member with
  | kept earlier _ => exact before row earlier
  | @inserted model payload index document looked given prepared _ =>
    have found := Registry.find?_of_lookup looked
    have inOrder : payload.Ordered := by
      rcases given with single | ⟨payloads, several, inside⟩
      · exact ordered.entity _ single
      · exact ordered.entities _ several _ inside
    exact written_of_prepareInsert keeps (by rwa [named _ _ found]) inOrder prepared
  | @changed model value update _ document result stored looked _ given parsed _ listed own read applied =>
    have found := Registry.find?_of_lookup looked
    have known : registry.models.find? stored.collection = some model := by rwa [own, named _ _ found]
    have updated := (before stored listed).applyUpdate keeps known read (ordered.value _ given) parsed
      request.supply.now
    rw [applied, own] at updated
    exact updated

/-- Requests one after the other keep what holds of every row. -/
theorem written_run (keeps : Keeps registry holds)
    (named : ∀ name model, registry.models.find? name = some model → model.name = name)
    {requests : List Request} (ordered : ∀ request ∈ requests, request.envelope.Ordered)
    (before : ∀ row ∈ store.rows, Written registry holds row)
    (member : row ∈ (requests.foldl (after registry) store).rows) : Written registry holds row := by
  induction requests generalizing store with
  | nil => exact before row member
  | cons request rest ih =>
    exact ih (fun other listed => ordered other (List.mem_cons_of_mem _ listed))
      (fun row => written_after keeps named (ordered request List.mem_cons_self) before) member

theorem written_of_reached (keeps : Keeps registry holds)
    (named : ∀ name model, registry.models.find? name = some model → model.name = name)
    {requests : List Request} (ordered : ∀ request ∈ requests, request.envelope.Ordered)
    (stored : row ∈ (reached registry requests).rows) : Written registry holds row :=
  written_run keeps named ordered (by simp [Store.empty]) stored

end
end Dossier.Repository
