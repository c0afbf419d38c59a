import Dossier.Proofs.FaithfulPopulation
import Dossier.Proofs.ManagedStamps

/-! What requests write is what the next ones read. An update shows the document as it holds it
in memory, and a document that is read is populated like it: the way back to the document itself
is closed in both, and the others are read of one store. -/
namespace Dossier

/-- What is stored under a key reads back as the same members. -/
def Store.ReadsBack (store : Store) (collection : String) (id : EntityId) : Prop :=
  ∀ row ∈ store.rows, row.key = (collection, id) →
    ∃ document, row.read = .ok document ∧ Json.sameMembers row.document.body document.body = true

/-- A document is an entity in its cast form, as number `index` of its request: it has the id of
the entity or a fresh one, and the members that are cast, their password hashed, with the stamps. -/
def Model.IsCast (model : Model) (supply : Supply) (index : Nat) (entity : Json) (document : Document) : Prop :=
  ∃ members cast, entity = .object members ∧
    model.payloadId (supply.id index) members = .ok document.id ∧
      castMembers model.name "" model.schema.fields members = .ok cast ∧
        document.body = (model.stamp supply.now (model.hashPassword (supply.salt index) cast)).erase idKey

/-- A response fetches some members, or members that are the same. -/
def Response.IsFetched (body : Body) (response : Response) : Prop :=
  ∃ read, response = .fetched (some read) ∧ Json.sameMembers body read = true

namespace Repository

/-- An envelope asks for one document of a model, with a choice of fields. -/
structure Asks (registry : Registry) (envelope : Envelope) (model : Model) (id : EntityId) (fields : List String) :
    Prop where
  looked : registry.lookup envelope.model = .ok model
  asked : requireId model envelope .getEntity = .ok id
  fields : envelope.shown = fields

/-- What requests on a store write is what is read of the store that they leave. -/
structure ReadsWrites (registry : Registry) (store : Store) : Prop where
  updated : ∀ envelope supply value,
    let request : Request := ⟨.updateEntity, envelope, supply⟩
    let left := after registry store request
    outcome registry store request = .ok (.updated (some value)) →
      ∃ model id, registry.lookup envelope.model = .ok model ∧ requireId model envelope .updateEntity = .ok id ∧
        (left.ReadsBack model.name id → ∀ fetch, Asks registry fetch model id [] → ∀ later, ∃ read,
          outcome registry left ⟨.getEntity, fetch, later⟩ = .ok (.fetched (some read)) ∧
            Json.sameMembers value read = true)
  added : ∀ envelope supply id value, envelope.shown ≠ [] →
    let request : Request := ⟨.addEntity, envelope, supply⟩
    outcome registry store request = .ok (.added id value) →
      ∃ model, registry.lookup envelope.model = .ok model ∧
        ∀ fetch, Asks registry fetch model id envelope.shown → ∀ later,
          outcome registry (after registry store request) ⟨.getEntity, fetch, later⟩ = .ok (.fetched (some value))
  addedAll : ∀ envelope supply ids,
    let request : Request := ⟨.addEntities, envelope, supply⟩
    let left := after registry store request
    outcome registry store request = .ok (.addedAll ids) →
      ∃ model entities documents, registry.lookup envelope.model = .ok model ∧ envelope.entities = some entities ∧
        List.Forall₂ (fun entity document => model.IsCast supply entity.2 entity.1 document) entities.zipIdx documents ∧
          ids = documents.map Document.id ∧ left.rows = store.rows ++ documents.map (⟨model.name, ·⟩) ∧
            ∀ document ∈ documents, left.ReadsBack model.name document.id →
              ∀ fetch fields, Asks registry fetch model document.id fields → ∀ later,
                Agree Response.IsFetched (present registry left model document fields)
                  (outcome registry left ⟨.getEntity, fetch, later⟩)

end Repository

/-! ### Showing the same members -/

section
variable {registry : Registry} {store : Store} {members others : Body}

theorem openId?_of_sameAt {value other : Option Json} (alike : Json.SameAt value other) (chain : Chain)
    (target : String) : openId? chain target value = openId? chain target other := by
  cases alike with
  | none => rfl
  | some own =>
    rename_i value other
    cases value <;> cases other <;> simp only [Json.same, Bool.false_eq_true, beq_iff_eq] at own
    case text => rw [own]
    all_goals rfl

/-- Members that are the same are populated the same. -/
theorem agree_populate (alike : Json.sameMembers members others = true) (depth : Nat) (chain : Chain) (model : Model)
    (wanted : String → Bool) : Agree (fun body other => Json.sameMembers body other = true)
      (populate registry store depth chain model wanted members)
      (populate registry store depth chain model wanted others) := by
  cases depth with
  | zero => exact .ok alike
  | succ depth =>
    refine Agree.foldlM (fun {held other} same reference => ?_) alike
    obtain ⟨path, target⟩ := reference
    dsimp only
    have there : Json.SameAt (Body.get? held path) (Body.get? other path) := Json.sameAt_at? same _
    rw [openReference?_eq, openReference?_eq, openId?_of_sameAt there]
    have set (value : Json) : Json.sameMembers (Body.set held path value) (Body.set other path value) = true :=
      Json.sameMembers_put same (Json.same_refl value) _
    split
    · exact .ok same
    · refine (Agree.of_eq rfl).bind fun known => ?_
      subst known
      split
      · exact .error _
      · exact .ok (set _)
      · refine (Agree.of_eq rfl).bind fun populated => ?_
        subst populated
        exact .ok (set _)

theorem sameMembers_sanitize (model : Model) {document other : Document} (id : document.id = other.id)
    (alike : Json.sameMembers document.body other.body = true) :
    Json.sameMembers (model.sanitize document) (model.sanitize other) = true := by
  unfold Model.sanitize
  rw [id]
  refine Json.sameMembers_insert ?_ (Json.same_refl _) idKey
  split
  · exact Json.sameMembers_drop alike _
  · exact alike

theorem sameMembers_apply (alike : Json.sameMembers members others = true) (projection : Projection) :
    Json.sameMembers (projection.apply members) (projection.apply others) = true := by
  have copied (paths : List String) {target goal : Body} (same : Json.sameMembers target goal = true) :
      Json.sameMembers (paths.foldl (Projection.copy members) target) (paths.foldl (Projection.copy others) goal) =
        true := by
    induction paths generalizing target goal with
    | nil => exact same
    | cons path rest ih =>
      refine ih ?_
      have there : Json.SameAt (members.get? path) (others.get? path) := Json.sameAt_at? alike _
      unfold Projection.copy
      generalize members.get? path = value at there
      generalize others.get? path = other at there
      cases there with
      | none => exact same
      | some own => exact Json.sameMembers_put same own _
  have selected : Json.sameMembers (projection.select members) (projection.select others) = true := by
    unfold Projection.select
    split
    · exact alike
    · refine copied _ ?_
      have there := Json.sameAt_of_sameMembers alike idKey
      generalize members.find? idKey = value at there
      generalize others.find? idKey = other at there
      cases there with
      | none => rfl
      | some own => simp [Json.sameMembers, own]
  unfold Projection.apply
  generalize projection.select members = shown at selected
  generalize projection.select others = also at selected
  generalize projection.excluded.filter (· ≠ idKey) = hidden
  induction hidden generalizing shown also with
  | nil => exact selected
  | cons path rest ih => exact ih _ _ (Json.sameMembers_drop selected _)

/-- Two documents of one id and the same members are shown the same. -/
theorem agree_present {model : Model} {document other : Document} (id : document.id = other.id)
    (alike : Json.sameMembers document.body other.body = true) (fields : List String) :
    Agree (fun body other => Json.sameMembers body other = true) (present registry store model document fields)
      (present registry store model other fields) := by
  unfold present
  rw [id]
  exact (agree_populate (sameMembers_sanitize model id alike) _ _ _ _).bind fun same => .ok (sameMembers_apply same _)

end

/-! ### Requests -/

namespace Repository
variable {registry : Registry} {store : Store} {model : Model} {document read : Document} {fetch : Envelope}
  {fields : List String}

/-- A document whose members are read is fetched as it is shown. -/
theorem agree_fetched (got : store.get model.name document.id = .ok (some read))
    (alike : Json.sameMembers document.body read.body = true) (asks : Asks registry fetch model document.id fields)
    (later : Supply) : Agree Response.IsFetched (present registry store model document fields)
      (outcome registry store ⟨.getEntity, fetch, later⟩) := by
  obtain ⟨same, _⟩ := Store.row_of_get got
  have answers : outcome registry store ⟨.getEntity, fetch, later⟩ =
      (present registry store model read fields >>= fun body => .ok (.fetched (some body))) := by
    rw [outcome_getEntity]
    simp only [asks.looked, asks.asked, got, asks.fields, ok_bind, mapError_ok]
    rfl
  rw [answers, ← bind_pure (present registry store model document fields)]
  exact (agree_present same.symm alike fields).bind fun same => .ok ⟨_, rfl, same⟩

theorem Store.mem_overwrite {row : Row} (member : row ∈ store.rows) (key : row.key = (model.name, document.id)) :
    ⟨model.name, document⟩ ∈ (store.overwrite model.name document).rows :=
  List.mem_map.mpr ⟨row, member, if_pos key⟩

/-- What an update makes of a document is read back as the same members, whether it is written
or nothing changes. -/
theorem exists_of_applyUpdate {update : Update} {now : Timestamp} {left : Store} {changes : Bool} {result : Document}
    (got : store.get model.name document.id = .ok (some document))
    (applied : model.applyUpdate now document update = (changes, result))
    (written : left = if changes then store.overwrite model.name result else store)
    (readsBack : left.ReadsBack model.name document.id) :
    ∃ read, left.get model.name document.id = .ok (some read) ∧ Json.sameMembers result.body read.body = true := by
  cases changes with
  | true =>
    obtain ⟨_, row, member, key, _⟩ := Store.row_of_get got
    have same := id_of_applied applied
    have own : (⟨model.name, result⟩ : Row).key = (model.name, document.id) := by rw [Row.key, same]
    have stored : ⟨model.name, result⟩ ∈ left.rows := by
      rw [written]
      exact Store.mem_overwrite member (same ▸ key)
    obtain ⟨read, done, alike⟩ := readsBack _ stored own
    exact ⟨read, Store.get_of_read stored own done, alike⟩
  | false =>
    refine ⟨document, written ▸ got, ?_⟩
    simp only [Model.applyUpdate] at applied
    split at applied
    · rename_i alike
      cases applied
      exact alike
    · cases applied

theorem isCast_of_prepareInsert {supply : Supply} {index : Nat} {entity : Json}
    (prepared : model.prepareInsert supply index entity = .ok document) :
    model.IsCast supply index entity document := by
  cases entity with
  | object members =>
    obtain ⟨id, named, rest⟩ := bind_eq_ok.mp prepared
    obtain ⟨cast, own, finished⟩ := bind_eq_ok.mp rest
    cases finished
    exact ⟨members, cast, rfl, named, own, rfl⟩
  | _ => cases prepared

end Repository
end Dossier
