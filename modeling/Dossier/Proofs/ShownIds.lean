import Dossier.Proofs.ManagedStamps
import Dossier.Proofs.RequestedLeaves

/-! The ids of the documents that requests return. What is shown of a document carries its id,
unless a field takes the id for a reference to another model and the reference is followed. -/
namespace Dossier

/-- A field takes the id of the documents for a reference to another model. -/
def Model.BorrowsId (model : Model) : Prop :=
  ∃ target, (idKey, target) ∈ model.schema.references ∧ target ≠ model.name

/-- Some members carry the id of a document of a collection. -/
def Body.Identifies (body : Body) (store : Store) (collection : String) (id : EntityId) : Prop :=
  store.contains collection id = true ∧ body.find? idKey = some (.text id.text)

namespace Repository

/-- What requests on a store return of its documents carries their ids. -/
structure CarriesIds (registry : Registry) (store : Store) : Prop where
  fetched : ∀ envelope supply body,
    outcome registry store ⟨.getEntity, envelope, supply⟩ = .ok (.fetched (some body)) →
      ∃ model id, registry.lookup envelope.model = .ok model ∧ requireId model envelope .getEntity = .ok id ∧
        body.Identifies store model.name id
  found : ∀ envelope supply bodies, outcome registry store ⟨.getEntities, envelope, supply⟩ = .ok (.found bodies) →
    ∃ model query documents, registry.lookup envelope.model = .ok model ∧ selector? model envelope = .ok query ∧
      store.find model.name (query.getD []) envelope.sortKeys = .ok documents ∧
        List.Forall₂ (fun document body => body.Identifies store model.name document.id) documents bodies
  updated : ∀ envelope supply body,
    outcome registry store ⟨.updateEntity, envelope, supply⟩ = .ok (.updated (some body)) →
      ∃ model id, registry.lookup envelope.model = .ok model ∧ requireId model envelope .updateEntity = .ok id ∧
        body.Identifies store model.name id
  added : ∀ envelope supply id body, envelope.shown ≠ [] →
    outcome registry store ⟨.addEntity, envelope, supply⟩ = .ok (.added id body) →
      ∃ model, registry.lookup envelope.model = .ok model ∧
        body.Identifies (after registry store ⟨.addEntity, envelope, supply⟩) model.name id

end Repository

/-! ### One document -/

section
variable {registry : Registry} {store : Store} {model : Model} {document : Document} {members : Body}

theorem Body.find?_idKey_iff {body : Body} {text : String} :
    body.find? idKey = some (.text text) ↔ body.leaf? [idKey] = some (.text text) :=
  ⟨fun held => Option.filter_eq_some_iff.mpr ⟨held, rfl⟩, fun held => (Option.filter_eq_some_iff.mp held).1⟩

/-- A reference to another model at the id is followed. -/
theorem find?_idKey_ne_of_borrowed {depth : Nat} {wanted : String → Bool} (isWanted : wanted idKey = true)
    (borrows : model.BorrowsId) (populated : populate registry store (depth + 1) [(model.name, document.id)] model
      wanted (model.sanitize document) = .ok members) (text : String) :
    members.find? idKey ≠ some (.text text) := by
  obtain ⟨target, listed, other⟩ := borrows
  have related := populated_at populated listed isWanted
  simp only [Body.get?, Projection.segments_idKey, Body.at?] at related
  rw [Model.find?_sanitize] at related
  have opened : openId? [(model.name, document.id)] target (some (.text document.id.text)) = some document.id :=
    openId?_eq_some.mpr ⟨_, rfl, EntityId.parse?_text _, by simp [other]⟩
  intro held
  obtain ⟨_, answer, _, _, replaced⟩ := related.followed opened
  cases answer with
  | none => cases held.symm.trans replaced
  | some found =>
    obtain ⟨inner, _, object⟩ := replaced
    cases held.symm.trans object

/-- A reference to the model itself leads back to the document, and is not followed. -/
theorem find?_idKey_of_own {depth : Nat} {wanted : String → Bool} (own : wanted idKey = true → ¬ model.BorrowsId)
    (populated : populate registry store depth [(model.name, document.id)] model wanted (model.sanitize document) =
      .ok members) : members.find? idKey = some (.text document.id.text) := by
  have held := model.find?_sanitize document
  by_cases listed : ∃ target, (idKey, target) ∈ model.schema.references ∧ wanted idKey = true
  · obtain ⟨target, listed, isWanted⟩ := listed
    obtain rfl : target = model.name := by
      by_contra other
      exact own isWanted ⟨target, listed, other⟩
    cases depth with
    | zero =>
      cases populated
      exact held
    | succ depth =>
      have related := populated_at populated listed isWanted
      simp only [Body.get?, Projection.segments_idKey, Body.at?] at related
      rw [held] at related
      refine related.unique (.kept ?_)
      simp [openId?, EntityId.parse?_text]
  · rw [Body.find?_idKey_iff] at held ⊢
    rw [← held]
    refine Body.leaf?_of_outline? (outline?_of_populate populated fun reference among isWanted above => listed ?_)
    obtain ⟨path, target⟩ := reference
    obtain rfl := Projection.eq_idKey_of_above above
    exact ⟨target, among, isWanted⟩

/-- What is shown of a document carries its id exactly if the id is not taken for a reference to
another model that is followed. -/
theorem find?_idKey_of_present {fields : List String} {shown : Body}
    (presented : present registry store model document fields = .ok shown) :
    shown.find? idKey = some (.text document.id.text) ↔
      registry.depth = 0 ∨ (Projection.parse fields).wants idKey = false ∨ ¬ model.BorrowsId := by
  obtain ⟨members, populated, finished⟩ := bind_eq_ok.mp presented
  cases finished
  rw [Body.find?_idKey_iff, Projection.leaf?_apply_idKey, ← Body.find?_idKey_iff]
  constructor
  · intro held
    by_contra none
    simp only [not_or, Bool.not_eq_false, not_not] at none
    obtain ⟨deep, isWanted, borrows⟩ := none
    obtain ⟨depth, same⟩ := Nat.exists_eq_succ_of_ne_zero deep
    rw [same] at populated
    exact find?_idKey_ne_of_borrowed isWanted borrows populated _ held
  · rintro (flat | unwanted | own)
    · rw [flat] at populated
      cases populated
      exact model.find?_sanitize document
    · exact find?_idKey_of_own (fun isWanted => by cases unwanted.symm.trans isWanted) populated
    · exact find?_idKey_of_own (fun _ => own) populated

end

/-! ### Requests -/

namespace Repository
variable {registry : Registry} {store : Store}

theorem identifies_of_present {model : Model} (own : registry.depth = 0 ∨ ¬ model.BorrowsId) {document : Document}
    (stored : store.contains model.name document.id = true) {other : Store} {fields : List String} {shown : Body}
    (presented : present registry other model document fields = .ok shown) :
    shown.Identifies store model.name document.id :=
  ⟨stored, (find?_idKey_of_present presented).mpr (own.imp_right .inr)⟩

/-- All requests return documents with their ids, where no id is followed. -/
theorem carriesIds_of_own
    (own : registry.depth = 0 ∨ ∀ name model, registry.models.find? name = some model → ¬ model.BorrowsId) :
    CarriesIds registry store := by
  have each {name : String} {model : Model} (looked : registry.lookup name = .ok model) :
      registry.depth = 0 ∨ ¬ model.BorrowsId := own.imp_right fun all => all _ _ (Registry.find?_of_lookup looked)
  constructor
  case fetched =>
    intro envelope supply body answered
    obtain ⟨model, id, document, looked, asked, got, presented⟩ := fetched_iff.mp answered
    obtain ⟨rfl, _⟩ := Store.row_of_get got
    exact ⟨model, _, looked, asked, identifies_of_present (each looked) (Store.contains_of_get got) presented⟩
  case found =>
    intro envelope supply bodies answered
    rw [outcome_getEntities] at answered
    obtain ⟨model, looked, rest⟩ := bind_eq_ok.mp answered
    obtain ⟨query, selected, others⟩ := bind_eq_ok.mp rest
    obtain ⟨_, _, more⟩ := bind_eq_ok.mp others
    obtain ⟨documents, got, shows⟩ := bind_eq_ok.mp more
    obtain ⟨shown, presented, finished⟩ := bind_eq_ok.mp shows
    cases finished
    have read := ok_of_mapError got
    refine ⟨model, query, documents, looked, selected, read, ?_⟩
    have stored : ∀ document ∈ documents, store.contains model.name document.id = true := by
      intro document member
      obtain ⟨row, listed, collection, done⟩ := Store.mem_of_find read member
      exact Store.contains_iff.mpr ⟨row, listed, Prod.ext collection (Row.id_of_read done).symm⟩
    exact ((List.forall₂_and_left _ _).mpr ⟨stored, mapM_eq_ok.mp presented⟩).imp fun _ _ both =>
      identifies_of_present (each looked) both.1 both.2
  case updated =>
    intro envelope supply body answered
    obtain ⟨model, id, _, update, document, _, result, looked, asked, _, _, got, applied, _, presented⟩ :=
      updated_iff.mp answered
    obtain ⟨rfl, _⟩ := Store.row_of_get got
    have stored := Store.contains_of_get got
    refine ⟨model, _, looked, asked, ?_⟩
    rw [← id_of_applied applied] at stored ⊢
    exact identifies_of_present (each looked) stored presented
  case added =>
    intro envelope supply id body asked answered
    obtain ⟨model, _, _, looked, _, _, _, _, shows⟩ := of_added answered
    obtain ⟨stored, got, presented⟩ := shows asked
    obtain ⟨rfl, _⟩ := Store.row_of_get got
    exact ⟨model, looked, identifies_of_present (each looked) (Store.contains_of_get got) presented⟩

/-- A document whose id is followed is returned without it. -/
theorem not_carriesIds_of_borrowed (closed : registry.IsClosed) {name : String} {model : Model}
    (looked : registry.lookup name = .ok model) (stamps : model.schema.behaviors.stamps = true)
    (deep : registry.depth ≠ 0) (borrows : model.BorrowsId) :
    ¬ CarriesIds registry (reached registry [addBare name]) := by
  intro carries
  have found := Registry.find?_of_lookup looked
  have only : (reached registry [addBare name]).rows = _ := rows_of_addBare looked stamps
  have got : (reached registry [addBare name]).get model.name (EntityId.mint 0 0) = _ := get_addBare looked stamps
  -- No other row is there that could not be read.
  obtain ⟨body, presented⟩ : ∃ body, present registry (reached registry [addBare name]) model
      ⟨EntityId.mint 0 0, Model.stampedBody (supplyAt 0).now⟩ [] = .ok body :=
    exists_of_present closed found (by simp [only, Row.key]) []
  have answered : outcome registry (reached registry [addBare name]) (fetchBare name) = .ok (.fetched (some body)) :=
    fetched_iff.mpr ⟨model, _, _, looked, requireId_of_text rfl _, got, presented⟩
  obtain ⟨_, id, again, asked, _, held⟩ := carries.fetched _ _ _ answered
  obtain rfl := Except.ok.inj (looked.symm.trans again)
  obtain rfl := Except.ok.inj ((requireId_of_text rfl _).symm.trans asked)
  rcases (find?_idKey_of_present presented).mp held with flat | unwanted | own
  · exact deep flat
  · cases unwanted
  · exact own borrows

/-- Every document is returned with its id, of every store that requests reach, exactly if nothing
is populated or no registered model has a field that takes the id for a reference to another
model. -/
theorem carriesIds_iff {definitions : List Declaration} {hasher : Hasher} {options : CompileOptions}
    {base : Registry} (built : Registry.build definitions hasher options = .ok base) (depth : Nat) :
    (∀ requests, (∀ request ∈ requests, request.envelope.Ordered) →
      CarriesIds (base.withDepth depth) (reached (base.withDepth depth) requests)) ↔
        depth = 0 ∨ ∀ name model, base.models.find? name = some model → ¬ model.BorrowsId := by
  have flat : (base.withDepth depth).depth = 0 ↔ depth = 0 := by
    simp [Registry.withDepth, greatestDepth]
  constructor
  · intro carries
    by_contra none
    simp only [not_or, not_forall, not_not] at none
    obtain ⟨deep, name, model, found, borrows⟩ := none
    have looked : (base.withDepth depth).lookup name = .ok model := by
      simp [Registry.lookup, Registry.withDepth, found]
    exact not_carriesIds_of_borrowed (Registry.isClosed_of_build built depth) looked
      (Registry.stamps_of_build built found) (flat.not.mpr deep) borrows
      (carries [addBare name] fun request member => ordered_bareRequests name "" request (by simp_all))
  · intro own requests _
    exact carriesIds_of_own (own.imp_left flat.mpr)

/-- The player and his team are returned with their ids. -/
theorem roster_carriesIds :
    CarriesIds (rosterRegistry.withDepth 2) (reached (rosterRegistry.withDepth 2) rosterRequests) := by
  have built : Registry.build roster markingHasher {} = .ok rosterRegistry := by cbv
  have plain : ∀ entry ∈ rosterRegistry.models, ∀ reference ∈ entry.2.schema.references, reference.1 ≠ idKey := by
    decide +kernel
  refine (carriesIds_iff built 2).mpr (.inr fun name model found => ?_) rosterRequests ordered_rosterRequests
  rintro ⟨target, listed, _⟩
  exact plain _ (Keyed.mem_of_find? found) _ listed rfl

/-- Badges, and guests who go by the id of their badge. -/
def guestList : List Declaration :=
  [⟨"badge", [⟨"title", "text", []⟩], []⟩, ⟨"guest", [⟨"_id", "model.badge", []⟩, ⟨"name", "text", []⟩], []⟩]

def badgeSchema : Schema := ⟨"badge", [("title", .text)], ⟨true, none, []⟩⟩

def guestSchema : Schema := ⟨"guest", [("_id", .reference "badge"), ("name", .text)], ⟨true, none, ["_id"]⟩⟩

def guestRegistry : Registry :=
  { models := [("badge", ⟨badgeSchema, markingHasher⟩), ("guest", ⟨guestSchema, markingHasher⟩)] }

/-- The rules let the field pass, and a guest is returned without his id. -/
theorem guest_not_carriesIds : (∀ definition ∈ guestList, definition.validate = .ok ()) ∧
    Registry.build guestList markingHasher {} = .ok guestRegistry ∧
      ¬ CarriesIds (guestRegistry.withDepth 2) (reached (guestRegistry.withDepth 2) [addBare "guest"]) := by
  have built : Registry.build guestList markingHasher {} = .ok guestRegistry := by cbv
  have listed : ("_id", "badge") ∈ guestSchema.references := by decide +kernel
  refine ⟨by decide +kernel, built, ?_⟩
  exact not_carriesIds_of_borrowed (Registry.isClosed_of_build built 2) rfl rfl (by decide)
    ⟨"badge", listed, by decide⟩

end Repository
end Dossier
