import Dossier.Proofs.EntityRequests
import Dossier.Proofs.FailedRequests
import Dossier.Proofs.SameValues
import Dossier.Proofs.StoredForms

/-! The two stamps of a document over its life. They are the instants of the request that
inserted the document and of the last one that changed it, as long as no update may write
inside of them. -/
namespace Dossier

/-- No path that updates may write leads into a stamp. -/
def Model.GuardsStamps (model : Model) : Prop :=
  ∀ path type, model.writableType? path = some type → ∀ name ∈ (Text.segments path).head?,
    name ≠ createdKey ∧ name ≠ updatedKey

/-- Whether an update makes a body differ elsewhere than at the stamp of its last change. -/
def Update.alters (update : Update) (body : Body) : Bool :=
  !Json.sameMembers ((update.apply body).erase updatedKey) (body.erase updatedKey)

/-- When a document was inserted and when it was last changed. -/
structure Life where
  inserted : Timestamp
  changed : Timestamp
deriving DecidableEq

/-- The stamps of a body are those of a life, in their order. -/
structure Body.IsStamped (body : Body) (life : Life) : Prop where
  created : body.find? createdKey = some (.text life.inserted.text)
  updated : body.find? updatedKey = some (.text life.changed.text)
  order : life.inserted.millis ≤ life.changed.millis

namespace Repository

/-- Whether a request alters a document as it is when the request reads it. -/
def alters (registry : Registry) (store : Store) (request : Request) (key : String × EntityId) : Bool :=
  match plan registry store request with
  | .ok (.change model _ update found) =>
    found.any fun document => (model.name, document.id) = key && update.alters document.body
  | _ => false

/-- What a request makes of the life of a document. -/
def lifeAfter (registry : Registry) (store : Store) (request : Request) (key : String × EntityId)
    (life : Option Life) : Option Life :=
  if (after registry store request).contains key.1 key.2 = false then none
  else if store.contains key.1 key.2 = false then some ⟨request.supply.now, request.supply.now⟩
  else if alters registry store request key then life.map fun life => { life with changed := request.supply.now }
  else life

/-- The lives of all documents after some requests, one after the other, from a store on. -/
def lives (registry : Registry) : Store → (String × EntityId → Option Life) → List Request →
    String × EntityId → Option Life
  | _, past, [] => past
  | store, past, request :: rest =>
    lives registry (after registry store request)
      (fun key => lifeAfter registry store request key (past key)) rest

/-- The instants of some requests do not decrease. -/
def Clocked (requests : List Request) : Prop :=
  (requests.map fun request => request.supply.now.millis).Pairwise (· ≤ ·)

/-- Every document is stamped with the instants of its life, in every store that is reached. -/
def KeepsStamps (registry : Registry) : Prop :=
  ∀ requests, (∀ request ∈ requests, request.envelope.Ordered) → Clocked requests →
    ∀ row ∈ (reached registry requests).rows, ∃ life,
      lives registry .empty (fun _ => none) requests row.key = some life ∧ row.document.body.IsStamped life

end Repository

/-! ### Stamps in writes -/

namespace Model
variable {model : Model} {body : Body} {key : String}

theorem find?_put_of_head {names : List String} (value : Json) (apart : key ∉ names.head?) :
    (body.put value names).find? key = body.find? key := by
  cases names with
  | nil => rfl
  | cons name rest =>
    rw [Body.find?_put_cons, if_neg]
    rintro rfl
    exact apart rfl

theorem find?_drop_of_head {names : List String} (apart : key ∉ names.head?) :
    (body.drop names).find? key = body.find? key := by
  cases names with
  | nil => rfl
  | cons name rest =>
    rw [Body.find?_drop_cons, if_neg]
    rintro rfl
    exact apart rfl

/-- An update leaves alone what no writable path leads to. -/
theorem find?_apply {salt : Nat → ByteArray} {payload : Json} {update : Update}
    (parsed : model.parseUpdate salt payload = .ok update)
    (apart : ∀ path type, model.writableType? path = some type → key ∉ (Text.segments path).head?) :
    (update.apply body).find? key = body.find? key := by
  cases payload with
  | object members =>
    obtain ⟨parts, _, rest⟩ := bind_eq_ok.mp parsed
    obtain ⟨sets, settled, finished⟩ := bind_eq_ok.mp rest
    cases finished
    refine List.foldlRecOn (motive := fun held : Body => held.find? key = body.find? key) _ Body.remove ?_
      fun held same path member => ?_
    · refine List.foldlRecOn (motive := fun held : Body => held.find? key = body.find? key) _ _ rfl
        fun held same entry member => ?_
      obtain ⟨type, _, _, _, writable, _⟩ := settled_of_settleAll settled member
      exact (find?_put_of_head _ (apart _ _ writable)).trans same
    · obtain ⟨type, writable⟩ := Option.isSome_iff_exists.mp (List.mem_filter.mp member).2
      exact (find?_drop_of_head (apart _ _ writable)).trans same
  | _ => cases parsed

theorem GuardsStamps.apart (guards : model.GuardsStamps) (stamp : key = createdKey ∨ key = updatedKey) :
    ∀ path type, model.writableType? path = some type → key ∉ (Text.segments path).head? := by
  intro path type writable leads
  obtain ⟨created, updated⟩ := guards path type writable key leads
  exact stamp.elim created updated

theorem isStamped_of_prepareInsert (stamps : model.schema.behaviors.stamps = true) {supply : Supply} {index : Nat}
    {payload : Json} {document : Document} (prepared : model.prepareInsert supply index payload = .ok document) :
    document.body.IsStamped ⟨supply.now, supply.now⟩ := by
  cases payload with
  | object members =>
    obtain ⟨id, _, rest⟩ := bind_eq_ok.mp prepared
    obtain ⟨body, _, finished⟩ := bind_eq_ok.mp rest
    cases finished
    have apart : idKey ≠ createdKey ∧ idKey ≠ updatedKey ∧ updatedKey ≠ createdKey := by decide
    constructor <;> simp [Document.make, Model.stamp, stamps, Keyed.find?_erase, Keyed.find?_insert, apart]
  | _ => cases prepared

/-- An update alters a body exactly if it changes a document of it. -/
theorem alters_eq (guards : model.GuardsStamps) {salt : Nat → ByteArray} {payload : Json} {update : Update}
    (inOrder : payload.Ordered) (parsed : model.parseUpdate salt payload = .ok update) {document : Document}
    (ordered : (Json.object document.body).Ordered) (now : Timestamp) :
    update.alters document.body = (model.applyUpdate now document update).1 := by
  have applied := (update.ordered_apply ordered (ordered_of_parseUpdate inOrder parsed)).1
  have same : (update.apply document.body).find? updatedKey = document.body.find? updatedKey :=
    find?_apply parsed (guards.apart (.inr rfl))
  have elsewhere : Json.sameMembers ((update.apply document.body).erase updatedKey) (document.body.erase updatedKey) =
      Json.sameMembers (update.apply document.body) document.body := by
    rw [Bool.eq_iff_iff, Json.sameMembers_iff (applied.erase _) (ordered.1.erase _),
      Json.sameMembers_iff applied ordered.1]
    refine forall_congr' fun key => ?_
    rw [Keyed.find?_erase, Keyed.find?_erase]
    split
    · rename_i own
      subst own
      rw [same]
      exact iff_of_true .none (.refl _)
    · exact .rfl
  rw [Update.alters, elsewhere]
  simp only [applyUpdate]
  split
  · rename_i alike
    rw [alike]
    rfl
  · rename_i apart
    rw [Bool.eq_false_iff.mpr apart]
    rfl

/-- A change of a document that is stamped leaves when it was inserted and tells when it was changed. -/
theorem isStamped_of_applyUpdate (guards : model.GuardsStamps) (stamps : model.schema.behaviors.stamps = true)
    {salt : Nat → ByteArray} {payload : Json} {update : Update}
    (parsed : model.parseUpdate salt payload = .ok update) {document result : Document} {now : Timestamp}
    (applied : model.applyUpdate now document update = (true, result)) {life : Life}
    (stamped : document.body.IsStamped life) (later : life.changed.millis ≤ now.millis) :
    result.body.IsStamped { life with changed := now } := by
  simp only [applyUpdate, stamps, if_true] at applied
  split at applied
  · cases applied
  · cases applied
    refine ⟨?_, by simp [Keyed.find?_insert], stamped.order.trans later⟩
    rw [Keyed.find?_insert, if_neg (by decide), find?_apply parsed (guards.apart (.inl rfl))]
    exact stamped.created

end Model

/-! ### Stamps in rows -/

theorem Json.find?_text_of_rereadMembers {levels : Nat} {members read : Body} {key value : String}
    (found : rereadMembers levels members = some read) (held : members.find? key = some (.text value)) :
    read.find? key = some (.text value) := by
  rcases find?_of_rereadMembers found key with ⟨none, _⟩ | ⟨_, _, here, there, own⟩
  · cases none.symm.trans held
  · cases here.symm.trans held
    cases own
    exact there

theorem Body.IsStamped.read {row : Row} {life : Life} {document : Document}
    (stamped : row.document.body.IsStamped life) (ordered : (Json.object row.document.body).Ordered)
    (read : row.read = .ok document) :
    document.body.IsStamped life := by
  obtain ⟨_, again⟩ := (Row.read_eq_ok ordered).mp read
  exact ⟨Json.find?_text_of_rereadMembers again stamped.created,
    Json.find?_text_of_rereadMembers again stamped.updated, stamped.order⟩

/-! ### Runs -/

namespace Repository
variable {registry : Registry} {store : Store} {request : Request} {row : Row}

/-- The models of a registry stamp their documents, and no update may write inside of a stamp. -/
structure Guarded (registry : Registry) : Prop where
  named : ∀ name model, registry.models.find? name = some model → model.name = name
  stamps : ∀ name model, registry.models.find? name = some model → model.schema.behaviors.stamps = true
  guards : ∀ name model, registry.models.find? name = some model → model.GuardsStamps

/-- A row is stamped with the life that its document has had. -/
def Dated (past : String × EntityId → Option Life) (row : Row) : Prop :=
  ∃ life, past row.key = some life ∧ row.document.body.IsStamped life

theorem contains_of_mem (member : row ∈ store.rows) : store.contains row.key.1 row.key.2 = true :=
  List.contains_iff_mem.mpr (List.mem_map_of_mem member)

theorem lifeAfter_of_stored {life : Option Life} (before : store.contains row.key.1 row.key.2 = true)
    (left : row ∈ (after registry store request).rows) : lifeAfter registry store request row.key life =
      if alters registry store request row.key then life.map fun life => { life with changed := request.supply.now }
      else life := by
  simp [lifeAfter, contains_of_mem left, before]

theorem exists_of_alters {key : String × EntityId} (altered : alters registry store request key = true) :
    ∃ model value update found document, plan registry store request = .ok (.change model value update found) ∧
      document ∈ found ∧ (model.name, document.id) = key ∧ update.alters document.body = true := by
  unfold alters at altered
  split at altered
  · rename_i model value update found planned
    obtain ⟨document, among, own⟩ := List.any_eq_true.mp altered
    obtain ⟨same, differs⟩ := Bool.and_eq_true_iff.mp own
    exact ⟨model, value, update, found, document, planned, among, of_decide_eq_true same, differs⟩
  · cases altered

section
variable (guarded : Guarded registry) (ordered : request.envelope.Ordered)
  (inOrder : ∀ row ∈ store.rows, (Json.object row.document.body).Ordered)
include guarded ordered inOrder

/-- Where an update is planned, it alters the documents that it changes. -/
theorem alters_eq_of_planned {model : Model} {value : Json} {update : Update} {found : List Document}
    (planned : plan registry store request = .ok (.change model value update found)) {document : Document}
    (among : document ∈ found) :
    update.alters document.body = (model.applyUpdate request.supply.now document update).1 := by
  obtain ⟨other, looked, parts⟩ := planned_of_plan planned
  cases parts with
  | change given parsed read =>
    obtain ⟨stored, listed, _, done⟩ := read document among
    exact Model.alters_eq (guarded.guards _ _ (Registry.find?_of_lookup looked)) (ordered.value _ given) parsed
      (Row.ordered_of_read (inOrder stored listed) done) _

/-- A request leaves rows that are stamped as it has it. -/
theorem dated_after {past : String × EntityId → Option Life} (before : ∀ row ∈ store.rows, Dated past row)
    (clock : ∀ key life, past key = some life → life.changed.millis ≤ request.supply.now.millis)
    (member : row ∈ (after registry store request).rows) :
    Dated (fun key => lifeAfter registry store request key (past key)) row := by
  cases arises_of_after member with
  | kept earlier unchanged =>
    have unaltered : alters registry store request row.key = false := by
      refine Bool.eq_false_iff.mpr fun altered => ?_
      obtain ⟨model, value, update, found, document, planned, among, key, differs⟩ := exists_of_alters altered
      rw [alters_eq_of_planned guarded ordered inOrder planned among, unchanged planned document among key] at differs
      cases differs
    simpa [Dated, lifeAfter_of_stored (contains_of_mem earlier) member, unaltered] using before row earlier
  | @inserted model _ _ document looked _ prepared fresh =>
    have stamps := guarded.stamps _ _ (Registry.find?_of_lookup looked)
    refine ⟨⟨request.supply.now, request.supply.now⟩, ?_, Model.isStamped_of_prepareInsert stamps prepared⟩
    have absent : store.contains model.name document.id = false := by
      simpa [Store.contains] using fresh
    have here := contains_of_mem member
    simp only [Row.key] at here ⊢
    simp [lifeAfter, here, absent]
  | @changed model value update found document result stored looked planned given parsed among listed own read applied =>
    have known := Registry.find?_of_lookup looked
    obtain ⟨life, lived, stamped⟩ := before stored listed
    have read' := stamped.read (inOrder stored listed) read
    have id : result.id = document.id := id_of_applied applied
    have key : (⟨model.name, result⟩ : Row).key = stored.key := by
      rw [Row.key, Row.key, own, ← Row.id_of_read read, ← id]
    have altered : alters registry store request stored.key = true := by
      unfold alters
      rw [planned]
      refine List.any_eq_true.mpr ⟨document, among, Bool.and_eq_true_iff.mpr ⟨decide_eq_true ?_, ?_⟩⟩
      · rw [← key, Row.key, id]
      · rw [alters_eq_of_planned guarded ordered inOrder planned among, applied]
    refine ⟨{ life with changed := request.supply.now }, ?_, ?_⟩
    · simp only
      rw [lifeAfter_of_stored (key ▸ contains_of_mem listed) member, key, altered, lived]
      rfl
    · exact Model.isStamped_of_applyUpdate (guarded.guards _ _ known) (guarded.stamps _ _ known) parsed applied read'
        (clock _ life lived)

end

theorem changed_of_lifeAfter {key : String × EntityId} {past : Option Life} {life : Life}
    (left : lifeAfter registry store request key past = some life) :
    life.changed = request.supply.now ∨ past = some life := by
  simp only [lifeAfter] at left
  repeat' split at left
  · cases left
  · cases left
    exact .inl rfl
  · obtain ⟨_, _, rfl⟩ := Option.map_eq_some_iff.mp left
    exact .inl rfl
  · exact .inr left

/-- Requests whose instants do not decrease leave rows that are stamped as they have it. -/
theorem dated_run (guarded : Guarded registry) {requests : List Request}
    (ordered : ∀ request ∈ requests, request.envelope.Ordered) (clocked : Clocked requests)
    (written : ∀ row ∈ store.rows, Written registry Model.Shapes row) {past : String × EntityId → Option Life}
    (before : ∀ row ∈ store.rows, Dated past row)
    (clock : ∀ request ∈ requests, ∀ key life, past key = some life →
      life.changed.millis ≤ request.supply.now.millis)
    (member : row ∈ (requests.foldl (after registry) store).rows) :
    Dated (lives registry store past requests) row := by
  induction requests generalizing store past with
  | nil => exact before row member
  | cons request rest ih =>
    obtain ⟨later, clockedRest⟩ := List.pairwise_cons.mp clocked
    have first := ordered request List.mem_cons_self
    refine ih (fun other listed => ordered other (List.mem_cons_of_mem _ listed)) clockedRest
      (fun row => written_after (keeps_shapes registry) guarded.named first written)
      (fun row => dated_after guarded first (fun row listed => (written row listed).ordered) before
        (clock request List.mem_cons_self)) ?_ member
    intro other listed key life left
    rcases changed_of_lifeAfter left with now | earlier
    · rw [now]
      exact later _ (List.mem_map_of_mem listed)
    · exact clock other (List.mem_cons_of_mem _ listed) key life earlier

theorem keepsStamps_of_guarded (guarded : Guarded registry) : KeepsStamps registry :=
  fun _ ordered clocked _ member => dated_run guarded ordered clocked (by simp [Store.empty]) (by simp [Store.empty])
    (by simp) member

/-! ### Writing inside of a stamp -/

/-- What two requests are given, one a millisecond after the other. -/
def supplyAt (millis : Fin 2) : Supply :=
  ⟨⟨millis, by unfold Timestamp.earliest Timestamp.latest; omega⟩, fun _ => EntityId.mint 0 0,
    fun _ => ByteArray.empty⟩

/-- Adds a document without members. -/
def addBare (name : String) : Request :=
  ⟨.addEntity, { model := name, entity := some (.object []) }, supplyAt 0⟩

/-- Puts null at a path of that document. -/
def putNull (name path : String) : Request :=
  ⟨.updateEntity, { model := name, id := some (EntityId.mint 0 0).text, value := some (.object [(path, .null)]) },
    supplyAt 1⟩

/-- Fetches that document. -/
def fetchBare (name : String) : Request :=
  ⟨.getEntity, { model := name, id := some (EntityId.mint 0 0).text }, supplyAt 1⟩

theorem ordered_bareRequests (name path : String) :
    ∀ request ∈ [addBare name, putNull name path], request.envelope.Ordered := by
  simp only [List.mem_cons, List.not_mem_nil, or_false, forall_eq_or_imp, forall_eq]
  refine ⟨⟨?_, by simp [addBare], by simp [addBare]⟩, ⟨by simp [putNull], by simp [putNull], ?_⟩⟩
  · simpa [addBare] using Json.ordered_object_nil
  · have inOrder : (Json.object [(path, .null)]).Ordered := ⟨List.pairwise_singleton _ _, trivial, trivial⟩
    simpa only [putNull, Option.mem_some_iff, forall_eq'] using inOrder

theorem clocked_bareRequests (name path : String) : Clocked [addBare name, putNull name path] := by
  simp [Clocked, addBare, putNull, supplyAt]

section
variable {model : Model} {name path key : String} {type : FieldType}
  (looked : registry.lookup name = .ok model) (stamps : model.schema.behaviors.stamps = true)

include looked stamps in
theorem rows_of_addBare : (after registry .empty (addBare name)).rows =
    [⟨model.name, ⟨EntityId.mint 0 0, Model.stampedBody (supplyAt 0).now⟩⟩] :=
  rows_of_addEntity looked rfl (model.prepareInsert_empty stamps (supplyAt 0) 0) (by simp [Store.empty])

variable (writable : model.writableType? path = some type) (leads : key ∈ (Text.segments path).head?)
  (stamp : key = createdKey ∨ key = updatedKey)
include writable leads stamp

/-- The path does not look like an operator. -/
theorem parseUpdate_of_stamp (salt : Nat → ByteArray) :
    model.parseUpdate salt (.object [(path, .null)]) = .ok ⟨[(path, .null)], []⟩ := by
  refine Model.parseUpdate_null writable ?_
  obtain ⟨rest, same⟩ := List.head?_eq_some_iff.mp leads
  have path_eq : path = Text.dotted (key :: rest) := by rw [← same, Text.dotted_segments]
  have head : key.toList.head? ≠ some '$' ∧ key.toList ≠ [] := by
    rcases stamp with rfl | rfl <;> decide
  rw [path_eq]
  cases rest with
  | nil => simpa [Text.dotted_singleton] using head.1
  | cons next others =>
    rw [Text.dotted_cons key (List.cons_ne_nil _ _), String.toList_append, String.toList_append,
      List.append_assoc, List.head?_append_of_ne_nil _ head.2]
    exact head.1

omit writable stamp in
/-- The stamp is written over. -/
theorem find?_put_null (body : Body) : ∃ value, (body.put .null (Text.segments path)).find? key = some value ∧
    ∀ text, value ≠ .text text := by
  obtain ⟨rest, same⟩ := List.head?_eq_some_iff.mp leads
  rw [same, Body.find?_put_cons, if_pos rfl]
  refine ⟨_, rfl, fun text => ?_⟩
  split <;> simp

omit writable in
include stamps in
theorem applyUpdate_putNull : model.applyUpdate (supplyAt 1).now
    ⟨EntityId.mint 0 0, Model.stampedBody (supplyAt 0).now⟩ ⟨[(path, .null)], []⟩ =
      (true, ⟨EntityId.mint 0 0, ((Model.stampedBody (supplyAt 0).now).put .null (Text.segments path)).insert
        updatedKey (.text (supplyAt 1).now.text)⟩) := by
  have differs : Json.sameMembers ((Model.stampedBody (supplyAt 0).now).put .null (Text.segments path))
      (Model.stampedBody (supplyAt 0).now) = false := by
    refine Bool.eq_false_iff.mpr fun alike => ?_
    obtain ⟨value, here, noText⟩ := find?_put_null leads (Model.stampedBody (supplyAt 0).now)
    have before : (Model.stampedBody (supplyAt 0).now).find? key = some (.text (supplyAt 0).now.text) := by
      rcases stamp with rfl | rfl <;> rfl
    have same := Json.sameAt_of_sameMembers alike key
    rw [here, before] at same
    cases same with
    | some same => cases value <;> simp_all [Json.same]
  simp [Model.applyUpdate, Update.apply, Body.set, differs, stamps]

include looked stamps

omit writable leads stamp in
theorem get_addBare : (after registry .empty (addBare name)).get model.name (EntityId.mint 0 0) =
    .ok (some ⟨EntityId.mint 0 0, Model.stampedBody (supplyAt 0).now⟩) := by
  have stored := rows_of_addBare looked stamps ▸ List.mem_singleton_self _
  exact Store.get_of_read stored rfl (Model.read_stampedBody ..)

theorem rows_of_putNull : (after registry (after registry .empty (addBare name)) (putNull name path)).rows =
    [⟨model.name, EntityId.mint 0 0, ((Model.stampedBody (supplyAt 0).now).put .null (Text.segments path)).insert
      updatedKey (.text (supplyAt 1).now.text)⟩] := by
  rw [putNull, after_updateEntity looked rfl rfl (parseUpdate_of_stamp writable leads stamp _)
    (get_addBare looked stamps) (applyUpdate_putNull stamps leads stamp)]
  simp [Store.overwrite, rows_of_addBare looked stamps, Row.key]

/-- Inside of the stamp of the last change nothing is altered that counts. -/
theorem lives_of_putNull (own : key = updatedKey) :
    lives registry .empty (fun _ => none) [addBare name, putNull name path] (model.name, EntityId.mint 0 0) =
      some ⟨(supplyAt 0).now, (supplyAt 0).now⟩ := by
  have ordered : (Json.object (Model.stampedBody (supplyAt 0).now)).Ordered := Model.ordered_stampedBody _
  have unaltered : Update.alters ⟨[(path, .null)], []⟩ (Model.stampedBody (supplyAt 0).now) = false := by
    have same : ((Model.stampedBody (supplyAt 0).now).put .null (Text.segments path)).erase updatedKey =
        (Model.stampedBody (supplyAt 0).now).erase updatedKey := by
      have null : Json.null.Ordered := trivial
      refine ((Body.ordered_put ordered null _).1.erase _).ext (ordered.1.erase _) fun other => ?_
      rw [Keyed.find?_erase, Keyed.find?_erase]
      split
      · rfl
      · rename_i apart
        obtain ⟨rest, same⟩ := List.head?_eq_some_iff.mp leads
        rw [same, Body.find?_put_cons, if_neg (own ▸ apart)]
    simp [Update.alters, Update.apply, Body.set, same, Json.sameMembers_refl]
  have planned : plan registry (after registry .empty (addBare name)) (putNull name path) = .ok _ :=
    plan_updateEntity looked rfl rfl (parseUpdate_of_stamp writable leads stamp _) (get_addBare looked stamps)
  have altered : alters registry (after registry .empty (addBare name)) (putNull name path)
      (model.name, EntityId.mint 0 0) = false := by
    unfold alters
    rw [planned]
    simp [unaltered]
  have first := contains_of_mem (rows_of_addBare looked stamps ▸ List.mem_singleton_self _)
  have second := contains_of_mem (rows_of_putNull looked stamps writable leads stamp ▸ List.mem_singleton_self _)
  have absent : Store.empty.contains model.name (EntityId.mint 0 0) = false := rfl
  simp only [Row.key] at first second
  simp only [lives, lifeAfter, first, second, absent, altered]
  rfl

/-- A stamp that can be written over is not kept. -/
theorem not_keepsStamps : ¬ KeepsStamps registry := by
  intro keeps
  obtain ⟨life, lived, stamped⟩ := keeps _ (ordered_bareRequests _ _) (clocked_bareRequests _ _) _
    (rows_of_putNull looked stamps writable leads stamp ▸ List.mem_singleton_self _)
  rcases stamp with rfl | rfl
  · obtain ⟨value, here, noText⟩ := find?_put_null leads (Model.stampedBody (supplyAt 0).now)
    have created := stamped.created
    rw [Keyed.find?_insert, if_neg (by decide), here] at created
    exact noText _ (Option.some.inj created)
  · have life_eq := (lives_of_putNull looked stamps writable leads (.inr rfl) rfl).symm.trans lived
    have updated := stamped.updated
    rw [Keyed.find?_insert, if_pos rfl, ← Option.some.inj life_eq] at updated
    have texts : (supplyAt 1).now.text ≠ (supplyAt 0).now.text := by decide +kernel
    exact texts (Json.text.inj (Option.some.inj updated))

end

/-! ### Ids -/

/-- A request leaves every document under its id: it changes documents where they are, or it
takes some away and adds others, and the rest it leaves as they are. -/
def KeepsIds (registry : Registry) : Prop :=
  ∀ store request, (after registry store request).rows.map Row.key = store.rows.map Row.key ∨
    ∃ kept added, (after registry store request).rows = store.rows.filter kept ++ added

theorem keepsIds (registry : Registry) : KeepsIds registry := by
  intro store request
  rw [after_eq]
  cases plan registry store request with
  | error fault => exact .inl rfl
  | ok plan =>
    cases plan with
    | nothing => exact .inl rfl
    | change model value update found => exact .inl (store.keys_replaceMany _ _)
    | drop model dropped => exact .inr ⟨_, [], (List.append_nil _).symm⟩
    | add model entries =>
      simp only [Plan.outcome]
      cases performed : (Plan.add model entries).perform request.supply.now store with
      | error fault => exact .inl rfl
      | ok result =>
        refine .inr ⟨fun _ => true, (entries.map (·.2)).map (⟨model.name, ·⟩), ?_⟩
        rw [List.filter_eq_self.mpr fun _ _ => rfl]
        exact Store.rows_of_insertMany performed

/-- Documents stay under their ids. Their stamps are those of the requests that inserted and last
changed them, exactly if no path leads an update of a registered model into a stamp. -/
theorem keepsStamps_iff {definitions : List Declaration} {hasher : Hasher} {options : CompileOptions}
    {base : Registry} (built : Registry.build definitions hasher options = .ok base) (depth : Nat) :
    KeepsIds (base.withDepth depth) ∧ (KeepsStamps (base.withDepth depth) ↔
      ∀ name model, base.models.find? name = some model → model.GuardsStamps) := by
  refine ⟨keepsIds _, ?_, fun guards => keepsStamps_of_guarded ⟨?_, ?_, guards⟩⟩
  · intro keeps name model found path type writable key leads
    have looked : (base.withDepth depth).lookup name = .ok model := by
      simp [Registry.lookup, Registry.withDepth, found]
    have stamps := Registry.stamps_of_build built found
    constructor
    · intro created
      exact not_keepsStamps looked stamps writable leads (.inl created) keeps
    · intro updated
      exact not_keepsStamps looked stamps writable leads (.inr updated) keeps
  · exact fun name model found => (Registry.parts_of_build built found).1
  · exact fun name model found => Registry.stamps_of_build built found

/-- Nothing leads into a stamp that is no field. -/
theorem guardsStamps_of_undeclared {model : Model} (created : createdKey ∉ model.schema.fields.keys)
    (updated : updatedKey ∉ model.schema.fields.keys) : model.GuardsStamps := by
  intro path type writable name leads
  obtain ⟨rest, same⟩ := List.head?_eq_some_iff.mp leads
  have declared : name ∈ model.schema.fields.keys :=
    FieldType.mem_keys_of_at? (same ▸ Model.typed_of_writable writable)
  exact ⟨fun own => created (own ▸ declared), fun own => updated (own ▸ declared)⟩

/-- A player is added and, a millisecond later, gets null for a name. -/
theorem player_stamped :
    ∃ row ∈ (reached (rosterRegistry.withDepth 2) [addBare "player", putNull "player" "name"]).rows,
      row.document.body.IsStamped ⟨(supplyAt 0).now, (supplyAt 1).now⟩ := by
  have built : Registry.build roster markingHasher {} = .ok rosterRegistry := by cbv
  have guards : ∀ name model, rosterRegistry.models.find? name = some model → model.GuardsStamps := by
    have all : ∀ entry ∈ rosterRegistry.models,
        createdKey ∉ entry.2.schema.fields.keys ∧ updatedKey ∉ entry.2.schema.fields.keys := by decide +kernel
    intro name model found
    obtain ⟨created, updated⟩ := all _ (Keyed.mem_of_find? found)
    exact guardsStamps_of_undeclared created updated
  have keeps := (keepsStamps_iff built 2).2.mpr guards
  have stored : ∃ row ∈ (reached (rosterRegistry.withDepth 2) [addBare "player", putNull "player" "name"]).rows,
      lives (rosterRegistry.withDepth 2) .empty (fun _ => none) [addBare "player", putNull "player" "name"] row.key =
        some ⟨(supplyAt 0).now, (supplyAt 1).now⟩ := by decide +kernel
  obtain ⟨row, member, lived⟩ := stored
  obtain ⟨life, own, stamped⟩ := keeps _ (ordered_bareRequests _ _) (clocked_bareRequests _ _) row member
  obtain rfl := Option.some.inj (own.symm.trans lived)
  exact ⟨row, member, stamped⟩

/-- Notes with a map under the name of a stamp. -/
def signedDeclaration : Declaration := ⟨"note", [.map "createdAt" [⟨"by", "text", []⟩]], []⟩

def signedModel : Model :=
  ⟨⟨"note", [("createdAt", .object [("by", .text)])], ⟨true, none, []⟩⟩, markingHasher⟩

def signedRegistry : Registry := { models := [("note", signedModel)] }

/-- The rules let the name pass, and an update can write into the stamp. -/
theorem signed_not_keepsStamps : signedDeclaration.validate = .ok () ∧
    Registry.build [signedDeclaration] markingHasher {} = .ok signedRegistry ∧
      ¬ KeepsStamps (signedRegistry.withDepth 2) := by
  have looked : (signedRegistry.withDepth 2).lookup "note" = .ok signedModel := rfl
  have writable : signedModel.writableType? "createdAt.by" = some .text := by cbv
  have leads : createdKey ∈ (Text.segments "createdAt.by").head? := by decide +kernel
  exact ⟨by decide +kernel, by cbv, not_keepsStamps looked rfl writable leads (.inl rfl)⟩

end Repository
end Dossier
