import Dossier.Proofs.AlikeStores
import Dossier.Proofs.Population
import Dossier.Proofs.Requests

/-! Requests to two stores of the same documents, which differ at most in their passwords: as
long as no path that they filter or sort by leads to a password, they answer the same. -/
namespace Dossier

/-! ### Populating -/

/-- The documents of models that are read of two stores are alike, but for those of a chain. -/
def Store.GetsAlike (registry : Registry) (chain : Chain) (store other : Store) : Prop :=
  ∀ {target model id}, registry.models.find? target = some model → (target, id) ∉ chain →
    Agree (Option.Rel model.Alike) (store.get model.name id) (other.get model.name id)

theorem Store.GetsAlike.append {registry : Registry} {chain : Chain} {store other : Store}
    (alike : store.GetsAlike registry chain other) (more : Chain) :
    store.GetsAlike registry (chain ++ more) other :=
  fun found away => alike found fun member => away (List.mem_append_left more member)

theorem Store.Twins.getsAlike {registry : Registry} {store other : Store}
    (named : ∀ {name model}, registry.models.find? name = some model → model.name = name)
    (twins : store.Twins registry other) (chain : Chain) : store.GetsAlike registry chain other := by
  intro target model id found _
  obtain rfl := named found
  exact twins.get found id

section
variable {registry : Registry} {store other : Store}

/-- Reads of the documents of a chain are never made below it. -/
theorem populate_of_getsAlike (depth : Nat) {chain : Chain} (model : Model) (wanted : String → Bool)
    (members : Body) (alike : store.GetsAlike registry chain other) :
    populate registry store depth chain model wanted members =
      populate registry other depth chain model wanted members := by
  induction depth generalizing chain model wanted members with
  | zero => rfl
  | succ depth ih =>
    rw [populate, populate]
    congr 1
    funext members reference
    obtain ⟨path, target⟩ := reference
    dsimp only
    cases opened : openReference? chain members path target with
    | none => rfl
    | some id =>
      dsimp only
      cases known : registry.lookup target with
      | error fault => rfl
      | ok inner =>
        have got := alike (Registry.find?_of_lookup known) (notMem_of_openReference? opened)
        simp only [ok_bind]
        generalize store.get inner.name id = outcome at got
        generalize other.get inner.name id = also at got
        cases got with
        | error fault => rfl
        | ok pair =>
          cases pair with
          | none => rfl
          | some documents =>
            dsimp only
            rw [documents.sanitize, ih _ _ _ (alike.append _)]

theorem present_of_alike {model : Model} {document also : Document} (fields : List String)
    (alike : model.Alike document also) (gets : store.GetsAlike registry [(model.name, document.id)] other) :
    present registry store model document fields = present registry other model also fields := by
  simp only [present, alike.sanitize, ← alike.id, populate_of_getsAlike _ _ _ _ gets]

end

/-! ### Steps on two stores -/

namespace Action
variable {α β γ δ : Type} {store other : Store} {left : Store → Store → Prop}

/-- Two steps, each from its own store, answer the same and leave the stores so related. -/
structure Matches (left : Store → Store → Prop) (step also : Action α) (store other : Store) : Prop where
  answer : (step.run.run store).1 = (also.run.run other).1
  stores : left (step.run.run store).2 (also.run.run other).2

theorem Matches.pure (answer : α) (idle : left store other) :
    Matches left (Pure.pure answer) (Pure.pure answer) store other :=
  ⟨rfl, idle⟩

/-- Steps that only ask their stores, with what they do about the outcomes. -/
theorem Matches.asking {related : α → β → Prop} {step : Action α} {also : Action β}
    {outcome : Except RequestError α} {outcome' : Except RequestError β} {next : α → Action γ}
    {next' : β → Action γ} (idle : left store other) (asks : step.run.run store = (outcome, store))
    (asksToo : also.run.run other = (outcome', other)) (agree : Agree related outcome outcome')
    (later : ∀ {answer reply}, related answer reply → Matches left (next answer) (next' reply) store other) :
    Matches left (step >>= next) (also >>= next') store other := by
  constructor
  · rw [run_bind, run_bind, asks, asksToo]
    cases agree with
    | ok pair => exact (later pair).answer
    | error fault => rfl
  · rw [run_bind, run_bind, asks, asksToo]
    cases agree with
    | ok pair => exact (later pair).stores
    | error fault => exact idle

theorem Matches.ofExcept {result : Except RequestError α} {next next' : α → Action γ}
    (idle : left store other)
    (later : ∀ {answer}, result = .ok answer → Matches left (next answer) (next' answer) store other) :
    Matches left (Action.ofExcept result >>= next) (Action.ofExcept result >>= next') store other := by
  have agree : Agree (fun answer reply => answer = reply ∧ result = .ok answer) result result := by
    cases result with
    | ok answer => exact .ok ⟨rfl, rfl⟩
    | error fault => exact .error fault
  refine .asking idle (run_ofExcept _ _) (run_ofExcept _ _) agree ?_
  rintro answer _ ⟨rfl, done⟩
  exact later done

theorem Matches.query {related : α → β → Prop} {ask : Store → Except StoreError α}
    {ask' : Store → Except StoreError β} {next : α → Action γ} {next' : β → Action γ}
    (idle : left store other) (agree : Agree related (ask store) (ask' other))
    (later : ∀ {answer reply}, related answer reply → Matches left (next answer) (next' reply) store other) :
    Matches left (Action.query ask >>= next) (Action.query ask' >>= next') store other :=
  .asking idle (run_query _ _) (run_query _ _) (agree.mapError RequestError.store) later

theorem Matches.write {between : Store → Store → Prop} {change change' : Store → Except RequestError (α × Store)}
    {next next' : α → Action γ} (idle : left store other)
    (agree : Agree (fun result also => result.1 = also.1 ∧ between result.2 also.2) (change store) (change' other))
    (later : ∀ {answer after after'}, between after after' →
      Matches left (next answer) (next' answer) after after') :
    Matches left (Action.write change >>= next) (Action.write change' >>= next') store other := by
  have both : ∀ {outcome outcome' : Except RequestError (α × Store)},
      Agree (fun result also => result.1 = also.1 ∧ between result.2 also.2) outcome outcome' →
      change store = outcome → change' other = outcome' →
        Matches left (Action.write change >>= next) (Action.write change' >>= next') store other := by
    intro outcome outcome' agree first second
    cases agree with
    | @ok result also pair =>
      obtain ⟨answer, after⟩ := result
      obtain ⟨answer', after'⟩ := also
      obtain ⟨rfl, related⟩ := pair
      have matched : Matches left (next answer) (next' answer) after after' := later related
      constructor
      · rw [run_bind, run_bind, run_write, run_write, first, second]
        exact matched.answer
      · rw [run_bind, run_bind, run_write, run_write, first, second]
        exact matched.stores
    | error fault =>
      constructor
      · rw [run_bind, run_bind, run_write, run_write, first, second]
      · rw [run_bind, run_bind, run_write, run_write, first, second]
        exact idle
  exact both agree rfl rfl

end Action

/-! ### Requests -/

namespace Model
variable {model : Model} {path : String}

/-- Requests that filter or sort by the path are refused. -/
def Refuses (model : Model) (path : String) : Prop := ∀ usage, model.guardPassword path usage ≠ .ok ()

/-- Filtering and sorting by the path tells nothing about the password. -/
def IsSafe (model : Model) (path : String) : Prop := model.Refuses path ∨ model.Passes path

/-- What is refused does not depend on the usage. -/
theorem guardPassword_eq_ok {usage : Usage} (guarded : model.guardPassword path usage = .ok ())
    (another : Usage) : model.guardPassword path another = .ok () := by
  unfold guardPassword at guarded ⊢
  split
  · rfl
  · rename_i password given
    simp only [given] at guarded
    split at guarded
    · cases guarded
    · rename_i apart
      rw [if_neg apart]

theorem IsSafe.passes {usage : Usage} (safe : model.IsSafe path)
    (guarded : model.guardPassword path usage = .ok ()) : model.Passes path := by
  rcases safe with refuses | passes
  · exact absurd guarded (refuses usage)
  · exact passes

theorem passes_of_castQuery {query cast : Query} (done : model.castQuery query = .ok cast)
    (safe : ∀ field ∈ query.keys, model.IsSafe field) : ∀ entry ∈ cast, model.Passes entry.1 := by
  intro entry member
  obtain ⟨⟨field, condition⟩, listed, own⟩ := exists_of_mapM done member
  obtain ⟨_, inside, finished⟩ := bind_eq_ok.mp own
  cases finished
  obtain ⟨_, guarded, _⟩ := bind_eq_ok.mp inside
  exact (safe field (List.mem_map.mpr ⟨_, listed, rfl⟩)).passes guarded

theorem passes_of_checkSort {keys : List SortKey} (done : model.checkSort keys = .ok ())
    (safe : ∀ key ∈ keys, model.IsSafe key.field) : ∀ key ∈ keys, model.Passes key.field := by
  unfold checkSort at done
  induction keys with
  | nil => simp
  | cons first rest ih =>
    have steps : (model.guardPassword first.field .sort >>= fun _ =>
        rest.forM fun key => model.guardPassword key.field .sort) = .ok () := done
    obtain ⟨_, guarded, later⟩ := bind_eq_ok.mp steps
    intro key member
    rcases List.mem_cons.mp member with rfl | among
    · exact (safe key List.mem_cons_self).passes guarded
    · exact ih later (fun other member => safe other (List.mem_cons_of_mem _ member)) key among

theorem passes_ids (ids : List EntityId) : ∀ entry ∈ Query.ids ids, model.Passes entry.1 := by
  intro entry member
  obtain rfl := List.mem_singleton.mp member
  exact fun _ _ => .inl rfl

theorem path_of_settleAll {salt : Nat → ByteArray} {index : Nat} {sets settled : List (String × Json)}
    (done : model.settleAll salt index sets = .ok settled) {entry : String × Json} (member : entry ∈ settled) :
    ∃ given ∈ sets, given.1 = entry.1 := by
  induction sets generalizing index settled with
  | nil =>
    cases done
    cases member
  | cons first rest ih =>
    obtain ⟨path, value⟩ := first
    have further {settled : List (String × Json)} {index : Nat}
        (later : model.settleAll salt index rest = .ok settled) (among : entry ∈ settled) :
        ∃ given ∈ (path, value) :: rest, given.1 = entry.1 := by
      obtain ⟨given, listed, same⟩ := ih later among
      exact ⟨given, List.mem_cons_of_mem _ listed, same⟩
    rw [settleAll] at done
    split at done
    · exact further done member
    · obtain ⟨_, _, others⟩ := bind_eq_ok.mp done
      obtain ⟨_, later, finished⟩ := bind_eq_ok.mp others
      cases finished
      rcases List.mem_cons.mp member with rfl | among
      · exact ⟨_, List.mem_cons_self, rfl⟩
      · exact further later among

end Model

/-- The path that a set or an unset is for. -/
def Write.path? : Write → Option String
  | insert _ => none
  | set path _ | unset path => some path

/-- No set or unset of an update payload touches the password. -/
def Model.SparedBy (model : Model) (payload : Json) : Prop :=
  ∀ password ∈ model.schema.behaviors.password, ∀ write ∈ model.writes payload, ∀ path ∈ write.path?,
    Text.Apart (Text.segments path) (Text.segments password)

theorem Model.SparedBy.spares {model : Model} {salt : Nat → ByteArray} {payload : Json} {update : Update}
    (spared : model.SparedBy payload) (parsed : model.parseUpdate salt payload = .ok update) :
    model.Spares update := by
  cases payload with
  | object members =>
    obtain ⟨parts, asked, rest⟩ := bind_eq_ok.mp parsed
    obtain ⟨sets, settled, finished⟩ := bind_eq_ok.mp rest
    cases finished
    have writes : model.writes (.object members) =
        (parts.flatMap (·.1)).map (fun entry => .set entry.1 entry.2) ++
          (parts.flatMap (·.2)).map .unset := by
      simp only [Model.writes, asked]
    intro password given
    constructor
    · intro entry member
      obtain ⟨⟨path, value⟩, listed, same⟩ := path_of_settleAll settled member
      rw [← same]
      refine spared password given (.set path value) ?_ path rfl
      rw [writes]
      exact List.mem_append_left _ (List.mem_map.mpr ⟨_, listed, rfl⟩)
    · intro path member
      refine spared password given (.unset path) ?_ path rfl
      rw [writes]
      exact List.mem_append_right _ (List.mem_map_of_mem (List.mem_filter.mp member).1)
  | _ => cases parsed

namespace Request

/-- The paths that a request filters by; a list of ids takes the place of its filter. -/
def filtered (envelope : Envelope) : List String :=
  match envelope.ids, envelope.filter with
  | none, some filter => filter.query.keys
  | _, _ => []

/-- The paths that a request filters and sorts by. -/
def paths (request : Request) : List String :=
  match request.operation with
  | .getEntities => filtered request.envelope ++ request.envelope.sortKeys.map SortKey.field
  | .updateEntities | .deleteEntities => filtered request.envelope
  | _ => []

/-- If the request is an update, none of its paths touches the password. -/
def Spares (registry : Registry) (request : Request) : Prop :=
  request.operation = .updateEntity ∨ request.operation = .updateEntities →
    ∀ model, registry.lookup request.envelope.model = .ok model →
      ∀ value ∈ request.envelope.value, model.SparedBy value

end Request

namespace Repository
variable {registry : Registry} {store other : Store}

theorem passes_of_selector? {model : Model} {envelope : Envelope} {query : Option Query}
    (done : selector? model envelope = .ok query)
    (safe : ∀ path ∈ Request.filtered envelope, model.IsSafe path) :
    ∀ entry ∈ query.getD [], model.Passes entry.1 := by
  unfold selector? at done
  unfold Request.filtered at safe
  split at done
  · obtain ⟨ids, _, finished⟩ := bind_eq_ok.mp done
    cases finished
    exact Model.passes_ids ids
  · rename_i noIds
    split at done
    · rename_i filter given
      obtain ⟨cast, casting, finished⟩ := bind_eq_ok.mp done
      cases finished
      rw [noIds, given] at safe
      exact Model.passes_of_castQuery casting safe
    · cases done
      simp

theorem passes_of_requireSelector {model : Model} {envelope : Envelope} {operation : Operation}
    {query : Query} (done : requireSelector model envelope operation = .ok query)
    (safe : ∀ path ∈ Request.filtered envelope, model.IsSafe path) : ∀ entry ∈ query, model.Passes entry.1 := by
  obtain ⟨selected, selecting, rest⟩ := bind_eq_ok.mp done
  have passes := passes_of_selector? selecting safe
  cases selected with
  | none => cases rest
  | some given =>
    cases rest
    exact passes

/-- Of alike documents an update changes alike ones. -/
theorem changed_of_alike {model : Model} {update : Update} {documents others : List Document}
    (spares : model.Spares update) (sets : ∀ entry ∈ update.sets, entry.2.Ordered) (now : Timestamp)
    (listed : List.Forall₂ model.Alike documents others) :
    List.Forall₂ model.Alike (Plan.changed model now update documents) (Plan.changed model now update others) := by
  unfold Plan.changed
  induction listed with
  | nil => exact .nil
  | @cons document other rest more first _ ih =>
    obtain ⟨same, updated⟩ := first.applyUpdate spares sets now
    rw [List.map_cons, List.map_cons, List.filter_cons, List.filter_cons, same]
    split
    · exact .cons updated ih
    · exact ih

section
variable {model : Model} {envelope : Envelope} {supply : Supply}
  (named : ∀ {name model}, registry.models.find? name = some model → model.name = name)
  (found : registry.models.find? model.name = some model) (twins : store.Twins registry other)

include twins

theorem matches_addEntities (ordered : envelope.Ordered) :
    Action.Matches (Store.PasswordEquivalent registry) (addEntities supply model envelope)
      (addEntities supply model envelope) store other := by
  refine .ofExcept twins.equivalent fun {entities} given => ?_
  refine .ofExcept twins.equivalent fun {documents} prepared => ?_
  have inOrder : ∀ document ∈ documents, (Json.object document.body).Ordered := by
    intro document member
    obtain ⟨⟨entity, index⟩, listed, own⟩ := exists_of_mapM prepared member
    have among : entity ∈ entities := (List.mem_zipIdx' listed).2 ▸ List.getElem_mem _
    exact Model.ordered_of_prepareInsert (ordered.entities entities (ok_of_payload given) entity among) own
  have inserted : Agree (fun result also : Unit × Store => result.1 = also.1 ∧ result.2.Twins registry also.2)
      (insertDocuments model documents store) (insertDocuments model documents other) := by
    have agree := twins.insertMany model.name inOrder
    unfold insertDocuments
    generalize store.insertMany model.name documents = outcome at agree
    generalize other.insertMany model.name documents = also at agree
    cases agree with
    | ok after => exact .ok ⟨rfl, after⟩
    | error fault => exact .error _
  exact .write twins.equivalent inserted fun after => .pure _ after.equivalent

theorem matches_deleteEntity :
    Action.Matches (Store.PasswordEquivalent registry) (deleteEntity model envelope)
      (deleteEntity model envelope) store other := by
  refine .ofExcept twins.equivalent fun {id} _ => ?_
  have kept : (store.delete model.name id).2.PasswordEquivalent registry (other.delete model.name id).2 := by
    refine twins.equivalent.keep fun {row row'} pair => ?_
    have same : row.key = row'.key := Prod.ext pair.1 pair.2
    rw [same]
  have writes : Agree (fun result also => result.1 = also.1 ∧ result.2.PasswordEquivalent registry also.2)
      (Except.ok ((), (store.delete model.name id).2) : Except RequestError (Unit × Store))
      (Except.ok ((), (other.delete model.name id).2)) := .ok ⟨rfl, kept⟩
  exact .write twins.equivalent writes fun after => .pure _ after

include found

theorem matches_updateEntities (ordered : envelope.Ordered)
    (safe : ∀ path ∈ Request.filtered envelope, model.IsSafe path)
    (spared : ∀ value ∈ envelope.value, model.SparedBy value) :
    Action.Matches (Store.PasswordEquivalent registry) (updateEntities supply model envelope)
      (updateEntities supply model envelope) store other := by
  refine .ofExcept twins.equivalent fun {query} selected => .ofExcept twins.equivalent fun {value} given =>
    .ofExcept twins.equivalent fun {update} parsed => ?_
  have passes := passes_of_requireSelector selected safe
  refine .query twins.equivalent (twins.find found passes (by simp)) fun {documents others} listed => ?_
  have given := ok_of_payload given
  have changed := changed_of_alike ((spared value given).spares parsed)
    (Model.ordered_of_parseUpdate (ordered.value value given) parsed) supply.now listed
  obtain ⟨count, replaced⟩ := twins.equivalent.replaceMany found changed
  have writes : Agree (fun result also => result.1 = also.1 ∧ result.2.PasswordEquivalent registry also.2)
      (Except.ok (store.replaceMany model.name (Plan.changed model supply.now update documents)) :
        Except RequestError (Nat × Store))
      (Except.ok (other.replaceMany model.name (Plan.changed model supply.now update others))) :=
    .ok ⟨count, replaced⟩
  refine .write twins.equivalent writes fun after => ?_
  rw [listed.length_eq]
  exact .pure _ after

theorem matches_deleteEntities (safe : ∀ path ∈ Request.filtered envelope, model.IsSafe path) :
    Action.Matches (Store.PasswordEquivalent registry) (deleteEntities model envelope)
      (deleteEntities model envelope) store other := by
  refine .ofExcept twins.equivalent fun {query} selected => ?_
  have agree := (twins.deleteMany found (passes_of_requireSelector selected safe)).mapError RequestError.store
  refine .write twins.equivalent ?_ fun after => .pure _ after
  generalize store.deleteMany model.name query = outcome at agree ⊢
  generalize other.deleteMany model.name query = also at agree ⊢
  cases outcome <;> cases also <;> exact agree

include named

theorem matches_addEntity (ordered : envelope.Ordered) :
    Action.Matches (Store.PasswordEquivalent registry) (addEntity registry supply model envelope)
      (addEntity registry supply model envelope) store other := by
  refine .ofExcept twins.equivalent fun {entity} given => ?_
  refine .ofExcept twins.equivalent fun {document} prepared => ?_
  have inOrder : (Json.object document.body).Ordered :=
    Model.ordered_of_prepareInsert (ordered.entity entity (ok_of_payload given)) prepared
  have inserted : Agree (fun result also : Unit × Store => result.1 = also.1 ∧ result.2.Twins registry also.2)
      (insertDocument model document store) (insertDocument model document other) := by
    have agree := twins.insert model.name inOrder
    unfold insertDocument
    generalize store.insert model.name document = outcome at agree
    generalize other.insert model.name document = also at agree
    cases agree with
    | ok after => exact .ok ⟨rfl, after⟩
    | error fault => exact .error _
  refine .write twins.equivalent inserted fun after => ?_
  split
  · exact .pure _ after.equivalent
  · refine .query after.equivalent (after.get found document.id) fun pair => ?_
    cases pair with
    | none => exact .pure _ after.equivalent
    | some alike => 
      have shown := present_of_alike envelope.shown alike (after.getsAlike named _)
      refine .asking after.equivalent (run_showDocument _ _ _ _) (run_showDocument _ _ _ _) (.of_eq shown) ?_
      rintro answer _ rfl
      exact .pure _ after.equivalent

theorem matches_getEntity :
    Action.Matches (Store.PasswordEquivalent registry) (getEntity registry model envelope)
      (getEntity registry model envelope) store other := by
  refine .ofExcept twins.equivalent fun {id} _ => ?_
  refine .query twins.equivalent (twins.get found id) fun pair => ?_
  cases pair with
  | none => exact .pure _ twins.equivalent
  | some alike =>
    have shown := present_of_alike envelope.shown alike (twins.getsAlike named _)
    refine .asking twins.equivalent (run_showDocument _ _ _ _) (run_showDocument _ _ _ _) (.of_eq shown) ?_
    rintro answer _ rfl
    exact .pure _ twins.equivalent

theorem matches_getEntities
    (safe : ∀ path ∈ Request.filtered envelope ++ envelope.sortKeys.map SortKey.field, model.IsSafe path) :
    Action.Matches (Store.PasswordEquivalent registry) (getEntities registry model envelope)
      (getEntities registry model envelope) store other := by
  refine .ofExcept twins.equivalent fun {query} selected => ?_
  refine .ofExcept twins.equivalent fun checked => ?_
  have passes := passes_of_selector? selected fun path member => safe path (List.mem_append_left _ member)
  have sorts := Model.passes_of_checkSort checked fun key member =>
    safe key.field (List.mem_append_right _ (List.mem_map_of_mem member))
  refine .query twins.equivalent (twins.find found passes sorts) fun listed => ?_
  have shown := Agree.mapM listed fun alike =>
    Agree.of_eq (present_of_alike envelope.shown alike (twins.getsAlike named _))
  rw [List.forall₂_eq_eq_eq] at shown
  refine .asking twins.equivalent (Action.run_mapM (fun _ _ => run_showDocument _ _ _ _) _ _)
    (Action.run_mapM (fun _ _ => run_showDocument _ _ _ _) _ _) shown ?_
  rintro answer _ rfl
  exact .pure _ twins.equivalent

theorem matches_updateEntity (ordered : envelope.Ordered) (spared : ∀ value ∈ envelope.value, model.SparedBy value) :
    Action.Matches (Store.PasswordEquivalent registry) (updateEntity registry supply model envelope)
      (updateEntity registry supply model envelope) store other := by
  refine .ofExcept twins.equivalent fun {id} _ => .ofExcept twins.equivalent fun {value} given =>
    .ofExcept twins.equivalent fun {update} parsed => ?_
  refine .query twins.equivalent (twins.get found id) fun pair => ?_
  cases pair with
  | none => exact .pure _ twins.equivalent
  | @some document also alike =>
    have given := ok_of_payload given
    obtain ⟨same, updated⟩ := alike.applyUpdate ((spared value given).spares parsed)
      (Model.ordered_of_parseUpdate (ordered.value value given) parsed) supply.now
    dsimp only
    generalize model.applyUpdate supply.now document update = result at same updated
    generalize model.applyUpdate supply.now also update = result' at same updated
    obtain ⟨changed, document⟩ := result
    obtain ⟨changed', document'⟩ := result'
    obtain rfl : changed = changed' := same
    have replaced : (store.overwrite model.name document).PasswordEquivalent registry
        (other.overwrite model.name document') := twins.equivalent.overwrite found updated
    have gets : (store.overwrite model.name document).GetsAlike registry [(model.name, document.id)]
        (other.overwrite model.name document') := by
      intro target inner id listed away
      obtain rfl := named listed
      have different : (inner.name, id) ≠ (model.name, document.id) := by simpa using away
      rw [Store.get_overwrite_of_ne different, Store.get_overwrite_of_ne (updated.id ▸ different)]
      exact twins.get listed id
    cases changed with
    | false =>
      have shown := present_of_alike [] updated (twins.getsAlike named _)
      refine .asking twins.equivalent (run_showDocument _ _ _ _) (run_showDocument _ _ _ _) (.of_eq shown) ?_
      rintro answer _ rfl
      exact .pure _ twins.equivalent
    | true =>
      let Related (after after' : Store) : Prop := after.PasswordEquivalent registry after' ∧
        after.GetsAlike registry [(model.name, document.id)] after'
      have writes : Agree (fun result also => result.1 = also.1 ∧ Related result.2 also.2)
          (Except.ok ((), (store.replace model.name document).2) : Except RequestError (Unit × Store))
          (Except.ok ((), (other.replace model.name document').2)) := .ok ⟨rfl, replaced, gets⟩
      refine .write twins.equivalent writes fun after => ?_
      have shown := present_of_alike [] updated after.2
      refine .asking after.1 (run_showDocument _ _ _ _) (run_showDocument _ _ _ _) (.of_eq shown) ?_
      rintro answer _ rfl
      exact .pure _ after.1

end

/-- Whatever paths a request to two such stores uses, if they are safe it answers the same and
leaves the stores as they differed. -/
theorem matches_execute {request : Request}
    (named : ∀ {name model}, registry.models.find? name = some model → model.name = name)
    (twins : store.Twins registry other) (ordered : request.envelope.Ordered)
    (safe : ∀ model, registry.lookup request.envelope.model = .ok model →
      ∀ path ∈ request.paths, model.IsSafe path)
    (spares : request.Spares registry) :
    Action.Matches (Store.PasswordEquivalent registry)
      (execute registry request.supply request.operation request.envelope)
      (execute registry request.supply request.operation request.envelope) store other := by
  obtain ⟨operation, envelope, supply⟩ := request
  refine .ofExcept twins.equivalent fun {model} known => ?_
  have listed := Registry.find?_of_lookup known
  have found : registry.models.find? model.name = some model := (named listed).symm ▸ listed
  have paths := safe model known
  cases operation with
  | addEntity => exact matches_addEntity named found twins ordered
  | addEntities => exact matches_addEntities twins ordered
  | getEntity => exact matches_getEntity named found twins
  | getEntities => exact matches_getEntities named found twins paths
  | updateEntity => exact matches_updateEntity named found twins ordered (spares (.inl rfl) model known)
  | updateEntities => exact matches_updateEntities found twins ordered paths (spares (.inr rfl) model known)
  | deleteEntity => exact matches_deleteEntity twins
  | deleteEntities => exact matches_deleteEntities found twins paths

end Repository
end Dossier
