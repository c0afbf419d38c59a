import Dossier.Proofs.EntityRequests
import Dossier.Proofs.Selections

/-! Requests for one document by its id. An id can be given on its own, in a list or in a filter.
The first two are read as ids; an operand of a filter is only checked to be one, and then compared
as it is spelled. -/
namespace Dossier

/-! ### Spellings -/

namespace Text

theorem toLower_of_isBlank {c : Char} (blank : isBlank c = true) : c.toLower = c := by
  have range : ¬ (c.toNat ≥ 65 ∧ c.toNat ≤ 90) := by
    simp only [isBlank, blankRanges, List.any_cons, List.any_nil, Bool.or_eq_true, Bool.and_eq_true,
      decide_eq_true_eq, Bool.false_eq_true, or_false] at blank
    omega
  unfold Char.toLower
  exact dif_neg range

end Text

namespace EntityId
variable {raw : String} {id : EntityId}

theorem text_of_parse? (parsed : parse? raw = some id) :
    id.text = String.ofList ((Text.trim raw).toList.map Char.toLower) := by
  simp only [parse?] at parsed
  split at parsed
  · exact (congrArg text (Option.some.inj parsed)).symm
  · cases parsed

/-- The blanks around an id are not read. -/
theorem parse?_trim (parsed : parse? raw = some id) : parse? (Text.trim raw) = some id := by
  have inside : ∀ c ∈ (Text.trim raw).toList, Text.isBlank c = false := by
    intro c member
    have lowered : c.toLower ∈ id.text.toList := by
      rw [text_of_parse? parsed, String.toList_ofList]
      exact List.mem_map_of_mem member
    apply Bool.eq_false_iff.mpr
    intro blank
    have shown : Text.isBlank c.toLower = false := id.isBlank_of_mem_text _ lowered
    rw [Text.toLower_of_isBlank blank, blank] at shown
    cases shown
  rw [parse?, Text.trim_eq_self inside]
  exact parsed

/-- What is read as an id is not blank. -/
theorem trim_ne_empty (parsed : parse? raw = some id) : (Text.trim raw).isEmpty = false := by
  apply Bool.eq_false_iff.mpr
  intro empty
  have read := parse?_trim parsed
  rw [String.isEmpty_iff.mp empty] at read
  cases read

end EntityId

/-! ### Selections of one document -/

/-- The documents of a spelling, as a filter looks for them. -/
def Query.spelled (raw : String) : Query := [(idKey, .compare .eq (.text raw))]

theorem Query.test_spelled (raw : String) (document : Document) :
    test document (spelled raw) = .ok (document.id.text == raw) := by
  have own : Cell.ofField document idKey = .ok (.text document.id.text) := by simp [Cell.ofField]
  have held : (Condition.compare .eq (.text raw)).holds idKey (.text document.id.text) =
      (document.id.text == raw) := by
    rw [Bool.eq_iff_iff, beq_iff_eq]
    simp only [Condition.holds, Condition.relates, Cell.ofOperand, Cell.ofJson, Cell.isNone, Comparison.allows,
      Bool.not_false, Bool.true_and, beq_iff_eq]
    constructor
    · intro same
      exact Cell.text.inj (Cell.eq_of_compare same)
    · intro same
      rw [same]
      exact Cell.compare_self _
  rw [spelled, test, own]
  change (if Condition.holds _ _ _ = true then Except.ok true else Except.ok false) = _
  rw [held]
  cases document.id.text == raw <;> rfl

namespace Store
variable {store : Store} {collection raw : String} {id : EntityId}

theorem selected_spelled (store : Store) (collection raw : String) (byInsertion : Bool) :
    store.selected collection (Query.spelled raw) byInsertion =
      .ok ((store.documents collection).filter fun document => document.id.text == raw) := by
  have order : (Query.spelled raw).inTestOrder byInsertion = Query.spelled raw :=
    Query.inTestOrder_of_compares (fun entry member => ⟨.eq, .text raw, by rw [List.mem_singleton.mp member]⟩) _
  have answerable : (Query.spelled raw).isAnswerable = true := rfl
  unfold selected
  rw [if_pos answerable, order]
  exact filterM_of_ok fun document _ => Query.test_spelled raw document

/-- By its text an id selects what it selects in a list. -/
theorem selected_spelled_text (store : Store) (collection : String) (id : EntityId) (byInsertion : Bool) :
    store.selected collection (Query.spelled id.text) byInsertion =
      store.selected collection (Query.ids [id]) byInsertion := by
  rw [selected_spelled, selected_ids]
  apply congrArg Except.ok
  apply List.filter_congr
  intro document _
  rw [Bool.eq_iff_iff, beq_iff_eq, List.contains_iff_mem, List.mem_singleton]
  constructor
  · exact EntityId.eq_of_text
  · exact congrArg EntityId.text

/-- No document has a spelling for its id that is not the text of an id. -/
theorem selected_spelled_other (parsed : EntityId.parse? raw = some id) (other : raw ≠ id.text) (byInsertion : Bool) :
    store.selected collection (Query.spelled raw) byInsertion = .ok [] := by
  rw [selected_spelled]
  apply congrArg Except.ok
  apply List.filter_eq_nil_iff.mpr
  intro document _ own
  have same : document.id.text = raw := by simpa using own
  rw [← same, EntityId.parse?_text] at parsed
  rw [← Option.some.inj parsed] at other
  exact other same.symm

/-- What is selected by one id is read without being sorted. -/
theorem find_of_asksForOneId {query : Query} {keys : List SortKey} {chosen : List Document}
    (single : query.asksForOneId = true) (picked : store.selected collection query keys.isEmpty = .ok chosen) :
    store.find collection query keys = chosen.mapM fun document => Row.read ⟨collection, document⟩ := by
  rw [find, picked, single, if_pos rfl]
  change (SortKey.sort [] chosen >>= fun sorted => sorted.mapM fun document => Row.read ⟨collection, document⟩) = _
  rw [SortKey.sort_nil]
  rfl

/-- What one id selects is found by one lookup, whatever the documents are sorted by. -/
theorem find_ids_singleton (store : Store) (collection : String) (id : EntityId) (keys : List SortKey) :
    store.find collection (Query.ids [id]) keys = (store.get collection id).map Option.toList := by
  cases there : store.contains collection id with
  | false =>
    rw [find_of_asksForOneId rfl (selected_ids_of_missing there _), get_of_not_contains there]
    rfl
  | true =>
    obtain ⟨row, member, key⟩ := contains_iff.mp there
    obtain ⟨rfl, rfl⟩ : row.collection = collection ∧ row.document.id = id := Prod.mk.inj key
    rw [find_of_asksForOneId rfl (selected_ids_of_mem member _), get_of_mem member rfl, List.mapM_cons, List.mapM_nil]
    cases row.read <;> rfl

end Store

/-! ### Requests for one document -/

namespace Envelope

/-- An envelope that asks for one document. -/
def byId (envelope : Envelope) (raw : String) : Envelope := { envelope with id := some raw }

/-- An envelope that asks for the documents of a list with one id. -/
def byIds (envelope : Envelope) (raw : String) : Envelope := { envelope with ids := some [raw] }

/-- An envelope that asks for the documents whose id equals an operand. -/
def byFilter (envelope : Envelope) (raw : String) : Envelope :=
  { envelope with ids := none, filter := some (.single ⟨idKey, .eq, some (.text raw)⟩) }

end Envelope

namespace Repository
variable {registry : Registry} {store : Store} {model : Model} {envelope : Envelope} {supply : Supply}
  {raw : String} {id : EntityId}

/-- It does not matter whether an id is given on its own, in a list or in a filter. -/
structure RoutesAgree (registry : Registry) (store : Store) (model : Model) (envelope : Envelope) (supply : Supply)
    (raw : String) : Prop where
  read : outcome registry store ⟨.getEntities, envelope.byFilter raw, supply⟩ =
    outcome registry store ⟨.getEntities, envelope.byIds raw, supply⟩
  /-- Unless the sort of the list is refused, it shows what is shown of the single document. -/
  single : model.checkSort envelope.sortKeys = .ok () → ∃ answer : Except RequestError (Option Body),
    outcome registry store ⟨.getEntity, envelope.byId raw, supply⟩ = answer.map .fetched ∧
      outcome registry store ⟨.getEntities, envelope.byIds raw, supply⟩ = answer.map fun shown => .found shown.toList
  updated : outcome registry store ⟨.updateEntities, envelope.byFilter raw, supply⟩ =
    outcome registry store ⟨.updateEntities, envelope.byIds raw, supply⟩
  left : after registry store ⟨.updateEntities, envelope.byFilter raw, supply⟩ =
    after registry store ⟨.updateEntities, envelope.byIds raw, supply⟩
  deleted : outcome registry store ⟨.deleteEntities, envelope.byFilter raw, supply⟩ =
    outcome registry store ⟨.deleteEntities, envelope.byIds raw, supply⟩
  kept : after registry store ⟨.deleteEntities, envelope.byFilter raw, supply⟩ =
    after registry store ⟨.deleteEntities, envelope.byIds raw, supply⟩

theorem selector?_byIds (parsed : EntityId.parse? raw = some id) :
    selector? model (envelope.byIds raw) = .ok (some (Query.ids [id])) := by
  have ids : [raw].mapM (parseId model) = .ok [id] := mapM_eq_ok.mpr (.cons (parseId_eq_ok.mpr parsed) .nil)
  exact bind_eq_ok.mpr ⟨[id], ids, rfl⟩

/-- A filter for an id is the query for its spelling, if it is not refused. -/
theorem selector?_byFilter (parsed : EntityId.parse? raw = some id) :
    selector? model (envelope.byFilter raw) =
      (model.guardPassword idKey .filter).map fun _ => some (Query.spelled raw) := by
  have checked : model.checkId (.text raw) = .ok (.text raw) := by simp [Model.checkId, parsed]
  cases admitted : model.guardPassword idKey .filter with
  | error fault =>
    have refused : model.castQuery (Query.spelled raw) = .error fault := by
      simp [Model.castQuery, Query.spelled, Model.castCondition, admitted]
    exact congrArg (· >>= fun query => .ok (some query)) refused
  | ok =>
    have cast : model.castQuery (Query.spelled raw) = .ok (Query.spelled raw) := by
      simp [Model.castQuery, Query.spelled, Model.castCondition, admitted, Condition.mapM, checked, pure, Except.pure]
    exact congrArg (· >>= fun query => .ok (some query)) cast

theorem requireId_byId (parsed : EntityId.parse? raw = some id) (operation : Operation) :
    requireId model (envelope.byId raw) operation = .ok id := by
  have shown : (Text.trim raw).isEmpty = false := EntityId.trim_ne_empty parsed
  have read : EntityId.parse? (Text.trim raw) = some id := EntityId.parse?_trim parsed
  simp [requireId, Envelope.byId, shown, parseId, read]

/-- A list with one id shows what is shown of the document of the id. -/
theorem exists_answer (known : registry.lookup envelope.model = .ok model)
    (parsed : EntityId.parse? raw = some id) (sortable : model.checkSort envelope.sortKeys = .ok ()) :
    ∃ answer : Except RequestError (Option Body),
      outcome registry store ⟨.getEntity, envelope.byId raw, supply⟩ = answer.map .fetched ∧
        outcome registry store ⟨.getEntities, envelope.byIds raw, supply⟩ =
          answer.map fun shown => .found shown.toList := by
  have alone : registry.lookup (envelope.byId raw).model = .ok model := known
  have listed : registry.lookup (envelope.byIds raw).model = .ok model := known
  have sorts : model.checkSort (envelope.byIds raw).sortKeys = .ok () := sortable
  rw [outcome_getEntity, outcome_getEntities, alone, listed]
  simp only [ok_bind, requireId_byId parsed, selector?_byIds parsed, sorts, Option.getD_some,
    Store.find_ids_singleton]
  cases store.get model.name id with
  | error fault => exact ⟨.error (.store fault), rfl, rfl⟩
  | ok found =>
    cases found with
    | none => exact ⟨.ok none, rfl, rfl⟩
    | some document =>
      refine ⟨(present registry store model document envelope.shown).map some, ?_, ?_⟩
      · change (present registry store model document envelope.shown >>= fun shown => _) = _
        cases present registry store model document envelope.shown <;> rfl
      · change (do
          let shown ← [document].mapM fun document => present registry store model document envelope.shown
          return Response.found shown) = _
        rw [List.mapM_cons, List.mapM_nil]
        cases present registry store model document envelope.shown <;> rfl

theorem routesAgree_of_selected (known : registry.lookup envelope.model = .ok model)
    (parsed : EntityId.parse? raw = some id) (admitted : model.guardPassword idKey .filter = .ok ())
    (same : ∀ byInsertion, store.selected model.name (Query.spelled raw) byInsertion =
      store.selected model.name (Query.ids [id]) byInsertion) :
    RoutesAgree registry store model envelope supply raw := by
  have listed : registry.lookup (envelope.byIds raw).model = .ok model := known
  have filtered : registry.lookup (envelope.byFilter raw).model = .ok model := known
  have byIds : selector? model (envelope.byIds raw) = .ok (some (Query.ids [id])) := selector?_byIds parsed
  have byFilter : selector? model (envelope.byFilter raw) = .ok (some (Query.spelled raw)) := by
    rw [selector?_byFilter parsed, admitted]
    rfl
  have found (keys : List SortKey) : store.find model.name (Query.spelled raw) keys =
      store.find model.name (Query.ids [id]) keys := by
    rw [Store.find, Store.find, same]
    rfl
  constructor
  case read =>
    rw [outcome_getEntities, outcome_getEntities, listed, filtered]
    simp only [ok_bind, byIds, byFilter, Option.getD_some, found]
    rfl
  case single => exact exists_answer known parsed
  case updated =>
    rw [outcome_updateEntities, outcome_updateEntities, listed, filtered]
    simp only [ok_bind, requireSelector, byIds, byFilter, pure, Except.pure, found]
    rfl
  case left =>
    rw [after_eq, after_eq]
    simp only [plan, ok_bind, requireSelector, listed, filtered, byIds, byFilter, pure, Except.pure, found]
    rfl
  case deleted =>
    rw [outcome_deleteEntities, outcome_deleteEntities, listed, filtered]
    simp only [ok_bind, requireSelector, byIds, byFilter, pure, Except.pure, same]
  case kept =>
    rw [after_eq, after_eq]
    simp only [plan, ok_bind, requireSelector, listed, filtered, byIds, byFilter, pure, Except.pure, same]

theorem outcome_deleteEntities_byIds (known : registry.lookup envelope.model = .ok model)
    (parsed : EntityId.parse? raw = some id) :
    outcome registry store ⟨.deleteEntities, envelope.byIds raw, supply⟩ =
      .ok (.deletedAll (if store.contains model.name id then 1 else 0)) := by
  have listed : registry.lookup (envelope.byIds raw).model = .ok model := known
  cases there : store.contains model.name id with
  | false =>
    exact outcome_deleteEntities_of_selected listed (selector?_byIds parsed)
      (Store.selected_ids_of_missing there false)
  | true =>
    obtain ⟨row, member, key⟩ := Store.contains_iff.mp there
    have picked : store.selected model.name (Query.ids [id]) false = .ok [row.document] := by
      obtain ⟨own, same⟩ : row.collection = model.name ∧ row.document.id = id := Prod.mk.inj key
      rw [← own, ← same, Store.selected_ids_of_mem member]
    exact outcome_deleteEntities_of_selected listed (selector?_byIds parsed) picked

/-- The routes agree exactly as long as the filter may ask for ids and the id is spelled as its
text is, or no document has it. -/
theorem routesAgree_iff (known : registry.lookup envelope.model = .ok model)
    (parsed : EntityId.parse? raw = some id) :
    RoutesAgree registry store model envelope supply raw ↔
      model.guardPassword idKey .filter = .ok () ∧ (raw = id.text ∨ store.contains model.name id = false) := by
  constructor
  · intro agree
    -- A delete tells by its count what was selected.
    have counted := agree.deleted
    rw [outcome_deleteEntities_byIds known parsed] at counted
    have filtered : registry.lookup (envelope.byFilter raw).model = .ok model := known
    cases admitted : model.guardPassword idKey .filter with
    | error fault =>
      have refused : selector? model (envelope.byFilter raw) = .error fault := by
        rw [selector?_byFilter parsed, admitted]
        rfl
      rw [outcome_deleteEntities, filtered] at counted
      simp [requireSelector, refused] at counted
    | ok =>
      have byFilter : selector? model (envelope.byFilter raw) = .ok (some (Query.spelled raw)) := by
        rw [selector?_byFilter parsed, admitted]
        rfl
      apply And.intro rfl
      by_cases canonical : raw = id.text
      · exact .inl canonical
      · rw [outcome_deleteEntities_of_selected filtered byFilter
          (Store.selected_spelled_other parsed canonical false)] at counted
        apply Or.inr
        cases there : store.contains model.name id with
        | false => rfl
        | true => simp [there] at counted
  · intro condition
    obtain ⟨admitted, spelled⟩ := condition
    apply routesAgree_of_selected known parsed admitted
    intro byInsertion
    by_cases canonical : raw = id.text
    · rw [canonical, Store.selected_spelled_text]
    · have missing : store.contains model.name id = false := spelled.resolve_left canonical
      rw [Store.selected_spelled_other parsed canonical, Store.selected_ids_of_missing missing]

theorem player_routesAgree :
    let registry := rosterRegistry.withDepth 2
    let store := reached registry rosterRequests
    store.contains "player" (EntityId.mint 0 0) = true ∧
      RoutesAgree registry store ⟨playerSchema, markingHasher⟩ { model := "player" } rosterSupply
        (EntityId.mint 0 0).text := by
  intro registry store
  have known : registry.lookup "player" = .ok ⟨playerSchema, markingHasher⟩ := by cbv
  have stored : store.contains "player" (EntityId.mint 0 0) = true := by decide +kernel
  have admitted : Model.guardPassword ⟨playerSchema, markingHasher⟩ idKey .filter = .ok () := by cbv
  exact ⟨stored, (routesAgree_iff known (EntityId.parse?_text _)).mpr ⟨admitted, .inl rfl⟩⟩

/-- A team whose id has a letter in it. -/
def letteredId : EntityId := EntityId.mint 0 10

def letteredRequests : List Request :=
  [⟨.addEntity, { model := "team", entity := some (.object [("_id", .text letteredId.text)]) }, rosterSupply⟩]

/-- In a list the letter may be a capital, in a filter it may not. -/
theorem capital_routes_differ :
    let registry := rosterRegistry.withDepth 2
    let store := reached registry letteredRequests
    let envelope : Envelope := { model := "team" }
    let raw := "00000000-0000-7000-8000-00000000000A"
    EntityId.parse? raw = some letteredId ∧
      outcome registry store ⟨.deleteEntities, envelope.byIds raw, rosterSupply⟩ = .ok (.deletedAll 1) ∧
      outcome registry store ⟨.deleteEntities, envelope.byFilter raw, rosterSupply⟩ = .ok (.deletedAll 0) ∧
      ¬ RoutesAgree registry store ⟨teamSchema, markingHasher⟩ envelope rosterSupply raw := by
  intro registry store envelope raw
  have known : registry.lookup "team" = .ok ⟨teamSchema, markingHasher⟩ := by cbv
  have parsed : EntityId.parse? raw = some letteredId := by decide +kernel
  have stored : store.contains (Model.name ⟨teamSchema, markingHasher⟩) letteredId = true := by decide +kernel
  have other : raw ≠ letteredId.text := by decide +kernel
  have byIds : outcome registry store ⟨.deleteEntities, envelope.byIds raw, rosterSupply⟩ = .ok (.deletedAll 1) := by
    rw [outcome_deleteEntities_byIds known parsed, stored]
    rfl
  have selects : selector? ⟨teamSchema, markingHasher⟩ (envelope.byFilter raw) = .ok (some (Query.spelled raw)) := by
    rw [selector?_byFilter parsed]
    rfl
  have byFilter : outcome registry store ⟨.deleteEntities, envelope.byFilter raw, rosterSupply⟩ =
      .ok (.deletedAll 0) :=
    outcome_deleteEntities_of_selected known selects (Store.selected_spelled_other parsed other false)
  refine ⟨parsed, byIds, byFilter, ?_⟩
  intro agree
  cases byFilter.symm.trans (agree.deleted.trans byIds)

end Repository
end Dossier
