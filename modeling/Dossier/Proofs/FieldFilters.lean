import Dossier.Proofs.ProjectedDocuments
import Dossier.Proofs.SampleDocuments
import Dossier.Proofs.Selections
import Dossier.Proofs.SortedAnswers
import Dossier.Proofs.StoredForms

/-! Filters on declared fields. The documents that are found are those of which the comparison
holds at the field, exactly if the store reads the names on the path as they are written and
takes no other declared place for it. -/
namespace Dossier

/-! ### Fields that filters read -/

/-- Types whose values are neither arrays nor maps. -/
def FieldType.IsFlat : FieldType → Prop
  | .array | .object _ => False
  | _ => True

namespace Model
variable {model : Model} {path : String}

/-- Filters on a path are admitted, and lead where the path leads in every document: the store
reads its names as they are written and takes no other declared place for it. -/
structure TellsField (model : Model) (path : String) : Prop where
  admitted : model.guardPassword path .filter = .ok ()
  spelled : ∀ name ∈ Text.segments path, KeyPath.SpellsItself name
  alone : ∀ place type, FieldType.at? model.schema.fields place = some type →
    List.Forall₂ KeyPath.TakenFor (Text.segments path) place → place = Text.segments path

/-- Whatever stands in a body stands at a declared place or is a stamp. -/
theorem Shapes.typed {body : Body} (shapes : model.Shapes body) {place : List String} (nonempty : place ≠ [])
    {value : Json} (held : body.at? place = some value) :
    (∃ type, FieldType.at? model.schema.fields place = some type) ∨
      (place = [createdKey] ∨ place = [updatedKey]) ∧ value.members? = none := by
  induction place using List.reverseRecOn generalizing value with
  | nil => exact absurd rfl nonempty
  | append_singleton outer name ih =>
    by_cases top : outer = []
    · subst top
      rcases shapes.keys held with declared | ⟨_, own, _, rfl⟩
      · exact .inl (Keyed.exists_of_mem_keys declared)
      · exact .inr ⟨own.imp (congrArg ([·])) (congrArg ([·])), rfl⟩
    · obtain ⟨members, found, member⟩ := Body.object_of_at?_append top held
      rcases ih top found with ⟨type, typed⟩ | ⟨_, text⟩
      · obtain ⟨fields, rfl, declared⟩ := (shapes.places typed found).object
        obtain ⟨inner, here⟩ := Keyed.exists_of_mem_keys (declared name member)
        exact .inl ⟨inner, by rw [FieldType.at?_append top, typed]; exact here⟩
      · cases text

/-- Of a field that filters tell the store sees what stands at its path. -/
theorem TellsField.shows {document : Document} (tells : model.TellsField path) (shapes : model.Shapes document.body)
    (ordered : (Json.object document.body).Ordered) : document.Shows path := by
  by_cases own : path = idKey
  · exact own ▸ document.shows_idKey
  · obtain ⟨found, followed, led⟩ := KeyPath.follow_of_spellsItself tells.spelled ordered
    have there : found = (Json.object document.body).under? (Text.segments path) := by
      refine led.resolve_right fun ⟨place, inner, taken, other, held⟩ => other ?_
      have nonempty : place ≠ [] := by
        rintro rfl
        cases taken.length_eq ▸ List.length_pos_of_ne_nil (Text.segments_ne_nil path)
      rw [← Body.at?_eq_under? nonempty] at held
      rcases shapes.typed nonempty held with ⟨type, typed⟩ | ⟨stamp, _⟩
      · exact tells.alone place type typed taken
      · exact KeyPath.eq_of_taken taken (by rcases stamp with rfl | rfl <;> decide)
    unfold Document.Shows Cell.ofField Document.cell Document.valueAt?
    rw [if_neg own, if_neg own, Document.foldl_descend, KeyPath.steps, followed, there]
    cases (Json.object document.body).under? (Text.segments path) <;> rfl

end Model

/-! ### Clauses -/

namespace Repository

/-- A request for the documents that one clause selects. -/
def clauseEnvelope (model : Model) (clause : Clause) (fields : Option (List String)) : Envelope :=
  { model := model.name, filter := some (.single clause), fields }

/-- A clause on a field finds the documents of which the comparison holds with the operand as it
is cast, and no others. -/
def Filters (registry : Registry) (store : Store) (model : Model) (path : String) (type : FieldType) : Prop :=
  ∀ comparison operand result, castValue model.name path type operand = .ok result → ∀ fields supply,
    ∃ entities, Fetches registry store model (clauseEnvelope model ⟨path, comparison, some operand⟩ fields) supply
      ((store.documents model.name).filter fun document =>
        (Condition.compare comparison result).holds path (document.cell path)) entities

/-- A document can be read and shown. -/
def Shown (registry : Registry) (store : Store) (model : Model) (document : Document) : Prop :=
  ∃ read, (⟨model.name, document⟩ : Row).read = .ok read ∧
    ∀ fields, ∃ entity, present registry store model read fields = .ok entity

section
variable {registry : Registry} {store : Store} {model : Model} {path : String} {type : FieldType}
  {operand result : Json} {fields : Option (List String)} {supply : Supply}

theorem selector?_clauseEnvelope (admitted : model.guardPassword path .filter = .ok ())
    (free : path ∉ reservedNames) (typed : model.schema.fieldType? path = some type) (flat : type.IsFlat)
    (comparison : Comparison) (cast : castValue model.name path type operand = .ok result) :
    selector? model (clauseEnvelope model ⟨path, comparison, some operand⟩ fields) =
      .ok (some [(path, .compare comparison result)]) := by
  simp only [reservedNames, List.mem_cons, List.not_mem_nil, or_false, not_or] at free
  have known : model.fieldType? path = some type := by
    rw [Model.fieldType?, if_neg (by simp [free]), typed]
  have query : model.castQuery [(path, .compare comparison operand)] = .ok [(path, .compare comparison result)] := by
    refine castQuery_compare cast ?_ (fun fields => ?_) comparison free.1 known admitted
    all_goals
      rintro rfl
      exact flat
  exact bind_eq_ok.mpr ⟨_, query, rfl⟩

/-- If the store sees of the field what stands at its path, clauses on it find what they are to
find of documents that can be shown. -/
theorem filters_of_shown (known : registry.lookup model.name = .ok model)
    (admitted : model.guardPassword path .filter = .ok ()) (free : path ∉ reservedNames)
    (typed : model.schema.fieldType? path = some type) (flat : type.IsFlat)
    (shows : ∀ document ∈ store.documents model.name, document.Shows path)
    (shown : ∀ document ∈ store.documents model.name, Shown registry store model document) :
    Filters registry store model path type := by
  intro comparison operand result cast fields supply
  let envelope := clauseEnvelope model ⟨path, comparison, some operand⟩ fields
  let query : Query := [(path, .compare comparison result)]
  let chosen := (store.documents model.name).filter fun document =>
    (Condition.compare comparison result).holds path (document.cell path)
  have selects : selector? model envelope = .ok (some query) :=
    selector?_clauseEnvelope admitted free typed flat comparison cast
  have selected : store.selected model.name query true = .ok chosen := by
    rw [Store.selected_of_shows rfl fun document member entry listed => ?_]
    · exact congrArg Except.ok (List.filter_congr fun document _ => by simp [Query.selects, query])
    · obtain rfl := List.mem_singleton.mp listed
      exact shows document member
  obtain ⟨documents, reading⟩ : ∃ documents, chosen.mapM (fun document => Row.read ⟨model.name, document⟩) =
      .ok documents := exists_mapM fun document member => by
    obtain ⟨read, done, _⟩ := shown document (List.mem_filter.mp member).1
    exact ⟨read, done⟩
  obtain ⟨entities, presenting⟩ : ∃ entities,
      documents.mapM (present registry store model · envelope.shown) = .ok entities := by
    refine exists_mapM fun read member => ?_
    obtain ⟨document, listed, done⟩ := exists_of_mapM reading member
    obtain ⟨_, same, presented⟩ := shown document (List.mem_filter.mp listed).1
    cases same.symm.trans done
    exact presented _
  have finding : (store.find model.name query []).mapError RequestError.store = .ok documents := by
    rw [Store.find_unsorted, selected]
    exact congrArg (Except.mapError _) reading
  refine ⟨entities, ?_, documents, mapM_eq_ok.mp reading, mapM_eq_ok.mp presenting⟩
  rw [outcome_getEntities]
  exact bind_eq_ok.mpr ⟨model, known, bind_eq_ok.mpr ⟨some query, selects, bind_eq_ok.mpr ⟨(), rfl,
    bind_eq_ok.mpr ⟨documents, finding, bind_eq_ok.mpr ⟨entities, presenting, rfl⟩⟩⟩⟩⟩

theorem shown_of_filters (filters : Filters registry store model path type) (supply : Supply) {document : Document}
    (member : document ∈ store.documents model.name) : Shown registry store model document := by
  obtain ⟨comparison, operand, result, cast, held⟩ :=
    type.exists_comparison model.name path (document.cell path)
  have each (fields : List String) : ∃ read, (⟨model.name, document⟩ : Row).read = .ok read ∧
      ∃ entity, present registry store model read fields = .ok entity := by
    obtain ⟨entities, _, documents, reading, presenting⟩ :=
      filters comparison operand result cast (some fields) supply
    obtain ⟨read, among, done⟩ := result_of_mapM (mapM_eq_ok.mpr reading) (List.mem_filter.mpr ⟨member, held⟩)
    obtain ⟨entity, _, presented⟩ := result_of_mapM (mapM_eq_ok.mpr presenting) among
    exact ⟨read, done, entity, presented⟩
  obtain ⟨read, done, _⟩ := each []
  refine ⟨read, done, fun fields => ?_⟩
  obtain ⟨_, same, presented⟩ := each fields
  cases done.symm.trans same
  exact presented

/-- Filters on a path are admitted if a clause on it finds anything or nothing. -/
theorem admitted_of_filters (filters : Filters registry store model path type)
    (known : registry.lookup model.name = .ok model) (supply : Supply) :
    model.guardPassword path .filter = .ok () := by
  obtain ⟨entities, answered, _⟩ := filters .eq .null .null (by cases type <;> rfl) none supply
  rw [outcome_getEntities] at answered
  obtain ⟨_, looked, rest⟩ := bind_eq_ok.mp answered
  cases known.symm.trans looked
  obtain ⟨_, selects, _⟩ := bind_eq_ok.mp rest
  obtain ⟨_, cast, _⟩ := bind_eq_ok.mp selects
  obtain ⟨_, _, condition⟩ := result_of_mapM cast (List.mem_singleton_self _)
  obtain ⟨_, inside, _⟩ := bind_eq_ok.mp condition
  obtain ⟨_, admitted, _⟩ := bind_eq_ok.mp inside
  exact admitted

/-- What the store sees of the field of an only document meets the conditions that what stands
there meets. -/
theorem seen_of_filters (filters : Filters registry store model path type)
    (known : registry.lookup model.name = .ok model) (supply : Supply) (free : path ∉ reservedNames)
    (typed : model.schema.fieldType? path = some type) (flat : type.IsFlat) {document : Document}
    (only : store.documents model.name = [document]) (comparison : Comparison)
    (cast : castValue model.name path type operand = .ok result) :
    ∃ cell, Cell.ofField document path = .ok cell ∧ (Condition.compare comparison result).holds path cell =
      (Condition.compare comparison result).holds path (document.cell path) := by
  obtain ⟨entities, answered, documents, reading, presenting⟩ := filters comparison operand result cast none supply
  have admitted := admitted_of_filters filters known supply
  have selects := @selector?_clauseEnvelope _ _ _ _ _ none admitted free typed flat comparison cast
  rw [outcome_getEntities] at answered
  obtain ⟨_, looked, rest⟩ := bind_eq_ok.mp answered
  cases known.symm.trans looked
  obtain ⟨_, same, rest⟩ := bind_eq_ok.mp rest
  cases selects.symm.trans same
  obtain ⟨_, _, rest⟩ := bind_eq_ok.mp rest
  obtain ⟨read, finding, rest⟩ := bind_eq_ok.mp rest
  obtain ⟨shown, presented, finished⟩ := bind_eq_ok.mp rest
  cases finished
  obtain ⟨chosen, selected, reads⟩ : ∃ chosen,
      store.selected model.name [(path, .compare comparison result)] true = .ok chosen ∧
        chosen.mapM (fun document => Row.read ⟨model.name, document⟩) = .ok read := by
    apply bind_eq_ok.mp
    rw [← Store.find_unsorted]
    exact ok_of_mapError finding
  have noId : path ≠ idKey := fun own => free (own ▸ List.mem_cons_self)
  have filtered := Store.filterM_of_selected selected
  rw [only, Store.inTestOrder_single noId] at filtered
  obtain ⟨answer, tested⟩ := answers_of_filterM filtered document (List.mem_singleton_self _)
  obtain ⟨cell, seen, decided⟩ := bind_eq_ok.mp tested
  refine ⟨cell, seen, ?_⟩
  have passes : (Condition.compare comparison result).holds path cell = answer := by
    change (if _ = true then .ok true else .ok false) = Except.ok answer at decided
    cases held : (Condition.compare comparison result).holds path cell <;> simpa [held] using decided
  -- As many documents are found as there are entities in the answer, one or none.
  have count : chosen.length = ([document].filter fun document =>
      (Condition.compare comparison result).holds path (document.cell path)).length := by
    rw [← only, reading.length_eq, presenting.length_eq, ← (mapM_eq_ok.mp presented).length_eq,
      ← (mapM_eq_ok.mp reads).length_eq]
  rw [eq_filter_of_filterM filtered] at count
  simp only [List.filter_singleton, tested, Except.toOption, Option.getD_some, ← passes] at count
  revert count
  cases (Condition.compare comparison result).holds path cell <;>
    cases (Condition.compare comparison result).holds path (document.cell path) <;> simp

end

end Repository

namespace Repository
variable {registry : Registry} {model : Model} {place : List String} {type : FieldType}

/-! ### Which fields are told -/

/-- In every store that is reached, clauses on a field find what they are to find, exactly if all
documents of the model can be shown. -/
def FiltersAlways (registry : Registry) (model : Model) (path : String) (type : FieldType) : Prop :=
  ∀ requests, (∀ request ∈ requests, request.envelope.Ordered) →
    (Filters registry (reached registry requests) model path type ↔
      ∀ document ∈ (reached registry requests).documents model.name,
        Shown registry (reached registry requests) model document)

section
variable {path : String} (closed : registry.IsClosed) (known : registry.lookup model.name = .ok model)
  (typed : model.schema.fieldType? path = some type) (flat : type.IsFlat)

include closed known typed flat in
theorem filtersAlways_of_tellsField (free : path ∉ reservedNames) (tells : model.TellsField path) :
    FiltersAlways registry model path type := by
  intro requests ordered
  refine ⟨fun filters document member => shown_of_filters filters rosterSupply member, fun shown => ?_⟩
  refine filters_of_shown known tells.admitted free typed flat (fun document member => ?_) shown
  have named := fun name model => @closed.named name model
  have written := written_of_reached (keeps_shapes registry) named ordered (Store.mem_documents.mp member)
  exact tells.shows (written.own (Registry.find?_of_lookup known)) written.ordered

section
variable (free : IsFree (Text.segments path)) (stamps : model.schema.behaviors.stamps = true)
  (shallow : (Text.segments path).length ≤ Row.levels) (always : FiltersAlways registry model path type)

include closed known stamps always in
/-- Of a document of one value clauses find what they are to find. -/
theorem filters_of_sample {place : List String} {other : FieldType}
    (declared : FieldType.at? model.schema.fields place = some other) (freePlace : IsFree place)
    (within : place.length ≤ Row.levels) : ∃ value, model.StoresSample place other value ∧
      (reached registry [addSample model.name place other]).documents model.name =
        [⟨rosterSupply.id 0, Model.singleBody rosterSupply.now place value⟩] ∧
      Filters registry (reached registry [addSample model.name place other]) model path type := by
  obtain ⟨value, stores, rows, readable⟩ := exists_sample known stamps declared freePlace within
  refine ⟨value, stores, by rw [Store.documents, rows]; simp, ?_⟩
  refine (always _ (ordered_addSample _ _ _)).mpr fun document member => ?_
  obtain ⟨read, done⟩ := readable _ (Store.mem_documents.mp member)
  exact ⟨read, done, fun fields => exists_of_present closed (Registry.find?_of_lookup known)
    (fun row among _ _ => readable row among) fields⟩

include closed known typed flat free stamps shallow always in
/-- A value at the path is found: the store reads the names as they are written. -/
theorem spelled_of_filtersAlways (apart : ∀ password, model.schema.behaviors.password = some password →
    Text.Apart (Text.segments password) (Text.segments path)) :
    ∀ name ∈ Text.segments path, KeyPath.SpellsItself name := by
  have noId : path ≠ idKey := fun own => notMem_of_isFree free (own ▸ List.mem_cons_self)
  obtain ⟨value, stores, only, filters⟩ := filters_of_sample closed known stamps always typed free shallow
  obtain rfl : value = type.sample := stores.resolve_right fun ⟨password, _, given, same, _⟩ =>
    (apart password given).1 (same ▸ List.prefix_rfl)
  obtain ⟨cell, seen, same⟩ := seen_of_filters filters known rosterSupply
    (notMem_of_isFree free) typed flat only .eq (type.castValue_sample model.name path)
  have operand := Cell.ofOperand_eq_ofJson noId type.sample
  have meets : (Condition.compare .eq type.sample).holds path (Cell.ofJson type.sample) = true := by
    rw [Condition.holds_compare type.sample_ne_null, operand, Cell.compare_self]
    exact ⟨fun none => type.sample_ne_null (Cell.ofJson_eq_none.mp none), rfl⟩
  rw [Model.cell_singleBody free, meets, Condition.holds_compare type.sample_ne_null, operand] at same
  obtain rfl : cell = Cell.ofJson type.sample := Cell.eq_of_compare (by simpa [Comparison.allows] using same.2)
  rw [KeyPath.ofField_eq_look noId] at seen
  exact Model.spelled_of_look free type.sample_ne_null type.sample_ne_stamp seen

include closed known typed flat free stamps shallow always in
/-- A value at another place is not found: the place is not taken for the path. -/
theorem alone_of_filtersAlways (spelled : ∀ name ∈ Text.segments path, KeyPath.SpellsItself name)
    {place : List String} {other : FieldType} (declared : FieldType.at? model.schema.fields place = some other)
    (taken : List.Forall₂ KeyPath.TakenFor (Text.segments path) place) : place = Text.segments path := by
  have noId : path ≠ idKey := fun own => notMem_of_isFree free (own ▸ List.mem_cons_self)
  refine Decidable.byContradiction fun different => ?_
  have apart : Text.Apart place (Text.segments path) :=
    ⟨fun above => different (above.eq_of_length taken.length_eq.symm),
      fun below => different (below.eq_of_length taken.length_eq).symm⟩
  obtain ⟨value, stores, only, filters⟩ :=
    filters_of_sample closed known stamps always declared (free.of_taken taken) (taken.length_eq ▸ shallow)
  have null : castValue model.name path type .null = .ok .null := by cases type <;> rfl
  obtain ⟨cell, seen, same⟩ := seen_of_filters filters known rosterSupply
    (notMem_of_isFree free) typed flat only .eq null
  have unseen : cell.isNone = true := same.trans (by rw [Model.cell_singleBody_of_apart free apart]; rfl)
  rw [Cell.isNone_iff.mp unseen, KeyPath.ofField_eq_look noId, KeyPath.steps,
    Model.look_singleBody free spelled taken (Text.segments_ne_nil path)] at seen
  exact stores.ne_null (Cell.ofJson_eq_none.mp (Except.ok.inj seen))

end

end

end Repository

/-! ### Literal paths -/

mutual
/-- The keys that a type declares, at all depths. -/
def FieldType.keysBelow : FieldType → List String
  | .object fields => allKeys fields
  | _ => []
def FieldType.allKeys : List (String × FieldType) → List String
  | [] => []
  | (key, type) :: rest => key :: (type.keysBelow ++ allKeys rest)
end

theorem FieldType.mem_allKeys_of_find? {fields : Keyed FieldType} {key : String} {type : FieldType}
    (found : fields.find? key = some type) : key ∈ allKeys fields ∧ type.keysBelow ⊆ allKeys fields := by
  induction fields with
  | nil => cases found
  | cons field rest ih =>
    obtain ⟨name, other⟩ := field
    rw [allKeys]
    rw [Keyed.find?] at found
    split at found
    · rename_i same
      cases found
      exact ⟨same ▸ List.mem_cons_self, fun inner member => by simp [member]⟩
    · obtain ⟨member, below⟩ := ih found
      exact ⟨by simp [member], fun inner among => by simp [below among]⟩

theorem FieldType.mem_allKeys_of_at? {fields : Keyed FieldType} {place : List String} {type : FieldType}
    (typed : at? fields place = some type) : ∀ name ∈ place, name ∈ allKeys fields := by
  induction place generalizing fields with
  | nil => simp
  | cons name rest ih =>
    cases rest with
    | nil => simpa using (mem_allKeys_of_find? typed).1
    | cons next others =>
      rw [at?_cons_cons] at typed
      split at typed
      · rename_i inner declared
        obtain ⟨member, below⟩ := mem_allKeys_of_find? declared
        exact List.forall_mem_cons.mpr ⟨member, fun other listed => below (ih typed other listed)⟩
      · cases typed

/-- Filters on a literal path apart from the password are admitted. -/
theorem Model.admitted_of_literal {model : Model} {path : String}
    (literal : ∀ name ∈ Text.segments path, KeyPath.IsLiteral name)
    (apart : ∀ password, model.schema.behaviors.password = some password →
      Text.Apart (Text.segments password) (Text.segments path)) : model.guardPassword path .filter = .ok () := by
  have unquoted : Model.unquoted path = path := by
    have characters : ∀ c ∈ path.toList, c ≠ '"' := by
      rintro _ member rfl
      obtain ⟨name, listed, among⟩ := Text.exists_mem_segments member (by decide)
      exact (literal name listed _ among).1 rfl
    rw [Model.unquoted, List.filter_eq_self.mpr (by simpa using characters), String.ofList_toList]
  unfold guardPassword
  split
  · rfl
  · rename_i password given
    have away := apart password given
    rw [unquoted, if_neg]
    rw [Bool.or_eq_true, Text.isWithin_iff, Text.isWithin_iff, not_or]
    exact ⟨away.1, away.2⟩

/-- Literal paths apart from the password can be filtered by, if no declared key has a character
of code zero. -/
theorem Model.tellsField_of_literal {model : Model} {path : String}
    (literal : ∀ name ∈ Text.segments path, KeyPath.IsLiteral name)
    (apart : ∀ password, model.schema.behaviors.password = some password →
      Text.Apart (Text.segments password) (Text.segments path))
    (whole : ∀ key ∈ FieldType.allKeys model.schema.fields, '\x00' ∉ key.toList) : model.TellsField path where
  admitted := admitted_of_literal literal apart
  spelled name member := KeyPath.ofSegment_of_literal (literal name member)
  alone _ _ typed taken := KeyPath.eq_of_taken taken fun key member =>
    whole key (FieldType.mem_allKeys_of_at? typed key member)

namespace Repository

/-- Notes with a field whose name has a backslash in it. -/
def slashedDeclaration : Declaration := ⟨"note", [⟨"a\\b", "text", []⟩], []⟩

def slashedModel : Model := ⟨⟨"note", [("a\\b", .text)], ⟨true, none, []⟩⟩, markingHasher⟩

def slashedRegistry : Registry := { models := [("note", slashedModel)] }

/-- A note is added with a text in the field. -/
def slashedRequests : List Request :=
  [⟨.addEntity, { model := "note", entity := some (.object [("a\\b", .text "x")]) }, rosterSupply⟩]

def slashedEnvelope : Envelope := clauseEnvelope slashedModel ⟨"a\\b", .eq, some (.text "x")⟩ none

end Repository
end Dossier
