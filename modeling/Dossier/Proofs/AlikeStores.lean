import Dossier.Population
import Dossier.Proofs.AlikeDocuments
import Mathlib.Data.List.Forall2

/-! Stores of the same documents, which differ at most in their passwords: what is selected,
read and populated of them is alike, and they stay so when they are written to. -/
namespace Dossier

/-! ### Rows -/

namespace Row

/-- The body of a row without the password of its model. -/
def withoutPassword (registry : Registry) (row : Row) : Body :=
  match registry.models.find? row.collection with
  | some model => model.withoutPassword row.document.body
  | none => row.document.body

/-- Two rows of one document that differ at most in its password. -/
structure PasswordEquivalent (registry : Registry) (row other : Row) : Prop where
  key : row.key = other.key
  hidden : row.withoutPassword registry = other.withoutPassword registry

/-- Two such rows with their keys in order, of which both or neither can be read. -/
structure Twins (registry : Registry) (row other : Row) : Prop extends
    PasswordEquivalent registry row other where
  ordered : (Json.object row.document.body).Ordered
  also : (Json.object other.document.body).Ordered
  readable : row.IsReadable ↔ other.IsReadable

section
variable {registry : Registry} {row other : Row} {model : Model}

theorem Twins.refl (ordered : (Json.object row.document.body).Ordered) : row.Twins registry row :=
  ⟨⟨rfl, rfl⟩, ordered, ordered, .rfl⟩

theorem Twins.collection (twins : row.Twins registry other) : row.collection = other.collection :=
  congrArg Prod.fst twins.key

theorem Twins.alike (twins : row.Twins registry other)
    (found : registry.models.find? row.collection = some model) :
    model.Alike row.document other.document where
  id := congrArg Prod.snd twins.key
  ordered := twins.ordered
  also := twins.also
  hidden := by
    have hidden := twins.hidden
    simpa only [withoutPassword, ← twins.collection, found] using hidden

/-- Of two such rows alike documents are read, or none with the same error. -/
theorem Twins.read (twins : row.Twins registry other)
    (found : registry.models.find? row.collection = some model) :
    Agree model.Alike row.read other.read := by
  have alike := twins.alike found
  cases first : row.read with
  | ok document =>
    obtain ⟨again, second⟩ := twins.readable.mp ⟨document, first⟩
    obtain ⟨same, body⟩ := (read_eq_ok twins.ordered).mp first
    obtain ⟨equal, also⟩ := (read_eq_ok twins.also).mp second
    rw [second]
    obtain ⟨id, held⟩ := document
    obtain ⟨id', kept⟩ := again
    obtain rfl : id = row.document.id := same
    obtain rfl : id' = other.document.id := equal
    refine .ok (alike.congr (ordered_of_read twins.ordered first) (ordered_of_read twins.also second) ?_ ?_)
    · intro same
      rw [same, also] at body
      exact (Option.some.inj body).symm
    · intro place differ
      exact differ.reread body also
  | error error =>
    cases second : other.read with
    | ok document =>
      obtain ⟨again, first'⟩ := twins.readable.mpr ⟨document, second⟩
      cases first.symm.trans first'
    | error error' =>
      rw [error_of_read first, error_of_read second, twins.collection, alike.id]
      exact .error _

theorem isReadable_iff_canReread (ordered : (Json.object row.document.body).Ordered) :
    row.IsReadable ↔ Json.CanReread (levels + 1) (some (.object row.document.body)) := by
  rw [isReadable_iff ordered]
  simp [Json.CanReread, Json.reread]

/-- No more than a text is stored of the password of a row. -/
def HasPlainPassword (registry : Registry) (row : Row) : Prop :=
  ∀ model ∈ registry.models.find? row.collection, ∀ password ∈ model.schema.behaviors.password,
    ∀ value ∈ row.document.body.get? password, value.IsPlain

/-- Then rows that differ at most in their passwords can be read alike. -/
theorem PasswordEquivalent.twins (equivalent : row.PasswordEquivalent registry other)
    (ordered : (Json.object row.document.body).Ordered) (also : (Json.object other.document.body).Ordered)
    (plain : row.HasPlainPassword registry) (plainToo : other.HasPlainPassword registry) :
    row.Twins registry other := by
  refine ⟨equivalent, ordered, also, ?_⟩
  rw [isReadable_iff_canReread ordered, isReadable_iff_canReread also]
  have collection : row.collection = other.collection := congrArg Prod.fst equivalent.key
  have hidden := equivalent.hidden
  cases found : registry.models.find? row.collection with
  | none =>
    simp only [withoutPassword, ← collection, found] at hidden
    rw [hidden]
  | some model =>
    simp only [withoutPassword, ← collection, found] at hidden
    cases password : model.schema.behaviors.password with
    | none =>
      simp only [Model.withoutPassword, password] at hidden
      rw [hidden]
    | some path =>
      have alike : model.Alike row.document other.document :=
        ⟨congrArg Prod.snd equivalent.key, ordered, also, hidden⟩
      have differ := alike.equalBut password
      have single {body : Body} (inOrder : (Json.object body).Ordered) :
          ∀ held ∈ some (Json.object body), held.Ordered := by
        rintro _ ⟨⟩
        exact inOrder
      have text {row : Row} (plain : row.HasPlainPassword registry)
          (listed : registry.models.find? row.collection = some model) :
          ∀ held ∈ (some (Json.object row.document.body)).bind (·.under? (Text.segments path)), held.IsPlain := by
        rw [Option.bind_some, ← Body.at?_eq_under? (Text.segments_ne_nil path)]
        exact plain model listed path password
      constructor
      · exact differ.canReread (single also) (text plainToo (collection ▸ found))
      · exact differ.symm.canReread (single ordered) (text plain found)

end
end Row

/-! ### Lists side by side -/

theorem forall₂_mergeSort {α β : Type} {related : α → β → Prop} {before : α → α → Bool}
    {before' : β → β → Bool} {items : List α} {others : List β}
    (listed : List.Forall₂ related items others)
    (same : ∀ {a a' b b'}, related a a' → related b b' → before a b = before' a' b') :
    List.Forall₂ related (items.mergeSort before) (others.mergeSort before') := by
  have length := listed.length_eq
  let pairs := items.zip others
  have firsts : pairs.map Prod.fst = items := List.map_fst_zip (Nat.le_of_eq length)
  have seconds : pairs.map Prod.snd = others := List.map_snd_zip (Nat.le_of_eq length.symm)
  have each {pair : α × β} (member : pair ∈ pairs) : related pair.1 pair.2 := List.forall₂_zip listed member
  let sorted := pairs.mergeSort fun a b => before a.1 b.1
  have left : sorted.map Prod.fst = items.mergeSort before := by
    rw [← firsts]
    exact List.map_mergeSort fun _ _ _ _ => rfl
  have right : sorted.map Prod.snd = others.mergeSort before' := by
    rw [← seconds]
    exact List.map_mergeSort fun _ first _ second => same (each first) (each second)
  rw [← left, ← right, List.forall₂_map_left_iff, List.forall₂_map_right_iff, List.forall₂_same]
  intro pair member
  exact each ((List.mergeSort_perm _ _).mem_iff.mp member)

theorem rel_find? {α β : Type} {related : α → β → Prop} {wanted : α → Bool} {wanted' : β → Bool}
    {items : List α} {others : List β} (listed : List.Forall₂ related items others)
    (same : ∀ {a b}, related a b → wanted a = wanted' b) :
    Option.Rel related (items.find? wanted) (others.find? wanted') := by
  induction listed with
  | nil => exact .none
  | @cons a b _ _ first _ ih =>
    rw [List.find?_cons, List.find?_cons, same first]
    cases wanted' b with
    | true => exact .some first
    | false => exact ih

/-- Documents of which alike ones have the same cells are sorted alike. -/
theorem SortKey.sort_of_related {related : Document → Document → Prop} {keys : List SortKey}
    {documents others : List Document} (listed : List.Forall₂ related documents others)
    (same : ∀ {document other}, related document other → cells keys document = cells keys other) :
    Agree (List.Forall₂ related) (sort keys documents) (sort keys others) := by
  let Measured (entry other : List Cell × Document) : Prop := entry.1 = other.1 ∧ related entry.2 other.2
  have measured : Agree (List.Forall₂ Measured)
      (documents.mapM fun document => do return (← cells keys document, document))
      (others.mapM fun document => do return (← cells keys document, document)) := by
    refine .mapM listed fun alike => ?_
    refine (Agree.of_eq (same alike)).bind fun equal => ?_
    exact .ok ⟨equal, alike⟩
  refine measured.bind fun entries => .ok ?_
  rw [List.forall₂_map_left_iff, List.forall₂_map_right_iff]
  refine List.Forall₂.imp (fun _ _ pair => pair.2) (forall₂_mergeSort entries fun first second => ?_)
  rw [first.1, second.1]

/-! ### Reading -/

namespace Store
variable {registry : Registry} {store other : Store} {model : Model}

/-- Two stores of the same documents that differ at most in their passwords. -/
def PasswordEquivalent (registry : Registry) (store other : Store) : Prop :=
  List.Forall₂ (Row.PasswordEquivalent registry) store.rows other.rows

/-- Two such stores with all keys in order, and with the same documents that can be read. -/
def Twins (registry : Registry) (store other : Store) : Prop :=
  List.Forall₂ (Row.Twins registry) store.rows other.rows

theorem Twins.equivalent (twins : store.Twins registry other) : store.PasswordEquivalent registry other :=
  twins.imp fun _ _ pair => pair.toPasswordEquivalent

/-- Two documents that are twins as rows of a collection. -/
def TwinsIn (registry : Registry) (collection : String) (document other : Document) : Prop :=
  Row.Twins registry ⟨collection, document⟩ ⟨collection, other⟩

theorem Twins.documents (twins : store.Twins registry other) (collection : String) :
    List.Forall₂ (TwinsIn registry collection) (store.documents collection) (other.documents collection) := by
  unfold Twins at twins
  unfold Store.documents
  generalize store.rows = rows at twins ⊢
  generalize other.rows = others at twins ⊢
  induction twins with
  | nil => exact .nil
  | @cons row row' _ _ first _ ih =>
    by_cases here : row.collection = collection
    · have there : row'.collection = collection := first.collection ▸ here
      rw [List.filter_cons_of_pos (by simpa using here), List.filter_cons_of_pos (by simpa using there)]
      subst here
      have kept : row' = ⟨row.collection, row'.document⟩ := by rw [← there]
      refine .cons ?_ ih
      unfold TwinsIn
      rw [← kept]
      exact first
    · have away : ¬ row'.collection = collection := first.collection ▸ here
      rw [List.filter_cons_of_neg (by simpa using here), List.filter_cons_of_neg (by simpa using away)]
      exact ih

section
variable (found : registry.models.find? model.name = some model)
include found

theorem Twins.selected (twins : store.Twins registry other) {query : Query}
    (passes : ∀ entry ∈ query, model.Passes entry.1) (byInsertion : Bool) :
    Agree (List.Forall₂ (TwinsIn registry model.name)) (store.selected model.name query byInsertion)
      (other.selected model.name query byInsertion) := by
  unfold Store.selected
  split
  · refine .filterM (twins.documents model.name) fun pair => ?_
    exact (pair.alike found).test fun entry member => passes entry (Query.mem_inTestOrder.mp member)
  · exact .error _

theorem Twins.find (twins : store.Twins registry other) {query : Query} {keys : List SortKey}
    (passes : ∀ entry ∈ query, model.Passes entry.1) (also : ∀ key ∈ keys, model.Passes key.field) :
    Agree (List.Forall₂ model.Alike) (store.find model.name query keys) (other.find model.name query keys) := by
  refine (twins.selected found passes keys.isEmpty).bind fun documents => ?_
  have sorted : ∀ key ∈ (if query.asksForOneId then [] else SortKey.telling keys), model.Passes key.field := by
    intro key member
    split at member
    · cases member
    · exact also key (SortKey.mem_telling member)
  refine (SortKey.sort_of_related documents fun pair => (pair.alike found).cells sorted).bind fun order => ?_
  exact .mapM order fun pair => pair.read found

theorem Twins.get (twins : store.Twins registry other) (id : EntityId) :
    Agree (Option.Rel model.Alike) (store.get model.name id) (other.get model.name id) := by
  have rows : Option.Rel (Row.Twins registry) (store.rows.find? (·.key = (model.name, id)))
      (other.rows.find? (·.key = (model.name, id))) :=
    rel_find? twins fun pair => by rw [pair.key]
  have collection {row : Row} (hit : store.rows.find? (·.key = (model.name, id)) = some row) :
      row.collection = model.name := by
    have key : row.key = (model.name, id) := by simpa using List.find?_some hit
    exact congrArg Prod.fst key
  simp only [Store.get]
  generalize left : store.rows.find? (·.key = (model.name, id)) = first at rows
  generalize other.rows.find? (·.key = (model.name, id)) = second at rows
  cases rows with
  | none => exact .ok .none
  | some pair =>
    have read := pair.read (collection left ▸ found)
    simp only
    generalize Row.read _ = outcome at read ⊢
    generalize Row.read _ = outcome' at read ⊢
    cases read with
    | ok alike => exact .ok (.some alike)
    | error fault => exact .error fault

end

/-! ### Writing -/

theorem PasswordEquivalent.keys (equivalent : store.PasswordEquivalent registry other) :
    store.rows.map Row.key = other.rows.map Row.key := by
  have keys : List.Forall₂ Eq (store.rows.map Row.key) (other.rows.map Row.key) := by
    rw [List.forall₂_map_left_iff, List.forall₂_map_right_iff]
    exact equivalent.imp fun _ _ pair => pair.key
  rwa [List.forall₂_eq_eq_eq] at keys

theorem PasswordEquivalent.keep (equivalent : store.PasswordEquivalent registry other)
    {kept : Row → Bool}
    (same : ∀ {row other : Row}, row.collection = other.collection ∧ row.document.id = other.document.id →
      kept row = kept other) :
    (store.keep kept).PasswordEquivalent registry (other.keep kept) := by
  unfold PasswordEquivalent Store.keep
  refine List.rel_filter ?_ equivalent
  intro row other pair
  exact Bool.eq_iff_iff.mp (same (Prod.mk.inj pair.key))

theorem Twins.insert (twins : store.Twins registry other) (collection : String) {document : Document}
    (ordered : (Json.object document.body).Ordered) :
    Agree (Twins registry) (store.insert collection document) (other.insert collection document) := by
  have keys := twins.equivalent.keys
  unfold Store.insert
  by_cases taken : (collection, document.id) ∈ store.rows.map Row.key
  · rw [dif_pos taken, dif_pos (keys ▸ taken)]
    exact .error _
  · rw [dif_neg taken, dif_neg (keys ▸ taken)]
    exact .ok (List.rel_append twins (.cons (Row.Twins.refl ordered) .nil))

theorem Twins.insertMany (twins : store.Twins registry other) (collection : String)
    {documents : List Document} (ordered : ∀ document ∈ documents, (Json.object document.body).Ordered) :
    Agree (Twins registry) (store.insertMany collection documents) (other.insertMany collection documents) := by
  unfold Store.insertMany
  induction documents generalizing store other with
  | nil => exact .ok twins
  | cons document rest ih =>
    rw [List.foldlM_cons, List.foldlM_cons]
    refine (twins.insert collection (ordered document List.mem_cons_self)).bind fun between => ?_
    exact ih between fun document member => ordered document (List.mem_cons_of_mem _ member)

section
variable (found : registry.models.find? model.name = some model)
include found

theorem PasswordEquivalent.overwrite (equivalent : store.PasswordEquivalent registry other)
    {document also : Document} (alike : model.Alike document also) :
    (store.overwrite model.name document).PasswordEquivalent registry (other.overwrite model.name also) := by
  unfold PasswordEquivalent Store.overwrite
  rw [List.forall₂_map_left_iff, List.forall₂_map_right_iff]
  refine equivalent.imp fun row other pair => ?_
  by_cases hit : row.key = (model.name, document.id)
  · rw [if_pos hit, if_pos (by rw [← pair.key, hit, alike.id])]
    refine ⟨by simp [Row.key, alike.id], ?_⟩
    simp only [Row.withoutPassword, found, alike.hidden]
  · rw [if_neg hit, if_neg (by rwa [← pair.key, ← alike.id])]
    exact pair

theorem PasswordEquivalent.replaceMany (equivalent : store.PasswordEquivalent registry other)
    {documents others : List Document} (alike : List.Forall₂ model.Alike documents others) :
    (store.replaceMany model.name documents).1 = (other.replaceMany model.name others).1 ∧
      (store.replaceMany model.name documents).2.PasswordEquivalent registry
        (other.replaceMany model.name others).2 := by
  induction alike generalizing store other with
  | nil => exact ⟨rfl, equivalent⟩
  | @cons document also _ _ first _ ih =>
    obtain ⟨count, later⟩ := ih (equivalent.overwrite found first)
    have contained : store.contains model.name document.id = other.contains model.name also.id := by
      rw [Store.contains, Store.contains, equivalent.keys, first.id]
    refine ⟨?_, later⟩
    change (if store.contains model.name document.id then 1 else 0) + _ =
      (if other.contains model.name also.id then 1 else 0) + _
    rw [contained, count]

/-- What is deleted of two stores is counted the same. -/
theorem Twins.deleteMany (twins : store.Twins registry other) {query : Query}
    (passes : ∀ entry ∈ query, model.Passes entry.1) :
    Agree (fun result also => result.1 = also.1 ∧ result.2.PasswordEquivalent registry also.2)
      (store.deleteMany model.name query) (other.deleteMany model.name query) := by
  refine (twins.selected found passes false).bind fun {documents others} listed => .ok ?_
  have ids : documents.map Document.id = others.map Document.id := by
    have same : List.Forall₂ Eq (documents.map Document.id) (others.map Document.id) := by
      rw [List.forall₂_map_left_iff, List.forall₂_map_right_iff]
      exact listed.imp fun _ _ pair => (pair.alike found).id
    rwa [List.forall₂_eq_eq_eq] at same
  refine ⟨by rw [ids], ?_⟩
  rw [ids]
  exact twins.equivalent.keep fun pair => by rw [pair.1, pair.2]

end

/-- Overwriting a document changes nothing of what is read of others. -/
theorem get_overwrite_of_ne {collection target : String} {document : Document} {id : EntityId}
    (different : (target, id) ≠ (collection, document.id)) :
    (store.overwrite collection document).get target id = store.get target id := by
  have key (row : Row) : (if row.key = (collection, document.id) then ⟨collection, document⟩ else row).key =
      row.key := by
    split
    · rename_i same
      exact same.symm
    · rfl
  simp only [Store.get, Store.overwrite, List.find?_map, Function.comp_def, key]
  cases hit : store.rows.find? (·.key = (target, id)) with
  | none => rfl
  | some row =>
    have same : row.key = (target, id) := by simpa using List.find?_some hit
    rw [Option.map_some, if_neg (same ▸ different)]

end Store
end Dossier
