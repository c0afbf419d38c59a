import Dossier.Proofs.LiteralPaths
import Dossier.Proofs.StoreRows

/-! What a query finds and in which order, as long as the store sees of the fields that it asks
for what is to be seen of them. -/
namespace Dossier

/-! ### Pairs in lists -/

section
variable {α : Type} {a b : α} {items : List α}

theorem pair_sublist_or (left : a ∈ items) (right : b ∈ items) (different : a ≠ b) :
    [a, b].Sublist items ∨ [b, a].Sublist items := by
  induction items with
  | nil => cases left
  | cons first rest ih =>
    rcases List.mem_cons.mp left with rfl | earlier <;> rcases List.mem_cons.mp right with rfl | later
    · exact absurd rfl different
    · exact .inl ((List.singleton_sublist.mpr later).cons_cons _)
    · exact .inr ((List.singleton_sublist.mpr earlier).cons_cons _)
    · exact (ih earlier later).imp (.cons _) (.cons _)

theorem not_pair_sublist (once : items.Nodup) (forth : [a, b].Sublist items) : ¬ [b, a].Sublist items := by
  intro back
  induction items with
  | nil => cases forth
  | cons first rest ih =>
    obtain ⟨fresh, later⟩ := List.nodup_cons.mp once
    cases forth with
    | cons _ forth =>
      cases back with
      | cons _ back => exact ih later forth back
      | cons_cons _ back => exact fresh (forth.subset (by simp))
    | cons_cons _ forth =>
      cases back with
      | cons _ back => exact fresh (back.subset (by simp))
      | cons_cons _ back => exact fresh (forth.subset List.mem_cons_self)

end

/-! ### Selecting -/

/-- The store can look a field up. -/
def Document.CanSee (document : Document) (field : String) : Prop := ∃ cell, Cell.ofField document field = .ok cell

/-- What the store sees of a field, nothing if it cannot look it up. -/
def Document.seen (document : Document) (field : String) : Cell :=
  (Cell.ofField document field).toOption.getD .none

theorem Document.seen_of_ofField {document : Document} {field : String} {cell : Cell}
    (own : Cell.ofField document field = .ok cell) : document.seen field = cell := by
  rw [seen, own]
  rfl

namespace Query

/-- Whether all conditions of a query hold of what the store sees of a document. -/
def passes (query : Query) (document : Document) : Bool :=
  query.all fun entry => entry.2.holds entry.1 (document.seen entry.1)

/-- Whether all conditions of a query hold of what is to be seen of a document. -/
def selects (query : Query) (document : Document) : Bool :=
  query.all fun entry => entry.2.holds entry.1 (document.cell entry.1)

theorem all_inTestOrder (query : Query) (byInsertion : Bool) (holds : String × Condition → Bool) :
    (query.inTestOrder byInsertion).all holds = query.all holds := by
  rw [Bool.eq_iff_iff, List.all_eq_true, List.all_eq_true]
  simp only [mem_inTestOrder]

theorem test_of_canSee {query : Query} {document : Document} (can : ∀ entry ∈ query, document.CanSee entry.1) :
    test document query = .ok (query.passes document) := by
  induction query with
  | nil => rfl
  | cons entry rest ih =>
    obtain ⟨field, condition⟩ := entry
    obtain ⟨cell, own⟩ := can _ List.mem_cons_self
    have later := ih fun entry member => can entry (List.mem_cons_of_mem _ member)
    have whole : passes ((field, condition) :: rest) document =
        (condition.holds field (document.seen field) && passes rest document) := rfl
    rw [test, own, whole, Document.seen_of_ofField own]
    change (if condition.holds field cell = true then test document rest else .ok false) = _
    rw [later]
    cases condition.holds field cell <;> rfl

theorem passes_of_shows {query : Query} {document : Document} (shows : ∀ entry ∈ query, document.Shows entry.1) :
    query.passes document = query.selects document := by
  rw [Bool.eq_iff_iff, passes, selects, List.all_eq_true, List.all_eq_true]
  refine forall₂_congr fun entry member => ?_
  rw [Document.seen_of_ofField (shows entry member)]

end Query

namespace Store
variable {store : Store} {collection : String} {query : Query} {keys : List SortKey}

/-- Each document of a collection that a query selects is among some others once, in the order
of the keys; those that no key tells apart are in the order of their insertion. -/
structure Arranged (store : Store) (collection : String) (query : Query) (keys : List SortKey)
    (found : List Document) : Prop where
  once : found.Nodup
  exact : ∀ document, document ∈ found ↔ document ∈ store.documents collection ∧ query.selects document = true
  arranged : found.Pairwise fun a b => SortKey.Before keys a b ∨
    SortKey.Tied keys a b ∧ [a, b].Sublist (store.documents collection)

/-- A query answers with the documents that it selects, as they are read, in order. -/
def FindsInOrder (store : Store) (collection : String) (query : Query) (keys : List SortKey) : Prop :=
  ∃ found answers, store.find collection query keys = .ok answers ∧
    ReadAs collection found answers ∧ store.Arranged collection query keys found

theorem selected_of_canSee (answerable : query.isAnswerable = true)
    (can : ∀ document ∈ store.documents collection, ∀ entry ∈ query, document.CanSee entry.1)
    (byInsertion : Bool) : store.selected collection query byInsertion =
      .ok ((store.documents collection).filter query.passes) := by
  unfold selected
  rw [if_pos answerable]
  apply filterM_of_ok
  intro document member
  rw [Query.test_of_canSee fun entry among => can document member entry (Query.mem_inTestOrder.mp among)]
  exact congrArg Except.ok (query.all_inTestOrder byInsertion _)

theorem selected_of_shows (answerable : query.isAnswerable = true)
    (shows : ∀ document ∈ store.documents collection, ∀ entry ∈ query, document.Shows entry.1)
    (byInsertion : Bool) : store.selected collection query byInsertion =
      .ok ((store.documents collection).filter query.selects) := by
  rw [selected_of_canSee answerable fun document member entry listed => ⟨_, shows document member entry listed⟩]
  exact congrArg Except.ok (List.filter_congr fun document member => Query.passes_of_shows (shows document member))

end Store

/-! ### Sorting -/

theorem SortKey.sort_of_shows {keys : List SortKey} {documents : List Document}
    (shows : ∀ document ∈ documents, ∀ key ∈ keys, document.Shows key.field) :
    sort keys documents = .ok (documents.mergeSort fun a b => orderAll keys a b != .gt) := by
  have measured : documents.mapM (fun document => do return (← cells keys document, document)) =
      (.ok (documents.map fun document => (keys.map (document.cell ·.field), document)) :
        Except StoreError (List (List Cell × Document))) := by
    apply mapM_of_ok
    intro document member
    rw [cells, mapM_of_ok (f := fun key : SortKey => document.cell key.field) (shows document member)]
    rfl
  rw [sort, measured]
  refine congrArg Except.ok ?_
  rw [← List.map_mergeSort (r := fun a b => orderAll keys a b != .gt), List.map_map]
  · exact List.map_id'' (fun _ => rfl) _
  · intro a _ b _
    rfl

namespace SortKey
variable {keys : List SortKey} {a b : Document}

theorem cell_idKey (document : Document) : document.cell idKey = .text document.id.text := by
  simp [Document.cell, Document.valueAt?, Cell.ofValue, Cell.ofJson]

/-- Behind a leading id no key is needed. -/
theorem before_of_telling (before : Before (telling keys) a b) : Before keys a b := by
  cases keys with
  | nil => exact before
  | cons key rest =>
    rw [telling] at before
    split at before
    · cases before with
      | now less => exact .now less
      | later _ further => cases further
    · exact before

theorem id_eq_of_cell (same : a.cell idKey = b.cell idKey) : a.id = b.id := by
  rw [cell_idKey, cell_idKey] at same
  exact EntityId.eq_of_text (Cell.text.inj same)

theorem eq_of_order {key : SortKey} (tied : key.order a b = .eq) : a.cell key.field = b.cell key.field := by
  obtain ⟨field, direction⟩ := key
  cases direction with
  | ascending => exact Cell.eq_of_compare tied
  | descending => exact Cell.eq_of_compare (Ordering.swap_eq_eq.mp tied)

theorem tied_of_telling (tied : Tied (telling keys) a b) : Tied keys a b ∨ a.id = b.id := by
  cases keys with
  | nil => exact .inl tied
  | cons key rest =>
    rw [telling] at tied
    split at tied
    · rename_i leading
      have same := eq_of_order (tied key List.mem_cons_self)
      rw [leading] at same
      exact .inr (id_eq_of_cell same)
    · exact .inl tied

end SortKey

/-- Of documents that a query for one id selects there are no two. -/
theorem Query.id_eq_of_asksForOneId {query : Query} {a b : Document} (one : query.asksForOneId = true)
    (left : query.selects a = true) (right : query.selects b = true) : a.id = b.id := by
  have equals {document : Document} {value : Json} (held : Condition.relates .eq (document.cell idKey)
      (Cell.ofOperand idKey value) = true) : document.cell idKey = Cell.ofOperand idKey value := by
    simp only [Condition.relates, Bool.and_eq_true, Comparison.allows, beq_iff_eq] at held
    exact Cell.eq_of_compare held.2
  have never {document : Document} : (document.cell idKey).isNone = false := by
    rw [SortKey.cell_idKey]
    rfl
  have bound : ∃ value, ∀ document, query.selects document = true →
      document.cell idKey = Cell.ofOperand idKey value := by
    unfold asksForOneId at one
    split at one
    · rename_i value found
      refine ⟨value, fun document selected => ?_⟩
      have held := List.all_eq_true.mp selected _ (Keyed.mem_of_find? found)
      cases value with
      | null => exact absurd held (by simp [Condition.holds, never])
      | _ => exact equals held
    · rename_i value found
      refine ⟨value, fun document selected => ?_⟩
      have held := List.all_eq_true.mp selected _ (Keyed.mem_of_find? found)
      exact equals (by simpa [Condition.holds] using held)
    · cases one
  obtain ⟨value, same⟩ := bound
  exact SortKey.id_eq_of_cell ((same a left).trans (same b right).symm)

namespace Store
variable {store : Store} {collection : String} {query : Query} {keys used : List SortKey}

/-- Sorting selected documents by keys that tell no less than others arranges them by these. -/
theorem arranged_of_mergeSort
    (tells : ∀ {a b}, a ∈ store.documents collection → b ∈ store.documents collection → a ≠ b →
      query.selects a = true → query.selects b = true →
        (SortKey.Before used a b → SortKey.Before keys a b) ∧ (SortKey.Tied used a b → SortKey.Tied keys a b)) :
    store.Arranged collection query keys (((store.documents collection).filter query.selects).mergeSort
      fun a b => SortKey.orderAll used a b != .gt) := by
  let chosen := (store.documents collection).filter query.selects
  have le (outcome : Ordering) : (outcome != .gt) = outcome.isLE := by cases outcome <;> rfl
  have trans (a b c : Document) : (SortKey.orderAll used a b != .gt) = true →
      (SortKey.orderAll used b c != .gt) = true → (SortKey.orderAll used a c != .gt) = true := by
    simp only [le]
    exact Std.TransCmp.isLE_trans
  have swap (a b : Document) : SortKey.orderAll used a b = (SortKey.orderAll used b a).swap :=
    Std.OrientedCmp.eq_swap
  have total (a b : Document) :
      ((SortKey.orderAll used a b != .gt) || (SortKey.orderAll used b a != .gt)) = true := by
    rw [swap a b]
    cases SortKey.orderAll used b a <;> rfl
  have perm := List.mergeSort_perm chosen fun a b => SortKey.orderAll used a b != .gt
  have once : chosen.Nodup := (nodup_documents store collection).filter _
  refine ⟨perm.nodup_iff.mpr once, fun document => ?_, ?_⟩
  · rw [perm.mem_iff, List.mem_filter]
  · apply List.pairwise_iff_forall_sublist.mpr
    intro a b pair
    have different : a ≠ b := fun same =>
      List.nodup_iff_sublist.mp (perm.nodup_iff.mpr once) a (by rwa [← same] at pair)
    have left : a ∈ chosen := perm.mem_iff.mp (pair.subset (by simp))
    have right : b ∈ chosen := perm.mem_iff.mp (pair.subset (by simp))
    obtain ⟨stored, passes⟩ := List.mem_filter.mp left
    obtain ⟨storedToo, passesToo⟩ := List.mem_filter.mp right
    obtain ⟨before, tied⟩ := tells stored storedToo different passes passesToo
    have inOrder := List.pairwise_iff_forall_sublist.mp (List.pairwise_mergeSort trans total chosen) pair
    cases compared : SortKey.orderAll used a b with
    | lt => exact .inl (before (SortKey.orderAll_eq_lt.mp compared))
    | gt => simp [compared] at inOrder
    | eq =>
      refine .inr ⟨tied (SortKey.orderAll_eq_eq.mp compared), ?_⟩
      rcases pair_sublist_or left right different with forth | back
      · exact forth.trans List.filter_sublist
      · -- A stable sort keeps a pair in its order if the keys do not tell it apart.
        have kept := List.pair_sublist_mergeSort trans total (by rw [swap, compared]; rfl) back
        exact absurd kept (not_pair_sublist (perm.nodup_iff.mpr once) pair)

theorem findsInOrder_of_shows (answerable : query.isAnswerable = true)
    (readable : ∀ document ∈ store.documents collection, (⟨collection, document⟩ : Row).IsReadable)
    (shows : ∀ document ∈ store.documents collection,
      (∀ entry ∈ query, document.Shows entry.1) ∧ ∀ key ∈ keys, document.Shows key.field) :
    store.FindsInOrder collection query keys := by
  let used := if query.asksForOneId then [] else SortKey.telling keys
  let chosen := (store.documents collection).filter query.selects
  have selected := selected_of_shows answerable (fun document member => (shows document member).1) keys.isEmpty
  have sorted : SortKey.sort used chosen = .ok (chosen.mergeSort fun a b => SortKey.orderAll used a b != .gt) := by
    apply SortKey.sort_of_shows
    intro document member key listed
    have among : key ∈ keys := by
      simp only [used] at listed
      split at listed
      · cases listed
      · exact SortKey.mem_telling listed
    exact (shows document (List.mem_filter.mp member).1).2 key among
  have arranged : store.Arranged collection query keys
      (chosen.mergeSort fun a b => SortKey.orderAll used a b != .gt) := by
    apply arranged_of_mergeSort
    intro a b stored storedToo different passes passesToo
    by_cases one : query.asksForOneId = true
    · exact absurd (eq_of_id stored storedToo (Query.id_eq_of_asksForOneId one passes passesToo)) different
    · simp only [used, if_neg one]
      refine ⟨SortKey.before_of_telling, fun tied => ?_⟩
      exact (SortKey.tied_of_telling tied).resolve_right fun same => different (eq_of_id stored storedToo same)
  obtain ⟨answers, read⟩ := exists_mapM fun document member =>
    readable document ((arranged.exact document).mp member).1
  refine ⟨_, answers, ?_, mapM_eq_ok.mp read, arranged⟩
  exact bind_eq_ok.mpr ⟨_, selected, bind_eq_ok.mpr ⟨_, sorted, read⟩⟩

/-! ### Seeing -/

/-- Documents of a collection that are read alike are the same. -/
theorem ReadAs.subset {found others answers : List Document} (read : ReadAs collection found answers)
    (readToo : ReadAs collection others answers) (within : found ⊆ store.documents collection)
    (withinToo : others ⊆ store.documents collection) : found ⊆ others := by
  intro document member
  have listed : document.id ∈ others.map Document.id := by
    rw [readToo.ids, ← read.ids]
    exact List.mem_map_of_mem member
  obtain ⟨other, among, same⟩ := List.mem_map.mp listed
  exact eq_of_id (withinToo among) (within member) same ▸ among

theorem inTestOrder_single {field : String} (other : field ≠ idKey) (condition : Condition) (byInsertion : Bool) :
    Query.inTestOrder [(field, condition)] byInsertion = [(field, condition)] := by
  simp [Query.inTestOrder, Query.idFirst, Keyed.find?, other]

/-- If a condition finds the documents that it is to find, what the store sees of its field meets
it like what is to be seen. -/
theorem holds_of_findsInOrder {field : String} (other : field ≠ idKey) {condition : Condition}
    (finds : store.FindsInOrder collection [(field, condition)] []) {document : Document}
    (member : document ∈ store.documents collection) :
    ∃ cell, Cell.ofField document field = .ok cell ∧
      condition.holds field cell = condition.holds field (document.cell field) := by
  obtain ⟨found, answers, done, read, arranged⟩ := finds
  obtain ⟨chosen, selected, reading⟩ := bind_eq_ok.mp (find_unsorted .. ▸ done)
  have readToo : ReadAs collection chosen answers := mapM_eq_ok.mp reading
  have filtered := filterM_of_selected selected
  rw [inTestOrder_single other] at filtered
  obtain ⟨answer, tested⟩ := answers_of_filterM filtered document member
  obtain ⟨cell, seen, decided⟩ := bind_eq_ok.mp tested
  refine ⟨cell, seen, ?_⟩
  have passes : condition.holds field cell = answer := by
    change (if condition.holds field cell = true then .ok true else .ok false) = Except.ok answer at decided
    cases held : condition.holds field cell <;> simpa [held] using decided
  have listed : document ∈ chosen ↔ answer = true := by
    rw [eq_filter_of_filterM filtered, List.mem_filter, and_iff_right member, tested]
    rfl
  have within : chosen ⊆ store.documents collection := (sublist_of_selected selected).subset
  have withinToo : found ⊆ store.documents collection :=
    fun document among => ((arranged.exact document).mp among).1
  have same : document ∈ chosen ↔ document ∈ found :=
    ⟨fun among => readToo.subset read within withinToo among, fun among => read.subset readToo withinToo within among⟩
  rw [passes, Bool.eq_iff_iff, ← listed, same, arranged.exact, and_iff_right member]
  simp [Query.selects]

/-- What the store sees of a field is what is to be seen, if comparisons of it for equality find
the documents that they are to find. -/
theorem shows_of_findsInOrder {field : String}
    (finds : ∀ operand, store.FindsInOrder collection [(field, .compare .eq operand)] [])
    {document : Document} (member : document ∈ store.documents collection) : document.Shows field := by
  by_cases here : field = idKey
  · exact here ▸ document.shows_idKey
  · -- Being equal to null tells whether nothing is seen, being equal to the value itself what is seen.
    obtain ⟨cell, seen, nothing⟩ := holds_of_findsInOrder here (finds .null) member
    have missing : cell = .none ↔ document.cell field = .none := by
      rw [← Cell.isNone_iff, ← Cell.isNone_iff]
      exact Bool.eq_iff_iff.mp nothing
    rw [Document.Shows, seen]
    refine congrArg Except.ok ?_
    cases held : document.valueAt? field with
    | none =>
      have none : document.cell field = .none := by rw [Document.cell, held]; rfl
      rw [none, missing.mpr none]
    | some value =>
      have own : document.cell field = Cell.ofJson value := by rw [Document.cell, held]; rfl
      by_cases null : value = .null
      · have none : document.cell field = .none := by rw [own, null]; rfl
        rw [none, missing.mpr none]
      · obtain ⟨also, again, equal⟩ := holds_of_findsInOrder here (finds value) member
        obtain rfl : cell = also := Except.ok.inj (seen.symm.trans again)
        have operand : Cell.ofOperand field value = document.cell field := by
          rw [Cell.ofOperand_eq_ofJson here, own]
        have meets : (Condition.compare .eq value).holds field (document.cell field) = true := by
          rw [Condition.holds_compare null, operand, Cell.compare_self, own]
          exact ⟨fun none => null (Cell.ofJson_eq_none.mp none), rfl⟩
        rw [meets, Condition.holds_compare null, operand] at equal
        exact Cell.eq_of_compare (by simpa [Comparison.allows] using equal.2)

/-- For all queries and sort keys over some fields a store finds each document that is selected
once and in order, exactly if its documents can be read and it sees of these fields what is to be
seen of them; of literal paths it does. Comparisons follow the order that is sorted by. -/
theorem findsInOrder_iff (store : Store) (collection : String) (fields : List String) :
    ((∀ (query : Query) (keys : List SortKey), query.isAnswerable = true →
        (∀ entry ∈ query, entry.1 ∈ fields) → (∀ key ∈ keys, key.field ∈ fields) →
          store.FindsInOrder collection query keys) ↔
      ∀ document ∈ store.documents collection, (⟨collection, document⟩ : Row).IsReadable ∧
        ∀ field ∈ fields, document.Shows field) ∧
    (∀ (document : Document) (field : String), (∀ segment ∈ Text.segments field, KeyPath.IsLiteral segment) →
      (Json.object document.body).HasWholeKeys → document.Shows field) ∧
    (∀ (field : String) (cell : Cell) (operand : Json), operand ≠ .null →
      Condition.FollowOrder field cell operand) ∧ Std.TransCmp Cell.compare := by
  refine ⟨⟨fun finds document member => ⟨?_, fun field listed => ?_⟩,
    fun sees query keys answerable asked sortedBy => ?_⟩,
    fun document field => Document.shows_of_literal, fun field cell operand => Condition.followOrder field cell,
    inferInstance⟩
  · obtain ⟨found, answers, _, read, arranged⟩ := finds [] [] rfl (by simp) (by simp)
    obtain ⟨answer, _, own⟩ := result_of_mapM (mapM_eq_ok.mpr read) ((arranged.exact document).mpr ⟨member, rfl⟩)
    exact ⟨answer, own⟩
  · apply shows_of_findsInOrder (fun operand => finds _ [] ?_ ?_ ?_) member
    · simp [Query.isAnswerable]
    · simpa using listed
    · simp
  · apply findsInOrder_of_shows answerable
    · exact fun document member => (sees document member).1
    · exact fun document member => ⟨fun entry among => (sees document member).2 _ (asked entry among),
        fun key among => (sees document member).2 _ (sortedBy key among)⟩

end Store

/-! ### Notes -/

/-- The double 2 ^ 53. -/
def wideDouble : Double := ⟨false, 0x10000000000000, 1075, by decide⟩

/-- A note without a size, one of the size 2 ^ 53 as a double and one that is larger by one. -/
def noteStore : Store where
  rows := [⟨"note", ⟨EntityId.mint 0 0, []⟩⟩,
    ⟨"note", ⟨EntityId.mint 0 1, [("size", .number (.double wideDouble))]⟩⟩,
    ⟨"note", ⟨EntityId.mint 0 2, [("size", .number (.whole ⟨0x20000000000001, by decide⟩))]⟩⟩]
  distinct := by decide +kernel

/-- Notes of a size are found largest first, though no double is between the two sizes. -/
theorem noteStore_findsInOrder : noteStore.FindsInOrder "note"
    [("size", .compare .gte (.number (.double wideDouble)))] [⟨"size", .descending⟩] := by
  have each : ∀ document ∈ noteStore.documents "note", (Json.object document.body).Ordered ∧
      (Json.rereadMembers Row.levels document.body).isSome = true := by decide +kernel
  have whole : ∀ document ∈ noteStore.documents "note", (Json.object document.body).HasWholeKeys := by
    intro document member
    have documents : noteStore.documents "note" = noteStore.rows.map Row.document := by cbv
    rw [documents] at member
    simp only [noteStore, List.map_cons, List.map_nil, List.mem_cons, List.not_mem_nil, or_false] at member
    rcases member with rfl | rfl | rfl <;> simp [Json.HasWholeKeys, Json.MembersHaveWholeKeys]
  have literal : ∀ segment ∈ Text.segments "size", KeyPath.IsLiteral segment := by decide +kernel
  apply (Store.findsInOrder_iff noteStore "note" ["size"]).1.mpr
  · intro document member
    refine ⟨(Row.isReadable_iff (each document member).1).mpr (each document member).2, ?_⟩
    rintro field listed
    obtain rfl := List.mem_singleton.mp listed
    exact Document.shows_of_literal literal (whole document member)
  · rfl
  · simp
  · simp

/-- A note under a key with a backslash. -/
def slashedNote : Document := ⟨EntityId.mint 0 0, [("a\\b", .number (.whole .one))]⟩

def slashedStore : Store := ⟨[⟨"note", slashedNote⟩], by simp⟩

def slashedQuery : Query := [("a\\b", .compare .eq (.number (.whole .one)))]

/-- The store reads the backslash as an escape: the note is selected but not found. -/
theorem slashedNote_overlooked : slashedQuery.isAnswerable = true ∧ (⟨"note", slashedNote⟩ : Row).IsReadable ∧
    slashedNote ∈ slashedStore.documents "note" ∧ slashedQuery.selects slashedNote = true ∧
      slashedStore.find "note" slashedQuery [] = .ok [] ∧
        ¬ slashedStore.FindsInOrder "note" slashedQuery [] := by
  have readable : (⟨"note", slashedNote⟩ : Row).IsReadable :=
    (Row.isReadable_iff (by decide +kernel)).mpr (by decide +kernel)
  have documents : slashedStore.documents "note" = [slashedNote] := by cbv
  have member : slashedNote ∈ slashedStore.documents "note" := documents ▸ List.mem_singleton_self _
  have seen : slashedNote.cell "a\\b" = Cell.ofJson (.number (.whole .one)) := rfl
  have selects : slashedQuery.selects slashedNote = true := by
    rw [Query.selects, slashedQuery, List.all_eq_true]
    rintro entry listed
    obtain rfl := List.mem_singleton.mp listed
    rw [Condition.holds_compare (by simp), Cell.ofOperand_eq_ofJson (by decide), seen, Cell.compare_self]
    exact ⟨fun nothing => Json.noConfusion (Cell.ofJson_eq_none.mp nothing), rfl⟩
  have none : slashedStore.find "note" slashedQuery [] = .ok [] := by
    have unseen : Cell.ofField slashedNote "a\\b" = .ok .none := rfl
    have tested : ∀ document ∈ [slashedNote], Query.test document slashedQuery = .ok false := by
      rintro document listed
      obtain rfl := List.mem_singleton.mp listed
      rw [slashedQuery, Query.test, unseen]
      rfl
    have selected : slashedStore.selected "note" slashedQuery true = .ok [] := by
      unfold Store.selected
      rw [if_pos (by rfl), documents, slashedQuery, Store.inTestOrder_single (by decide), ← slashedQuery,
        filterM_of_ok tested]
      rfl
    rw [Store.find_unsorted, selected]
    rfl
  refine ⟨rfl, readable, member, selects, none, ?_⟩
  rintro ⟨found, answers, done, read, arranged⟩
  have listed := (arranged.exact slashedNote).mpr ⟨member, selects⟩
  cases none.symm.trans done
  cases read
  cases listed

end Dossier
