import Dossier.Proofs.StoreRows

/-! The documents of a collection after something was written to it, or to another one. -/
namespace Dossier.Store

theorem eq_of_rows {store other : Store} (same : store.rows = other.rows) : store = other := by
  obtain ⟨rows, _⟩ := store
  obtain ⟨others, _⟩ := other
  obtain rfl : rows = others := same
  rfl

variable {store after : Store} {collection : String} {document : Document} {documents : List Document}
  {id : EntityId}

/-- The ids of the documents of a collection are those that are taken in it. -/
theorem mem_ids_iff : id ∈ (store.documents collection).map Document.id ↔ (collection, id) ∈ store.rows.map Row.key := by
  constructor
  · intro listed
    obtain ⟨document, member, rfl⟩ := List.mem_map.mp listed
    exact List.mem_map_of_mem (mem_documents.mp member)
  · intro taken
    obtain ⟨⟨place, document⟩, member, key⟩ := List.mem_map.mp taken
    obtain ⟨rfl, rfl⟩ : place = collection ∧ document.id = id := Prod.mk.inj key
    exact List.mem_map_of_mem (mem_documents.mpr member)

theorem contains_eq (store : Store) (collection : String) (id : EntityId) :
    store.contains collection id = decide (id ∈ (store.documents collection).map Document.id) := by
  rw [contains, List.contains_eq_mem, decide_eq_decide, mem_ids_iff]

theorem nodup_ids (store : Store) (collection : String) : ((store.documents collection).map Document.id).Nodup := by
  refine List.Nodup.map_on (fun document member other also => eq_of_id member also) (nodup_documents store collection)

/-! ### Insertion -/

theorem documents_of_insert (inserted : store.insert collection document = .ok after) (place : String) :
    after.documents place = store.documents place ++ if place = collection then [document] else [] := by
  rw [documents, rows_of_insert inserted, List.filter_append, List.map_append, ← documents]
  by_cases here : place = collection
  · simp [here]
  · simp [here, Ne.symm here]

theorem documents_of_insertMany (inserted : store.insertMany collection documents = .ok after) (place : String) :
    after.documents place = store.documents place ++ if place = collection then documents else [] := by
  rw [Store.documents, rows_of_insertMany inserted, List.filter_append, List.map_append, ← Store.documents]
  by_cases here : place = collection
  · simp [here, List.filter_map, Function.comp_def]
  · simp [here, Ne.symm here, List.filter_map, Function.comp_def]

theorem insert_of_taken (taken : document.id ∈ (store.documents collection).map Document.id) :
    store.insert collection document = .error (.conflict collection document.id) :=
  dif_pos (mem_ids_iff.mp taken)

theorem exists_insert (free : document.id ∉ (store.documents collection).map Document.id) :
    ∃ after, store.insert collection document = .ok after :=
  ⟨_, dif_neg fun taken => free (mem_ids_iff.mpr taken)⟩

/-! ### Replacement -/

theorem documents_overwrite (store : Store) (collection : String) (document : Document) (place : String) :
    (store.overwrite collection document).documents place = (store.documents place).map fun other =>
      if place = collection ∧ other.id = document.id then document else other := by
  -- A row that is written over stays in its collection, so it does not matter which is done first.
  have own : ∀ row : Row, ((if row.key = (collection, document.id) then ⟨collection, document⟩ else row : Row).collection
      = place) ↔ row.collection = place := by
    intro row
    split
    · rename_i key
      obtain rfl : row.collection = collection := congrArg Prod.fst key
      exact .rfl
    · exact .rfl
  simp only [documents, overwrite, List.filter_map, List.map_map]
  simp only [Function.comp_def, own]
  refine List.map_congr_left fun row member => ?_
  obtain rfl : row.collection = place := of_decide_eq_true (List.mem_filter.mp member).2
  simp only [Row.key, Prod.mk.injEq]
  split <;> rfl

theorem documents_replaceMany_of_ne {place : String} (other : place ≠ collection) (documents : List Document) :
    (store.replaceMany collection documents).2.documents place = store.documents place := by
  induction documents generalizing store with
  | nil => rfl
  | cons document rest ih =>
    have first : (store.overwrite collection document).documents place = store.documents place := by
      simp [documents_overwrite, other]
    exact ih.trans first

/-- There is nothing to write over. -/
theorem overwrite_of_free (free : document.id ∉ (store.documents collection).map Document.id) :
    store.overwrite collection document = store := by
  refine eq_of_rows (Eq.trans (List.map_congr_left fun row member => ?_) (List.map_id store.rows))
  have other : row.key ≠ (collection, document.id) := fun key =>
    free (mem_ids_iff.mpr (key ▸ List.mem_map_of_mem member))
  exact if_neg other

/-! ### Deletion -/

theorem documents_keep (store : Store) (kept : Row → Bool) (place : String) :
    (store.keep kept).documents place = (store.documents place).filter fun document => kept ⟨place, document⟩ := by
  simp only [documents, keep, List.filter_map, List.filter_filter]
  refine congrArg _ (List.filter_congr fun row _ => ?_)
  by_cases here : row.collection = place
  · simp [← here]
  · simp [here]

/-- Documents are deleted one after the other. -/
theorem keep_cons (store : Store) (collection : String) (id : EntityId) (ids : List EntityId) :
    (store.keep fun row => !(row.collection = collection && (id :: ids).contains row.document.id)) =
      (store.delete collection id).2.keep fun row => !(row.collection = collection && ids.contains row.document.id) := by
  refine eq_of_rows ?_
  simp only [delete, keep, List.filter_filter]
  refine List.filter_congr fun row _ => ?_
  by_cases here : row.collection = collection <;> by_cases same : row.document.id = id <;> simp [Row.key, here, same]

end Dossier.Store
