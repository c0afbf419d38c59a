import Dossier.Store.Query
import Dossier.Json.Reader

/-! The document store: documents of all collections in the order of their
insertion, at most one of an id in a collection. Bodies are kept as texts would
be: what is read is what their compact text denotes. -/
namespace Dossier

structure Row where
  collection : String
  document : Document

def Row.key (row : Row) : String × EntityId := (row.collection, row.document.id)

/-- The document as it is read back from its text. -/
def Row.read (row : Row) : Except StoreError Document :=
  match Json.parseBody? (Json.object row.document.body).render with
  | some body => .ok ⟨row.document.id, body⟩
  | none => .error (.invalidData row.collection row.document.id)

structure Store where
  rows : List Row
  /-- No id is there twice in a collection. -/
  distinct : (rows.map Row.key).Nodup

namespace Store

def empty : Store := ⟨[], List.nodup_nil⟩

/-- The documents of a collection as they were written, in insertion order. -/
def documents (store : Store) (collection : String) : List Document :=
  (store.rows.filter (·.collection = collection)).map Row.document

def contains (store : Store) (collection : String) (id : EntityId) : Bool :=
  (store.rows.map Row.key).contains (collection, id)

/-! ### Writing -/

/-- Adds a document at the end. Its id must be free in the collection. -/
def insert (store : Store) (collection : String) (document : Document) : Except StoreError Store :=
  if taken : (collection, document.id) ∈ store.rows.map Row.key then
    .error (.conflict collection document.id)
  else .ok ⟨store.rows ++ [⟨collection, document⟩], by
    rw [List.map_append]
    refine List.nodup_append.mpr ⟨store.distinct, by simp, ?_⟩
    intro key member other single same
    rw [List.mem_singleton.mp single] at same
    have here : key = (collection, document.id) := same
    exact taken (here ▸ member)⟩

/-- Adds documents one after the other; all of them or none. -/
def insertMany (store : Store) (collection : String) (documents : List Document) :
    Except StoreError Store :=
  documents.foldlM (fun store document => store.insert collection document) store

/-- Gives the body of a document to the one stored under its id, which keeps its
place. -/
def overwrite (store : Store) (collection : String) (document : Document) : Store :=
  let write (row : Row) : Row :=
    if row.key = (collection, document.id) then ⟨collection, document⟩ else row
  ⟨store.rows.map write, by
    have same : Row.key ∘ write = Row.key := by
      funext row
      simp only [Function.comp, write]
      split
      · rename_i equal
        exact equal.symm
      · rfl
    rw [List.map_map, same]
    exact store.distinct⟩

/-- Overwrites a document and tells whether there was one. -/
def replace (store : Store) (collection : String) (document : Document) : Bool × Store :=
  (store.contains collection document.id, store.overwrite collection document)

/-- Overwrites documents one after the other and counts those that were there. -/
def replaceMany (store : Store) (collection : String) : List Document → Nat × Store
  | [] => (0, store)
  | document :: rest =>
    let (found, store) := store.replace collection document
    let (count, store) := replaceMany store collection rest
    ((if found then 1 else 0) + count, store)

/-- Keeps the rows of which something holds. -/
def keep (store : Store) (kept : Row → Bool) : Store :=
  ⟨store.rows.filter kept, store.distinct.sublist (List.filter_sublist.map Row.key)⟩

/-- Deletes a document and tells whether there was one. -/
def delete (store : Store) (collection : String) (id : EntityId) : Bool × Store :=
  (store.contains collection id, store.keep fun row => row.key ≠ (collection, id))

/-- The documents of a collection that a query selects, in insertion order. Whether they
are wanted in that order decides in which order the conditions are tested. -/
def selected (store : Store) (collection : String) (query : Query) (byInsertion : Bool) :
    Except StoreError (List Document) :=
  if query.isAnswerable then
    (store.documents collection).filterM (Query.test · (query.inTestOrder byInsertion))
  else .error .database

/-- Deletes the documents a query selects and counts them. -/
def deleteMany (store : Store) (collection : String) (query : Query) : Except StoreError (Nat × Store) := do
  let ids := (← store.selected collection query false).map Document.id
  return (ids.length, store.keep fun row => !(row.collection = collection && ids.contains row.document.id))

/-! ### Reading -/

def get (store : Store) (collection : String) (id : EntityId) : Except StoreError (Option Document) :=
  match store.rows.find? (·.key = (collection, id)) with
  | some row => row.read.map some
  | none => .ok none

/-- The documents a query selects, sorted. -/
def find (store : Store) (collection : String) (query : Query) (keys : List SortKey) :
    Except StoreError (List Document) := do
  let documents ← store.selected collection query keys.isEmpty
  let sorted ← SortKey.sort (if query.asksForOneId then [] else SortKey.telling keys) documents
  sorted.mapM fun document => Row.read ⟨collection, document⟩

def count (store : Store) (collection : String) (query : Query) : Except StoreError Nat :=
  (store.selected collection query false).map List.length

end Store
end Dossier
