import Dossier.Model.Selection
import Dossier.Proofs.HiddenPaths
import Dossier.Proofs.Writes

/-! Documents that differ at most in the password of their model, and all that is the same
about them: how they are shown, tested and sorted, and whether an update changes them. -/
namespace Dossier

namespace Model

/-- A body without the value at the password. -/
def withoutPassword (model : Model) (body : Body) : Body :=
  match model.schema.behaviors.password with
  | some path => body.remove path
  | none => body

/-- Two documents with keys in order that differ at most in the password. -/
structure Alike (model : Model) (document other : Document) : Prop where
  id : document.id = other.id
  ordered : (Json.object document.body).Ordered
  also : (Json.object other.body).Ordered
  hidden : model.withoutPassword document.body = model.withoutPassword other.body

variable {model : Model} {document other : Document} {path : String}

theorem Alike.equalBut (alike : model.Alike document other)
    (password : model.schema.behaviors.password = some path) :
    Body.EqualBut (Text.segments path) document.body other.body := by
  apply (Body.drop_eq_iff (Text.segments_ne_nil path) alike.ordered alike.also).mp
  simpa only [withoutPassword, password, Body.remove] using alike.hidden

/-- What does the same to equal bodies and to bodies that differ at a place keeps documents
alike. -/
theorem Alike.congr (alike : model.Alike document other) {body also : Body}
    (ordered : (Json.object body).Ordered) (orderedToo : (Json.object also).Ordered)
    (equal : document.body = other.body → body = also)
    (differ : ∀ place, Body.EqualBut place document.body other.body → Body.EqualBut place body also) :
    model.Alike ⟨document.id, body⟩ ⟨other.id, also⟩ := by
  refine ⟨alike.id, ordered, orderedToo, ?_⟩
  cases password : model.schema.behaviors.password with
  | none =>
    have same : document.body = other.body := by
      simpa only [withoutPassword, password] using alike.hidden
    simp only [withoutPassword, password]
    exact equal same
  | some path =>
    simp only [withoutPassword, password]
    apply (Body.drop_eq_iff (Text.segments_ne_nil path) ordered orderedToo).mpr
    exact differ _ (alike.equalBut password)

/-- Alike documents are shown the same. -/
theorem Alike.sanitize (alike : model.Alike document other) :
    model.sanitize document = model.sanitize other := by
  have shown (document : Document) : model.sanitize document =
      (model.withoutPassword document.body).insert idKey (.text document.id.text) := rfl
  rw [shown, shown, alike.hidden, alike.id]

/-! ### Paths that lead past the password -/

/-- The store reads a path as one that does not lead to the password, nor above or below it. -/
def Passes (model : Model) (path : String) : Prop :=
  ∀ password ∈ model.schema.behaviors.password,
    path = idKey ∨ ¬ KeyPath.Reaches (KeyPath.steps path) (Text.segments password)

theorem Alike.ofField (alike : model.Alike document other) (passes : model.Passes path) :
    Cell.ofField document path = Cell.ofField other path := by
  unfold Cell.ofField
  split
  · rw [alike.id]
  · rename_i field
    have followed : KeyPath.follow (KeyPath.steps path) (.object document.body) =
        KeyPath.follow (KeyPath.steps path) (.object other.body) := by
      cases password : model.schema.behaviors.password with
      | none =>
        have same : document.body = other.body := by
          simpa only [withoutPassword, password] using alike.hidden
        rw [same]
      | some place =>
        exact KeyPath.follow_of_equalBut ((passes place password).resolve_left field) alike.ordered
          alike.also (alike.equalBut password)
    rw [followed]

theorem Alike.test (alike : model.Alike document other) {query : Query}
    (passes : ∀ entry ∈ query, model.Passes entry.1) : query.test document = query.test other := by
  induction query with
  | nil => rfl
  | cons first rest ih =>
    obtain ⟨field, condition⟩ := first
    have later := ih fun entry member => passes entry (List.mem_cons_of_mem _ member)
    rw [Query.test, Query.test, alike.ofField (passes _ List.mem_cons_self), later]

theorem Alike.cells (alike : model.Alike document other) {keys : List SortKey}
    (passes : ∀ key ∈ keys, model.Passes key.field) :
    SortKey.cells keys document = SortKey.cells keys other := by
  induction keys with
  | nil => rfl
  | cons key rest ih =>
    have later := ih fun key member => passes key (List.mem_cons_of_mem _ member)
    unfold SortKey.cells at later ⊢
    rw [List.mapM_cons, List.mapM_cons, alike.ofField (passes key List.mem_cons_self), later]

/-! ### Updates -/

/-- No path that is written touches the password. -/
def Spares (model : Model) (update : Update) : Prop :=
  ∀ password ∈ model.schema.behaviors.password,
    (∀ entry ∈ update.sets, Text.Apart (Text.segments entry.1) (Text.segments password)) ∧
      ∀ path ∈ update.unsets, Text.Apart (Text.segments path) (Text.segments password)

end Model

/-- What every single write keeps of two bodies, an update keeps. -/
theorem Update.apply_congr {related : Body → Body → Prop} {body other : Body} (update : Update)
    (put : ∀ held also, related held also → ∀ names value, related (held.put value names) (also.put value names))
    (drop : ∀ held also, related held also → ∀ names, related (held.drop names) (also.drop names))
    (start : related body other) : related (update.apply body) (update.apply other) := by
  apply List.foldl_rel
  · apply List.foldl_rel start
    intro entry _ held also alike
    exact put held also alike _ entry.2
  · intro path _ held also alike
    exact drop held also alike _

theorem Body.EqualBut.apply {place : List String} {body other : Body}
    (alike : EqualBut place body other) (update : Update) :
    EqualBut place (update.apply body) (update.apply other) := by
  apply update.apply_congr _ _ alike
  · intro held also same names value
    exact same.put value names
  · intro held also same names
    exact same.drop names

/-- An update leaves alone what stands apart from all that it writes. -/
theorem Update.at?_apply {update : Update} {place : List String}
    (sets : ∀ entry ∈ update.sets, Text.Apart (Text.segments entry.1) place)
    (unsets : ∀ path ∈ update.unsets, Text.Apart (Text.segments path) place) (body : Body) :
    (update.apply body).at? place = body.at? place := by
  let Kept (held : Body) : Prop := held.at? place = body.at? place
  have fold {α : Type} (step : Body → α → Body) (items : List α) {start : Body} (first : Kept start)
      (keeps : ∀ held, Kept held → ∀ item ∈ items, Kept (step held item)) : Kept (items.foldl step start) :=
    List.foldlRecOn items step first keeps
  apply fold Body.remove
  · apply fold _ _ rfl
    intro held kept entry member
    exact (Body.at?_put_of_apart _ _ (sets entry member)).trans kept
  · intro held kept path member
    exact (Body.at?_drop_of_apart _ (unsets path member)).trans kept

namespace Model
variable {model : Model} {document other : Document} {update : Update}

theorem Alike.sameMembers (alike : model.Alike document other) (spares : model.Spares update)
    (sets : ∀ entry ∈ update.sets, entry.2.Ordered) :
    Json.sameMembers (update.apply document.body) document.body =
      Json.sameMembers (update.apply other.body) other.body := by
  cases password : model.schema.behaviors.password with
  | none =>
    have same : document.body = other.body := by
      simpa only [withoutPassword, password] using alike.hidden
    rw [same]
  | some path =>
    have differ := alike.equalBut password
    obtain ⟨apart, away⟩ := spares path password
    have nonempty := Text.segments_ne_nil path
    have kept (body : Body) : (some (Json.object (update.apply body))).bind (·.under? (Text.segments path)) =
        (some (Json.object body)).bind (·.under? (Text.segments path)) := by
      rw [Option.bind_some, Option.bind_some, ← Body.at?_eq_under? nonempty, ← Body.at?_eq_under? nonempty,
        Update.at?_apply apart away]
    have single {value : Json} (ordered : value.Ordered) : ∀ held ∈ some value, held.Ordered := by
      rintro _ ⟨⟩
      exact ordered
    have carried {body also : Body} (differ : Body.EqualBut (Text.segments path) body also)
        (ordered : (Json.object also).Ordered) (same : Json.sameMembers (update.apply body) body = true) :
        Json.sameMembers (update.apply also) also = true := by
      have result := Json.EqualBut.sameAt (single (Update.ordered_apply ordered sets)) (single ordered)
        (differ.apply update) differ (kept also) (.some same)
      cases result with
      | some own => exact own
    apply Bool.eq_iff_iff.mpr
    constructor
    · exact carried differ alike.also
    · exact carried differ.symm alike.ordered

/-- An update that spares the password changes both of two alike documents or neither, and
leaves them alike. -/
theorem Alike.applyUpdate (alike : model.Alike document other) (spares : model.Spares update)
    (sets : ∀ entry ∈ update.sets, entry.2.Ordered) (now : Timestamp) :
    (model.applyUpdate now document update).1 = (model.applyUpdate now other update).1 ∧
      model.Alike (model.applyUpdate now document update).2 (model.applyUpdate now other update).2 := by
  have left := Update.ordered_apply alike.ordered sets
  have right := Update.ordered_apply alike.also sets
  simp only [Model.applyUpdate, alike.sameMembers spares sets]
  split
  · exact ⟨rfl, alike.congr left right (congrArg update.apply) fun _ differ => differ.apply update⟩
  · refine ⟨rfl, ?_⟩
    split
    · have stamp : (Json.text now.text).Ordered := Json.ordered_text _
      apply alike.congr (Body.ordered_insert left _ stamp) (Body.ordered_insert right _ stamp)
      · intro same
        rw [same]
      · intro place differ
        exact (differ.apply update).put (.text now.text) [updatedKey]
    · exact alike.congr left right (congrArg update.apply) fun _ differ => differ.apply update

end Model
end Dossier
