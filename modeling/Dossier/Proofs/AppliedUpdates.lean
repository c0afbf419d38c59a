import Dossier.Proofs.AlikeDocuments
import Dossier.Proofs.ManagedStamps

/-! What an update does to a document as a whole: it leaves what it has no path to, and once
it is done, doing it again does nothing, however its paths overlap. -/
namespace Dossier

namespace Body
variable {body other : Body} {place : List String} {name : String} {rest : List String}

/-! ### Bodies that are equal beside a place -/

/-- Two bodies that are equal off the way to a place. On the way there may be objects in the one
and nothing, or no object, in the other. -/
def EqualBeside : (place : List String) → Body → Body → Prop
  | [], _, _ => True
  | name :: rest, body, other =>
    (∀ key, key ≠ name → body.find? key = other.find? key) ∧
      EqualBeside rest (entered (body.find? name)) (entered (other.find? name))

theorem EqualBeside.refl (place : List String) (body : Body) : EqualBeside place body body := by
  induction place generalizing body with
  | nil => trivial
  | cons name rest ih =>
    constructor
    · intro key _
      rfl
    · exact ih _

/-- Putting a value changes nothing beside its place. -/
theorem equalBeside_put (body : Body) (value : Json) (place : List String) :
    EqualBeside place (body.put value place) body := by
  induction place generalizing body with
  | nil => trivial
  | cons name rest ih =>
    constructor
    · intro key different
      rw [find?_put_cons, if_neg (Ne.symm different)]
    · rw [find?_put_cons, if_pos rfl]
      cases rest with
      | nil => trivial
      | cons next more => exact ih (entered (body.find? name))

/-- The members that are entered where something below was dropped. -/
theorem entered_without {names : List String} (value : Option Json) (nonempty : names ≠ []) :
    entered (value.bind (without · names)) = drop (entered value) names := by
  cases names with
  | nil => exact absurd rfl nonempty
  | cons name rest =>
    rcases object_or_kept value with ⟨members, rfl⟩ | ⟨noObject, kept⟩
    · rfl
    · have nothing : entered value = [] := by
        cases value with
        | none => rfl
        | some held =>
          cases held with
          | object members => exact absurd rfl (noObject members)
          | _ => rfl
      rw [kept, nothing, drop_nil]

/-- What writes under one key only, and there from what was there, keeps bodies equal beside a
place if it does so on the way to the place. -/
theorem EqualBeside.of_find? {written also : Body} {first : String} (step : Option Json → Option Json)
    (alike : EqualBeside (name :: rest) body other)
    (here : ∀ key, written.find? key = if first = key then step (body.find? first) else body.find? key)
    (there : ∀ key, also.find? key = if first = key then step (other.find? first) else other.find? key)
    (below : first = name → EqualBeside rest (entered (body.find? first)) (entered (other.find? first)) →
      EqualBeside rest (entered (step (body.find? first))) (entered (step (other.find? first)))) :
    EqualBeside (name :: rest) written also := by
  obtain ⟨apart, within⟩ := alike
  by_cases same : first = name
  · subst same
    constructor
    · intro key different
      rw [here, there, if_neg (Ne.symm different), if_neg (Ne.symm different), apart key different]
    · rw [here, there, if_pos rfl, if_pos rfl]
      exact below rfl within
  · constructor
    · intro key different
      rw [here, there, apart key different, apart first same]
    · rwa [here, there, if_neg same, if_neg same]

theorem EqualBeside.put (alike : EqualBeside place body other) (value : Json) (names : List String) :
    EqualBeside place (body.put value names) (other.put value names) := by
  induction place generalizing body other names with
  | nil => trivial
  | cons name rest ih =>
    cases names with
    | nil => exact alike
    | cons first later =>
      apply EqualBeside.of_find? (fun held => some (if later = [] then value else .object ((entered held).put value later)))
        alike (find?_put_cons body value first later) (find?_put_cons other value first later)
      intro _ below
      by_cases last : later = []
      · simp only [last, if_true]
        exact .refl _ _
      · simp only [last, if_false]
        exact ih below later

theorem EqualBeside.drop (alike : EqualBeside place body other) (names : List String) :
    EqualBeside place (body.drop names) (other.drop names) := by
  induction place generalizing body other names with
  | nil => trivial
  | cons name rest ih =>
    cases names with
    | nil => exact alike
    | cons first later =>
      apply EqualBeside.of_find? (fun held => held.bind (without · later))
        alike (find?_drop_cons body first later) (find?_drop_cons other first later)
      intro _ below
      by_cases last : later = []
      · rw [last, bind_without_nil, bind_without_nil]
        exact .refl _ _
      · rw [entered_without _ last, entered_without _ last]
        exact ih below later

/-- Bodies that are equal beside a place are equal once the same value is put there. -/
theorem EqualBeside.put_eq (alike : EqualBeside place body other) (nonempty : place ≠ [])
    (ordered : (Json.object body).Ordered) (also : (Json.object other).Ordered) {value : Json}
    (inside : value.Ordered) : body.put value place = other.put value place := by
  induction place generalizing body other with
  | nil => exact absurd rfl nonempty
  | cons name rest ih =>
    obtain ⟨apart, below⟩ := alike
    apply Keyed.Ordered.ext (ordered_put ordered inside _).1 (ordered_put also inside _).1
    intro key
    rw [find?_put_cons, find?_put_cons]
    by_cases here : name = key
    · rw [if_pos here, if_pos here]
      by_cases last : rest = []
      · rw [if_pos last, if_pos last]
      · rw [if_neg last, if_neg last, ih below last (ordered_inside ordered name) (ordered_inside also name)]
    · rw [if_neg here, if_neg here]
      exact apart key (Ne.symm here)

end Body

/-! ### Single edits -/

/-- An edit of an update. -/
inductive Body.Edit where
  | put (path : String) (value : Json)
  | drop (path : String)

namespace Body.Edit
variable {edit other : Body.Edit} {body also : Body}

def run (body : Body) : (edit : Body.Edit) → Body
  | put path value => body.set path value
  | drop path => body.remove path

/-- The value that is written, if any, lists its keys in order. -/
def Ordered : Body.Edit → Prop
  | put _ value => value.Ordered
  | drop _ => True

/-- Two bodies are equal but for what an edit leaves nothing of. -/
def Levels : Body.Edit → Body → Body → Prop
  | put path _ => Body.EqualBeside (Text.segments path)
  | drop path => Body.EqualBut (Text.segments path)

theorem ordered_run (inside : edit.Ordered) (ordered : (Json.object body).Ordered) :
    (Json.object (edit.run body)).Ordered := by
  cases edit with
  | put path value => exact Body.ordered_put ordered inside _
  | drop path => exact Body.ordered_drop ordered _

theorem levels_run (edit : Body.Edit) (body : Body) : edit.Levels (edit.run body) body := by
  cases edit with
  | put path value => exact Body.equalBeside_put body value _
  | drop path => exact Body.equalBut_drop body _

/-- Every other edit keeps bodies equal but for what the edit leaves nothing of. -/
theorem Levels.run (level : edit.Levels body also) (other : Body.Edit) :
    edit.Levels (other.run body) (other.run also) := by
  cases edit with
  | put path value =>
    cases other with
    | put _ written => exact Body.EqualBeside.put level written _
    | drop _ => exact Body.EqualBeside.drop level _
  | drop path =>
    cases other with
    | put _ written => exact Body.EqualBut.put level written _
    | drop _ => exact Body.EqualBut.drop level _

theorem Levels.run_eq (level : edit.Levels body also) (inside : edit.Ordered)
    (ordered : (Json.object body).Ordered) (orderedToo : (Json.object also).Ordered) :
    edit.run body = edit.run also := by
  cases edit with
  | put path value => exact Body.EqualBeside.put_eq level (Text.segments_ne_nil path) ordered orderedToo inside
  | drop path => exact (Body.drop_eq_iff (Text.segments_ne_nil path) ordered orderedToo).mpr level

/-- Several edits, one after the other. -/
def runAll (edits : List Body.Edit) (body : Body) : Body := edits.foldl run body

variable {edits : List Body.Edit}

/-- An edit among several leaves nothing of what was different before them. -/
theorem Levels.runAll_eq (level : edit.Levels body also) (member : edit ∈ edits)
    (inside : ∀ edit ∈ edits, edit.Ordered) (ordered : (Json.object body).Ordered)
    (orderedToo : (Json.object also).Ordered) : runAll edits body = runAll edits also := by
  induction edits generalizing body also with
  | nil => cases member
  | cons first rest ih =>
    have own := inside first List.mem_cons_self
    have later : ∀ edit ∈ rest, edit.Ordered := fun edit among => inside edit (List.mem_cons_of_mem _ among)
    simp only [runAll, List.foldl_cons]
    rcases List.mem_cons.mp member with rfl | among
    · rw [level.run_eq own ordered orderedToo]
    · exact ih (level.run first) among later (ordered_run own ordered) (ordered_run own orderedToo)

/-- Several edits can be done in advance, in any order and number, and change nothing then. -/
theorem runAll_runAll {before : List Body.Edit} (among : ∀ edit ∈ before, edit ∈ edits)
    (inside : ∀ edit ∈ edits, edit.Ordered) (ordered : (Json.object body).Ordered) :
    runAll edits (runAll before body) = runAll edits body := by
  induction before generalizing body with
  | nil => rfl
  | cons first rest ih =>
    have listed := among first List.mem_cons_self
    have inOrder := ordered_run (inside first listed) ordered
    have later : ∀ edit ∈ rest, edit ∈ edits := fun edit member => among edit (List.mem_cons_of_mem _ member)
    calc runAll edits (runAll rest (first.run body))
      _ = runAll edits (first.run body) := ih later inOrder
      _ = runAll edits body := (levels_run first body).runAll_eq listed inside inOrder ordered

end Body.Edit

/-! ### Updates -/

namespace Update
variable {update : Update} {body : Body}

def edits (update : Update) : List Body.Edit :=
  update.sets.map (fun entry => .put entry.1 entry.2) ++ update.unsets.map .drop

theorem apply_eq_runAll (update : Update) (body : Body) : update.apply body = Body.Edit.runAll update.edits body := by
  simp only [apply, Body.Edit.runAll, edits, List.foldl_append, List.foldl_map, Body.Edit.run]

theorem ordered_of_mem_edits (sets : ∀ entry ∈ update.sets, entry.2.Ordered) :
    ∀ edit ∈ update.edits, edit.Ordered := by
  intro edit member
  rcases List.mem_append.mp member with setting | unsetting
  · obtain ⟨entry, listed, rfl⟩ := List.mem_map.mp setting
    exact sets entry listed
  · obtain ⟨path, _, rfl⟩ := List.mem_map.mp unsetting
    trivial

/-- An update that is applied once is applied for good. -/
theorem apply_apply (sets : ∀ entry ∈ update.sets, entry.2.Ordered) (ordered : (Json.object body).Ordered) :
    update.apply (update.apply body) = update.apply body := by
  simp only [apply_eq_runAll]
  exact Body.Edit.runAll_runAll (fun _ member => member) (ordered_of_mem_edits sets) ordered

/-- A member that an update leaves alone is put before it or after it. -/
theorem apply_insert {key : String} {value : Json} (sets : ∀ entry ∈ update.sets, entry.2.Ordered)
    (ordered : (Json.object body).Ordered) (inside : value.Ordered)
    (kept : ∀ body, (update.apply body).find? key = body.find? key) :
    update.apply (body.insert key value) = (update.apply body).insert key value := by
  have before := ordered_apply (Body.ordered_insert ordered key inside) sets
  have beside : Body.EqualBeside [key] (update.apply (body.insert key value)) (update.apply body) := by
    apply update.apply_congr _ _ (Body.equalBeside_put body value [key])
    · intro held also alike names value
      exact alike.put value names
    · intro held also alike names
      exact alike.drop names
  have held : (update.apply (body.insert key value)).find? key = some value := by
    rw [kept, Keyed.find?_insert, if_pos rfl]
  rw [← before.1.insert_held held]
  exact beside.put_eq (List.cons_ne_nil _ _) before (ordered_apply ordered sets) inside

/-- Whether an update makes a body another one. -/
def changes (update : Update) (body : Body) : Bool := !Json.sameMembers (update.apply body) body

/-- No path of an update is a path, above it or below it. -/
structure Avoids (update : Update) (path : String) : Prop where
  sets : ∀ entry ∈ update.sets, Text.Apart (Text.segments entry.1) (Text.segments path)
  unsets : ∀ unset ∈ update.unsets, Text.Apart (Text.segments unset) (Text.segments path)

theorem get?_apply {path : String} (avoids : update.Avoids path) (body : Body) :
    (update.apply body).get? path = body.get? path :=
  at?_apply avoids.sets avoids.unsets body

end Update

namespace Model
variable {model : Model} {update : Update} {document : Document} {now : Timestamp}

theorem applyUpdate_of_unchanged (unchanged : update.changes document.body = false) :
    model.applyUpdate now document update = (false, ⟨document.id, update.apply document.body⟩) := by
  have same : Json.sameMembers (update.apply document.body) document.body = true := by
    simpa [Update.changes] using unchanged
  simp [applyUpdate, same]

theorem applyUpdate_of_changed (changed : update.changes document.body = true) :
    model.applyUpdate now document update = (true, ⟨document.id,
      if model.schema.behaviors.stamps then (update.apply document.body).insert updatedKey (.text now.text)
      else update.apply document.body⟩) := by
  have different : Json.sameMembers (update.apply document.body) document.body = false := by
    simpa [Update.changes] using changed
  simp [applyUpdate, different]

/-- What an update does to a document at an instant. -/
structure AppliesOnce (model : Model) (update : Update) (document : Document) (now : Timestamp) : Prop where
  /-- A change is told exactly if the body without the stamp of its last change is another one. -/
  told : (model.applyUpdate now document update).1 = true ↔
    Json.sameMembers ((model.applyUpdate now document update).2.body.erase updatedKey)
      (document.body.erase updatedKey) = false
  /-- What the update has no path to keeps its value, or stays away. -/
  framed : ∀ path, update.Avoids path → ¬ [updatedKey] <+: Text.segments path →
    (model.applyUpdate now document update).2.body.get? path = document.body.get? path
  /-- So does the stamp with all that is below it, unless a change is stamped. -/
  unstamped : (model.applyUpdate now document update).1 = false ∨ model.schema.behaviors.stamps = false →
    ∀ path, update.Avoids path →
      (model.applyUpdate now document update).2.body.get? path = document.body.get? path
  /-- A change is stamped with the instant, as far as the model stamps its documents. -/
  stamped : (model.applyUpdate now document update).1 = true → model.schema.behaviors.stamps = true →
    (model.applyUpdate now document update).2.body.find? updatedKey = some (.text now.text)
  /-- The same update has nothing left to do, at whatever instant. -/
  again : ∀ later, model.applyUpdate later (model.applyUpdate now document update).2 update =
    (false, (model.applyUpdate now document update).2)

/-- Without the stamp of its last change, a document is what the update makes of its body. -/
theorem erase_applyUpdate (model : Model) (update : Update) (document : Document) (now : Timestamp) :
    (model.applyUpdate now document update).2.body.erase updatedKey =
      (update.apply document.body).erase updatedKey := by
  cases outcome : update.changes document.body with
  | false => rw [applyUpdate_of_unchanged outcome]
  | true =>
    rw [applyUpdate_of_changed outcome]
    cases model.schema.behaviors.stamps with
    | false => rfl
    | true => exact Keyed.erase_insert _ _ _

/-- Beside the stamp, the values of a document are those that the update makes of its body. -/
theorem get?_applyUpdate {path : String}
    (elsewhere : (model.applyUpdate now document update).1 = true → model.schema.behaviors.stamps = true →
      ¬ [updatedKey] <+: Text.segments path) :
    (model.applyUpdate now document update).2.body.get? path = (update.apply document.body).get? path := by
  cases outcome : update.changes document.body with
  | false => rw [applyUpdate_of_unchanged outcome]
  | true =>
    rw [applyUpdate_of_changed outcome] at elsewhere ⊢
    cases stamps : model.schema.behaviors.stamps with
    | false => rfl
    | true =>
      have below : ¬ [updatedKey] <+: Text.segments path := elsewhere rfl stamps
      have apart : Text.Apart [updatedKey] (Text.segments path) := by
        constructor
        · exact below
        · intro above
          rcases List.prefix_cons_iff.mp above with none | ⟨rest, own, short⟩
          · exact Text.segments_ne_nil path none
          · rw [own, List.prefix_nil.mp short] at below
            exact below (List.prefix_refl _)
      exact Body.at?_put_of_apart _ _ apart

theorem find?_stamp (changed : (model.applyUpdate now document update).1 = true)
    (stamps : model.schema.behaviors.stamps = true) :
    (model.applyUpdate now document update).2.body.find? updatedKey = some (.text now.text) := by
  cases outcome : update.changes document.body with
  | false =>
    rw [applyUpdate_of_unchanged outcome] at changed
    cases changed
  | true =>
    rw [applyUpdate_of_changed outcome]
    simp only [stamps, if_true]
    rw [Keyed.find?_insert, if_pos rfl]

/-- An update that was read of a payload is done for good when it is applied. -/
theorem appliesOnce_of_parseUpdate (created : createdKey ∉ model.schema.fields.keys)
    (updated : updatedKey ∉ model.schema.fields.keys) {salt : Nat → ByteArray} {payload : Json}
    (inOrder : payload.Ordered) (parsed : model.parseUpdate salt payload = .ok update)
    (ordered : (Json.object document.body).Ordered) (now : Timestamp) :
    model.AppliesOnce update document now := by
  have guards : model.GuardsStamps := Repository.guardsStamps_of_undeclared created updated
  have sets : ∀ entry ∈ update.sets, entry.2.Ordered := ordered_of_parseUpdate inOrder parsed
  have kept (body : Body) : (update.apply body).find? updatedKey = body.find? updatedKey :=
    find?_apply parsed (guards.apart (.inr rfl))
  constructor
  case told =>
    rw [← alters_eq guards inOrder parsed ordered now, erase_applyUpdate, Update.alters]
    simp only [Bool.not_eq_true']
  case framed =>
    intro path avoids elsewhere
    rw [get?_applyUpdate fun _ _ => elsewhere, Update.get?_apply avoids]
  case unstamped =>
    intro still path avoids
    rw [get?_applyUpdate, Update.get?_apply avoids]
    intro changed stamps
    rcases still with unchanged | unstamped
    · simp [changed] at unchanged
    · simp [stamps] at unstamped
  case stamped => exact find?_stamp
  case again =>
    intro later
    have once : update.apply (update.apply document.body) = update.apply document.body :=
      Update.apply_apply sets ordered
    -- What is left after the first time is left by the second time as well, stamped or not.
    have fixed : update.apply (model.applyUpdate now document update).2.body =
        (model.applyUpdate now document update).2.body := by
      cases outcome : update.changes document.body with
      | false => rw [applyUpdate_of_unchanged outcome, once]
      | true =>
        rw [applyUpdate_of_changed outcome]
        cases model.schema.behaviors.stamps with
        | false => exact once
        | true =>
          have applied := update.ordered_apply ordered sets
          simp only [if_true]
          rw [Update.apply_insert sets applied (Json.ordered_text _) kept, once]
    have unchanged : update.changes (model.applyUpdate now document update).2.body = false := by
      rw [Update.changes, fixed, Json.sameMembers_refl]
      rfl
    rw [applyUpdate_of_unchanged unchanged, fixed]

/-- Boxes with a label and a size. -/
def boxModel : Model :=
  let fields : Keyed FieldType := [("label", .text), ("size", .object [("depth", .text), ("width", .text)])]
  ⟨⟨"box", fields, ⟨true, none, []⟩⟩, markingHasher⟩

def boxId : EntityId := EntityId.mint 0 0

/-- The size is set as a whole and once more in a part, and another part of it is cleared. -/
def boxPayload : Json :=
  .object [
    ("$set", .object [("size", .object [("depth", .text "2"), ("width", .text "3")]), ("size.width", .text "4")]),
    ("$unset", .array [.text "size.depth"]),
    ("label", .text "glass")]

def boxUpdate : Update :=
  ⟨[("size", .object [("depth", .text "2"), ("width", .text "3")]), ("size.width", .text "4"),
    ("label", .text "glass")], ["size.depth"]⟩

theorem box_appliesOnce :
    boxModel.parseUpdate rosterSupply.salt boxPayload = .ok boxUpdate ∧
      boxModel.AppliesOnce boxUpdate ⟨boxId, [("label", .text "paper")]⟩ rosterSupply.now := by
  have created : createdKey ∉ boxModel.schema.fields.keys := by decide
  have updated : updatedKey ∉ boxModel.schema.fields.keys := by decide
  have inOrder : boxPayload.Ordered := by decide +kernel
  have parsed : boxModel.parseUpdate rosterSupply.salt boxPayload = .ok boxUpdate := by cbv
  have ordered : (Json.object [("label", .text "paper")]).Ordered := by decide +kernel
  exact ⟨parsed, appliesOnce_of_parseUpdate created updated inOrder parsed ordered _⟩

/-- A stamp that is an object gives way to a text when the document is changed, and with it what
is below. -/
theorem box_stamp_replaced :
    let update : Update := ⟨[("label", .text "glass")], []⟩
    let document : Document := ⟨boxId, [("label", .text "paper"), ("updatedAt", .object [("by", .text "ann")])]⟩
    createdKey ∉ boxModel.schema.fields.keys ∧ updatedKey ∉ boxModel.schema.fields.keys ∧
      boxModel.parseUpdate rosterSupply.salt (.object [("label", .text "glass")]) = .ok update ∧
      update.Avoids "updatedAt.by" ∧ "updatedAt.by" ≠ updatedKey ∧
      document.body.get? "updatedAt.by" = some (.text "ann") ∧
      (boxModel.applyUpdate rosterSupply.now document update).2.body.get? "updatedAt.by" = none := by
  intro update document
  have parsed : boxModel.parseUpdate rosterSupply.salt (.object [("label", .text "glass")]) = .ok update := by cbv
  have below : Text.segments "updatedAt.by" = ["updatedAt", "by"] := by decide +kernel
  have avoids : update.Avoids "updatedAt.by" := by
    have label : Text.segments "label" = ["label"] := by decide +kernel
    have apart : Text.Apart ["label"] ["updatedAt", "by"] := Text.Apart.of_ne (by decide)
    constructor
    · intro entry member
      rwa [List.mem_singleton.mp member, label, below]
    · intro unset member
      cases member
  have changed : (boxModel.applyUpdate rosterSupply.now document update).1 = true := by decide +kernel
  have stamped := find?_stamp changed rfl
  refine ⟨by decide, by decide, parsed, avoids, by decide, ?_, ?_⟩
  · rw [Body.get?, below]
    rfl
  · rw [Body.get?, below, Body.at?_cons, show "updatedAt" = updatedKey from rfl, stamped]
    rfl

end Model
end Dossier
