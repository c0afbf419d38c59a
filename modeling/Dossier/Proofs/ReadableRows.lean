import Dossier.Proofs.EnvelopeTexts
import Dossier.Proofs.ManagedStamps
import Dossier.Proofs.NestedBodies
import Dossier.Proofs.Selections

/-! Rows that can be read again. What is inserted always can, and so can what an update leaves,
unless it puts a value so far below the top of a document that the whole nests too deeply; there
is an update that does so exactly if some type at some path leaves room for it. -/
namespace Dossier
open Json

/-! ### Requests that have a text -/

namespace Json.Tree

mutual
/-- What is read of a text nests no deeper than it may. -/
theorem nesting_of_value? : (tree : Tree) → ∀ levels value, tree.value? levels = some value →
    value.nesting ≤ levels
  | .null | .bool _ => by
    intro _ _ found
    cases found
    exact Nat.zero_le _
  | .number _ | .text _ => by
    intro _ _ found
    obtain ⟨_, _, rfl⟩ := Option.map_eq_some_iff.mp found
    exact Nat.zero_le _
  | .array items => by
    intro levels _ found
    cases levels with
    | zero => cases found
    | succ levels =>
      obtain ⟨values, inside, rfl⟩ := Option.map_eq_some_iff.mp found
      exact Nat.succ_le_succ (nestingItems_le_iff.mpr (nesting_of_values? items levels values inside))
  | .object members => by
    intro levels _ found
    cases levels with
    | zero => cases found
    | succ levels =>
      obtain ⟨values, inside, rfl⟩ := Option.map_eq_some_iff.mp found
      refine Nat.succ_le_succ (nestingMembers_le_iff.mpr fun entry member => ?_)
      exact nesting_of_memberValues? members levels values inside entry (Keyed.mem_ofEntries member)
theorem nesting_of_values? : (items : List Tree) → ∀ levels values, values? levels items = some values →
    ∀ value ∈ values, value.nesting ≤ levels
  | [] => by
    intro _ _ found
    cases found
    simp
  | item :: rest => by
    intro levels _ found
    simp only [values?, Option.bind_eq_bind, Option.bind_eq_some_iff] at found
    obtain ⟨first, own, others, later, finished⟩ := found
    cases finished
    exact List.forall_mem_cons.mpr ⟨nesting_of_value? item levels first own,
      nesting_of_values? rest levels others later⟩
theorem nesting_of_memberValues? : (members : List (Option String × Tree)) → ∀ levels values,
    memberValues? levels members = some values → ∀ entry ∈ values, entry.2.nesting ≤ levels
  | [] => by
    intro _ _ found
    cases found
    simp
  | (key, tree) :: rest => by
    intro levels _ found
    simp only [memberValues?, Option.bind_eq_bind, Option.bind_eq_some_iff] at found
    obtain ⟨name, _, first, own, others, later, finished⟩ := found
    cases finished
    exact List.forall_mem_cons.mpr ⟨nesting_of_value? tree levels first own,
      nesting_of_memberValues? rest levels others later⟩
end

end Json.Tree

/-- The payloads of an envelope nest at most so many levels. -/
structure Envelope.Nests (envelope : Envelope) (levels : Nat) : Prop where
  entity : ∀ payload ∈ envelope.entity, payload.nesting ≤ levels
  entities : ∀ payloads ∈ envelope.entities, ∀ payload ∈ payloads, payload.nesting ≤ levels
  value : ∀ payload ∈ envelope.value, payload.nesting ≤ levels

/-- In a text the payloads stand one level below the top. -/
theorem Envelope.nests_of_ofText? {text : String} {envelope : Envelope}
    (read : ofText? text = some envelope) : envelope.Nests Row.levels := by
  obtain ⟨tree, _, found⟩ := Option.bind_eq_some_iff.mp read
  simp only [Envelope.read, Option.bind_eq_bind, Option.bind_eq_some_iff] at found
  obtain ⟨fields, _, model, _, id, _, ids, _, value, readValue, entity, readEntity, entities,
    readEntities, _, _, _, _, _, _, finished⟩ := found
  cases finished
  refine ⟨fun payload given => ?_, fun payloads given payload member => ?_, fun payload given => ?_⟩
  · obtain ⟨tree, found⟩ := exists_of_optional readEntity given
    exact tree.nesting_of_value? _ _ found
  · obtain ⟨tree, found⟩ := exists_of_optional readEntities given
    cases tree with
    | array items =>
      simp only [Json.Tree.list] at found
      split at found
      · cases found
      · obtain ⟨item, read⟩ := exists_of_mapM? found member
        exact Nat.le_trans (item.nesting_of_value? _ _ read) (Nat.sub_le _ _)
    | _ => cases found
  · obtain ⟨tree, found⟩ := exists_of_optional readValue given
    exact tree.nesting_of_value? _ _ found

/-- A request whose envelope is read of some text. -/
def Request.HasText (request : Request) : Prop := ∃ text, Envelope.ofText? text = some request.envelope

/-! ### Models without room below -/

/-- Nowhere can an update put a value so far below the top that the body nests too deeply. What is
put below the stamp of the last change does not count, since that is written over. -/
def Model.Shallow (model : Model) : Prop :=
  ∀ path type depth, model.writableType? path = some type → (Text.segments path).head? ≠ some updatedKey →
    type.Reaches (Update.room Row.levels path) depth → (Text.segments path).length + depth ≤ nestingLimit

namespace Model
variable {model : Model} {salt : Nat → ByteArray} {payload : Json} {update : Update} {body : Body}
  {document result : Document}

theorem nestsBut_apply (shallow : model.Shallow) (parsed : model.parseUpdate salt payload = .ok update)
    (within : payload.nesting ≤ Row.levels) (nests : body.NestsBut updatedKey Row.levels) :
    Body.NestsBut updatedKey Row.levels (update.apply body) := by
  refine List.foldlRecOn _ Body.remove ?_ fun held inside path _ => inside.drop _
  refine List.foldlRecOn _ _ nests fun held inside entry member => ?_
  obtain ⟨type, depth, writable, reaches, le⟩ := reaches_of_parseUpdate parsed within member
  refine inside.put (Text.segments_ne_nil entry.1) fun other => ?_
  have fits := shallow entry.1 type depth writable other reaches
  have limit : Row.levels + 1 = nestingLimit := rfl
  omega

/-- A changed document of a model without room below nests no deeper than a row may. -/
theorem nesting_of_applyUpdate (shallow : model.Shallow) (stamps : model.schema.behaviors.stamps = true)
    (parsed : model.parseUpdate salt payload = .ok update) (inOrder : payload.Ordered)
    (within : payload.nesting ≤ Row.levels) (ordered : (Json.object document.body).Ordered)
    (nests : nestingMembers document.body ≤ Row.levels) {now : Timestamp}
    (applied : model.applyUpdate now document update = (true, result)) :
    nestingMembers result.body ≤ Row.levels := by
  have before : document.body.NestsBut updatedKey Row.levels := fun entry member _ =>
    nestingMembers_le_iff.mp nests entry member
  have inside := nestsBut_apply shallow parsed within before
  have inOrder := (update.ordered_apply ordered (ordered_of_parseUpdate inOrder parsed)).1
  simp only [applyUpdate, stamps] at applied
  split at applied <;> cases applied
  rw [nestingMembers_le_iff]
  rintro ⟨key, value⟩ member
  have found := (inOrder.insert updatedKey (.text now.text)).find?_eq_some.mpr member
  rw [Keyed.find?_insert] at found
  split at found
  · cases found
    exact Nat.zero_le _
  · rename_i other
    exact inside _ (Keyed.mem_of_find? found) (Ne.symm other)

end Model

/-! ### Rows -/

theorem Row.nesting_of_read {row : Row} {document : Document} (done : row.read = .ok document) :
    nestingMembers document.body ≤ levels := by
  unfold read at done
  split at done <;> cases done
  rename_i body found
  obtain ⟨value, parsed, members⟩ := Option.bind_eq_some_iff.mp found
  obtain ⟨tree, _, denotes⟩ := Option.bind_eq_some_iff.mp parsed
  cases value with
  | object inside =>
    cases members
    exact Nat.le_of_succ_le_succ (tree.nesting_of_value? _ _ denotes)
  | _ => cases members

/-- A row with its keys in order that nests no deeper than it may. -/
structure Row.IsShallow (row : Row) : Prop where
  ordered : (Json.object row.document.body).Ordered
  nests : nestingMembers row.document.body ≤ levels

theorem Row.IsShallow.read {row : Row} (shallow : row.IsShallow)
    (durable : (Json.object row.document.body).Durable) : row.read = .ok row.document :=
  (read_eq_ok shallow.ordered).mpr ⟨rfl, rereadMembers_of_durable _ durable _ shallow.nests⟩

namespace Repository

/-- Whatever requests that have texts have stored, each document whose doubles are denoted by
their texts is read of its row as it was written. -/
def KeepsReadable (registry : Registry) : Prop :=
  ∀ requests : List Request, (∀ request ∈ requests, request.HasText) →
    ∀ row ∈ (reached registry requests).rows, (Json.object row.document.body).Durable →
      row.read = .ok row.document

section
variable {registry : Registry} (shallow : ∀ name model, registry.models.find? name = some model → model.Shallow)
  (stamps : ∀ name model, registry.models.find? name = some model → model.schema.behaviors.stamps = true)
include shallow stamps

/-- A request leaves shallow rows, if all are so before. -/
theorem isShallow_after {store : Store} {request : Request} (written : request.HasText)
    (before : ∀ row ∈ store.rows, row.IsShallow) {row : Row} (member : row ∈ (after registry store request).rows) :
    row.IsShallow := by
  obtain ⟨text, read⟩ := written
  have ordered := Envelope.ordered_of_ofText? read
  have nests := Envelope.nests_of_ofText? read
  cases arises_of_after member with
  | kept earlier _ => exact before row earlier
  | @inserted model payload index document looked given prepared _ =>
    have both : payload.Ordered ∧ payload.nesting ≤ Row.levels := by
      rcases given with single | ⟨payloads, several, inside⟩
      · exact ⟨ordered.entity _ single, nests.entity _ single⟩
      · exact ⟨ordered.entities _ several _ inside, nests.entities _ several _ inside⟩
    exact ⟨Model.ordered_of_prepareInsert both.1 prepared,
      Nat.le_trans (Model.nesting_of_prepareInsert prepared) both.2⟩
  | @changed model value update _ document result stored looked _ given parsed _ listed _ done applied =>
    have found := Registry.find?_of_lookup looked
    have inOrder := Row.ordered_of_read (before stored listed).ordered done
    have sets := Model.ordered_of_parseUpdate (ordered.value _ given) parsed
    have whole : (Json.object (model.applyUpdate request.supply.now document update).2.body).Ordered :=
      Model.ordered_applyUpdate inOrder sets _
    rw [applied] at whole
    exact ⟨whole, Model.nesting_of_applyUpdate (shallow _ _ found) (stamps _ _ found) parsed
      (ordered.value _ given) (nests.value _ given) inOrder (Row.nesting_of_read done) applied⟩

theorem isShallow_run {store : Store} {requests : List Request} (written : ∀ request ∈ requests, request.HasText)
    (before : ∀ row ∈ store.rows, row.IsShallow) {row : Row}
    (member : row ∈ (requests.foldl (after registry) store).rows) : row.IsShallow := by
  induction requests generalizing store with
  | nil => exact before row member
  | cons request rest ih =>
    exact ih (fun other listed => written other (List.mem_cons_of_mem _ listed))
      (fun row => isShallow_after shallow stamps (written request List.mem_cons_self) before) member

theorem keepsReadable_of_shallow : KeepsReadable registry := fun requests written row stored durable =>
  (isShallow_run shallow stamps written (by simp [Store.empty]) stored).read durable

end

end Repository

/-! ### Models with room below -/

/-- Objects, one within the other. -/
def Json.tower : (depth : Nat) → Json
  | 0 => .bool true
  | depth + 1 => .object [("", tower depth)]

/-- A value without texts that nests no deeper than there is room and is cast to one of a depth. -/
structure FieldType.Deepens (type : FieldType) (room depth : Nat) (value result : Json) : Prop where
  ordered : value.Ordered
  durable : value.Durable
  shallow : value.nesting ≤ room
  cast : ∀ model path, castValue model path type value = .ok result
  deep : result.nesting = depth
  kept : result.Durable
  textless : ∀ names text, result.under? names ≠ some (.text text)

theorem Json.ordered_single {value : Json} (name : String) (ordered : value.Ordered) :
    (Json.object [(name, value)]).Ordered := ⟨List.pairwise_singleton _ _, ordered, trivial⟩

theorem Json.ordered_tower (depth : Nat) : (tower depth).Ordered := by
  induction depth with
  | zero => trivial
  | succ depth ih => exact ordered_single "" ih

theorem Json.durable_tower (depth : Nat) : (tower depth).Durable := by
  induction depth with
  | zero => trivial
  | succ depth ih => exact ⟨ih, trivial⟩

theorem Json.nesting_tower (depth : Nat) : (tower depth).nesting = depth := by
  induction depth with
  | zero => rfl
  | succ depth ih => simp [tower, nesting, nestingMembers, ih]

/-- Every depth that is reached is that of a value. -/
theorem FieldType.Reaches.exists_deepens {type : FieldType} {room depth : Nat} (reaches : type.Reaches room depth) :
    ∃ value result, type.Deepens room depth value result := by
  induction reaches with
  | flat type room =>
    refine ⟨.null, .null, trivial, trivial, Nat.zero_le _, fun _ _ => by cases type <;> rfl, rfl, trivial, ?_⟩
    intro names text
    cases names <;> exact nofun
  | array room =>
    have cast (model path : String) : castValue model path .array (tower room) = .ok (.array [tower room]) := by
      cases room <;> rfl
    refine ⟨tower room, .array [tower room], ordered_tower room, durable_tower room,
      Nat.le_of_eq (nesting_tower room), cast, by simp [nesting, nestingItems, nesting_tower],
      ⟨durable_tower room, trivial⟩, ?_⟩
    intro names text
    cases names <;> exact nofun
  | object fields room =>
    refine ⟨.object [], .object [], ordered_object_nil, trivial, Nat.succ_le_succ (Nat.zero_le _),
      fun _ _ => rfl, rfl, trivial, ?_⟩
    intro names text
    cases names <;> exact nofun
  | @inside fields name type room depth declared _ ih =>
    obtain ⟨value, result, deepens⟩ := ih
    have cast (model path : String) : castValue model path (.object fields) (.object [(name, value)]) =
        .ok (.object [(name, result)]) := by
      refine bind_eq_ok.mpr ⟨[(name, result)], ?_, rfl⟩
      simp only [castMembers, declared]
      exact bind_eq_ok.mpr ⟨result, deepens.cast _ _, rfl⟩
    refine ⟨.object [(name, value)], .object [(name, result)], ordered_single name deepens.ordered,
      ⟨deepens.durable, trivial⟩, ?_, cast, ?_, ⟨deepens.kept, trivial⟩, ?_⟩
    · simpa [nesting, nestingMembers] using deepens.shallow
    · simp [nesting, nestingMembers, deepens.deep]
    · intro names text held
      cases names with
      | nil => cases held
      | cons other rest =>
        obtain ⟨inner, here, below⟩ := Option.bind_eq_some_iff.mp held
        simp only [member?, members?, Option.bind_some, Keyed.find?] at here
        split at here <;> cases here
        exact deepens.textless rest text below

/-! ### Updates that put a value far below the top -/

namespace Body
variable {body : Body} {value : Json}

theorem durable_insert (durable : (Json.object body).Durable) (key : String) (inside : value.Durable) :
    (Json.object (body.insert key value)).Durable := by
  refine durableMembers_iff.mpr fun entry member => ?_
  rcases Keyed.mem_insert member with rfl | among
  · exact inside
  · exact durableMembers_iff.mp durable entry among

theorem durable_put (durable : (Json.object body).Durable) (inside : value.Durable) (names : List String) :
    (Json.object (body.put value names)).Durable := by
  induction names generalizing body with
  | nil => exact durable
  | cons name rest ih =>
    cases rest with
    | nil => exact durable_insert durable name inside
    | cons next others =>
      have entered : (Json.object (entered (body.find? name))).Durable := by
        cases found : body.find? name with
        | none => trivial
        | some held =>
          have kept := durableMembers_iff.mp durable _ (Keyed.mem_of_find? found)
          cases held with
          | object members => exact kept
          | _ => trivial
      exact durable_insert durable name (ih entered)

end Body

/-- The payload of an update that puts a value at a path. -/
def Update.putting (path : String) (value : Json) : Json :=
  if path.toList.head? = some '$' then .object [("$set", .object [(path, value)])] else .object [(path, value)]

theorem Update.ordered_putting {path : String} {value : Json} (ordered : value.Ordered) :
    (putting path value).Ordered := by
  unfold putting
  split
  · exact ordered_single _ (ordered_single _ ordered)
  · exact ordered_single _ ordered

theorem Update.durable_putting {path : String} {value : Json} (durable : value.Durable) :
    (putting path value).Durable := by
  unfold putting
  split
  · exact ⟨⟨durable, trivial⟩, trivial⟩
  · exact ⟨durable, trivial⟩

theorem Update.nesting_putting {path : String} {value : Json} {levels : Nat} (two : 2 ≤ levels)
    (shallow : value.nesting ≤ room levels path) : (putting path value).nesting ≤ levels := by
  unfold room at shallow
  unfold putting
  split at shallow <;> simp only [*, if_true, if_false, nesting, nestingMembers] <;> omega

namespace Model
variable {model : Model} {path : String} {type : FieldType} {room depth : Nat} {value result : Json}

theorem parseUpdate_putting (writable : model.writableType? path = some type)
    (deepens : type.Deepens room depth value result) (salt : Nat → ByteArray) :
    model.parseUpdate salt (Update.putting path value) = .ok ⟨[(path, result)], []⟩ := by
  have settles : model.settleAll salt 0 [(path, value)] = .ok [(path, result)] := by
    rw [settleAll, writable]
    exact bind_eq_ok.mpr ⟨result, settled_of_textless (deepens.cast _ _) deepens.textless _, rfl⟩
  unfold Update.putting
  split
  · have asked : model.requested "$set" (.object [(path, value)]) = .ok ([(path, value)], []) := by
      simp [requested]
    exact bind_eq_ok.mpr ⟨[([(path, value)], [])], mapM_eq_ok.mpr (.cons asked .nil),
      bind_eq_ok.mpr ⟨[(path, result)], settles, rfl⟩⟩
  · rename_i plain
    rw [parseUpdate_of_plain (by simpa using plain), settles]
    rfl

variable (stamps : model.schema.behaviors.stamps = true) (apart : (Text.segments path).head? ≠ some updatedKey)
  (deep : nestingLimit < (Text.segments path).length + result.nesting)

include deep in
/-- A value that is put so far below the top makes for more levels than a row may have. -/
theorem levels_lt_nesting {body : Body} (held : body.get? path = some result) : Row.levels < nestingMembers body := by
  have below := length_add_nesting_le_of_at? (Text.segments_ne_nil path) held
  have limit : nestingLimit = Row.levels + 1 := rfl
  omega

include stamps deep in
theorem applyUpdate_putting (id : EntityId) (now later : Timestamp) :
    model.applyUpdate later ⟨id, stampedBody now⟩ ⟨[(path, result)], []⟩ =
      (true, ⟨id, ((stampedBody now).set path result).insert updatedKey (.text later.text)⟩) := by
  have there := (stampedBody now).get?_set path result
  have differs : sameMembers ((stampedBody now).set path result) (stampedBody now) = false := by
    refine Bool.eq_false_iff.mpr fun alike => ?_
    have nests := levels_lt_nesting deep there
    rw [nestingMembers_of_same _ _ alike] at nests
    cases nests
  simp [applyUpdate, Update.apply, differs, stamps]

include apart in
theorem get?_putting (body : Body) (now : Timestamp) :
    Body.get? ((body.set path result).insert updatedKey (.text now.text)) path = some result := by
  obtain ⟨name, rest, same⟩ := List.exists_cons_of_ne_nil (Text.segments_ne_nil path)
  have other : updatedKey ≠ name := fun own => apart (by rw [same, own]; rfl)
  have put := Body.at?_put body result (Text.segments_ne_nil path) []
  rw [List.append_nil, same, Body.at?_cons] at put
  rw [Body.get?, same, Body.at?_cons, Keyed.find?_insert, if_neg other, Body.set, same, put]
  rfl

end Model

namespace Repository
variable {registry : Registry} {model : Model} {name path : String} {type : FieldType} {depth : Nat}
  {value result : Json}

/-- Puts a value at a path of the document that is added without members. -/
def putDeep (name path : String) (value : Json) : Request :=
  ⟨.updateEntity, { model := name, id := some (EntityId.mint 0 0).text, value := some (Update.putting path value) },
    supplyAt (.last 1)⟩

theorem hasText_addBare (name : String) : (addBare name).HasText := by
  have whole : (addBare name).envelope.toJson = .object [("model", .text name), ("entity", .object [])] := rfl
  have read : Envelope.ofText? (addBare name).envelope.text = some (addBare name).envelope.withoutNulls := by
    refine Envelope.ofText?_text ⟨⟨?_, by simp [addBare], by simp [addBare]⟩, by simp [addBare]⟩ ?_ ?_
    · simpa [addBare] using ordered_object_nil
    · exact ⟨trivial, trivial, trivial⟩
    · simp [whole, nesting, nestingMembers, nestingLimit]
  exact ⟨_, read⟩

theorem hasText_putDeep (name : String) (deepens : type.Deepens (Update.room Row.levels path) depth value result) :
    (putDeep name path value).HasText := by
  have whole : (putDeep name path value).envelope.toJson = .object [("model", .text name),
      ("id", .text (EntityId.mint 0 0).text), ("value", Update.putting path value)] := rfl
  have two : 2 ≤ Row.levels := by decide
  have nests := Update.nesting_putting two deepens.shallow
  have limit : nestingLimit = Row.levels + 1 := rfl
  have read : Envelope.ofText? (putDeep name path value).envelope.text =
      some (putDeep name path value).envelope.withoutNulls := by
    refine Envelope.ofText?_text ⟨⟨by simp [putDeep], by simp [putDeep], ?_⟩, by simp [putDeep]⟩
      ⟨trivial, trivial, Update.durable_putting deepens.durable, trivial⟩ ?_
    · simpa [putDeep] using Update.ordered_putting deepens.ordered
    · simp [whole, nesting, nestingMembers, limit, nests]
  have unchanged : (putDeep name path value).envelope.withoutNulls = (putDeep name path value).envelope := by
    have present : (Update.putting path value).isNull = false := by
      unfold Update.putting
      split <;> rfl
    simp [Envelope.withoutNulls, putDeep, present]
  exact ⟨_, unchanged ▸ read⟩

/-- If a path leaves room for a value so far below the top, then a row with it is not read. -/
theorem not_keepsReadable (looked : registry.lookup name = .ok model)
    (stamps : model.schema.behaviors.stamps = true) (writable : model.writableType? path = some type)
    (apart : (Text.segments path).head? ≠ some updatedKey)
    (reaches : type.Reaches (Update.room Row.levels path) depth)
    (deep : nestingLimit < (Text.segments path).length + depth) : ¬ KeepsReadable registry := by
  intro keeps
  obtain ⟨value, result, deepens⟩ := reaches.exists_deepens
  rw [← deepens.deep] at deep
  have rows : (reached registry [addBare name, putDeep name path value]).rows =
      [⟨model.name, EntityId.mint 0 0, ((Model.stampedBody (supplyAt 0).now).set path result).insert updatedKey
        (.text (supplyAt 1).now.text)⟩] := by
    have after : after registry (after registry .empty (addBare name)) (putDeep name path value) =
        if true then (after registry .empty (addBare name)).overwrite model.name _ else _ :=
      after_updateEntity looked rfl rfl (Model.parseUpdate_putting writable deepens _)
        (get_addBare looked stamps) (Model.applyUpdate_putting stamps deep _ (supplyAt 0).now (supplyAt 1).now)
    change (Repository.after registry (Repository.after registry .empty (addBare name)) (putDeep name path value)).rows = _
    rw [after]
    simp [Store.overwrite, rows_of_addBare looked stamps, Row.key]
  have stamped : (Json.object (Model.stampedBody (supplyAt 0).now)).Durable := ⟨trivial, trivial, trivial⟩
  have durable : (Json.object (((Model.stampedBody (supplyAt 0).now).set path result).insert updatedKey
      (.text (supplyAt 1).now.text))).Durable :=
    Body.durable_insert (Body.durable_put stamped deepens.kept _) _ trivial
  have written : ∀ request ∈ [addBare name, putDeep name path value], request.HasText :=
    List.forall_mem_cons.mpr ⟨hasText_addBare name, List.forall_mem_singleton.mpr (hasText_putDeep name deepens)⟩
  have read := keeps _ written _ (rows ▸ List.mem_singleton_self _) durable
  have nests := Row.nesting_of_read read
  have held : Body.get? (((Model.stampedBody (supplyAt 0).now).set path result).insert updatedKey
      (.text (supplyAt 1).now.text)) path = some result := Model.get?_putting apart _ _
  exact absurd (Model.levels_lt_nesting deep held) (Nat.not_lt.mpr nests)

/-- Every stored document can be read again exactly if no model leaves room for a value so far
below the top of a document that the whole nests too deeply. -/
theorem keepsReadable_iff {definitions : List Declaration} {hasher : Hasher} {options : CompileOptions}
    {base : Registry} (built : Registry.build definitions hasher options = .ok base) (depth : Nat) :
    KeepsReadable (base.withDepth depth) ↔
      ∀ name model, base.models.find? name = some model → model.Shallow := by
  have stamps : ∀ name model, base.models.find? name = some model → model.schema.behaviors.stamps = true :=
    fun _ _ found => Registry.stamps_of_build built found
  refine ⟨fun keeps name model found => ?_, fun shallow => keepsReadable_of_shallow shallow stamps⟩
  have looked : (base.withDepth depth).lookup name = .ok model := by
    have same : (base.withDepth depth).models.find? name = some model := found
    rw [Registry.lookup, same]
  intro path type deep writable apart reaches
  by_contra exceeds
  exact not_keepsReadable looked (stamps name model found) writable apart reaches (Nat.lt_of_not_le exceeds) keeps

end Repository

/-! ### Models of both kinds -/

namespace Model
variable {model : Model}

/-- Below the top there is room for what is no array and no object. -/
theorem fits_of_flat {path : String} {type : FieldType} {room depth : Nat} (array : type ≠ .array)
    (object : ∀ fields, type ≠ .object fields) (reaches : type.Reaches room depth)
    (short : (Text.segments path).length ≤ nestingLimit) :
    (Text.segments path).length + depth ≤ nestingLimit := by
  cases reaches with
  | flat => exact short
  | array => exact absurd rfl array
  | object fields => exact absurd rfl (object fields)
  | @inside fields => exact absurd rfl (object fields)

/-- A path of one name leaves room for every value of a request, so only those below count. -/
theorem shallow_of_nested (fits : ∀ path type depth outer name rest, Text.segments path = outer :: name :: rest →
    FieldType.at? model.schema.fields (outer :: name :: rest) = some type →
      type.Reaches (Update.room Row.levels path) depth → (Text.segments path).length + depth ≤ nestingLimit) :
    model.Shallow := by
  intro path type depth writable _ reaches
  have typed := typed_of_writable writable
  match segments : Text.segments path with
  | [] => exact absurd segments (Text.segments_ne_nil path)
  | outer :: name :: rest => exact segments ▸ fits path type depth outer name rest segments (segments ▸ typed) reaches
  | [name] =>
    have within := reaches.le
    have room : Update.room Row.levels path ≤ Row.levels - 1 := by
      unfold Update.room
      split <;> omega
    have levels : nestingLimit = Row.levels + 1 := rfl
    have many : 0 < Row.levels := by decide
    rw [List.length_singleton]
    omega

end Model

theorem player_shallow : Model.Shallow ⟨playerSchema, markingHasher⟩ := by
  refine Model.shallow_of_nested fun path type depth outer name rest segments typed reaches => ?_
  rw [FieldType.at?_cons_cons] at typed
  split at typed
  · rename_i found
    -- Below the top there is only the team of the club.
    rcases List.mem_pair.mp (Keyed.mem_of_find? found) with club | named
    · cases club
      cases rest with
      | nil =>
        cases List.mem_singleton.mp (Keyed.mem_of_find? typed)
        exact Model.fits_of_flat (by simp) (by simp) reaches (by rw [segments]; decide)
      | cons next rest =>
        rw [FieldType.at?_cons_cons] at typed
        split at typed
        · rename_i deeper
          cases List.mem_singleton.mp (Keyed.mem_of_find? deeper)
        · cases typed
    · cases named
  · cases typed

theorem team_shallow : Model.Shallow ⟨teamSchema, markingHasher⟩ := by
  refine Model.shallow_of_nested fun path type depth outer name rest segments typed reaches => ?_
  rw [FieldType.at?_cons_cons] at typed
  split at typed
  · rename_i found
    cases List.mem_singleton.mp (Keyed.mem_of_find? found)
  · cases typed

namespace Repository

/-- All that is ever stored of the roster can be read again. -/
theorem roster_keepsReadable : KeepsReadable (rosterRegistry.withDepth 2) := by
  have built : Registry.build roster markingHasher {} = .ok rosterRegistry := by cbv
  refine (keepsReadable_iff built 2).mpr fun name model found => ?_
  rcases List.mem_pair.mp (Keyed.mem_of_find? found) with player | team
  · cases player
    exact player_shallow
  · cases team
    exact team_shallow

/-- An array can be put two maps below the top of a note that fits into its request, but not into
the note. -/
theorem notes_not_keepsReadable :
    Registry.build [deepDeclaration] markingHasher {} = .ok deepRegistry ∧
      ¬ KeepsReadable (deepRegistry.withDepth 2) := by
  have segments : Text.segments "a.b.c" = ["a", "b", "c"] := by decide +kernel
  have looked : (deepRegistry.withDepth 2).lookup "note" = .ok deepModel := by cbv
  have writable : deepModel.writableType? "a.b.c" = some .array := by cbv
  have deep : nestingLimit < (Text.segments "a.b.c").length + (Update.room Row.levels "a.b.c" + 1) := by
    rw [segments]
    decide
  refine ⟨by cbv, not_keepsReadable looked rfl writable ?_ (.array _) deep⟩
  rw [segments]
  decide

end Repository
end Dossier
