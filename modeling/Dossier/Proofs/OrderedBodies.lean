import Dossier.Model.Update
import Dossier.Request.Envelope
import Dossier.Proofs.KeyedEntries
import Dossier.Proofs.Outcomes

/-! Values that list their keys in order, and how everything that is written to documents
keeps them so. -/
namespace Dossier

instance {α : Type} (entries : Keyed α) : Decidable entries.Ordered :=
  inferInstanceAs (Decidable (List.Pairwise _ entries))

namespace Json

mutual
def decideOrdered : (value : Json) → Decidable value.Ordered
  | .null | .bool _ | .number _ | .text _ => isTrue trivial
  | .array items => decideOrderedItems items
  | .object members =>
    have := decideOrderedMembers members
    inferInstanceAs (Decidable (Keyed.Ordered members ∧ OrderedMembers members))
def decideOrderedItems : (items : List Json) → Decidable (OrderedItems items)
  | [] => isTrue trivial
  | item :: rest =>
    have := decideOrdered item
    have := decideOrderedItems rest
    inferInstanceAs (Decidable (item.Ordered ∧ OrderedItems rest))
def decideOrderedMembers : (members : List (String × Json)) → Decidable (OrderedMembers members)
  | [] => isTrue trivial
  | (_, value) :: rest =>
    have := decideOrdered value
    have := decideOrderedMembers rest
    inferInstanceAs (Decidable (value.Ordered ∧ OrderedMembers rest))
end

instance (value : Json) : Decidable value.Ordered := decideOrdered value

end Json

theorem Json.orderedMembers_iff {members : List (String × Json)} :
    OrderedMembers members ↔ ∀ entry ∈ members, entry.2.Ordered := by
  induction members with
  | nil => simp [OrderedMembers]
  | cons first rest ih =>
    obtain ⟨key, value⟩ := first
    simp [OrderedMembers, ih]

theorem Json.ordered_object_iff {members : Body} :
    (Json.object members).Ordered ↔ members.Ordered ∧ ∀ entry ∈ members, entry.2.Ordered := by
  rw [Ordered, orderedMembers_iff]

theorem Json.ordered_object_nil : (Json.object []).Ordered := ⟨List.Pairwise.nil, trivial⟩

theorem Json.ordered_text (value : String) : (Json.text value).Ordered := trivial

namespace Body
variable {body : Body} {value : Json}

theorem ordered_insert (ordered : (Json.object body).Ordered) (key : String) (inside : value.Ordered) :
    (Json.object (body.insert key value)).Ordered := by
  rw [Json.ordered_object_iff] at ordered ⊢
  refine ⟨ordered.1.insert key value, fun entry member => ?_⟩
  rcases Keyed.mem_insert member with rfl | earlier
  · exact inside
  · exact ordered.2 entry earlier

theorem ordered_erase (ordered : (Json.object body).Ordered) (key : String) :
    (Json.object (body.erase key)).Ordered := by
  rw [Json.ordered_object_iff] at ordered ⊢
  exact ⟨ordered.1.erase key, fun entry member => ordered.2 entry (List.mem_filter.mp member).1⟩

theorem ordered_of_find? (ordered : (Json.object body).Ordered) {key : String}
    (found : body.find? key = some value) : value.Ordered :=
  (Json.ordered_object_iff.mp ordered).2 _ (Keyed.mem_of_find? found)

theorem ordered_of_members? (ordered : value.Ordered) (members : value.members? = some body) :
    (Json.object body).Ordered := by
  cases value <;> cases members
  exact ordered

/-- The members that are entered on a path are in order, made up or not. -/
theorem ordered_inside (ordered : (Json.object body).Ordered) (key : String) :
    (Json.object (((body.find? key).bind Json.members?).getD [])).Ordered := by
  cases found : (body.find? key).bind Json.members? with
  | none => exact Json.ordered_object_nil
  | some inner =>
    obtain ⟨held, here, members⟩ := Option.bind_eq_some_iff.mp found
    exact ordered_of_members? (ordered_of_find? ordered here) members

theorem ordered_put (ordered : (Json.object body).Ordered) (inside : value.Ordered)
    (names : List String) : (Json.object (body.put value names)).Ordered := by
  induction names generalizing body with
  | nil => exact ordered
  | cons name rest ih =>
    cases rest with
    | nil => exact ordered_insert ordered name inside
    | cons next others => exact ordered_insert ordered name (ih (ordered_inside ordered name))

theorem ordered_drop (ordered : (Json.object body).Ordered) (names : List String) :
    (Json.object (body.drop names)).Ordered := by
  induction names generalizing body with
  | nil => exact ordered
  | cons name rest ih =>
    cases rest with
    | nil => exact ordered_erase ordered name
    | cons next others =>
      rw [drop_cons_cons]
      split
      · rename_i inner found
        obtain ⟨held, here, members⟩ := Option.bind_eq_some_iff.mp found
        exact ordered_insert ordered name (ih (ordered_of_members? (ordered_of_find? ordered here) members))
      · exact ordered

theorem ordered_at? (ordered : (Json.object body).Ordered) {names : List String}
    (found : body.at? names = some value) : value.Ordered := by
  induction names generalizing body with
  | nil => cases found
  | cons name rest ih =>
    cases rest with
    | nil => exact ordered_of_find? ordered found
    | cons next others =>
      obtain ⟨inner, entered, below⟩ := Option.bind_eq_some_iff.mp found
      obtain ⟨held, here, members⟩ := Option.bind_eq_some_iff.mp entered
      exact ih (ordered_of_members? (ordered_of_find? ordered here) members) below

end Body

/-! ### Casting -/

theorem ok_of_refuse {model path : String} {outcome : Except ValueFault Json} {result : Json}
    (done : refuse model path outcome = .ok result) : outcome = .ok result := by
  cases outcome <;> cases done
  rfl

theorem Cast.ordered_of_number {value result : Json} (cast : number value = .ok result) :
    result.Ordered := by
  cases value with
  | text given =>
    simp only [number] at cast
    repeat' split at cast
    all_goals cases cast
    all_goals trivial
  | number n =>
    cases cast
    trivial
  | bool b =>
    cases cast
    trivial
  | _ => cases cast

theorem Cast.ordered_of_boolean {value result : Json} (cast : boolean value = .ok result) :
    result.Ordered := by
  cases value <;> simp only [boolean] at cast
  all_goals repeat' split at cast
  all_goals cases cast
  all_goals trivial

theorem Cast.ordered_of_reference {target : String} {value result : Json}
    (cast : reference target value = .ok result) : result.Ordered := by
  unfold reference at cast
  cases value with
  | text raw =>
    dsimp only [bind, Except.bind, pure, Except.pure] at cast
    generalize EntityId.parse? raw = parsed at cast
    cases parsed <;> cases cast
    trivial
  | object members =>
    dsimp only [bind, Except.bind, pure, Except.pure] at cast
    generalize Option.bind _ Json.text? = given at cast
    cases given with
    | none => cases cast
    | some raw =>
      simp only at cast
      generalize EntityId.parse? raw = parsed at cast
      cases parsed <;> cases cast
      trivial
  | _ => cases cast

/-- Casting to a type that has no fields inside keeps the keys in order. -/
theorem ordered_of_castScalar {model path : String} {type : FieldType} {value result : Json}
    (ordered : value.Ordered) (noObject : ∀ fields, type ≠ .object fields)
    (cast : castValue model path type value = .ok result) : result.Ordered := by
  by_cases null : value = .null
  · subst null
    cases type <;> simp [castValue] at cast <;> subst cast <;> trivial
  cases type with
  | text =>
    simp [castValue] at cast
    have kept := ok_of_refuse cast
    cases value <;> cases kept <;> trivial
  | number =>
    simp [castValue] at cast
    exact Cast.ordered_of_number (ok_of_refuse cast)
  | boolean =>
    simp [castValue] at cast
    exact Cast.ordered_of_boolean (ok_of_refuse cast)
  | date =>
    simp [castValue] at cast
    have kept := ok_of_refuse cast
    simp only [Cast.date] at kept
    split at kept <;> cases kept
    trivial
  | array =>
    simp [castValue] at cast
    have kept := ok_of_refuse cast
    cases value <;> cases kept
    all_goals first | exact ordered | exact ⟨ordered, trivial⟩
  | reference target =>
    simp [castValue] at cast
    exact Cast.ordered_of_reference (ok_of_refuse cast)
  | object fields => exact absurd rfl (noObject fields)

namespace Json

theorem keys_of_castMembers {model above : String} {fields : Keyed FieldType}
    {members : List (String × Json)} {body : Body} (cast : castMembers model above fields members = .ok body) :
    body.keys.Sublist (Keyed.keys members) := by
  induction members generalizing body with
  | nil =>
    cases cast
    exact .slnil
  | cons member rest ih =>
    obtain ⟨key, value⟩ := member
    rw [castMembers] at cast
    split at cast
    · obtain ⟨_, _, others⟩ := bind_eq_ok.mp cast
      obtain ⟨_, later, finished⟩ := bind_eq_ok.mp others
      cases finished
      exact (ih later).cons_cons key
    · exact (ih cast).cons key

theorem ordered_keys_of_castMembers {model above : String} {fields : Keyed FieldType}
    {members : List (String × Json)} {body : Body} (ordered : Keyed.Ordered members)
    (cast : castMembers model above fields members = .ok body) : body.Ordered :=
  Keyed.ordered_iff_keys.mpr ((Keyed.ordered_iff_keys.mp ordered).sublist (keys_of_castMembers cast))

mutual
/-- Casting keeps the keys in order. -/
theorem ordered_of_castValue {model path : String} {type : FieldType} {result : Json} :
    (value : Json) → value.Ordered → castValue model path type value = .ok result → result.Ordered
  | .object members => by
    intro ordered cast
    cases type with
    | object fields =>
      obtain ⟨body, inside, finished⟩ := bind_eq_ok.mp cast
      cases finished
      exact ⟨ordered_keys_of_castMembers ordered.1 inside, ordered_of_castMembers members ordered.2 inside⟩
    | _ => exact ordered_of_castScalar ordered (by simp) cast
  | .null | .bool _ | .number _ | .text _ | .array _ => by
    intro ordered cast
    cases type with
    | object fields => cases cast <;> trivial
    | _ => exact ordered_of_castScalar ordered (by simp) cast
theorem ordered_of_castMembers {model above : String} {fields : Keyed FieldType} {body : Body} :
    (members : List (String × Json)) → OrderedMembers members → castMembers model above fields members = .ok body → OrderedMembers body
  | [] => by
    intro _ cast
    cases cast
    trivial
  | (key, value) :: rest => by
    intro ordered cast
    rw [castMembers] at cast
    split at cast
    · obtain ⟨result, own, others⟩ := bind_eq_ok.mp cast
      obtain ⟨_, later, finished⟩ := bind_eq_ok.mp others
      cases finished
      exact ⟨ordered_of_castValue value ordered.1 own, ordered_of_castMembers rest ordered.2 later⟩
    · exact ordered_of_castMembers rest ordered.2 cast
end

end Json

/-! ### Writing -/

namespace Model
variable {model : Model}

theorem ordered_hashPassword {body : Body} (ordered : (Json.object body).Ordered) (salt : ByteArray) :
    (Json.object (model.hashPassword salt body)).Ordered := by
  simp only [hashPassword]
  repeat' split
  all_goals first | exact ordered | exact Body.ordered_put ordered (Json.ordered_text _) _

theorem ordered_stamp {body : Body} (ordered : (Json.object body).Ordered) (now : Timestamp) :
    (Json.object (model.stamp now body)).Ordered := by
  simp only [stamp]
  split
  · exact Body.ordered_insert (Body.ordered_insert ordered _ (Json.ordered_text _)) _ (Json.ordered_text _)
  · exact ordered

theorem ordered_of_prepareInsert {supply : Supply} {index : Nat} {payload : Json} {document : Document}
    (ordered : payload.Ordered) (prepared : model.prepareInsert supply index payload = .ok document) :
    (Json.object document.body).Ordered := by
  cases payload with
  | object members =>
    obtain ⟨id, _, rest⟩ := bind_eq_ok.mp prepared
    obtain ⟨body, cast, finished⟩ := bind_eq_ok.mp rest
    cases finished
    have inside : (Json.object body).Ordered :=
      ⟨Json.ordered_keys_of_castMembers ordered.1 cast, Json.ordered_of_castMembers members ordered.2 cast⟩
    exact Body.ordered_erase (ordered_stamp (ordered_hashPassword inside _) _) _
  | _ => cases prepared

theorem ordered_of_settled {salt : ByteArray} {path : String} {type : FieldType} {value result : Json}
    (ordered : value.Ordered) (done : model.settled salt path type value = .ok result) : result.Ordered := by
  obtain ⟨cast, own, finished⟩ := bind_eq_ok.mp done
  cases finished
  rw [Body.extract_fst]
  have scratch : (Json.object (Body.set [] path cast)).Ordered :=
    Body.ordered_put Json.ordered_object_nil (Json.ordered_of_castValue value ordered own) _
  cases found : (model.hashPassword salt (Body.set [] path cast)).get? path with
  | none => trivial
  | some held => exact Body.ordered_at? (ordered_hashPassword scratch salt) found

theorem ordered_of_settleAll {salt : Nat → ByteArray} {index : Nat} {sets settled : List (String × Json)}
    (ordered : ∀ entry ∈ sets, entry.2.Ordered) (done : model.settleAll salt index sets = .ok settled) :
    ∀ entry ∈ settled, entry.2.Ordered := by
  induction sets generalizing index settled with
  | nil =>
    cases done
    simp
  | cons first rest ih =>
    obtain ⟨path, value⟩ := first
    have later : ∀ entry ∈ rest, entry.2.Ordered := fun entry member =>
      ordered entry (List.mem_cons_of_mem _ member)
    rw [settleAll] at done
    split at done
    · exact ih later done
    · obtain ⟨result, own, others⟩ := bind_eq_ok.mp done
      obtain ⟨more, remaining, finished⟩ := bind_eq_ok.mp others
      cases finished
      intro entry member
      rcases List.mem_cons.mp member with rfl | among
      · exact ordered_of_settled (ordered _ List.mem_cons_self) own
      · exact ih later remaining entry among

theorem ordered_of_requested {key : String} {value : Json} {parts : List (String × Json) × List String}
    (ordered : value.Ordered) (done : model.requested key value = .ok parts) :
    ∀ entry ∈ parts.1, entry.2.Ordered := by
  simp only [requested] at done
  repeat' split at done
  all_goals cases done
  · exact (Json.ordered_object_iff.mp ordered).2
  · simp
  · simp
  · simpa using ordered

theorem ordered_of_parseUpdate {salt : Nat → ByteArray} {payload : Json} {update : Update}
    (ordered : payload.Ordered) (parsed : model.parseUpdate salt payload = .ok update) :
    ∀ entry ∈ update.sets, entry.2.Ordered := by
  cases payload with
  | object members =>
    obtain ⟨parts, asked, rest⟩ := bind_eq_ok.mp parsed
    obtain ⟨sets, settled, finished⟩ := bind_eq_ok.mp rest
    cases finished
    refine ordered_of_settleAll (fun entry member => ?_) settled
    obtain ⟨part, listed, inside⟩ := List.mem_flatMap.mp member
    obtain ⟨⟨key, value⟩, given, own⟩ := exists_of_mapM asked listed
    exact ordered_of_requested ((Json.ordered_object_iff.mp ordered).2 _ given) own entry inside
  | _ => cases parsed

end Model

theorem Update.ordered_apply {update : Update} {body : Body} (ordered : (Json.object body).Ordered)
    (sets : ∀ entry ∈ update.sets, entry.2.Ordered) : (Json.object (update.apply body)).Ordered := by
  have fold {α : Type} (step : Body → α → Body) (items : List α)
      (keeps : ∀ held, (Json.object held).Ordered → ∀ item ∈ items, (Json.object (step held item)).Ordered)
      {start : Body} (first : (Json.object start).Ordered) : (Json.object (items.foldl step start)).Ordered :=
    List.foldlRecOn items step first keeps
  refine fold _ _ (fun held inside path _ => Body.ordered_drop inside _) ?_
  exact fold _ _ (fun held inside entry member => Body.ordered_put inside (sets entry member) _) ordered

theorem Model.ordered_applyUpdate {model : Model} {document : Document} {update : Update}
    (ordered : (Json.object document.body).Ordered) (sets : ∀ entry ∈ update.sets, entry.2.Ordered)
    (now : Timestamp) : (Json.object (model.applyUpdate now document update).2.body).Ordered := by
  have applied := Update.ordered_apply ordered sets
  simp only [applyUpdate]
  repeat' split
  · exact applied
  · exact Body.ordered_insert applied _ (Json.ordered_text _)
  · exact applied

/-! ### Requests -/

/-- The payloads of an envelope list their keys in order. -/
structure Envelope.Ordered (envelope : Envelope) : Prop where
  entity : ∀ payload ∈ envelope.entity, payload.Ordered
  entities : ∀ payloads ∈ envelope.entities, ∀ payload ∈ payloads, payload.Ordered
  value : ∀ payload ∈ envelope.value, payload.Ordered

namespace Json.Tree

mutual
/-- The values that are read list their keys in order, however they are written. -/
theorem ordered_of_value? : (tree : Tree) → ∀ {levels value}, tree.value? levels = some value →
    value.Ordered
  | .null | .bool _ => by
    intro found
    cases found
    trivial
  | .number _ | .text _ => by
    intro found
    obtain ⟨_, _, rfl⟩ := Option.map_eq_some_iff.mp found
    trivial
  | .array items => by
    rename_i levels value
    intro found
    cases levels with
    | zero => cases found
    | succ levels =>
      obtain ⟨_, inside, rfl⟩ := Option.map_eq_some_iff.mp found
      exact ordered_of_values? items inside
  | .object members => by
    rename_i levels value
    intro found
    cases levels with
    | zero => cases found
    | succ levels =>
      obtain ⟨_, inside, rfl⟩ := Option.map_eq_some_iff.mp found
      refine Json.ordered_object_iff.mpr ⟨Keyed.ordered_ofEntries _, fun entry member => ?_⟩
      exact ordered_of_memberValues? members inside entry (Keyed.mem_ofEntries member)
theorem ordered_of_values? : (items : List Tree) → ∀ {levels values},
    values? levels items = some values → OrderedItems values
  | [] => by
    intro found
    cases found
    trivial
  | item :: rest => by
    intro found
    simp only [values?, Option.bind_eq_bind, Option.bind_eq_some_iff] at found
    obtain ⟨_, own, _, later, finished⟩ := found
    cases finished
    exact ⟨ordered_of_value? item own, ordered_of_values? rest later⟩
theorem ordered_of_memberValues? : (members : List (Option String × Tree)) → ∀ {levels values},
    memberValues? levels members = some values → ∀ entry ∈ values, entry.2.Ordered
  | [] => by
    intro found
    cases found
    simp
  | (key, tree) :: rest => by
    intro found entry member
    simp only [memberValues?, Option.bind_eq_bind, Option.bind_eq_some_iff] at found
    obtain ⟨_, _, _, own, _, later, finished⟩ := found
    cases finished
    rcases List.mem_cons.mp member with rfl | among
    · exact ordered_of_value? tree own
    · exact ordered_of_memberValues? rest later entry among
end

end Json.Tree

theorem exists_of_mapM? {α β : Type} {step : α → Option β} {items : List α} {results : List β}
    (done : items.mapM step = some results) {result : β} (member : result ∈ results) :
    ∃ item, step item = some result := by
  induction items generalizing results with
  | nil =>
    cases done
    cases member
  | cons item rest ih =>
    simp only [List.mapM_cons, Option.bind_eq_bind, Option.bind_eq_some_iff] at done
    obtain ⟨_, own, _, later, finished⟩ := done
    cases finished
    rcases List.mem_cons.mp member with rfl | among
    · exact ⟨item, own⟩
    · exact ih later among

theorem Envelope.exists_of_optional {α : Type} {fields : Json.Tree.Fields} {name : String}
    {read : Json.Tree → Option α} {given : Option α} (found : optional fields name read = some given)
    {value : α} (present : given = some value) : ∃ tree, read tree = some value := by
  subst present
  simp only [optional, Json.Tree.Fields.optional] at found
  split at found
  · cases found
  · rename_i tree _
    refine ⟨tree, ?_⟩
    cases tree with
    | null => simp [Json.Tree.nullable] at found
    | _ => simpa [Json.Tree.nullable] using found

/-- Envelopes that are read of a text have their keys in order. -/
theorem Envelope.ordered_of_ofText? {text : String} {envelope : Envelope}
    (read : ofText? text = some envelope) : envelope.Ordered := by
  obtain ⟨tree, _, found⟩ := Option.bind_eq_some_iff.mp read
  simp only [Envelope.read, Option.bind_eq_bind, Option.bind_eq_some_iff] at found
  obtain ⟨fields, _, model, _, id, _, ids, _, value, readValue, entity, readEntity, entities,
    readEntities, _, _, _, _, _, _, finished⟩ := found
  cases finished
  refine ⟨fun payload given => ?_, fun payloads given payload member => ?_, fun payload given => ?_⟩
  · obtain ⟨tree, found⟩ := exists_of_optional readEntity given
    exact tree.ordered_of_value? found
  · obtain ⟨tree, found⟩ := exists_of_optional readEntities given
    cases tree with
    | array items =>
      simp only [Json.Tree.list] at found
      split at found
      · cases found
      · obtain ⟨item, read⟩ := exists_of_mapM? found member
        exact item.ordered_of_value? read
    | _ => cases found
  · obtain ⟨tree, found⟩ := exists_of_optional readValue given
    exact tree.ordered_of_value? found

end Dossier
