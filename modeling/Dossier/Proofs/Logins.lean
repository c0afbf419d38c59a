import Dossier.Accounts
import Dossier.Proofs.FaithfulPopulation
import Dossier.Proofs.FieldFilters
import Dossier.Proofs.StoredPasswords

/-! Users who log in. A login is cast to the type of its field and looked up like the operand of a
filter, so it names the first user at whose field its value stands, unless it is cast to null: then
the users without a value are found. -/
namespace Dossier

/-! ### Ids are no hashes -/

/-- No id is the hash of a password. -/
def Hasher.SparesIds (hasher : Hasher) : Prop :=
  ∀ candidate (id : EntityId), hasher.verify candidate id.text ≠ some true

theorem PhcHash.exists_splitAt {separator first : Char} (other : first ≠ separator) (rest : List Char) :
    ∃ part parts, splitAt separator (first :: rest) = (first :: part) :: parts := by
  rw [splitAt, if_neg other]
  cases splitAt separator rest with
  | nil => exact ⟨[], [], rfl⟩
  | cons part parts => exact ⟨part, parts, rfl⟩

/-- A hash begins with a sign that is in no id. -/
theorem PhcHash.parse?_id (id : EntityId) : parse? id.text = none := by
  obtain ⟨first, rest, characters⟩ := List.exists_cons_of_ne_nil (l := id.text.toList) (by
    have filled := id.ne_empty
    simpa [String.isEmpty_iff] using filled)
  have other : first ≠ '$' := by
    rintro rfl
    have among := id.mem_characters_of_mem_text '$' (characters ▸ List.mem_cons_self)
    exact absurd among (by decide)
  obtain ⟨part, parts, split⟩ := exists_splitAt other rest
  rw [parse?, characters, split]

theorem Hasher.argon2id_sparesIds {params : HashParams} {hasher : Hasher} (made : argon2id params = .ok hasher) :
    hasher.SparesIds := by
  unfold argon2id at made
  split at made <;> cases made
  intro candidate id verified
  simp [Argon2.verify, PhcHash.parse?_id] at verified

namespace Model
variable {model : Model} {document : Document} {candidate field login : String} {query : Query}

/-! ### Passwords -/

/-- The hash that is stored with a document is that of a password. -/
def Verifies (model : Model) (document : Document) (candidate : String) : Prop :=
  ∃ path hash, model.schema.behaviors.password = some path ∧ document.valueAt? path = some (.text hash) ∧
    hash ≠ "" ∧ model.hasher.verify candidate hash = some true

theorem verifyPassword_eq_true :
    model.verifyPassword document candidate = .ok true ↔ model.Verifies document candidate := by
  unfold verifyPassword Verifies
  cases model.schema.behaviors.password with
  | none => simp
  | some path =>
    constructor
    · intro verified
      dsimp only at verified
      split at verified
      · rename_i hash held
        split at verified
        · cases verified
        · rename_i filled
          split at verified
          · rename_i answer told
            cases verified
            exact ⟨path, hash, rfl, held, by simpa using filled, told⟩
          · cases verified
      · cases verified
    · rintro ⟨_, hash, same, held, filled, told⟩
      cases same
      simp [held, filled, told]

/-- The hash is read of a row as it was written. -/
theorem verifies_of_read {row : Row} (ordered : (Json.object row.document.body).Ordered)
    (done : row.read = .ok document) : model.Verifies document candidate ↔ model.Verifies row.document candidate := by
  have texts (path hash : String) : document.valueAt? path = some (.text hash) ↔
      row.document.valueAt? path = some (.text hash) := by
    unfold Document.valueAt?
    split
    · rw [Row.id_of_read done]
    · rw [Document.foldl_descend, Document.foldl_descend]
      have nonempty := Text.segments_ne_nil path
      have alike := Row.alikeText_of_read ordered done nonempty
      rw [Body.at?_eq_under? nonempty, Body.at?_eq_under? nonempty] at alike
      generalize (Json.object row.document.body).under? _ = stored at alike ⊢
      generalize (Json.object document.body).under? _ = read at alike ⊢
      cases alike with
      | absent => exact .rfl
      | present _ text => simp [text]
  simp only [Verifies, texts]

/-! ### Logins -/

/-- What a login is looked for as. Arrays, maps and undeclared fields take it as it is. -/
def castLogin (model : Model) (field login : String) : Except RequestError Json :=
  if field = idKey then model.checkId (.text login)
  else match model.fieldType? field with
    | none | some .array | some (.object _) => .ok (.text login)
    | some type => castValue model.name field type (.text login)

theorem castCondition_login : model.castCondition field (.compare .eq (.text login)) = (do
    model.guardPassword field .filter
    return .compare .eq (← model.castLogin field login)) := by
  unfold castCondition castLogin
  refine congrArg (Except.bind _) (funext fun _ => ?_)
  by_cases own : field = idKey
  · rw [if_pos own, if_pos own]
    rfl
  · rw [if_neg own, if_neg own]
    cases model.fieldType? field with
    | none => rfl
    | some type => cases type <;> rfl

theorem castQuery_login (cast : model.castQuery [(field, .compare .eq (.text login))] = .ok query) :
    model.guardPassword field .filter = .ok () ∧
      ∃ value, model.castLogin field login = .ok value ∧ query = [(field, .compare .eq value)] := by
  cases mapM_eq_ok.mp cast with
  | cons own rest =>
    cases rest
    obtain ⟨condition, chosen, finished⟩ := bind_eq_ok.mp own
    cases finished
    rw [castCondition_login] at chosen
    obtain ⟨_, admitted, given⟩ := bind_eq_ok.mp chosen
    obtain ⟨value, login, finished⟩ := bind_eq_ok.mp given
    cases finished
    exact ⟨admitted, value, login, rfl⟩

end Model

/-! ### Values that users have -/

/-- What stands at a field of a document is a value that compares equal to another one. -/
def Document.HasValue (document : Document) (field : String) (value : Json) : Prop :=
  ∃ held, document.valueAt? field = some held ∧ held ≠ .null ∧ Cell.ofJson held = Cell.ofJson value

theorem Document.holds_iff {document : Document} {field : String} {value : Json} (given : value ≠ .null)
    (plain : Cell.ofOperand field value = Cell.ofJson value) :
    (Condition.compare .eq value).holds field (document.cell field) = true ↔ document.HasValue field value := by
  rw [Condition.holds_compare given, plain]
  unfold Document.cell HasValue
  cases document.valueAt? field with
  | none => simp [Cell.ofValue]
  | some held =>
    have shown : Cell.ofJson held ≠ .none ↔ held ≠ .null := not_congr Cell.ofJson_eq_none
    have same : (Cell.ofJson held).compare (Cell.ofJson value) = .eq ↔ Cell.ofJson held = Cell.ofJson value :=
      ⟨Cell.eq_of_compare, fun same => same ▸ Cell.compare_self _⟩
    simp [Cell.ofValue, Comparison.allows, shown, same]

theorem Document.not_hasValue_null (document : Document) (field : String) : ¬ document.HasValue field .null := by
  rintro ⟨held, _, present, same⟩
  exact present (Cell.ofJson_eq_none.mp same)

theorem Model.plain_of_castLogin {model : Model} {field login : String} {value : Json}
    (cast : model.castLogin field login = .ok value) : Cell.ofOperand field value = Cell.ofJson value := by
  by_cases own : field = idKey
  · rw [castLogin, if_pos own, checkId] at cast
    split at cast <;> cases cast
    rfl
  · exact Cell.ofOperand_eq_ofJson own value

/-- A document is the first of its collection that has a value at a field. -/
def Store.First (store : Store) (collection field : String) (value : Json) (document : Document) : Prop :=
  ∃ earlier later, store.documents collection = earlier ++ document :: later ∧ document.HasValue field value ∧
    ∀ other ∈ earlier, ¬ other.HasValue field value

/-! ### Passwords that are not shown -/

section
variable {registry : Registry} {store : Store} {depth : Nat} {chain : Chain} {model : Model} {members body : Body}
  {document : Document} {path : String} {value : Json}

theorem Text.eq_of_segments {path other : String} (same : segments path = segments other) : path = other := by
  rw [← dotted_segments path, same, dotted_segments]

/-- Populating puts nothing where there was nothing, unless a reference stands above. -/
theorem get?_of_populate
    (alone : ∀ reference ∈ model.schema.references, Text.segments reference.1 <+: Text.segments path →
      reference.1 = path)
    (populated : populate registry store depth chain model (fun _ => true) members = .ok body)
    (absent : members.get? path = none) : body.get? path = none := by
  by_cases listed : ∃ target, (path, target) ∈ model.schema.references
  · obtain ⟨target, listed⟩ := listed
    cases depth with
    | zero =>
      cases populated
      exact absent
    | succ depth =>
      have related := populated_at populated listed rfl
      rw [absent] at related
      generalize body.get? path = result at related ⊢
      cases related with
      | kept => rfl
      | missing opened | found opened =>
        obtain ⟨_, held, _⟩ := openId?_eq_some.mp opened
        cases held
  · have same : body.outline? (Text.segments path) = members.outline? (Text.segments path) :=
      outline?_of_populate populated fun reference member _ above =>
        listed ⟨reference.2, alone reference member above ▸ member⟩
    have nothing : members.outline? (Text.segments path) = none := congrArg (Option.map Json.outline) absent
    exact Option.map_eq_none_iff.mp (same.trans nothing)

/-- Above what stands in a document there is no reference. -/
theorem Model.Shapes.alone (shapes : model.Shapes body) (held : body.get? path = some value)
    {reference : String × String} (listed : reference ∈ model.schema.references)
    (above : Text.segments reference.1 <+: Text.segments path) : reference.1 = path := by
  have typed := Schema.typed_of_mem_references listed
  obtain ⟨rest, whole⟩ := above
  have last : rest = [] := by
    rcases shapes.typed (Text.segments_ne_nil path) held with ⟨type, declared⟩ | ⟨stamp, _⟩
    · rw [← whole, FieldType.at?_append (Text.segments_ne_nil _), typed] at declared
      cases rest with
      | nil => rfl
      | cons name rest => cases declared
    · obtain ⟨name, single⟩ : ∃ name, Text.segments path = [name] :=
        stamp.elim (fun own => ⟨_, own⟩) fun own => ⟨_, own⟩
      obtain ⟨first, names, segments⟩ := List.exists_cons_of_ne_nil (Text.segments_ne_nil reference.1)
      rw [segments, single] at whole
      exact (List.append_eq_nil_iff.mp (List.cons.inj whole).2).2
  rw [last, List.append_nil] at whole
  exact Text.eq_of_segments whole

/-- Without its password a document has nothing there, but an id if that is its path. -/
theorem Model.get?_sanitize (password : model.schema.behaviors.password = some path) (other : path ≠ idKey) :
    (model.sanitize document).get? path = none := by
  obtain ⟨body, same, _, _, hidden⟩ := model.sanitize_eq document
  have gone := hidden path password
  obtain ⟨name, rest, segments⟩ := List.exists_cons_of_ne_nil (Text.segments_ne_nil path)
  rw [Body.get?, segments, Body.at?_cons] at gone
  rw [same, Body.get?, segments, Body.at?_cons, Keyed.find?_insert]
  split
  · rename_i own
    cases rest with
    | nil => exact absurd (Text.eq_of_segments (segments.trans (own ▸ (by decide +kernel)))) other
    | cons next rest => rfl
  · exact gone

/-- The hash that a password was checked against stands in the document, for no id is a hash. -/
theorem Model.Verifies.get?_eq_text {candidate : String} (verifies : model.Verifies document candidate)
    (spares : model.hasher.SparesIds) (password : model.schema.behaviors.password = some path) :
    path ≠ idKey ∧ ∃ hash, document.body.get? path = some (.text hash) := by
  obtain ⟨other, hash, also, held, _, checked⟩ := verifies
  cases password.symm.trans also
  have noId : path ≠ idKey := by
    rintro rfl
    obtain rfl : document.id.text = hash := by simpa [Document.valueAt?] using held
    exact spares candidate document.id checked
  exact ⟨noId, hash, (document.valueAt?_of_ne noId).symm.trans held⟩

/-- A user whose password was checked is shown without its hash. -/
theorem Model.Verifies.get?_present {candidate : String} (verifies : model.Verifies document candidate)
    (spares : model.hasher.SparesIds) (password : model.schema.behaviors.password = some path)
    (shapes : model.Shapes document.body) (shown : present registry store model document [] = .ok body) :
    body.get? path = none := by
  obtain ⟨noId, hash, there⟩ := verifies.get?_eq_text spares password
  rw [present_nil] at shown
  exact get?_of_populate (fun reference listed above => shapes.alone there listed above) shown
    (Model.get?_sanitize password noId)

end

namespace Accounts
variable {registry : Registry} {store : Store} {model : Model} {field login candidate : String}

/-! ### Authentication -/

/-- Authentication admits the first user with a login, if the password is that user's, and
nobody else. -/
def AdmitsNamed (registry : Registry) (store : Store) (model : Model) (field login : String) : Prop :=
  ∀ candidate answer, ((authenticate registry field login candidate).run.run store).1 = .ok answer →
    ∃ value, model.castLogin field login = .ok value ∧
      match answer with
      | some user => ∃ document read, store.First model.name field value document ∧
          model.Verifies document candidate ∧ Row.read ⟨model.name, document⟩ = .ok read ∧
          present registry store model read [] = .ok user ∧
          ∀ path, model.schema.behaviors.password = some path → user.get? path = none
      | none => (∀ document ∈ store.documents model.name, ¬ document.HasValue field value) ∨
          ∃ document, store.First model.name field value document ∧ ¬ model.Verifies document candidate

theorem answers_authenticate (registry : Registry) (store : Store) (field login candidate : String) :
    ((authenticate registry field login candidate).run.run store).1 = (do
      let model ← registry.lookup accountModel
      let query ← model.castQuery [(field, .compare .eq (.text login))]
      match ← (store.find model.name query []).mapError .store with
      | [] => return none
      | document :: _ =>
        if ← model.verifyPassword document candidate then
          return some (← present registry store model document [])
        else return none) := by
  refine Repository.Answers.asks (Action.run_ofExcept _ _) fun model =>
    Repository.Answers.asks (Action.run_ofExcept _ _) fun query =>
      Repository.Answers.asks (Action.run_query _ _) fun found => ?_
  cases found with
  | nil => rfl
  | cons document rest =>
    refine Repository.Answers.asks (Action.run_ofExcept _ _) fun verified => ?_
    cases verified with
    | false => rfl
    | true => exact Repository.Answers.asks (Repository.run_showDocument ..) fun _ => rfl

/-- What is found by a value is read of the users that have it, in the order of their insertion. -/
theorem first_of_find {collection : String} {value : Json} (given : value ≠ .null)
    (plain : Cell.ofOperand field value = Cell.ofJson value)
    (shows : ∀ document ∈ store.documents collection, document.Shows field) {documents : List Document}
    (found : store.find collection [(field, .compare .eq value)] [] = .ok documents) :
    match documents with
    | [] => ∀ document ∈ store.documents collection, ¬ document.HasValue field value
    | read :: _ => ∃ document, store.First collection field value document ∧
        Row.read ⟨collection, document⟩ = .ok read := by
  have selects (document : Document) : Query.selects [(field, .compare .eq value)] document = true ↔
      document.HasValue field value := by
    rw [← Document.holds_iff given plain]
    simp [Query.selects]
  rw [Store.find_unsorted, Store.selected_of_shows rfl fun document member entry listed =>
    List.mem_singleton.mp listed ▸ shows document member] at found
  obtain ⟨chosen, same, reading⟩ := bind_eq_ok.mp found
  cases same
  cases documents with
  | nil =>
    intro document member has
    have none : (store.documents collection).filter (Query.selects [(field, .compare .eq value)]) = [] :=
      List.forall₂_nil_right_iff.mp (mapM_eq_ok.mp reading)
    exact List.filter_eq_nil_iff.mp none document member ((selects document).mpr has)
  | cons read rest =>
    generalize chosen : (store.documents collection).filter _ = documents at reading
    cases mapM_eq_ok.mp reading with
    | @cons document _ others _ own _ =>
      obtain ⟨earlier, later, split, before, has, _⟩ := List.filter_eq_cons_iff.mp chosen
      exact ⟨document, ⟨earlier, later, split, (selects document).mp has, fun other member has =>
        before other member ((selects other).mpr has)⟩, own⟩

section
variable {definitions : List Declaration} {hasher : Hasher} {options : CompileOptions} {base : Registry}
  (built : Registry.build definitions hasher options = .ok base) (spares : hasher.SparesIds) (depth : Nat)
  {requests : List Request} (ordered : ∀ request ∈ requests, request.envelope.Ordered)
  (known : base.lookup accountModel = .ok model) (spelled : ∀ name ∈ Text.segments field, KeyPath.SpellsItself name)
  (alone : ∀ place type, FieldType.at? model.schema.fields place = some type →
    List.Forall₂ KeyPath.TakenFor (Text.segments field) place → place = Text.segments field)
include built spares ordered known spelled alone

theorem admitsNamed_of_castLogin (given : model.castLogin field login ≠ .ok .null) :
    AdmitsNamed (base.withDepth depth) (Repository.reached (base.withDepth depth) requests) model field login := by
  intro candidate answer answered
  have found : base.models.find? accountModel = some model := Registry.find?_of_lookup known
  obtain ⟨name, own, _⟩ := Registry.parts_of_build built found
  have written {document : Document}
      (member : document ∈ (Repository.reached (base.withDepth depth) requests).documents model.name) :=
    Repository.written_of_reached (Repository.keeps_shapes (base.withDepth depth))
      (fun _ _ found => (Registry.parts_of_build built found).1) ordered (Store.mem_documents.mp member)
  have registered : (base.withDepth depth).models.find? model.name = some model := name.symm ▸ found
  rw [answers_authenticate] at answered
  obtain ⟨_, looked, answered⟩ := bind_eq_ok.mp answered
  cases known.symm.trans looked
  obtain ⟨query, cast, answered⟩ := bind_eq_ok.mp answered
  obtain ⟨admitted, value, login, rfl⟩ := Model.castQuery_login cast
  obtain ⟨documents, finding, answered⟩ := bind_eq_ok.mp answered
  have tells : model.TellsField field := ⟨admitted, spelled, alone⟩
  have present : value ≠ .null := fun null => given (null ▸ login)
  have first := first_of_find present (Model.plain_of_castLogin login) (fun document member =>
    tells.shows ((written member).own registered) (written member).ordered) (Repository.ok_of_mapError finding)
  refine ⟨value, login, ?_⟩
  cases documents with
  | nil =>
    cases answered
    exact .inl first
  | cons read rest =>
    obtain ⟨document, first, reads⟩ := first
    obtain ⟨verified, verifying, answered⟩ := bind_eq_ok.mp answered
    have member : document ∈ (Repository.reached (base.withDepth depth) requests).documents model.name := by
      obtain ⟨earlier, later, split, _⟩ := first
      simp [split]
    have same : model.Verifies read candidate ↔ model.Verifies document candidate :=
      Model.verifies_of_read (written member).ordered reads
    cases verified with
    | false =>
      cases answered
      refine .inr ⟨document, first, fun verifies => ?_⟩
      cases verifying.symm.trans (Model.verifyPassword_eq_true.mpr (same.mpr verifies))
    | true =>
      obtain ⟨user, shown, finished⟩ := bind_eq_ok.mp answered
      cases finished
      have verifies := Model.verifyPassword_eq_true.mp verifying
      have shapes := (written member).read (Repository.keeps_shapes _) registered reads
      exact ⟨document, read, first, same.mp verifies, reads, shown, fun path password =>
        verifies.get?_present (own ▸ spares) password shapes.2 shown⟩

end

end Accounts

/-! ### Users with badges -/

theorem markingHasher_sparesIds : markingHasher.SparesIds := by
  intro candidate id verified
  unfold markingHasher at verified
  dsimp only at verified
  split at verified
  · rename_i marked
    have among := id.mem_characters_of_mem_text 'h' ((String.startsWith_string_iff.mp marked).subset (by decide))
    exact absurd among (by decide)
  · cases verified

def userDeclaration : Declaration :=
  ⟨"user", [⟨"login", "text", []⟩, ⟨"badge", "number", []⟩, ⟨"pass", "password", []⟩], []⟩

def userModel : Model :=
  ⟨⟨"user", [("badge", .number), ("login", .text), ("pass", .text)], ⟨true, some "pass", []⟩⟩, markingHasher⟩

def userRegistry : Registry := { models := [("user", userModel)] }

/-- A user without a badge is added. -/
def userRequests : List Request :=
  [⟨.addEntity, { model := "user", entity := some (.object [("login", .text "ann"), ("pass", .text "sesame")]) },
    rosterSupply⟩]

/-- Whether somebody is admitted. -/
def Accounts.admits (registry : Registry) (store : Store) (field login candidate : String) : Bool :=
  match ((authenticate registry field login candidate).run.run store).1 with
  | .ok (some _) => true
  | _ => false

theorem Accounts.exists_of_admits {registry : Registry} {store : Store} {field login candidate : String}
    (admitted : admits registry store field login candidate = true) :
    ∃ user, ((authenticate registry field login candidate).run.run store).1 = .ok (some user) := by
  unfold admits at admitted
  split at admitted
  · exact ⟨_, ‹_›⟩
  · cases admitted

theorem ordered_userRequests : ∀ request ∈ userRequests, request.envelope.Ordered := by
  have user : (Json.object [("login", .text "ann"), ("pass", .text "sesame")]).Ordered := by decide +kernel
  intro request member
  cases List.mem_singleton.mp member
  exact ⟨by simpa using user, by simp, by simp⟩

namespace Accounts

end Accounts
end Dossier
