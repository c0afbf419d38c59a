import Dossier.Population
import Dossier.Proofs.ReferenceClosure
import Dossier.Proofs.ReferencePlaces

/-! What populating makes of some members. Every wanted reference within the depth is followed,
unless it leads back to a document that is being populated, and nothing else changes. Documents
of registered models only are read for it, so nothing but a row that cannot be read is in its
way. -/
namespace Dossier

/-! ### Lookups -/

namespace Store
variable {store : Store} {collection : String} {id : EntityId} {document : Document}

theorem exists_of_get
    (readable : ∀ row ∈ store.rows, row.key = (collection, id) → row.IsReadable) :
    ∃ found, store.get collection id = .ok found := by
  unfold Store.get
  split
  · rename_i row here
    obtain ⟨document, read⟩ := readable row (List.mem_of_find?_eq_some here)
      (by simpa using List.find?_some here)
    exact ⟨some document, by rw [read]; rfl⟩
  · exact ⟨none, rfl⟩

theorem contains_iff : store.contains collection id = true ↔ ∃ row ∈ store.rows, row.key = (collection, id) := by
  rw [contains, List.contains_iff_mem, List.mem_map]

theorem get_of_not_contains (missing : store.contains collection id = false) : store.get collection id = .ok none := by
  unfold get
  split
  · rename_i row here
    have there : store.contains collection id = true :=
      contains_iff.mpr ⟨row, List.mem_of_find?_eq_some here, by simpa using List.find?_some here⟩
    rw [missing] at there
    cases there
  · rfl

theorem get_of_mem {row : Row} (member : row ∈ store.rows) (key : row.key = (collection, id)) :
    store.get collection id = row.read.map some := by
  unfold get
  split
  · rename_i other here
    have same : other.key = (collection, id) := by simpa using List.find?_some here
    rw [eq_of_key (List.mem_of_find?_eq_some here) member (same.trans key.symm)]
  · rename_i missing
    exact absurd key (by simpa using List.find?_eq_none.mp missing row member)

theorem contains_eq_false_of_get (got : store.get collection id = .ok none) : store.contains collection id = false := by
  refine Bool.eq_false_iff.mpr fun there => ?_
  obtain ⟨row, member, key⟩ := contains_iff.mp there
  rw [get_of_mem member key] at got
  cases read : row.read <;> rw [read] at got <;> cases got

theorem get_of_read {row : Row} (member : row ∈ store.rows) (key : row.key = (collection, id))
    (read : row.read = .ok document) : store.get collection id = .ok (some document) := by
  rw [get_of_mem member key, read]
  rfl

/-- A document that is got was read of the row under its key. -/
theorem row_of_get (got : store.get collection id = .ok (some document)) :
    document.id = id ∧ ∃ row ∈ store.rows, row.key = (collection, id) ∧ row.read = .ok document := by
  cases there : store.contains collection id with
  | false => cases (get_of_not_contains there).symm.trans got
  | true =>
    obtain ⟨row, member, key⟩ := contains_iff.mp there
    rw [get_of_mem member key] at got
    cases read : row.read with
    | error fault =>
      rw [read] at got
      cases got
    | ok other =>
      rw [read] at got
      cases got
      exact ⟨(Row.id_of_read read).trans (congrArg Prod.snd key), row, member, key, read⟩

theorem contains_of_get (got : store.get collection id = .ok (some document)) :
    store.contains collection id = true := by
  obtain ⟨_, row, member, key, _⟩ := row_of_get got
  exact contains_iff.mpr ⟨row, member, key⟩

/-- The row under a key, if there is one, can be read. -/
def IsReadable (store : Store) (key : String × EntityId) : Prop :=
  ∀ row ∈ store.rows, row.key = key → row.IsReadable

theorem isReadable_iff : store.IsReadable (collection, id) ↔ ∃ found, store.get collection id = .ok found := by
  constructor
  · exact exists_of_get
  · rintro ⟨found, got⟩ row member key
    rw [get_of_mem member key] at got
    cases read : row.read with
    | error fault =>
      rw [read] at got
      cases got
    | ok document => exact ⟨document, read⟩

end Store

/-! ### Registered models -/

/-- There is a model for a collection. -/
def Registry.Knows (registry : Registry) (collection : String) : Prop :=
  ∃ model, registry.lookup collection = .ok model

/-- Models are registered under their names, and every reference that one of them lists goes
to a registered model. -/
structure Registry.IsClosed (registry : Registry) : Prop where
  named : ∀ {name model}, registry.models.find? name = some model → model.name = name
  known : ∀ {name model}, registry.models.find? name = some model →
    ∀ reference ∈ model.schema.references, registry.Knows reference.2

theorem Registry.IsClosed.find?_name {registry : Registry} (closed : registry.IsClosed) {name : String}
    {model : Model} (known : registry.lookup name = .ok model) : registry.models.find? model.name = some model := by
  have found := find?_of_lookup known
  rwa [closed.named found]

theorem Registry.IsClosed.knows_name {registry : Registry} (closed : registry.IsClosed) {name : String}
    {model : Model} (known : registry.lookup name = .ok model) : registry.Knows model.name :=
  ⟨model, closed.named (find?_of_lookup known) ▸ known⟩

theorem Registry.isClosed_of_build {definitions : List Declaration} {hasher : Hasher}
    {options : CompileOptions} {base : Registry} (built : build definitions hasher options = .ok base)
    (depth : Nat) : (base.withDepth depth).IsClosed := by
  have named {name : String} {model : Model} (found : base.models.find? name = some model) :
      model.name = name := (parts_of_build built found).1
  refine ⟨named, fun {name model} found reference listed => ?_⟩
  obtain ⟨schemas, compiled, finished⟩ := bind_eq_ok.mp built
  cases finished
  obtain ⟨schema, member, same⟩ := List.mem_map.mp (Keyed.mem_ofEntries (Keyed.mem_of_find? found))
  cases same
  obtain ⟨_, _, rest⟩ := bind_eq_ok.mp compiled
  obtain ⟨_, checked, kept⟩ := bind_eq_ok.mp rest
  cases kept
  obtain ⟨other, among, target⟩ := known_of_checkReferences checked member listed
  unfold Knows lookup
  split
  · exact ⟨_, rfl⟩
  · rename_i missing
    refine absurd (Keyed.mem_keys_ofEntries.mpr ?_) (Keyed.find?_eq_none.mp missing)
    refine List.mem_map.mpr ⟨(other.name, ⟨other, hasher⟩), ?_, target⟩
    exact List.mem_map.mpr ⟨other, among, rfl⟩

/-! ### One reference -/

/-- The id of the document that a value leads to, unless that is being populated already. -/
def openId? (chain : Chain) (target : String) : Option Json → Option EntityId
  | some (.text raw) => (EntityId.parse? raw).filter fun id => !chain.contains (target, id)
  | _ => none

theorem openReference?_eq (chain : Chain) (members : Body) (path target : String) :
    openReference? chain members path target = openId? chain target (members.get? path) := by
  unfold openReference? openId?
  rfl

theorem openId?_eq_some {chain : Chain} {target : String} {value : Option Json} {id : EntityId} :
    openId? chain target value = some id ↔
      ∃ raw, value = some (.text raw) ∧ EntityId.parse? raw = some id ∧ (target, id) ∉ chain := by
  constructor
  · intro opened
    unfold openId? at opened
    split at opened
    · rename_i raw
      obtain ⟨parsed, free⟩ := Option.filter_eq_some_iff.mp opened
      exact ⟨raw, rfl, parsed, by simpa using free⟩
    · cases opened
  · rintro ⟨raw, rfl, parsed, free⟩
    simp [openId?, parsed, free]

theorem notMem_of_openReference? {chain : Chain} {members : Body} {path target : String} {id : EntityId}
    (opened : openReference? chain members path target = some id) : (target, id) ∉ chain := by
  rw [openReference?_eq] at opened
  obtain ⟨_, _, _, free⟩ := openId?_eq_some.mp opened
  exact free

/-- What populating makes of the value at a reference to a model: it is kept if it leads
nowhere, else it gives way to the document it leads to, or to null. -/
inductive Populated (registry : Registry) (store : Store) (depth : Nat) (chain : Chain) (target : String) :
    Option Json → Option Json → Prop where
  | kept {value : Option Json} (closed : openId? chain target value = none) :
      Populated registry store depth chain target value value
  | missing {value : Option Json} {id : EntityId} {model : Model} (opened : openId? chain target value = some id)
      (known : registry.lookup target = .ok model) (got : store.get model.name id = .ok none) :
      Populated registry store depth chain target value (some .null)
  | found {value : Option Json} {id : EntityId} {model : Model} {document : Document} {inner : Body}
      (opened : openId? chain target value = some id) (known : registry.lookup target = .ok model)
      (got : store.get model.name id = .ok (some document))
      (within : populate registry store depth (chain ++ [(target, id)]) model (fun _ => true)
        (model.sanitize document) = .ok inner) :
      Populated registry store depth chain target value (some (.object inner))

namespace Populated
variable {registry : Registry} {store : Store} {depth : Nat} {chain : Chain} {target : String}
  {value first second : Option Json}

theorem unique (one : Populated registry store depth chain target value first)
    (two : Populated registry store depth chain target value second) : first = second := by
  cases one with
  | kept closed =>
    cases two with
    | kept _ => rfl
    | missing opened _ _ => cases closed.symm.trans opened
    | found opened _ _ _ => cases closed.symm.trans opened
  | missing opened known got =>
    cases two with
    | kept closed => cases closed.symm.trans opened
    | missing _ _ _ => rfl
    | found again other also _ =>
      cases opened.symm.trans again
      cases known.symm.trans other
      cases got.symm.trans also
  | found opened known got within =>
    cases two with
    | kept closed => cases closed.symm.trans opened
    | missing again other also =>
      cases opened.symm.trans again
      cases known.symm.trans other
      cases got.symm.trans also
    | found again other also inside =>
      cases opened.symm.trans again
      cases known.symm.trans other
      cases got.symm.trans also
      cases within.symm.trans inside
      rfl

/-- A reference that is open is followed. -/
theorem followed (populated : Populated registry store depth chain target value first) {id : EntityId}
    (opened : openId? chain target value = some id) : ∃ model answer, registry.lookup target = .ok model ∧
      store.get model.name id = .ok answer ∧ match answer with
        | none => first = some .null
        | some document => ∃ inner, populate registry store depth (chain ++ [(target, id)]) model (fun _ => true)
            (model.sanitize document) = .ok inner ∧ first = some (.object inner) := by
  cases populated with
  | kept closed => cases closed.symm.trans opened
  | missing again known got =>
    cases opened.symm.trans again
    exact ⟨_, _, known, got, rfl⟩
  | found again known got within =>
    cases opened.symm.trans again
    exact ⟨_, _, known, got, _, within, rfl⟩

/-- What was populated leads nowhere. -/
theorem closed (populated : Populated registry store depth chain target value first) :
    openId? chain target first = none := by
  cases populated with
  | kept closed => exact closed
  | missing _ _ _ => rfl
  | found _ _ _ _ => rfl

theorem settles (one : Populated registry store depth chain target value first)
    (two : Populated registry store depth chain target first second) : second = first :=
  two.unique (.kept one.closed)

end Populated

/-! ### One document -/

section
variable {registry : Registry} {store : Store} {depth : Nat} {chain : Chain} {model : Model} {wanted : String → Bool}
  {members body : Body}

/-- Populating rewrites the members at the wanted references. -/
theorem rewrites_of_populate
    (populated : populate registry store (depth + 1) chain model wanted members = .ok body) :
    Body.Rewrites (Populated registry store depth chain)
      (model.schema.references.filter fun reference => wanted reference.1) members body := by
  rw [populate] at populated
  change List.foldlM _ members (model.schema.references.filter fun reference => wanted reference.1) = _ at populated
  generalize model.schema.references.filter (fun reference => wanted reference.1) = references at populated ⊢
  induction references generalizing members with
  | nil =>
    cases populated
    exact .done _
  | cons reference rest ih =>
    obtain ⟨path, target⟩ := reference
    rw [List.foldlM_cons] at populated
    obtain ⟨next, step, later⟩ := bind_eq_ok.mp populated
    cases opened : openReference? chain members path target with
    | none =>
      simp only [opened] at step
      cases step
      exact .keep (.kept (openReference?_eq .. ▸ opened)) (ih later)
    | some id =>
      have opens : openId? chain target (members.get? path) = some id := openReference?_eq .. ▸ opened
      obtain ⟨raw, there, _⟩ := openId?_eq_some.mp opens
      rw [there] at opens
      simp only [opened] at step
      obtain ⟨inner, known, rest⟩ := bind_eq_ok.mp step
      cases got : store.get inner.name id with
      | error fault =>
        simp only [got] at rest
        cases rest
      | ok answer =>
        simp only [got] at rest
        cases answer with
        | none =>
          cases rest
          exact .replace there (.missing opens known got) (ih later)
        | some document =>
          obtain ⟨tree, within, finished⟩ := bind_eq_ok.mp rest
          cases finished
          exact .replace there (.found opens known got within) (ih later)

/-- What populating makes of the value at a wanted reference. -/
theorem populated_at (populated : populate registry store (depth + 1) chain model wanted members = .ok body)
    {path target : String} (listed : (path, target) ∈ model.schema.references) (isWanted : wanted path = true) :
    Populated registry store depth chain target (members.get? path) (body.get? path) := by
  have among : (path, target) ∈ model.schema.references.filter fun reference => wanted reference.1 :=
    List.mem_filter.mpr ⟨listed, isWanted⟩
  rcases (rewrites_of_populate populated).get?_related Populated.settles fun reference member =>
      Schema.apart_of_mem_references listed (List.mem_filter.mp member).1 with ⟨absent, _⟩ | related
  · exact absurd among absent
  · exact related

/-- Populating changes nothing outside of the wanted references. -/
theorem outline?_of_populate (populated : populate registry store depth chain model wanted members = .ok body)
    {place : List String} (outside : ∀ reference ∈ model.schema.references, wanted reference.1 = true →
      ¬ Text.segments reference.1 <+: place) : body.outline? place = members.outline? place := by
  cases depth with
  | zero =>
    cases populated
    rfl
  | succ depth =>
    refine (rewrites_of_populate populated).outline?_eq fun reference member => ?_
    obtain ⟨listed, isWanted⟩ := List.mem_filter.mp member
    exact outside reference listed isWanted

end

/-! ### What is in the way -/

/-- The documents that populating some members opens, by their collections and ids: those that
references in the members lead to, and the ones opened within these. -/
inductive Opens (registry : Registry) (store : Store) :
    (depth : Nat) → Chain → Model → Body → String × EntityId → Prop where
  | here {depth : Nat} {chain : Chain} {model : Model} {members : Body} {path target : String} {id : EntityId}
      (listed : (path, target) ∈ model.schema.references)
      (opened : openId? chain target (members.get? path) = some id) :
      Opens registry store (depth + 1) chain model members (target, id)
  | beyond {depth : Nat} {chain : Chain} {model inner : Model} {members : Body} {path target : String}
      {id : EntityId} {document : Document} {key : String × EntityId}
      (listed : (path, target) ∈ model.schema.references)
      (opened : openId? chain target (members.get? path) = some id) (known : registry.lookup target = .ok inner)
      (got : store.get inner.name id = .ok (some document))
      (further : Opens registry store depth (chain ++ [(target, id)]) inner (inner.sanitize document) key) :
      Opens registry store (depth + 1) chain model members key

section
variable {registry : Registry} {store : Store} {depth : Nat} {chain : Chain} {name : String} {model : Model}
  {members : Body} {key : String × EntityId}

theorem Opens.notMem (opens : Opens registry store depth chain model members key) : key ∉ chain := by
  induction opens with
  | here _ opened =>
    obtain ⟨_, _, _, free⟩ := openId?_eq_some.mp opened
    exact free
  | beyond _ _ _ _ _ ih => exact fun member => ih (List.mem_append_left _ member)

theorem Opens.knows (closed : registry.IsClosed) (opens : Opens registry store depth chain model members key)
    (found : registry.models.find? name = some model) : registry.Knows key.1 := by
  induction opens generalizing name with
  | here listed _ => exact closed.known found _ listed
  | beyond _ _ known _ _ ih => exact ih (Registry.find?_of_lookup known)

/-- Putting a value that leads nowhere at a reference opens no other one. -/
theorem openId?_of_set {path target : String} (listed : (path, target) ∈ model.schema.references)
    {value : Json} (closed : ∀ goal, openId? chain goal (some value) = none) {reference : String × String}
    (also : reference ∈ model.schema.references) {id : EntityId}
    (opened : openId? chain reference.2 ((members.set path value).get? reference.1) = some id) :
    openId? chain reference.2 (members.get? reference.1) = some id := by
  rcases Schema.apart_of_mem_references also listed with same | apart
  · cases same
    have now : (members.set reference.1 value).get? reference.1 = some value := by
      simpa [Body.get?, Body.set, Json.under?] using
        Body.at?_put members value (Text.segments_ne_nil reference.1) []
    rw [now, closed] at opened
    cases opened
  · rwa [Body.get?, Body.set, Body.at?_put_of_apart _ _ apart] at opened

/-- Populating succeeds if the documents that it opens can be read. -/
theorem exists_of_populate (closed : registry.IsClosed) (found : registry.models.find? name = some model)
    (readable : ∀ key, Opens registry store depth chain model members key → store.IsReadable key)
    (wanted : String → Bool) : ∃ body, populate registry store depth chain model wanted members = .ok body := by
  induction depth generalizing chain name model wanted members with
  | zero => exact ⟨members, rfl⟩
  | succ depth ih =>
    rw [populate]
    -- What is open in the members that are rewritten so far was open from the beginning.
    refine exists_of_foldlM (fun held => ∀ reference ∈ model.schema.references, ∀ id,
      openId? chain reference.2 (held.get? reference.1) = some id →
        openId? chain reference.2 (members.get? reference.1) = some id) ?_ fun _ _ _ opened => opened
    rintro held open? ⟨path, target⟩ among
    have listed := (List.mem_filter.mp among).1
    obtain ⟨inner, known⟩ := closed.known found _ listed
    have registered := Registry.find?_of_lookup known
    have named : inner.name = target := closed.named registered
    dsimp only
    cases opened : openReference? chain held path target with
    | none => exact ⟨held, rfl, open?⟩
    | some id =>
      have opens := open? _ listed id (openReference?_eq .. ▸ opened)
      obtain ⟨answer, got⟩ : ∃ answer, store.get inner.name id = .ok answer :=
        Store.isReadable_iff.mp (named ▸ readable _ (.here listed opens))
      simp only [known, ok_bind, got]
      cases answer with
      | none =>
        exact ⟨_, rfl, fun reference also other now =>
          open? reference also other (openId?_of_set listed (fun _ => rfl) also now)⟩
      | some document =>
        obtain ⟨body, populated⟩ := ih registered (fun key further =>
          readable key (.beyond listed opens known got further)) fun _ => true
        exact ⟨_, by simp only [populated]; rfl, fun reference also other now =>
          open? reference also other (openId?_of_set listed (fun _ => rfl) also now)⟩

/-- Populating everything reads all the documents that it opens. -/
theorem Opens.isReadable (closed : registry.IsClosed) (opens : Opens registry store depth chain model members key)
    {body : Body} (populated : populate registry store depth chain model (fun _ => true) members = .ok body) :
    store.IsReadable key := by
  induction opens generalizing body with
  | here listed opened =>
    obtain ⟨inner, answer, known, got, _⟩ := (populated_at populated listed rfl).followed opened
    rw [← closed.named (Registry.find?_of_lookup known)]
    exact Store.isReadable_iff.mpr ⟨answer, got⟩
  | beyond listed opened known got _ ih =>
    obtain ⟨_, _, other, also, within⟩ := (populated_at populated listed rfl).followed opened
    cases known.symm.trans other
    cases got.symm.trans also
    obtain ⟨_, populated, _⟩ := within
    exact ih populated

/-- A document is presented if the documents that it opens can be read. -/
theorem exists_of_present_of_opens (closed : registry.IsClosed) (found : registry.models.find? name = some model)
    {document : Document} (readable : ∀ key, Opens registry store registry.depth [(model.name, document.id)] model
      (model.sanitize document) key → store.IsReadable key) (fields : List String) :
    ∃ body, present registry store model document fields = .ok body := by
  obtain ⟨members, populated⟩ := exists_of_populate closed found readable (Projection.parse fields).wants
  exact ⟨_, by rw [present, populated]; rfl⟩

/-- A document is presented if all others of registered models can be read. -/
theorem exists_of_present (closed : registry.IsClosed) (found : registry.models.find? name = some model)
    {document : Document} (readable : ∀ row ∈ store.rows, registry.Knows row.collection →
      row.key ≠ (model.name, document.id) → row.IsReadable) (fields : List String) :
    ∃ body, present registry store model document fields = .ok body := by
  refine exists_of_present_of_opens closed found (fun key opens row member same => ?_) fields
  subst same
  exact readable row member (opens.knows closed found) fun own => opens.notMem (by simp [own])

end

/-! ### What it relies on -/

/-- What populating relies on: a registry that is closed and declares no id as a field, and
documents whose references are ids in canonical form. -/
structure Grounds (registry : Registry) (store : Store) : Prop where
  closed : registry.IsClosed
  free : ∀ {name model}, registry.models.find? name = some model → idKey ∉ model.schema.fields.keys
  ordered : ∀ {name model id document}, registry.models.find? name = some model →
    store.get model.name id = .ok (some document) → (Json.object document.body).Ordered
  holdsIds : ∀ {name model id document}, registry.models.find? name = some model →
    store.get model.name id = .ok (some document) → model.HoldsIds (model.sanitize document)

namespace Grounds
variable {registry : Registry} {store : Store} (grounds : Grounds registry store) {depth : Nat} {chain : Chain}
  {name : String} {model : Model} (found : registry.models.find? name = some model) {members body : Body}

include grounds

theorem name_of_lookup {target : String} {inner : Model} (known : registry.lookup target = .ok inner) :
    inner.name = target := grounds.closed.named (Registry.find?_of_lookup known)

include found in
theorem notPrefix_idKey {reference : String × String} (listed : reference ∈ model.schema.references)
    {rest : List String} : ¬ Text.segments reference.1 <+: idKey :: rest := by
  intro above
  obtain ⟨name, others, segments⟩ := List.exists_cons_of_ne_nil (Text.segments_ne_nil reference.1)
  have typed := Schema.typed_of_mem_references listed
  rw [segments] at above typed
  obtain rfl := (List.cons_prefix_cons.mp above).1
  exact grounds.free found (FieldType.mem_keys_of_at? typed)

include found in
/-- A populated document has its id. -/
theorem find?_idKey {wanted : String → Bool} {document : Document}
    (populated : populate registry store depth chain model wanted (model.sanitize document) = .ok body) :
    body.find? idKey = some (.text document.id.text) := by
  have same : body.outline? [idKey] = (model.sanitize document).outline? [idKey] :=
    outline?_of_populate populated fun reference listed _ => grounds.notPrefix_idKey found listed
  rw [Body.outline?, Body.outline?, Body.at?, Body.at?, model.find?_sanitize document] at same
  obtain ⟨value, held, outline⟩ := Option.map_eq_some_iff.mp same
  cases value <;> cases outline
  exact held

theorem ordered_populate {wanted : String → Bool} (ordered : (Json.object members).Ordered)
    (populated : populate registry store depth chain model wanted members = .ok body) :
    (Json.object body).Ordered := by
  induction depth generalizing chain model members wanted body with
  | zero =>
    cases populated
    exact ordered
  | succ depth ih =>
    refine (rewrites_of_populate populated).ordered (fun inOrder related => ?_) ordered
    cases related with
    | kept _ => exact inOrder
    | missing _ _ _ => trivial
    | found _ known got within =>
      exact ih (Model.ordered_sanitize (grounds.ordered (Registry.find?_of_lookup known) got)) within

end Grounds
end Dossier
