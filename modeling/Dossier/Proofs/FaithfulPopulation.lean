import Dossier.Proofs.Population
import Dossier.Proofs.Selections

/-! Population is faithful. In the tree that is presented for a document every populated document
folds back to its id, the documents on the way to it are all different and no more than the depth
allows, and every reference that can be followed is. -/
namespace Dossier

/-! ### Folding back -/

/-- Some members with the values at some references replaced one after the other. -/
def Body.rewriteAt (replace : String → Json → Option Json) (references : List (String × String)) (body : Body) :
    Body :=
  references.foldl (fun body reference =>
    match (body.get? reference.1).bind (replace reference.2) with
    | some value => body.set reference.1 value
    | none => body) body

/-- A value, or what it is replaced by. -/
def Json.replaced (replace : String → Json → Option Json) (target : String) (value : Json) : Json :=
  (replace target value).getD value

theorem Body.rewrites_rewriteAt (replace : String → Json → Option Json) (references : List (String × String))
    (body : Body) : Rewrites (fun target before after => after = before.map (Json.replaced replace target))
      references body (body.rewriteAt replace references) := by
  induction references generalizing body with
  | nil => exact .done body
  | cons reference rest ih =>
    obtain ⟨path, target⟩ := reference
    rw [rewriteAt, List.foldl_cons]
    cases there : body.get? path with
    | none => exact .keep (by simp [there]) (ih body)
    | some held =>
      cases rule : replace target held with
      | none =>
        simp only [Option.bind_some, rule]
        exact .keep (by simp [there, Json.replaced, rule]) (ih body)
      | some value =>
        simp only [Option.bind_some, rule]
        exact .replace there (by simp [Json.replaced, rule]) (ih _)

/-- The id of a populated document. -/
def foldedId : Json → Option Json
  | .object inner =>
    match Keyed.find? inner idKey with
    | some (.text id) => some (.text id)
    | _ => none
  | _ => none

/-- Null for the id of a document that does not exist. -/
def danglingNull (store : Store) (target : String) : Json → Option Json
  | .text raw => (EntityId.parse? raw).bind fun id => if store.contains target id then none else some .null
  | _ => none

namespace Model

/-- Members with every populated document at a reference replaced by its id. -/
def folded (model : Model) (members : Body) : Body :=
  members.rewriteAt (fun _ => foldedId) model.schema.references

/-- Members with every id at a reference to a document that does not exist replaced by null. -/
def withoutDangling (model : Model) (store : Store) (members : Body) : Body :=
  members.rewriteAt (danglingNull store) model.schema.references

/-- A tree is a document, populated as many references deep as are left. Folded back it is the
document as far as its references lead anywhere, and of the references to documents that exist
those are populated that are within the depth and lead to no document of the chain. -/
structure Unfolds (model : Model) (store : Store) (chain : Chain) (left : Nat) (document : Document) (tree : Body) :
    Prop where
  folded : model.folded tree =
    if 0 < left then model.withoutDangling store (model.sanitize document) else model.sanitize document
  opened : ∀ path target, (path, target) ∈ model.schema.references → ∀ raw id,
    (model.sanitize document).get? path = some (.text raw) → EntityId.parse? raw = some id →
      store.contains target id = true → raw = id.text ∧
        if 0 < left ∧ (target, id) ∉ chain then ∃ inner, tree.get? path = some (.object inner)
        else tree.get? path = some (.text id.text)

end Model

/-- The documents that a tree of a model is populated with: at the end of some references from
populated document to populated document stands the tree of another document. -/
inductive Nested (registry : Registry) : Model → Body → Chain → Model → Body → Prop where
  | here (model : Model) (tree : Body) : Nested registry model tree [] model tree
  | within {model next last : Model} {tree inner deepest : Body} {path target : String} {id : EntityId} {hops : Chain}
      (listed : (path, target) ∈ model.schema.references) (held : tree.get? path = some (.object inner))
      (known : registry.lookup target = .ok next) (named : inner.find? idKey = some (.text id.text))
      (deeper : Nested registry next inner hops last deepest) :
      Nested registry model tree ((target, id) :: hops) last deepest

/-- A tree is faithful to a document: along all chains of documents that it is populated with
these are different, no more than the depth, and each is unfolded from what is stored of it. -/
structure Faithful (registry : Registry) (store : Store) (depth : Nat) (model : Model) (document : Document)
    (tree : Body) : Prop where
  acyclic : ∀ hops last inner, Nested registry model tree hops last inner →
    ((model.name, document.id) :: hops).Nodup
  bounded : ∀ hops last inner, Nested registry model tree hops last inner → hops.length ≤ depth
  unfolds : ∀ hops last inner, Nested registry model tree hops last inner → ∃ found,
    ((model.name, document.id) :: hops).getLast? = some (last.name, found.id) ∧
      store.get last.name found.id = .ok (some found) ∧
      last.Unfolds store ((model.name, document.id) :: hops) (depth - hops.length) found inner

/-! ### One document -/

theorem Body.eq_of_references (references : List (String × String)) {body other : Body}
    (ordered : (Json.object body).Ordered) (also : (Json.object other).Ordered)
    (outside : ∀ place, (∀ reference ∈ references, ¬ Text.segments reference.1 <+: place) →
      body.outline? place = other.outline? place)
    (inside : ∀ reference ∈ references, body.get? reference.1 = other.get? reference.1) : body = other := by
  refine eq_of_outline? ordered also fun place => ?_
  by_cases below : ∃ reference ∈ references, Text.segments reference.1 <+: place
  · obtain ⟨reference, listed, rest, rfl⟩ := below
    have same : body.at? (Text.segments reference.1) = other.at? (Text.segments reference.1) := inside _ listed
    rw [outline?, outline?, at?_append (Text.segments_ne_nil _), at?_append (Text.segments_ne_nil _), same]
  · exact outside place fun reference listed above => below ⟨reference, listed, above⟩

namespace Model
variable {model : Model} {store : Store} {members : Body}

section
variable {replace : String → Json → Option Json}

theorem get?_rewriteAt (stops : ∀ target held value, replace target held = some value → replace target value = none)
    {path target : String} (listed : (path, target) ∈ model.schema.references) :
    (members.rewriteAt replace model.schema.references).get? path =
      (members.get? path).map (Json.replaced replace target) := by
  have settled (target : String) (value : Json) :
      Json.replaced replace target (Json.replaced replace target value) = Json.replaced replace target value := by
    cases rule : replace target value with
    | none => simp [Json.replaced, rule]
    | some other => simp [Json.replaced, rule, stops target value other rule]
  rcases (Body.rewrites_rewriteAt replace model.schema.references members).get?_related (by
      rintro target first second third rfl rfl
      cases first <;> simp [settled]) fun reference member =>
        Schema.apart_of_mem_references listed member with ⟨absent, _⟩ | related
  · exact absurd listed absent
  · exact related

theorem outline?_rewriteAt {place : List String}
    (outside : ∀ reference ∈ model.schema.references, ¬ Text.segments reference.1 <+: place) :
    (members.rewriteAt replace model.schema.references).outline? place = members.outline? place :=
  (Body.rewrites_rewriteAt replace _ members).outline?_eq outside

theorem ordered_rewriteAt (inOrder : ∀ target held value, replace target held = some value → value.Ordered)
    (ordered : (Json.object members).Ordered) :
    (Json.object (members.rewriteAt replace model.schema.references)).Ordered := by
  refine (Body.rewrites_rewriteAt replace _ members).ordered (fun {target held value} before same => ?_) ordered
  cases same
  unfold Json.replaced
  cases rule : replace target held with
  | none => exact before
  | some other => exact inOrder target held other rule

end

theorem foldedId_eq_some {held value : Json} (folds : foldedId held = some value) : ∃ id, value = .text id := by
  unfold foldedId at folds
  split at folds
  · split at folds
    · cases folds
      exact ⟨_, rfl⟩
    · cases folds
  · cases folds

theorem danglingNull_eq_some {target : String} {held value : Json}
    (dangles : danglingNull store target held = some value) : value = .null := by
  unfold danglingNull at dangles
  split at dangles
  · obtain ⟨id, _, rest⟩ := Option.bind_eq_some_iff.mp dangles
    split at rest <;> cases rest
    rfl
  · cases dangles

theorem get?_folded {path target : String} (listed : (path, target) ∈ model.schema.references) :
    (model.folded members).get? path = (members.get? path).map (Json.replaced (fun _ => foldedId) target) := by
  refine get?_rewriteAt (fun target held value folds => ?_) listed
  obtain ⟨id, rfl⟩ := foldedId_eq_some folds
  rfl

theorem get?_withoutDangling {path target : String} (listed : (path, target) ∈ model.schema.references) :
    (model.withoutDangling store members).get? path =
      (members.get? path).map (Json.replaced (danglingNull store) target) := by
  refine get?_rewriteAt (fun target held value dangles => ?_) listed
  rw [danglingNull_eq_some dangles]
  rfl

theorem ordered_folded (ordered : (Json.object members).Ordered) : (Json.object (model.folded members)).Ordered := by
  refine ordered_rewriteAt (fun target held value folds => ?_) ordered
  obtain ⟨id, rfl⟩ := foldedId_eq_some folds
  trivial

theorem ordered_withoutDangling (ordered : (Json.object members).Ordered) :
    (Json.object (model.withoutDangling store members)).Ordered := by
  refine ordered_rewriteAt (fun target held value dangles => ?_) ordered
  rw [danglingNull_eq_some dangles]
  trivial

end Model

namespace Grounds
variable {registry : Registry} {store : Store} (grounds : Grounds registry store) {depth : Nat} {chain : Chain}
  {name : String} {model : Model} (found : registry.models.find? name = some model) {document : Document}
  {tree : Body}

include grounds

/-- At a reference, folding undoes what populating does, but for documents that do not exist. -/
theorem replaced_of_populated {target : String} {before after : Option Json}
    (holds : ∀ value, before = some value → value.IsReference)
    (exist : ∀ key ∈ chain, store.contains key.1 key.2 = true)
    (populated : Populated registry store depth chain target before after) :
    after.map (Json.replaced (fun _ => foldedId) target) = before.map (Json.replaced (danglingNull store) target) := by
  have opens {id : EntityId} (opened : openId? chain target before = some id) :
      before = some (.text id.text) ∧ EntityId.parse? id.text = some id := by
    obtain ⟨raw, rfl, parsed, _⟩ := openId?_eq_some.mp opened
    cases holds _ rfl with
    | text canonical => exact ⟨by rw [canonical id parsed], EntityId.parse?_text id⟩
  cases populated with
  | kept closed =>
    cases before with
    | none => rfl
    | some value =>
      cases holds value rfl with
      | null => rfl
      | @text raw _ =>
        -- An id that is not followed is that of a document of the chain, which exists.
        have stays : danglingNull store target (.text raw) = none := by
          rw [danglingNull, Option.bind_eq_none_iff]
          intro id parsed
          have among : (target, id) ∈ chain := by
            refine Decidable.byContradiction fun beyond => ?_
            rw [openId?_eq_some.mpr ⟨raw, rfl, parsed, beyond⟩] at closed
            cases closed
          rw [if_pos (exist _ among)]
        simp [Json.replaced, stays, foldedId]
  | missing opened known got =>
    obtain ⟨rfl, parsed⟩ := opens opened
    have missing := Store.contains_eq_false_of_get got
    rw [grounds.name_of_lookup known] at missing
    simp [Json.replaced, danglingNull, foldedId, parsed, missing]
  | found opened known got within =>
    obtain ⟨rfl, parsed⟩ := opens opened
    have there := Store.contains_of_get got
    rw [grounds.name_of_lookup known] at there
    have named := grounds.find?_idKey (Registry.find?_of_lookup known) within
    rw [(Store.row_of_get got).1] at named
    simp [Json.replaced, danglingNull, foldedId, parsed, there, named]

include found

/-- An id at a reference of a stored document is in canonical form. -/
theorem canonical (got : store.get model.name document.id = .ok (some document)) {path target raw : String}
    (listed : (path, target) ∈ model.schema.references) {id : EntityId}
    (held : (model.sanitize document).get? path = some (.text raw)) (parsed : EntityId.parse? raw = some id) :
    raw = id.text := by
  cases grounds.holdsIds found got _ listed _ held with
  | text canonical => exact canonical id parsed

/-- A document that is not populated has nothing to fold. -/
theorem folded_sanitize (got : store.get model.name document.id = .ok (some document)) :
    model.folded (model.sanitize document) = model.sanitize document := by
  have ordered : (Json.object (model.sanitize document)).Ordered := Model.ordered_sanitize (grounds.ordered found got)
  refine Body.eq_of_references model.schema.references (Model.ordered_folded ordered) ordered
    (fun place outside => Model.outline?_rewriteAt outside) fun reference listed => ?_
  rw [Model.get?_folded listed]
  cases held : (model.sanitize document).get? reference.1 with
  | none => rfl
  | some value => cases grounds.holdsIds found got reference listed value held <;> rfl

/-- Folding a populated document gives it back without the references that lead nowhere. -/
theorem folded_of_populate (got : store.get model.name document.id = .ok (some document))
    (exist : ∀ key ∈ chain, store.contains key.1 key.2 = true)
    (populated : populate registry store (depth + 1) chain model (fun _ => true) (model.sanitize document) = .ok tree) :
    model.folded tree = model.withoutDangling store (model.sanitize document) := by
  have ordered : (Json.object (model.sanitize document)).Ordered := Model.ordered_sanitize (grounds.ordered found got)
  refine Body.eq_of_references model.schema.references
    (Model.ordered_folded (grounds.ordered_populate ordered populated)) (Model.ordered_withoutDangling ordered)
    (fun place outside => ?_) fun reference listed => ?_
  · rw [Model.folded, Model.withoutDangling, Model.outline?_rewriteAt outside, Model.outline?_rewriteAt outside]
    exact outline?_of_populate populated fun reference listed _ => outside reference listed
  · rw [Model.get?_folded listed, Model.get?_withoutDangling listed]
    exact grounds.replaced_of_populated (grounds.holdsIds found got reference listed) exist
      (populated_at populated listed rfl)

omit found in
/-- A reference to a document that exists is populated, unless that is one of the chain. -/
theorem opened_of_populate
    (populated : populate registry store (depth + 1) chain model (fun _ => true) (model.sanitize document) = .ok tree)
    {path target raw : String} (listed : (path, target) ∈ model.schema.references) {id : EntityId}
    (held : (model.sanitize document).get? path = some (.text raw)) (parsed : EntityId.parse? raw = some id)
    (there : store.contains target id = true) :
    if (target, id) ∉ chain then ∃ inner, tree.get? path = some (.object inner)
    else tree.get? path = some (.text raw) := by
  have related := populated_at populated listed rfl
  rw [held] at related
  split
  · rename_i fresh
    obtain ⟨inner, answer, known, own, left⟩ := related.followed (openId?_eq_some.mpr ⟨raw, rfl, parsed, fresh⟩)
    cases answer with
    | none =>
      have missing := Store.contains_eq_false_of_get own
      rw [grounds.name_of_lookup known, there] at missing
      cases missing
    | some other =>
      obtain ⟨body, _, same⟩ := left
      exact ⟨body, same⟩
  · rename_i among
    have closed : openId? chain target (some (.text raw)) = none := by simp [openId?, parsed, not_not.mp among]
    exact related.unique (.kept closed)

/-- What is populated unfolds the document. -/
theorem unfolds (got : store.get model.name document.id = .ok (some document))
    (exist : ∀ key ∈ chain, store.contains key.1 key.2 = true)
    (populated : populate registry store depth chain model (fun _ => true) (model.sanitize document) = .ok tree) :
    model.Unfolds store chain depth document tree where
  folded := by
    cases depth with
    | zero =>
      cases populated
      exact grounds.folded_sanitize found got
    | succ depth => exact grounds.folded_of_populate found got exist populated
  opened path target listed raw id held parsed there := by
    have canonical := grounds.canonical found got listed held parsed
    refine ⟨canonical, ?_⟩
    rw [← canonical]
    cases depth with
    | zero =>
      cases populated
      exact held
    | succ depth =>
      simpa only [Nat.succ_pos, true_and] using grounds.opened_of_populate populated listed held parsed there

omit found in
/-- A populated document at a reference is the one that its id names, populated one reference
further. -/
theorem document_of_populated {target : String} {before : Option Json} {inner : Body} {next : Model} {id : EntityId}
    (holds : ∀ value, before = some value → value.IsReference)
    (populated : Populated registry store depth chain target before (some (.object inner)))
    (known : registry.lookup target = .ok next) (named : inner.find? idKey = some (.text id.text)) :
    (target, id) ∉ chain ∧ ∃ other, other.id = id ∧ store.get next.name id = .ok (some other) ∧
      populate registry store depth (chain ++ [(target, id)]) next (fun _ => true) (next.sanitize other) =
        .ok inner := by
  cases populated with
  | kept _ => cases holds _ rfl
  | @found opener _ other _ opened also got within =>
    obtain rfl := Except.ok.inj (also.symm.trans known)
    obtain ⟨own, _⟩ := Store.row_of_get got
    have key := grounds.find?_idKey (Registry.find?_of_lookup known) within
    rw [named, own] at key
    obtain rfl : id = opener := EntityId.eq_of_text (Json.text.inj (Option.some.inj key))
    obtain ⟨_, _, _, fresh⟩ := openId?_eq_some.mp opened
    exact ⟨fresh, other, own, got, within⟩

/-- The documents that a populated one contains are different ones, no deeper than the depth, and
populated in their turn as deep as is left. -/
theorem populated_of_nested {last : Model} {inner : Body} {hops : Chain}
    (nested : Nested registry model tree hops last inner) (distinct : chain.Nodup)
    (reaches : chain.getLast? = some (model.name, document.id))
    (exist : ∀ key ∈ chain, store.contains key.1 key.2 = true)
    (got : store.get model.name document.id = .ok (some document))
    (populated : populate registry store depth chain model (fun _ => true) (model.sanitize document) = .ok tree) :
    (chain ++ hops).Nodup ∧ hops.length ≤ depth ∧ ∃ other,
      (chain ++ hops).getLast? = some (last.name, other.id) ∧ store.get last.name other.id = .ok (some other) ∧
        last.Unfolds store (chain ++ hops) (depth - hops.length) other inner := by
  induction nested generalizing depth chain document name with
  | here model tree =>
    simp only [List.append_nil, List.length_nil, Nat.sub_zero]
    exact ⟨distinct, Nat.zero_le _, document, reaches, got, grounds.unfolds found got exist populated⟩
  | @within model next last tree inner deepest path target id hops listed held known named deeper ih =>
    have reference := grounds.holdsIds found got _ listed
    cases depth with
    | zero =>
      cases populated
      cases reference _ held
    | succ depth =>
      obtain ⟨fresh, other, own, there, within⟩ :=
        grounds.document_of_populated reference (held ▸ populated_at populated listed rfl) known named
      have same := grounds.name_of_lookup known
      have longer : (chain ++ [(target, id)]).Nodup := by
        refine List.nodup_append.mpr ⟨distinct, List.nodup_singleton _, fun key member other single same => ?_⟩
        rw [List.mem_singleton.mp single] at same
        exact fresh (same ▸ member)
      have all : ∀ key ∈ chain ++ [(target, id)], store.contains key.1 key.2 = true := by
        intro key member
        rcases List.mem_append.mp member with earlier | last
        · exact exist key earlier
        · rw [List.mem_singleton.mp last, ← same]
          exact Store.contains_of_get there
      have further := ih (Registry.find?_of_lookup known) longer (by simp [same, own]) all (own.symm ▸ there) within
      simpa [Nat.succ_sub_succ] using further

end Grounds

/-! ### Reading -/

/-- Without a choice of fields a document is populated and all of it is shown. -/
theorem present_nil (registry : Registry) (store : Store) (model : Model) (document : Document) :
    present registry store model document [] = populate registry store registry.depth [(model.name, document.id)]
      model (fun _ => true) (model.sanitize document) :=
  bind_pure _

namespace Repository
variable {definitions : List Declaration} {hasher : Hasher} {options : CompileOptions} {base : Registry}

/-- The documents that are read of a store that requests reach keep their forms. -/
theorem shapes_of_reached (built : Registry.build definitions hasher options = .ok base) (depth : Nat)
    {requests : List Request} (ordered : ∀ request ∈ requests, request.envelope.Ordered) {name : String}
    {model : Model} (found : (base.withDepth depth).models.find? name = some model) {id : EntityId}
    {document : Document} (got : (reached (base.withDepth depth) requests).get model.name id = .ok (some document)) :
    (Json.object document.body).Ordered ∧ model.Shapes document.body := by
  have keeps := keeps_shapes (base.withDepth depth)
  have named : ∀ name model, (base.withDepth depth).models.find? name = some model → model.name = name :=
    fun name model found => (Registry.parts_of_build built found).1
  obtain ⟨_, row, member, key, done⟩ := Store.row_of_get got
  have collection : row.collection = model.name := congrArg Prod.fst key
  have known : (base.withDepth depth).models.find? row.collection = some model := by
    rw [collection, named _ _ found, found]
  exact (written_of_reached keeps named ordered member).read keeps known done

theorem grounds_of_reached (built : Registry.build definitions hasher options = .ok base)
    (free : ∀ name model, base.models.find? name = some model → idKey ∉ model.schema.fields.keys) (depth : Nat)
    {requests : List Request} (ordered : ∀ request ∈ requests, request.envelope.Ordered) :
    Grounds (base.withDepth depth) (reached (base.withDepth depth) requests) :=
  ⟨Registry.isClosed_of_build built depth, fun found => free _ _ found,
    fun found got => (shapes_of_reached built depth ordered found got).1,
    fun found got => Model.holdsIds_sanitize (shapes_of_reached built depth ordered found got).2 (free _ _ found)⟩

/-- Every document of every store that requests reach is presented, and faithfully, exactly if
the documents that populating it opens can be read. -/
theorem faithful_iff_readable (built : Registry.build definitions hasher options = .ok base)
    (free : ∀ name model, base.models.find? name = some model → idKey ∉ model.schema.fields.keys)
    (depth : Nat) (requests : List Request) (ordered : ∀ request ∈ requests, request.envelope.Ordered) {row : Row}
    (stored : row ∈ (reached (base.withDepth depth) requests).rows) {model : Model}
    (known : base.lookup row.collection = .ok model) {document : Document} (read : row.read = .ok document) :
    let registry := base.withDepth depth
    let store := reached registry requests
    (∃ tree, present registry store model document [] = .ok tree ∧
        Faithful registry store registry.depth model document tree) ↔
      ∀ key, Opens registry store registry.depth [(model.name, document.id)] model (model.sanitize document) key →
        store.IsReadable key := by
  intro registry store
  have grounds : Grounds registry store := grounds_of_reached built free depth ordered
  have found : registry.models.find? row.collection = some model := Registry.find?_of_lookup known
  have key : row.key = (model.name, document.id) := by
    rw [Row.key, grounds.closed.named found, Row.id_of_read read]
  have got : store.get model.name document.id = .ok (some document) := Store.get_of_read stored key read
  constructor
  · rintro ⟨tree, presented, _⟩ key opens
    rw [present_nil] at presented
    exact opens.isReadable grounds.closed presented
  · intro readable
    obtain ⟨tree, presented⟩ := exists_of_present_of_opens grounds.closed found readable []
    refine ⟨tree, presented, ?_⟩
    rw [present_nil] at presented
    have nested {hops : Chain} {last : Model} {inner : Body} (within : Nested registry model tree hops last inner) :=
      grounds.populated_of_nested found within (List.nodup_singleton (model.name, document.id)) rfl
        (by simpa using Store.contains_of_get got) got presented
    exact ⟨fun hops last inner within => (nested within).1, fun hops last inner within => (nested within).2.1,
      fun hops last inner within => (nested within).2.2⟩

theorem ordered_rosterRequests : ∀ request ∈ rosterRequests, request.envelope.Ordered := by
  have team : (Json.object [("title", .text "reds")]).Ordered := by decide +kernel
  have player : rosterPlayer.Ordered := by decide +kernel
  intro request member
  simp only [rosterRequests, List.mem_cons, List.not_mem_nil, or_false] at member
  rcases member with rfl | rfl
  · exact ⟨by simpa using team, by simp, by simp⟩
  · exact ⟨by simpa using player, by simp, by simp⟩

theorem roster_free : ∀ name model, rosterRegistry.models.find? name = some model →
    idKey ∉ model.schema.fields.keys := by
  have all : ∀ entry ∈ rosterRegistry.models, idKey ∉ entry.2.schema.fields.keys := by decide +kernel
  exact fun name model found => all _ (Keyed.mem_of_find? found)

/-- All that is stored of the roster can be read, a player among it. -/
theorem roster_readable :
    let store := reached (rosterRegistry.withDepth 2) rosterRequests
    (∀ row ∈ store.rows, row.IsReadable) ∧
      ∃ row ∈ store.rows, row.collection = "player" ∧ ∃ document, row.read = .ok document := by
  intro store
  have each : ∀ row ∈ store.rows, (Json.object row.document.body).Ordered ∧
      (Json.rereadMembers Row.levels row.document.body).isSome = true := by decide +kernel
  have readable : ∀ row ∈ store.rows, row.IsReadable :=
    fun row member => (Row.isReadable_iff (each row member).1).mpr (each row member).2
  obtain ⟨row, stored, collection⟩ : ∃ row ∈ store.rows, row.collection = "player" := by decide +kernel
  exact ⟨readable, row, stored, collection, readable row stored⟩

/-- The player is read with the team that he is in. -/
theorem player_faithful :
    let registry := rosterRegistry.withDepth 2
    let store := reached registry rosterRequests
    ∃ row ∈ store.rows, row.collection = "player" ∧ ∃ document, row.read = .ok document ∧ ∃ tree,
      present registry store ⟨playerSchema, markingHasher⟩ document [] = .ok tree ∧
        Faithful registry store registry.depth ⟨playerSchema, markingHasher⟩ document tree := by
  intro registry store
  have built : Registry.build roster markingHasher {} = .ok rosterRegistry := by cbv
  obtain ⟨readable, row, stored, collection, document, read⟩ := roster_readable
  have known : rosterRegistry.lookup row.collection = .ok ⟨playerSchema, markingHasher⟩ := by
    rw [collection]
    rfl
  exact ⟨row, stored, collection, document, read,
    (faithful_iff_readable built roster_free 2 rosterRequests ordered_rosterRequests stored known read).mpr
      fun key _ row member _ => readable row member⟩

/-- Links to notes. -/
def linkDeclaration : Declaration := ⟨"link", [⟨"title", "text", []⟩, ⟨"note", "model.note", []⟩], []⟩

def linkModel : Model :=
  ⟨⟨"link", [("note", .reference "note"), ("title", .text)], ⟨true, none, ["note"]⟩⟩, markingHasher⟩

def linkRegistry : Registry := { models := [("link", linkModel), ("note", deepModel)] }

def linkId : EntityId := EntityId.mint 0 1

/-- A note gets an array that is nested more deeply than what is read can be, and a link to it is
added. -/
def linkRequests : List Request :=
  deepRequests ++ [⟨.addEntity, { model := "link", entity := some (.object
    [("_id", .text linkId.text), ("note", .text deepId.text), ("title", .text "deep")]) }, rosterSupply⟩]

/-- The link can be read, but the note that it opens cannot. -/
theorem link_opens_unreadable :
    let registry := linkRegistry.withDepth 2
    let store := reached registry linkRequests
    ∃ row ∈ store.rows, row.collection = "link" ∧ ∃ document, row.read = .ok document ∧
      Opens registry store 2 [("link", document.id)] linkModel (linkModel.sanitize document) ("note", deepId) ∧
        ¬ store.IsReadable ("note", deepId) := by
  intro registry store
  have opened : ∃ row ∈ store.rows, row.key = ("link", linkId) ∧ (Json.object row.document.body).Ordered ∧
      (Json.rereadMembers Row.levels row.document.body).bind (fun again =>
        openId? [("link", linkId)] "note" ((linkModel.sanitize ⟨linkId, again⟩).get? "note")) = some deepId := by
    decide +kernel
  have closed : ∃ row ∈ store.rows, row.key = ("note", deepId) ∧ (Json.object row.document.body).Ordered ∧
      (Json.rereadMembers Row.levels row.document.body).isSome = false := by decide +kernel
  have listed : ("note", "note") ∈ linkModel.schema.references := by decide +kernel
  obtain ⟨row, stored, key, ordered, opens⟩ := opened
  obtain ⟨again, read, leads⟩ := Option.bind_eq_some_iff.mp opens
  obtain ⟨collection, id⟩ := Prod.mk.inj key
  refine ⟨row, stored, collection, ⟨linkId, again⟩, (Row.read_eq_ok ordered).mpr ⟨id.symm, read⟩,
    .here listed leads, fun readable => ?_⟩
  obtain ⟨deep, member, same, inOrder, none⟩ := closed
  have some := (Row.isReadable_iff inOrder).mp (readable deep member same)
  rw [none] at some
  cases some

/-- So the link is not presented: a document that can be read leads to one that cannot. -/
theorem link_not_faithful :
    let registry := linkRegistry.withDepth 2
    let store := reached registry linkRequests
    Registry.build [linkDeclaration, deepDeclaration] markingHasher {} = .ok linkRegistry ∧
      ∃ row ∈ store.rows, row.collection = "link" ∧ ∃ document, row.read = .ok document ∧
        ¬ ∃ tree, present registry store linkModel document [] = .ok tree ∧
          Faithful registry store registry.depth linkModel document tree := by
  intro registry store
  have built : Registry.build [linkDeclaration, deepDeclaration] markingHasher {} = .ok linkRegistry := by cbv
  obtain ⟨row, stored, collection, document, read, opens, unreadable⟩ := link_opens_unreadable
  refine ⟨built, row, stored, collection, document, read, ?_⟩
  rintro ⟨tree, presented, _⟩
  rw [present_nil] at presented
  exact unreadable (opens.isReadable (Registry.isClosed_of_build built 2) presented)

end Repository
end Dossier
