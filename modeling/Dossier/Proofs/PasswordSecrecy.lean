import Dossier.Proofs.AlikeResponses
import Dossier.Proofs.ExposedPasswords
import Dossier.Proofs.StoredPasswords

/-! What requests tell about stored passwords: nothing, exactly as long as every path that they
may filter or sort by is refused or is read by the store as one that passes the password. -/
namespace Dossier

theorem SortKey.exists_direction (path : String) {cell other : Cell} (different : cell ≠ other) :
    ∃ direction, compare ⟨path, direction⟩ cell other = .gt := by
  cases compared : cell.compare other with
  | eq => exact absurd (Cell.eq_of_compare compared) different
  | gt => exact ⟨.ascending, compared⟩
  | lt =>
    refine ⟨.descending, ?_⟩
    rw [compare, compared]
    rfl

namespace Repository

/-- From two stores of the same documents that differ at most in their passwords, a request
answers the same and leaves two such stores. -/
def Confidential (registry : Registry) (request : Request) : Prop :=
  ∀ store other : Store, store.Twins registry other →
    outcome registry store request = outcome registry other request ∧
      (after registry store request).PasswordEquivalent registry (after registry other request)

/-- Requests leave stores in which what they store can be read, so that two of them are twins as
soon as they differ at most in their passwords. -/
theorem twins_of_reached {definitions : List Declaration} {hasher : Hasher} {options : CompileOptions}
    {base : Registry} (built : Registry.build definitions hasher options = .ok base)
    (accepted : ∀ definition ∈ definitions, definition.validate = .ok ())
    (plain : ∀ definition ∈ definitions, definition.Plain) {depth : Nat} {requests others : List Request}
    (ordered : ∀ request ∈ requests, request.envelope.Ordered)
    (orderedToo : ∀ request ∈ others, request.envelope.Ordered)
    (equivalent : (reached (base.withDepth depth) requests).PasswordEquivalent (base.withDepth depth)
      (reached (base.withDepth depth) others)) :
    (reached (base.withDepth depth) requests).Twins (base.withDepth depth)
      (reached (base.withDepth depth) others) := by
  have settled {requests : List Request} (ordered : ∀ request ∈ requests, request.envelope.Ordered)
      {row : Row} (stored : row ∈ (reached (base.withDepth depth) requests).rows) :
      (Json.object row.document.body).Ordered ∧ row.HasPlainPassword (base.withDepth depth) := by
    have accounted := accounted_of_reached built depth ordered stored
    refine ⟨accounted.ordered, fun model found path password value held => ?_⟩
    have has := Registry.hasPassword_of_build built accepted plain found password
    obtain ⟨write, left, _, _, settles⟩ := accounted.determined model _ found has
    rw [Option.mem_def, Body.get?] at held
    rw [held] at settles
    cases settles <;> trivial
  unfold Store.PasswordEquivalent at equivalent
  unfold Store.Twins
  have each := List.forall₂_iff_zip.mp equivalent
  refine List.forall₂_iff_zip.mpr ⟨each.1, fun {row other} member => ?_⟩
  obtain ⟨listed, also⟩ := List.of_mem_zip member
  obtain ⟨inOrder, text⟩ := settled ordered listed
  obtain ⟨inOrderToo, textToo⟩ := settled orderedToo also
  exact (each.2 member).twins inOrder inOrderToo text textToo

/-- A request for all documents of a model, sorted by a path. -/
def sortedBy (name : String) (key : SortKey) : Request :=
  ⟨.getEntities, { model := name, sort := some [key] }, accountSupply⟩

theorem outcome_sortedBy {registry : Registry} {store : Store} {model : Model} {path : String}
    {direction : Direction} {error : StoreError} (known : registry.lookup model.name = .ok model)
    (guarded : model.guardPassword path .sort = .ok ())
    (failed : store.find model.name [] [⟨path, direction⟩] = .error error) :
    outcome registry store (sortedBy model.name ⟨path, direction⟩) = .error (.store error) := by
  have checked : model.checkSort [⟨path, direction⟩] = .ok () := by
    change (model.guardPassword path .sort >>= fun _ => .ok ()) = _
    rw [guarded]
    rfl
  rw [sortedBy, outcome_getEntities, known]
  simp [selector?, Envelope.sortKeys, checked, failed]

/-- As long as neither can be read, a document and the same document without its password are twins. -/
theorem twins_drop {registry : Registry} {model : Model} {password : String} {id : EntityId} {body : Body}
    (found : registry.models.find? model.name = some model) (given : password ∈ model.schema.behaviors.password)
    (ordered : (Json.object body).Ordered) (unread : ¬ (⟨model.name, ⟨id, body⟩⟩ : Row).IsReadable)
    (unreadToo : ¬ (⟨model.name, ⟨id, body.drop (Text.segments password)⟩⟩ : Row).IsReadable) :
    Row.Twins registry ⟨model.name, ⟨id, body⟩⟩ ⟨model.name, ⟨id, body.drop (Text.segments password)⟩⟩ := by
  have hidden : model.withoutPassword body = model.withoutPassword (body.drop (Text.segments password)) := by
    rw [Option.mem_def] at given
    simp only [Model.withoutPassword, given]
    exact (Body.drop_drop (Text.segments_ne_nil password) ordered).symm
  refine ⟨⟨rfl, ?_⟩, ordered, Body.ordered_drop ordered _, iff_of_false unread unreadToo⟩
  simpa only [Row.withoutPassword, found] using hidden

/-- A path that is not safe can be sorted by so that the answer tells something of passwords. -/
theorem exists_not_confidential {registry : Registry} {model : Model} {path : String}
    (known : registry.lookup model.name = .ok model) (leaks : ¬ model.IsSafe path) :
    ∃ direction, ¬ Confidential registry (sortedBy model.name ⟨path, direction⟩) := by
  obtain ⟨allowed, reached⟩ := not_or.mp leaks
  simp only [Model.Refuses, not_forall, Decidable.not_not, ne_eq] at allowed
  obtain ⟨usage, passed⟩ := allowed
  have guarded := Model.guardPassword_eq_ok passed .sort
  simp only [Model.Passes, not_forall, not_or, not_not] at reached
  obtain ⟨password, given, other, reaches⟩ := reached
  have walks : KeyPath.steps path ≠ [] := by
    simpa [KeyPath.steps] using Text.segments_ne_nil path
  have nonempty := Text.segments_ne_nil password
  obtain ⟨body, key, ordered, held, kept, cell, gone, seen⟩ := KeyPath.exists_exposed reaches walks nonempty
  let bare := body.drop (Text.segments password)
  have orderedToo : (Json.object bare).Ordered := Body.ordered_drop ordered _
  have found : registry.models.find? model.name = some model := Registry.find?_of_lookup known
  have unread (id : EntityId) : ¬ (⟨model.name, ⟨id, body⟩⟩ : Row).IsReadable := Row.not_isReadable ordered held
  have unreadToo (id : EntityId) : ¬ (⟨model.name, ⟨id, bare⟩⟩ : Row).IsReadable :=
    Row.not_isReadable orderedToo kept
  have twins : (Store.pair model.name body bare).Twins registry (Store.pair model.name bare bare) :=
    .cons (twins_drop found given ordered (unread _) (unreadToo _)) (.cons (.refl orderedToo) .nil)
  have noCell (id : EntityId) : Cell.ofField ⟨id, bare⟩ path = .ok cell := by
    rw [KeyPath.ofField_eq_look other]
    exact gone
  have answers (direction : Direction) : outcome registry (Store.pair model.name bare bare)
      (sortedBy model.name ⟨path, direction⟩) = .error (.store (.invalidData model.name firstId)) := by
    apply outcome_sortedBy known guarded
    rw [Store.find_pair (unreadToo _) (unreadToo _) (noCell _) (noCell _)]
    have same : SortKey.compare ⟨path, direction⟩ cell cell = .eq := by
      cases direction <;> simp [SortKey.compare, Cell.compare_self]
    simp [same]
  cases measured : Cell.ofField ⟨firstId, body⟩ path with
  | error error =>
    obtain rfl := Cell.error_of_ofField measured
    refine ⟨.ascending, fun confidential => ?_⟩
    have same := (confidential _ _ twins).1
    rw [answers, outcome_sortedBy known guarded (Store.find_pair_error measured)] at same
    cases same
  | ok shown =>
    have different : shown ≠ cell := by
      rintro rfl
      rw [KeyPath.ofField_eq_look other] at measured
      exact seen measured
    obtain ⟨direction, after⟩ := SortKey.exists_direction path different
    refine ⟨direction, fun confidential => ?_⟩
    have same := (confidential _ _ twins).1
    have failed : (Store.pair model.name body bare).find model.name [] [⟨path, direction⟩] =
        .error (.invalidData model.name secondId) := by
      rw [Store.find_pair (unread _) (unreadToo _) measured (noCell secondId), if_pos after]
    rw [answers, outcome_sortedBy known guarded failed] at same
    injection same with same
    injection same with same
    injection same with _ same
    exact absurd same (by decide)

/-- Requests tell nothing of stored passwords as long as every path that is allowed is safe, and
only then. -/
theorem confidential_iff {definitions : List Declaration} {hasher : Hasher} {options : CompileOptions}
    {base : Registry} (built : Registry.build definitions hasher options = .ok base) (depth : Nat)
    (allowed : String → String → Prop) :
    (∀ request : Request, request.envelope.Ordered →
        (∀ path ∈ request.paths, allowed request.envelope.model path) →
        request.Spares (base.withDepth depth) → Confidential (base.withDepth depth) request) ↔
      ∀ name model, base.lookup name = .ok model → ∀ path, allowed name path → model.IsSafe path := by
  have named {name : String} {model : Model} (found : (base.withDepth depth).models.find? name = some model) :
      model.name = name := (Registry.parts_of_build built found).1
  constructor
  · intro secret name model known path allows
    by_contra leaks
    obtain rfl : model.name = name := named (Registry.find?_of_lookup known)
    have listed : (base.withDepth depth).lookup model.name = .ok model := known
    obtain ⟨direction, tells⟩ := exists_not_confidential listed leaks
    apply tells
    apply secret
    · exact ⟨by simp [sortedBy], by simp [sortedBy], by simp [sortedBy]⟩
    · intro other member
      have same : other = path := by
        simpa [Request.paths, Request.filtered, sortedBy, Envelope.sortKeys] using member
      exact same ▸ allows
    · rintro (update | update) <;> cases update
  · intro safe request ordered uses spares store other twins
    have matched := matches_execute named twins ordered
      (fun model known path member => safe _ model known path (uses path member)) spares
    exact ⟨matched.answer, matched.stores⟩

end Repository

/-! ### Accounts -/

/-- An account, with what is stored below its secret. -/
def accountRow (secret : Body) : Row :=
  ⟨"account", ⟨EntityId.mint 0 0, [("login", .text "ann"), ("secret", .object secret)]⟩⟩

def accountStore (secret : Body) : Store := ⟨[accountRow secret], by simp⟩

/-- A request for the accounts with a password, of which the path is written with an escape. -/
def spelledRequest : Request :=
  let anyPassword : Filter := .single ⟨"secret.p\\u0061ss", .gt, some (.text "")⟩
  ⟨.getEntities, { model := "account", filter := some anyPassword }, accountSupply⟩

def countFound : Except RequestError Response → Option Nat
  | .ok (.found entities) => some entities.length
  | _ => none

open Repository in
/-- Accounts with a password are told apart from those without one. -/
theorem accounts_not_confidential :
    ¬ ∀ request : Request, request.envelope.Ordered → request.Spares (accountRegistry.withDepth 2) →
      Confidential (accountRegistry.withDepth 2) request := by
  intro secret
  have ordered : spelledRequest.envelope.Ordered := ⟨by simp [spelledRequest], by simp [spelledRequest], by simp [spelledRequest]⟩
  have spares : spelledRequest.Spares (accountRegistry.withDepth 2) := by
    rintro (update | update) <;> cases update
  let withPassword : Body := [("pass", .text "hash of sesame")]
  have twins : (accountStore withPassword).Twins (accountRegistry.withDepth 2) (accountStore []) := by
    refine .cons ⟨⟨rfl, by rfl⟩, by decide +kernel, by decide +kernel, ?_⟩ .nil
    exact iff_of_true ((Row.isReadable_iff (by decide +kernel)).mpr (by decide +kernel))
      ((Row.isReadable_iff (by decide +kernel)).mpr (by decide +kernel))
  have same := congrArg countFound (secret spelledRequest ordered spares _ _ twins).1
  have one : countFound (outcome (accountRegistry.withDepth 2) (accountStore withPassword) spelledRequest) = some 1 := by
    decide +kernel
  have none : countFound (outcome (accountRegistry.withDepth 2) (accountStore []) spelledRequest) = some 0 := by
    decide +kernel
  rw [one, none] at same
  cases same

/-- A request for the accounts of a login, sorted by their logins. -/
def loginRequest : Request :=
  let byLogin : Filter := .single ⟨"login", .eq, some (.text "ann")⟩
  ⟨.getEntities, { model := "account", filter := some byLogin, sort := some [⟨"login", .descending⟩] },
    accountSupply⟩

/-- Accounts are found by their logins without telling anything of their passwords. -/
theorem loginRequest_confidential : Repository.Confidential (accountRegistry.withDepth 2) loginRequest := by
  have built : Registry.build [accounts] markingHasher {} = .ok accountRegistry := by cbv
  have passes : Model.Passes ⟨accountSchema, markingHasher⟩ "login" := by
    intro password given
    obtain rfl : "secret.pass" = password := Option.some.inj given
    refine .inr fun reaches => ?_
    have steps : KeyPath.steps "login" = [.member [108, 111, 103, 105, 110]] := by decide +kernel
    have segments : Text.segments "secret.pass" = ["secret", "pass"] := by decide +kernel
    rw [steps, segments] at reaches
    exact absurd reaches.1 (by decide +kernel)
  refine (Repository.confidential_iff built 2 fun _ path => path = "login").mpr ?_ loginRequest ?_ ?_ ?_
  · rintro name model known path rfl
    have found := Registry.find?_of_lookup known
    simp only [accountRegistry, Keyed.find?] at found
    split at found
    · cases found
      exact .inr passes
    · cases found
  · exact ⟨by simp [loginRequest], by simp [loginRequest], by simp [loginRequest]⟩
  · have paths : loginRequest.paths = ["login", "login"] := by decide +kernel
    simp [paths]
  · rintro (update | update) <;> cases update

end Dossier
