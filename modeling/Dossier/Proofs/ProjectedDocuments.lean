import Dossier.Proofs.FaithfulPopulation

/-! Projections and populating. A projection shows the leaves at or below the paths that it
includes and not at or below those that it excludes, so of the references only the wanted ones
show: leaving out the others when a document is populated cannot be told from its projection. -/
namespace Dossier

/-! ### Paths within paths -/

/-- Going by characters is going by segments. -/
theorem Text.isWithin_iff {path ancestor : String} :
    isWithin path ancestor = true ↔ segments ancestor <+: segments path := by
  constructor
  · intro within
    unfold isWithin at within
    split at within
    · rw [beq_iff_eq.mp within]
    · rename_i c rest left
      obtain ⟨above, dot⟩ := Bool.and_eq_true_iff.mp within
      obtain ⟨more, same⟩ := List.isPrefixOf_iff_prefix.mp above
      rw [← same, List.drop_left] at left
      have joined : path = ancestor ++ "." ++ String.ofList rest := by
        rw [← String.toList_inj, ← same, left, beq_iff_eq.mp dot]
        simp
      rw [joined, segments_append]
      exact List.prefix_append _ _
  · rintro ⟨rest, same⟩
    by_cases here : rest = []
    · have equal : path = ancestor := by
        rw [← dotted_segments path, ← same, here, List.append_nil, dotted_segments]
      subst equal
      simp [isWithin]
    · have joined : path.toList = ancestor.toList ++ '.' :: (dotted rest).toList := by
        rw [← dotted_segments path, ← same, dotted_append (segments_ne_nil ancestor) here, dotted_segments]
        simp
      simp [isWithin, joined]

/-! ### Leaves -/

namespace Body

/-- The value at a place, unless it is an object. -/
def leaf? (body : Body) (place : List String) : Option Json :=
  (body.at? place).filter fun value => value.members?.isNone

theorem leaf?_of_outline? {body other : Body} {place : List String}
    (same : body.outline? place = other.outline? place) : body.leaf? place = other.leaf? place := by
  unfold outline? at same
  unfold leaf?
  cases here : body.at? place with
  | none =>
    rw [here] at same
    rw [Option.map_eq_none_iff.mp same.symm]
  | some value =>
    rw [here] at same
    obtain ⟨held, there, equal⟩ := Option.map_eq_some_iff.mp same.symm
    rw [there]
    cases value <;> cases held <;> cases equal <;> rfl

theorem leaf?_eq_none {body : Body} {place rest : List String} {name : String} {value : Json}
    (nonempty : place ≠ []) (held : body.at? (place ++ name :: rest) = some value) : body.leaf? place = none := by
  obtain ⟨members, found, _⟩ := object_of_at?_append nonempty held
  simp [leaf?, found, Json.members?]

/-- Dropping takes away the leaves at and below its place. -/
theorem leaf?_drop (body : Body) {names : List String} (nonempty : names ≠ []) (place : List String) :
    (body.drop names).leaf? place = if names <+: place then none else body.leaf? place := by
  split
  · rename_i below
    obtain ⟨rest, rfl⟩ := below
    rw [leaf?, at?_drop body nonempty]
    rfl
  · rename_i outside
    by_cases above : place <+: names
    · obtain ⟨rest, rfl⟩ := above
      cases place with
      | nil => rfl
      | cons name more =>
        cases rest with
        | nil => exact absurd (by simp) outside
        | cons next others =>
          rw [leaf?, leaf?, at?_drop_above body (List.cons_ne_nil name more)]
          cases held : body.at? (name :: more) with
          | none => rfl
          | some value => cases value <;> rfl
    · rw [leaf?, leaf?, at?_drop_of_apart body ⟨outside, above⟩]

/-- Whatever stands in some members stands in others as well, apart from what is below it. -/
def PartOf (body source : Body) : Prop :=
  ∀ place value, body.at? place = some value → body.outline? place = source.outline? place

section
variable {body source : Body} {path : List String} {value : Json}

theorem outline?_put_above {place rest : List String} {name : String} (nonempty : place ≠ [])
    (held : source.at? (place ++ name :: rest) = some value) :
    (body.put value (place ++ name :: rest)).outline? place = source.outline? place := by
  obtain ⟨members, found, _⟩ := object_of_at?_append nonempty held
  rw [outline?, outline?, at?_put_above _ _ nonempty (List.cons_ne_nil name rest), found]
  rfl

theorem at?_put_below (nonempty : path ≠ []) (held : source.at? path = some value) (rest : List String) :
    (body.put value path).at? (path ++ rest) = source.at? (path ++ rest) := by
  rw [at?_put _ _ nonempty, at?_append nonempty, held, Option.bind_some]

/-- Copying a value to its place in a part leaves a part. -/
theorem PartOf.put (part : body.PartOf source) (nonempty : path ≠ []) (held : source.at? path = some value) :
    (body.put value path).PartOf source := by
  intro place there found
  by_cases below : path <+: place
  · obtain ⟨rest, rfl⟩ := below
    rw [outline?, outline?, at?_put_below nonempty held]
  by_cases above : place <+: path
  · obtain ⟨rest, rfl⟩ := above
    cases place with
    | nil => cases found
    | cons name more =>
      cases rest with
      | nil => exact absurd (by simp) below
      | cons next others => exact outline?_put_above (List.cons_ne_nil name more) held
  · have same := at?_put_of_apart body value ⟨below, above⟩
    rw [outline?, same]
    exact part place there (same ▸ found)

/-- Copying a value to its place adds its leaves. -/
theorem PartOf.leaf?_put (part : body.PartOf source) (nonempty : path ≠ []) (held : source.at? path = some value)
    (place : List String) :
    (body.put value path).leaf? place = if path <+: place then source.leaf? place else body.leaf? place := by
  split
  · rename_i below
    obtain ⟨rest, rfl⟩ := below
    rw [leaf?, leaf?, at?_put_below nonempty held]
  · rename_i outside
    by_cases above : place <+: path
    · obtain ⟨rest, rfl⟩ := above
      cases place with
      | nil => rfl
      | cons name more =>
        cases rest with
        | nil => exact absurd (by simp) outside
        | cons next others =>
          -- On the way to the place is an object, in the members and in the part if anything is.
          have none := leaf?_eq_none (List.cons_ne_nil name more) held
          rw [leaf?_of_outline? (outline?_put_above (List.cons_ne_nil name more) held), none]
          cases there : body.at? (name :: more) with
          | none => simp [leaf?, there]
          | some other => rw [leaf?_of_outline? (part _ other there), none]
    · rw [leaf?, leaf?, at?_put_of_apart body value ⟨outside, above⟩]

end
end Body

/-! ### Projections -/

namespace Projection
variable {source target : Body}

theorem copy_spec (part : target.PartOf source) (path : String) :
    (copy source target path).PartOf source ∧ ∀ place, (copy source target path).leaf? place =
      if Text.segments path <+: place then source.leaf? place else target.leaf? place := by
  have nonempty := Text.segments_ne_nil path
  unfold copy
  split
  · rename_i value held
    exact ⟨part.put nonempty held, part.leaf?_put nonempty held⟩
  · rename_i missing
    refine ⟨part, fun place => ?_⟩
    split
    · rename_i below
      obtain ⟨rest, rfl⟩ := below
      have none : source.at? (Text.segments path ++ rest) = none := by
        rw [Body.at?_append nonempty, ← Body.get?, missing, Option.bind_none]
      cases there : target.at? (Text.segments path ++ rest) with
      | none => rw [Body.leaf?, Body.leaf?, none, there]
      | some value => exact Body.leaf?_of_outline? (part _ value there)
    · rfl

theorem copyAll_spec (paths : List String) (part : target.PartOf source) :
    (paths.foldl (copy source) target).PartOf source ∧
      ∀ place, (paths.foldl (copy source) target).leaf? place =
        if ∃ path ∈ paths, Text.segments path <+: place then source.leaf? place else target.leaf? place := by
  induction paths generalizing target with
  | nil => exact ⟨part, fun place => by simp⟩
  | cons path rest ih =>
    obtain ⟨first, leaves⟩ := copy_spec part path
    obtain ⟨later, others⟩ := ih first
    refine ⟨later, fun place => ?_⟩
    rw [List.foldl_cons, others, leaves]
    by_cases here : Text.segments path <+: place <;> simp [here]

/-- The places that are selected: all, or those at and below the id and the included paths. -/
def Selects (projection : Projection) (place : List String) : Prop :=
  projection.included = [] ∨ ∃ path ∈ idKey :: projection.included, Text.segments path <+: place

/-- The places at and below the excluded paths. The path of the id excludes nothing. -/
def Hides (projection : Projection) (place : List String) : Prop :=
  ∃ path ∈ projection.excluded, path ≠ idKey ∧ Text.segments path <+: place

/-- The places whose leaves are shown. -/
def Shows (projection : Projection) (place : List String) : Prop :=
  projection.Selects place ∧ ¬ projection.Hides place

instance (projection : Projection) (place : List String) : Decidable (projection.Selects place) :=
  inferInstanceAs (Decidable (_ ∨ _))

instance (projection : Projection) (place : List String) : Decidable (projection.Hides place) :=
  inferInstanceAs (Decidable (∃ path ∈ projection.excluded, _ ∧ _))

instance (projection : Projection) (place : List String) : Decidable (projection.Shows place) :=
  inferInstanceAs (Decidable (_ ∧ ¬ _))

theorem segments_idKey : Text.segments idKey = [idKey] :=
  Text.segments_of_undotted (undotted_of_mem_reservedNames (by decide))

theorem leaf?_select (projection : Projection) (members : Body) (place : List String) :
    (projection.select members).leaf? place = if projection.Selects place then members.leaf? place else none := by
  unfold select
  by_cases all : projection.included = []
  · simp [all, Selects]
  · -- The id is the first to be copied.
    have empty : Body.PartOf [] members := by
      intro place value found
      cases place with
      | nil => cases found
      | cons name rest => cases (Body.at?_cons [] name rest).symm.trans found
    have leafless : Body.leaf? [] place = none := by
      cases place with
      | nil => rfl
      | cons name rest => simp [Body.leaf?, Body.at?_cons, Keyed.find?]
    have copied := (copyAll_spec (idKey :: projection.included) empty).2 place
    rw [List.foldl_cons, leafless] at copied
    have selects : projection.Selects place ↔
        ∃ path ∈ idKey :: projection.included, Text.segments path <+: place := by simp [Selects, all]
    rw [if_congr selects rfl rfl]
    simp only [List.isEmpty_iff, all, if_false]
    exact copied

theorem leaf?_removeAll (paths : List String) (members : Body) (place : List String) :
    (paths.foldl Body.remove members).leaf? place =
      if ∃ path ∈ paths, Text.segments path <+: place then none else members.leaf? place := by
  induction paths generalizing members with
  | nil => simp
  | cons path rest ih =>
    rw [List.foldl_cons, ih, Body.remove, Body.leaf?_drop members (Text.segments_ne_nil path)]
    by_cases here : Text.segments path <+: place <;> simp [here]

/-- A projection shows the leaves at the places that it shows. -/
theorem leaf?_apply (projection : Projection) (members : Body) (place : List String) :
    (projection.apply members).leaf? place = if projection.Shows place then members.leaf? place else none := by
  have removed : (∃ path ∈ projection.excluded.filter (· ≠ idKey), Text.segments path <+: place) ↔
      projection.Hides place := by
    simp [Hides, and_assoc]
  rw [apply, leaf?_removeAll, leaf?_select]
  by_cases hides : projection.Hides place
  · rw [if_pos (removed.mpr hides), if_neg fun shows => shows.2 hides]
  · rw [if_neg (hides ∘ removed.mp)]
    by_cases selects : projection.Selects place
    · rw [if_pos selects, if_pos ⟨selects, hides⟩]
    · rw [if_neg selects, if_neg fun shows => selects shows.1]

/-- Nothing shows of a path that is not wanted, if it does not lead to the id. -/
theorem not_shows {projection : Projection} {path : String} (unwanted : projection.wants path = false)
    (free : ∀ rest, ¬ Text.segments path <+: idKey :: rest) (rest : List String) :
    ¬ projection.Shows (Text.segments path ++ rest) := by
  rintro ⟨selects, hides⟩
  have apart : ¬ Text.segments idKey <+: Text.segments path := by
    rw [segments_idKey]
    rintro ⟨more, same⟩
    exact free more (same ▸ List.prefix_rfl)
  have kept : projection.excluded.any (Text.isWithin path ·) = false := by
    refine Bool.eq_false_iff.mpr fun excluded => hides ?_
    obtain ⟨other, listed, within⟩ := List.any_eq_true.mp excluded
    have above := Text.isWithin_iff.mp within
    exact ⟨other, listed, fun same => apart (same ▸ above), above.trans (List.prefix_append _ _)⟩
  rw [wants, kept] at unwanted
  rcases selects with all | ⟨other, listed, above⟩
  · simp [all] at unwanted
  · have near := List.prefix_or_prefix_of_prefix above (List.prefix_append (Text.segments path) rest)
    rcases List.mem_cons.mp listed with rfl | included
    · rcases near with below | beyond
      · exact apart below
      · exact free [] (segments_idKey ▸ beyond)
    · have wanted : (Text.isWithin path other || Text.isWithin other path) = true := by
        rw [Bool.or_eq_true, Text.isWithin_iff, Text.isWithin_iff]
        exact near
      have some : projection.included.any
          (fun shown => Text.isWithin path shown || Text.isWithin shown path) = true :=
        List.any_eq_true.mpr ⟨other, included, wanted⟩
      simp [some] at unwanted

end Projection

section
variable {registry : Registry} {store : Store} (grounds : Grounds registry store) {depth : Nat} {chain : Chain}
  {name : String} {model : Model} (found : registry.models.find? name = some model) {document : Document}
  {part whole : Body}

include grounds found

/-- Members that are populated at the wanted references only show as much as when they are
populated in full. -/
theorem leaf?_apply_of_populate (projection : Projection)
    (partly : populate registry store depth chain model projection.wants (model.sanitize document) = .ok part)
    (wholly : populate registry store depth chain model (fun _ => true) (model.sanitize document) = .ok whole)
    (place : List String) : (projection.apply part).leaf? place = (projection.apply whole).leaf? place := by
  rw [Projection.leaf?_apply, Projection.leaf?_apply]
  split
  · rename_i shows
    by_cases below : ∃ reference ∈ model.schema.references, Text.segments reference.1 <+: place
    · obtain ⟨⟨path, target⟩, listed, rest, rfl⟩ := below
      cases isWanted : projection.wants path with
      | true =>
        have same : part.get? path = whole.get? path := by
          cases depth with
          | zero =>
            cases partly
            cases wholly
            rfl
          | succ depth => exact (populated_at partly listed isWanted).unique (populated_at wholly listed rfl)
        rw [Body.get?, Body.get?] at same
        rw [Body.leaf?, Body.leaf?, Body.at?_append (Text.segments_ne_nil path),
          Body.at?_append (Text.segments_ne_nil path), same]
      | false =>
        exact absurd shows (Projection.not_shows isWanted (fun _ => grounds.notPrefix_idKey found listed) rest)
    · have outside : ∀ reference ∈ model.schema.references, ¬ Text.segments reference.1 <+: place :=
        fun reference listed above => below ⟨reference, listed, above⟩
      apply Body.leaf?_of_outline?
      rw [outline?_of_populate partly fun reference listed _ => outside reference listed,
        outline?_of_populate wholly fun reference listed _ => outside reference listed]
  · rfl

end

/-! ### Reading -/

namespace Repository
variable {definitions : List Declaration} {hasher : Hasher} {options : CompileOptions} {base : Registry}

/-- In every store that requests reach, what is shown of a document has the leaves that the
projection of the document populated in full has; both are there exactly if the documents that
populating it in full opens can be read. -/
theorem sameLeaves_iff_readable (built : Registry.build definitions hasher options = .ok base)
    (free : ∀ name model, base.models.find? name = some model → idKey ∉ model.schema.fields.keys)
    (depth : Nat) (requests : List Request) (ordered : ∀ request ∈ requests, request.envelope.Ordered)
    {name : String} {model : Model} (known : base.lookup name = .ok model) (document : Document)
    (fields : List String) :
    let registry := base.withDepth depth
    let store := reached registry requests
    let chain := [(model.name, document.id)]
    (∃ shown whole, present registry store model document fields = .ok shown ∧
        populate registry store registry.depth chain model (fun _ => true) (model.sanitize document) = .ok whole ∧
        ∀ place, shown.leaf? place = ((Projection.parse fields).apply whole).leaf? place) ↔
      ∀ key, Opens registry store registry.depth chain model (model.sanitize document) key →
        store.IsReadable key := by
  intro registry store chain
  have grounds : Grounds registry store := grounds_of_reached built free depth ordered
  have found : registry.models.find? name = some model := Registry.find?_of_lookup known
  constructor
  · rintro ⟨_, whole, _, populated, _⟩ key opens
    exact opens.isReadable grounds.closed populated
  · intro readable
    obtain ⟨part, partly⟩ := exists_of_populate grounds.closed found readable (Projection.parse fields).wants
    obtain ⟨whole, wholly⟩ := exists_of_populate grounds.closed found readable fun _ => true
    refine ⟨(Projection.parse fields).apply part, whole, ?_, wholly, ?_⟩
    · rw [present, partly]
      rfl
    · exact leaf?_apply_of_populate grounds found _ partly wholly

/-- Of the player the name is shown, and of his team no more than the title. -/
theorem player_sameLeaves :
    let registry := rosterRegistry.withDepth 2
    let store := reached registry rosterRequests
    let model : Model := ⟨playerSchema, markingHasher⟩
    let fields := ["name club.team", "-club.team._id -club.team.createdAt"]
    ∃ row ∈ store.rows, row.collection = "player" ∧ ∃ document, row.read = .ok document ∧
      ∃ shown whole, present registry store model document fields = .ok shown ∧
        populate registry store registry.depth [(model.name, document.id)] model (fun _ => true)
          (model.sanitize document) = .ok whole ∧
        ∀ place, shown.leaf? place = ((Projection.parse fields).apply whole).leaf? place := by
  intro registry store model fields
  have built : Registry.build roster markingHasher {} = .ok rosterRegistry := by cbv
  obtain ⟨readable, row, stored, collection, document, read⟩ := roster_readable
  have known : rosterRegistry.lookup "player" = .ok model := rfl
  exact ⟨row, stored, collection, document, read,
    (sameLeaves_iff_readable built roster_free 2 rosterRequests ordered_rosterRequests known document fields).mpr
      fun key _ row member _ => readable row member⟩

/-- The link is shown without the note, but it cannot be populated in full. -/
theorem link_not_sameLeaves :
    let registry := linkRegistry.withDepth 2
    let store := reached registry linkRequests
    Registry.build [linkDeclaration, deepDeclaration] markingHasher {} = .ok linkRegistry ∧
      ∃ row ∈ store.rows, row.collection = "link" ∧ ∃ document, row.read = .ok document ∧
        (present registry store linkModel document ["title"]).isOk = true ∧
        ¬ ∃ shown whole, present registry store linkModel document ["title"] = .ok shown ∧
          populate registry store registry.depth [(linkModel.name, document.id)] linkModel (fun _ => true)
            (linkModel.sanitize document) = .ok whole ∧
          ∀ place, shown.leaf? place = ((Projection.parse ["title"]).apply whole).leaf? place := by
  intro registry store
  have built : Registry.build [linkDeclaration, deepDeclaration] markingHasher {} = .ok linkRegistry := by cbv
  obtain ⟨row, stored, collection, document, read, opens, unreadable⟩ := link_opens_unreadable
  refine ⟨built, row, stored, collection, document, read, ?_, ?_⟩
  · -- The note is not wanted, so no reference is left to follow.
    have unwanted : (linkModel.schema.references.filter fun reference =>
        (Projection.parse ["title"]).wants reference.1) = [] := by decide +kernel
    have depth : registry.depth = 1 + 1 := rfl
    rw [present, depth, populate]
    dsimp only
    rw [unwanted]
    rfl
  · rintro ⟨_, whole, _, populated, _⟩
    exact unreadable (opens.isReadable (Registry.isClosed_of_build built 2) populated)

end Repository
end Dossier
