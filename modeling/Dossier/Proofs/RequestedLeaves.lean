import Dossier.Proofs.ProjectedDocuments

/-! What a list of fields shows of some members: the leaves at and below the paths that it
includes, or all leaves if it includes none, without those at and below the paths that it excludes.
The id is shown as it is, whatever is included. -/
namespace Dossier.Projection

/-! ### Reading a list of fields -/

/-- The path that a word includes. -/
def includedPath? (word : String) : Option String := if word.toList.head? = some '-' then none else some word

/-- The path that a word excludes: all of it but the hyphen in front. -/
def excludedPath? (word : String) : Option String :=
  match word.toList with
  | '-' :: c :: rest => some (String.ofList (c :: rest))
  | _ => none

theorem addWord_eq (projection : Projection) (word : String) : projection.addWord word =
    ⟨projection.included ++ (includedPath? word).toList, projection.excluded ++ (excludedPath? word).toList⟩ := by
  unfold addWord includedPath? excludedPath?
  split
  · rename_i hyphen
    simp [hyphen]
  · rename_i path unspoken hyphen
    cases path with
    | nil => exact absurd rfl unspoken
    | cons c rest => simp [hyphen]
  · rename_i other path
    have plain : word.toList.head? ≠ some '-' := by
      intro hyphen
      obtain ⟨rest, same⟩ := List.head?_eq_some_iff.mp hyphen
      exact path rest same
    rw [if_neg plain]
    split
    · rename_i c rest hyphen
      exact absurd hyphen (path _)
    · simp

/-- Each word of the list includes a path, excludes one or says nothing. -/
theorem parse_eq (fields : List String) : parse fields =
    ⟨(fields.flatMap Text.words).filterMap includedPath?, (fields.flatMap Text.words).filterMap excludedPath?⟩ := by
  have general (words : List String) (projection : Projection) : words.foldl addWord projection =
      ⟨projection.included ++ words.filterMap includedPath?, projection.excluded ++ words.filterMap excludedPath?⟩ := by
    induction words generalizing projection with
    | nil => simp
    | cons word rest ih =>
      rw [List.foldl_cons, ih, addWord_eq]
      cases includes : includedPath? word <;> cases excludes : excludedPath? word <;> simp [includes, excludes]
  exact general _ _

theorem mem_included_parse {fields : List String} {path : String} :
    path ∈ (parse fields).included ↔ path ∈ fields.flatMap Text.words ∧ path.toList.head? ≠ some '-' := by
  simp only [parse_eq, List.mem_filterMap, includedPath?]
  constructor
  · rintro ⟨word, listed, includes⟩
    split at includes
    · cases includes
    · rename_i plain
      cases includes
      exact ⟨listed, plain⟩
  · rintro ⟨listed, plain⟩
    exact ⟨path, listed, if_neg plain⟩

theorem mem_excluded_parse {fields : List String} {path : String} :
    path ∈ (parse fields).excluded ↔ path ≠ "" ∧ "-" ++ path ∈ fields.flatMap Text.words := by
  simp only [parse_eq, List.mem_filterMap, excludedPath?]
  constructor
  · rintro ⟨word, listed, excludes⟩
    split at excludes
    · rename_i c rest hyphen
      cases excludes
      have joined : "-" ++ String.ofList (c :: rest) = word := by
        rw [← String.toList_inj, hyphen]
        simp
      exact ⟨by simp [← String.toList_inj], joined ▸ listed⟩
    · cases excludes
  · rintro ⟨nonempty, listed⟩
    refine ⟨_, listed, ?_⟩
    have characters : ("-" ++ path).toList = '-' :: path.toList := by simp
    rw [characters]
    cases spelled : path.toList with
    | nil => exact absurd (String.toList_inj.mp spelled) nonempty
    | cons c rest =>
      change some (String.ofList (c :: rest)) = some path
      rw [← spelled, String.ofList_toList]

/-! ### What is shown -/

/-- The places whose leaves a list of fields asks for: those at and below an included path, or all
if none is included, and of them those that are not excluded. -/
def Requests (projection : Projection) (place : List String) : Prop :=
  (projection.included = [] ∨ ∃ path ∈ projection.included, Text.segments path <+: place) ∧
    ¬ projection.Hides place

instance (projection : Projection) (place : List String) : Decidable (projection.Requests place) :=
  inferInstanceAs (Decidable ((_ ∨ _) ∧ ¬ _))

/-- Of the leaves of some members those at requested places are shown, and nothing else but the
id. -/
structure ShowsExactly (requested : List String → Prop) (members shown : Body) : Prop where
  leaves : ∀ place value, place ≠ [idKey] → members.leaf? place = some value →
    (shown.leaf? place = some value ↔ requested place)
  others : ∀ place value, shown.leaf? place = some value → members.leaf? place = some value
  id : ∀ value, members.leaf? [idKey] = some value → shown.find? idKey = some value

/-- Only the path of the id is at or above it. -/
theorem eq_idKey_of_above {path : String} (above : Text.segments path <+: [idKey]) : path = idKey := by
  rcases List.prefix_cons_iff.mp above with none | ⟨rest, own, short⟩
  · exact absurd none (Text.segments_ne_nil path)
  · rw [← Text.dotted_segments path, own, List.prefix_nil.mp short, Text.dotted_singleton]

/-- The id itself cannot be excluded. -/
theorem not_hides_idKey (projection : Projection) : ¬ projection.Hides [idKey] := by
  rintro ⟨path, _, other, above⟩
  exact other (eq_idKey_of_above above)

theorem leaf?_apply_idKey (projection : Projection) (members : Body) :
    (projection.apply members).leaf? [idKey] = members.leaf? [idKey] := by
  have selects : projection.Selects [idKey] :=
    .inr ⟨idKey, List.mem_cons_self, segments_idKey ▸ List.prefix_rfl⟩
  rw [leaf?_apply, if_pos ⟨selects, projection.not_hides_idKey⟩]

/-- At the id and below it everything is selected, elsewhere what is included. -/
theorem shows_iff {projection : Projection} {place : List String} : projection.Shows place ↔
    projection.Requests place ∨ [idKey] <+: place ∧ ¬ projection.Hides place := by
  rw [Shows, Requests, Selects, ← or_and_right, or_assoc]
  simp only [List.exists_mem_cons_iff, segments_idKey]
  rw [or_comm (a := [idKey] <+: place)]

/-- A list of fields shows exactly the leaves that it asks for, and besides those below the id that
it does not exclude. -/
theorem showsExactly_apply (fields : List String) (members : Body) :
    let projection := parse fields
    (∀ path, path ∈ projection.included ↔ path ∈ fields.flatMap Text.words ∧ path.toList.head? ≠ some '-') ∧
      (∀ path, path ∈ projection.excluded ↔ path ≠ "" ∧ "-" ++ path ∈ fields.flatMap Text.words) ∧
      ShowsExactly (fun place => projection.Requests place ∨ [idKey] <+: place ∧ ¬ projection.Hides place)
        members (projection.apply members) := by
  intro projection
  refine ⟨fun _ => mem_included_parse, fun _ => mem_excluded_parse, ?_⟩
  constructor
  case leaves =>
    intro place value _ held
    rw [leaf?_apply, ← shows_iff]
    split
    · rename_i shows
      exact iff_of_true held shows
    · rename_i hidden
      exact iff_of_false nofun hidden
  case others =>
    intro place value shown
    rw [leaf?_apply] at shown
    split at shown
    · exact shown
    · cases shown
  case id =>
    intro value held
    rw [← leaf?_apply_idKey projection] at held
    exact (Option.filter_eq_some_iff.mp held).1

/-- Of an id that is an object all of it is shown, though one of its members is asked for. -/
theorem badge_not_showsExactly :
    let projection := parse ["_id.title"]
    let members : Body := [("_id", .object [("note", .text "red"), ("title", .text "guest")]), ("name", .text "ann")]
    ¬ ShowsExactly projection.Requests members (projection.apply members) := by
  intro projection members shows
  have held : members.leaf? ["_id", "note"] = some (.text "red") := rfl
  have shown : (projection.apply members).leaf? ["_id", "note"] = some (.text "red") := by
    have kept : projection.Shows ["_id", "note"] := by decide +kernel
    rw [leaf?_apply, if_pos kept, held]
  have unasked : ¬ projection.Requests ["_id", "note"] := by decide +kernel
  exact unasked ((shows.leaves _ _ (by decide) held).mp shown)

end Dossier.Projection
