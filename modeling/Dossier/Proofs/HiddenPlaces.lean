import Dossier.Proofs.OrderedBodies
import Dossier.Proofs.Paths

/-! Bodies that differ at most at one place: those that are the same once the value there is
taken away. They stay so under everything that is written to both. -/
namespace Dossier

/-- Two values that differ at most at a place below them. -/
def Json.EqualBut : (place : List String) → Option Json → Option Json → Prop
  | [], _, _ => True
  | name :: rest, value, other => value = other ∨
      ∃ members others : Body, value = some (.object members) ∧ other = some (.object others) ∧
        (∀ key, key ≠ name → members.find? key = others.find? key) ∧
          EqualBut rest (members.find? name) (others.find? name)

namespace Body

/-- Two bodies that differ at most at a place. -/
def EqualBut (place : List String) (body other : Body) : Prop :=
  Json.EqualBut place (some (.object body)) (some (.object other))

end Body

theorem Json.EqualBut.refl (place : List String) (value : Option Json) : EqualBut place value value := by
  cases place with
  | nil => trivial
  | cons name rest => exact .inl rfl

theorem Json.EqualBut.symm {place : List String} {value other : Option Json} (alike : EqualBut place value other) :
    EqualBut place other value := by
  induction place generalizing value other with
  | nil => trivial
  | cons name rest ih =>
    rcases alike with same | ⟨members, others, here, there, apart, below⟩
    · exact .inl same.symm
    · exact .inr ⟨others, members, there, here, fun key different => (apart key different).symm, ih below⟩

theorem Json.EqualBut.eq_none_iff {place : List String} {value other : Option Json}
    (alike : EqualBut place value other) (nonempty : place ≠ []) : value = none ↔ other = none := by
  cases place with
  | nil => exact absurd rfl nonempty
  | cons name rest =>
    obtain same | ⟨_, _, here, there, _⟩ := alike
    · rw [same]
    · simp [here, there]

namespace Body
variable {body other : Body} {place : List String} {name : String} {rest : List String}

theorem equalBut_cons : EqualBut (name :: rest) body other ↔
    (∀ key, key ≠ name → body.find? key = other.find? key) ∧
      Json.EqualBut rest (body.find? name) (other.find? name) := by
  constructor
  · rintro (same | ⟨_, _, here, there, apart, below⟩)
    · cases same
      exact ⟨fun _ _ => rfl, .refl rest _⟩
    · cases here
      cases there
      exact ⟨apart, below⟩
  · rintro ⟨apart, below⟩
    exact .inr ⟨body, other, rfl, rfl, apart, below⟩

/-- Values that differ at most below them are entered alike. -/
theorem equalBut_entered {value also : Option Json} (nonempty : place ≠ [])
    (alike : Json.EqualBut place value also) : EqualBut place (entered value) (entered also) := by
  cases place with
  | nil => exact absurd rfl nonempty
  | cons name rest =>
    rcases alike with rfl | ⟨members, others, rfl, rfl, apart, below⟩
    · exact .refl _ _
    · exact equalBut_cons.mpr ⟨apart, below⟩

/-! ### Writing to both -/

/-- What writes under one key only, and there from what was there, keeps bodies that differ at a
place so if it does so with the values on the way. -/
theorem EqualBut.of_find? {written also : Body} {first : String} (step : Option Json → Option Json)
    (alike : EqualBut (name :: rest) body other)
    (here : ∀ key, written.find? key = if first = key then step (body.find? first) else body.find? key)
    (there : ∀ key, also.find? key = if first = key then step (other.find? first) else other.find? key)
    (below : first = name → Json.EqualBut rest (body.find? first) (other.find? first) →
      Json.EqualBut rest (step (body.find? first)) (step (other.find? first))) :
    EqualBut (name :: rest) written also := by
  obtain ⟨apart, within⟩ := equalBut_cons.mp alike
  apply equalBut_cons.mpr
  by_cases same : first = name
  · subst same
    constructor
    · intro key different
      rw [here, there, if_neg (Ne.symm different), if_neg (Ne.symm different), apart key different]
    · rw [here, there, if_pos rfl, if_pos rfl]
      exact below rfl within
  · constructor
    · intro key different
      rw [here, there, apart key different, apart first same]
    · rwa [here, there, if_neg same, if_neg same]

theorem EqualBut.put (alike : EqualBut place body other) (value : Json) (names : List String) :
    EqualBut place (body.put value names) (other.put value names) := by
  induction names generalizing place body other with
  | nil => exact alike
  | cons first later ih =>
    cases place with
    | nil => trivial
    | cons name rest =>
      apply EqualBut.of_find? (fun held => some (if later = [] then value else .object ((entered held).put value later)))
        alike (find?_put_cons body value first later) (find?_put_cons other value first later)
      intro _ below
      by_cases last : later = []
      · simp only [last, if_true]
        exact .refl _ _
      · simp only [last, if_false]
        by_cases here : rest = []
        · subst here
          trivial
        · exact ih (equalBut_entered here below)

/-- Nothing is left where a value itself is taken away. -/
theorem bind_without_nil (value : Option Json) : value.bind (without · []) = none := by
  cases value <;> rfl

theorem equalBut_without {value also : Option Json}
    (keeps : ∀ {members others}, EqualBut place members others →
      EqualBut place (members.drop (name :: rest)) (others.drop (name :: rest)))
    (alike : Json.EqualBut place value also) :
    Json.EqualBut place (value.bind (without · (name :: rest))) (also.bind (without · (name :: rest))) := by
  cases place with
  | nil => trivial
  | cons first later =>
    rcases alike with rfl | ⟨members, others, rfl, rfl, apart, below⟩
    · exact .refl _ _
    · exact keeps (equalBut_cons.mpr ⟨apart, below⟩)

theorem EqualBut.drop (alike : EqualBut place body other) (names : List String) :
    EqualBut place (body.drop names) (other.drop names) := by
  induction names generalizing place body other with
  | nil => exact alike
  | cons first later ih =>
    cases place with
    | nil => trivial
    | cons name rest =>
      apply EqualBut.of_find? (fun held => held.bind (without · later))
        alike (find?_drop_cons body first later) (find?_drop_cons other first later)
      intro _ below
      cases later with
      | nil =>
        rw [bind_without_nil, bind_without_nil]
        exact .refl _ _
      | cons next more => exact equalBut_without ih below

/-! ### Taking the value away -/

/-- An object, or something of which nothing can be taken away. -/
theorem object_or_kept (value : Option Json) : (∃ members, value = some (.object members)) ∨
    (∀ members, value ≠ some (.object members)) ∧
      ∀ name rest, value.bind (without · (name :: rest)) = value := by
  cases value with
  | none => exact .inr ⟨by simp, fun _ _ => rfl⟩
  | some held =>
    cases held with
    | object members => exact .inl ⟨members, rfl⟩
    | _ => exact .inr ⟨by simp, fun _ _ => rfl⟩

theorem without_eq_iff {value also : Option Json}
    (same : ∀ members others : Body, value = some (.object members) → also = some (.object others) →
      (members.drop (name :: rest) = others.drop (name :: rest) ↔ EqualBut (name :: rest) members others)) :
    value.bind (without · (name :: rest)) = also.bind (without · (name :: rest)) ↔
      Json.EqualBut (name :: rest) value also := by
  rcases object_or_kept value with ⟨members, rfl⟩ | ⟨noObject, kept⟩
  · rcases object_or_kept also with ⟨others, rfl⟩ | ⟨noObject, kept⟩
    · rw [← EqualBut, ← same members others rfl rfl]
      simp [without, Json.members?]
    · rw [kept]
      constructor
      · intro here
        exact absurd here.symm (noObject _)
      · rintro (here | ⟨_, _, _, there, _⟩)
        · exact absurd here.symm (noObject _)
        · exact absurd there (noObject _)
  · rw [kept]
    rcases object_or_kept also with ⟨others, rfl⟩ | ⟨_, also⟩
    · constructor
      · intro here
        exact absurd here (noObject _)
      · rintro (here | ⟨_, _, there, _⟩)
        · exact absurd here (noObject _)
        · exact absurd there (noObject _)
    · rw [also]
      constructor
      · exact .inl
      · rintro (here | ⟨_, _, there, _⟩)
        · exact here
        · exact absurd there (noObject _)

/-- Bodies are the same without the value at a place if they differ at most there. -/
theorem drop_eq_iff (nonempty : place ≠ []) (ordered : (Json.object body).Ordered)
    (also : (Json.object other).Ordered) :
    body.drop place = other.drop place ↔ EqualBut place body other := by
  induction place generalizing body other with
  | nil => exact absurd rfl nonempty
  | cons name rest ih =>
    have below : (body.find? name).bind (without · rest) = (other.find? name).bind (without · rest) ↔
        Json.EqualBut rest (body.find? name) (other.find? name) := by
      cases rest with
      | nil =>
        refine ⟨fun _ => trivial, fun _ => ?_⟩
        cases body.find? name <;> cases other.find? name <;> rfl
      | cons next more =>
        apply without_eq_iff
        intro members others here there
        exact ih (by simp) (ordered_of_find? ordered here) (ordered_of_find? also there)
    rw [equalBut_cons, ← below]
    constructor
    · intro same
      have found (key : String) := congrArg (Keyed.find? · key) same
      simp only [find?_drop_cons] at found
      constructor
      · intro key different
        simpa only [Ne.symm different, if_false] using found key
      · simpa only [if_true] using found name
    · rintro ⟨apart, here⟩
      apply Keyed.Ordered.ext (ordered_drop ordered _).1 (ordered_drop also _).1
      intro key
      rw [find?_drop_cons, find?_drop_cons]
      by_cases same : name = key
      · simp only [same, if_true]
        rwa [← same]
      · simp only [same, if_false]
        exact apart key (Ne.symm same)

/-- What is left when the value at a place is taken away differs from the body only there. -/
theorem equalBut_drop (body : Body) (place : List String) : EqualBut place (body.drop place) body := by
  induction place generalizing body with
  | nil => trivial
  | cons name rest ih =>
    apply equalBut_cons.mpr
    constructor
    · intro key different
      rw [find?_drop_cons, if_neg (Ne.symm different)]
    · rw [find?_drop_cons, if_pos rfl]
      cases rest with
      | nil => trivial
      | cons next more =>
        rcases object_or_kept (body.find? name) with ⟨members, held⟩ | ⟨_, kept⟩
        · rw [held]
          exact ih members
        · rw [kept]
          exact .refl _ _

theorem drop_drop (nonempty : place ≠ []) (ordered : (Json.object body).Ordered) :
    (body.drop place).drop place = body.drop place :=
  (drop_eq_iff nonempty (ordered_drop ordered place) ordered).mpr (equalBut_drop body place)

end Body

end Dossier
