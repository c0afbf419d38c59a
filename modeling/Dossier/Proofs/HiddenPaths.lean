import Dossier.Store.KeyPath
import Dossier.Proofs.HiddenPlaces
import Dossier.Proofs.SameValues
import Dossier.Proofs.StoreRows

/-! What is seen of bodies that differ at most at one place: how they are read back, whether
they change, and where the steps of the store lead in them. -/
namespace Dossier

/-! ### Reading back -/

theorem Body.EqualBut.reread {levels : Nat} {place : List String} {body other read also : Body}
    (alike : EqualBut place body other) (first : Json.rereadMembers levels body = some read)
    (second : Json.rereadMembers levels other = some also) : EqualBut place read also := by
  induction place generalizing levels body other read also with
  | nil => trivial
  | cons name rest ih =>
    obtain ⟨apart, below⟩ := equalBut_cons.mp alike
    -- What is read back at a key depends on the value there alone.
    have decided {key : String} (same : body.find? key = other.find? key) :
        read.find? key = also.find? key := by
      rcases Json.find?_of_rereadMembers first key with ⟨here, none⟩ | ⟨_, _, here, there, own⟩
      · rcases Json.find?_of_rereadMembers second key with ⟨_, gone⟩ | ⟨_, _, kept, _, _⟩
        · rw [none, gone]
        · rw [← same, here] at kept
          cases kept
      · rcases Json.find?_of_rereadMembers second key with ⟨kept, _⟩ | ⟨_, _, kept, found, again⟩
        · rw [← same, here] at kept
          cases kept
        · rw [← same, here] at kept
          cases kept
          rw [there, found, ← own, again]
    apply equalBut_cons.mpr
    refine ⟨fun key different => decided (apart key different), ?_⟩
    cases rest with
    | nil => trivial
    | cons next more =>
      rcases below with same | ⟨members, others, held, kept, inside⟩
      · exact .inl (decided same)
      · rcases Json.find?_of_rereadMembers first name with ⟨absent, _⟩ | ⟨_, _, here, there, own⟩
        · cases held.symm.trans absent
        · rcases Json.find?_of_rereadMembers second name with ⟨absent, _⟩ | ⟨_, _, also, found, again⟩
          · cases kept.symm.trans absent
          · cases held.symm.trans here
            cases kept.symm.trans also
            cases levels with
            | zero => cases own
            | succ levels =>
              obtain ⟨_, left, rfl⟩ := Option.map_eq_some_iff.mp own
              obtain ⟨_, right, rfl⟩ := Option.map_eq_some_iff.mp again
              rw [there, found]
              exact ih (equalBut_cons.mpr inside) left right

/-- Of a value that can be read back as deep as may be, or of none. -/
def Json.CanReread (levels : Nat) (value : Option Json) : Prop :=
  ∀ held ∈ value, (held.reread levels).isSome

theorem Json.isSome_rereadMembers {levels : Nat} {members : List (String × Json)} :
    (rereadMembers levels members).isSome ↔ ∀ entry ∈ members, (entry.2.reread levels).isSome := by
  induction members with
  | nil => simp [rereadMembers]
  | cons first rest ih =>
    obtain ⟨key, value⟩ := first
    rw [List.forall_mem_cons, ← ih]
    cases own : value.reread levels <;> cases later : rereadMembers levels rest <;>
      simp [rereadMembers, own, later]

/-- What a password may be stored as. -/
def Json.IsPlain : Json → Prop
  | .null | .text _ => True
  | _ => False

/-- If one value can be read back, so can another that differs from it at most at a place where
it has no more than a text. -/
theorem Json.EqualBut.canReread {levels : Nat} {place : List String} {value other : Option Json}
    (ordered : ∀ held ∈ other, held.Ordered) (alike : EqualBut place value other)
    (plain : ∀ held ∈ other.bind (·.under? place), held.IsPlain) (can : CanReread levels value) :
    CanReread levels other := by
  induction place generalizing levels value other with
  | nil =>
    intro held here
    have own : held.IsPlain := plain held (by simpa [under?] using here)
    cases held with
    | null => rfl
    | text => rfl
    | _ => cases own
  | cons name rest ih =>
    obtain same | ⟨members, others, rfl, rfl, apart, below⟩ := alike
    · exact same ▸ can
    · have inOrder := ordered _ rfl
      rintro _ ⟨⟩
      cases levels with
      | zero => cases can _ rfl
      | succ levels =>
        have each : ∀ entry ∈ members, (entry.2.reread levels).isSome := by
          have whole := can _ rfl
          rw [reread, Option.isSome_map] at whole
          exact isSome_rereadMembers.mp whole
        rw [reread, Option.isSome_map, isSome_rereadMembers]
        intro entry member
        have held : Keyed.find? others entry.1 = some entry.2 := inOrder.1.find?_eq_some.mpr member
        by_cases here : entry.1 = name
        · rw [here] at held
          refine ih (fun inner found => Body.ordered_of_find? inOrder found) below plain ?_ entry.2 held
          intro inner found
          exact each _ (Keyed.mem_of_find? found)
        · rw [← apart _ here] at held
          exact each _ (Keyed.mem_of_find? held)

/-! ### Changes -/

theorem Json.EqualBut.of_object {name : String} {rest : List String} {members : Body} {value : Option Json}
    (alike : EqualBut (name :: rest) (some (.object members)) value) :
    ∃ others : Body, value = some (.object others) ∧
      (∀ key, key ≠ name → members.find? key = others.find? key) ∧
        EqualBut rest (members.find? name) (others.find? name) := by
  rcases alike with rfl | ⟨_, others, here, rfl, apart, below⟩
  · exact ⟨members, rfl, fun _ _ => rfl, .refl _ _⟩
  · cases here
    exact ⟨others, rfl, apart, below⟩

/-- If a value is the same after a change, so is one that differs from it at most at a place,
before and after, and is unchanged there. -/
theorem Json.EqualBut.sameAt {place : List String} {after before later earlier : Option Json}
    (ordered : ∀ value ∈ later, value.Ordered) (orderedToo : ∀ value ∈ earlier, value.Ordered)
    (alike : EqualBut place after later) (also : EqualBut place before earlier)
    (unchanged : later.bind (·.under? place) = earlier.bind (·.under? place))
    (same : SameAt after before) : SameAt later earlier := by
  induction place generalizing after before later earlier with
  | nil =>
    have equal : later = earlier := by simpa [under?] using unchanged
    rw [equal]
    exact .refl earlier
  | cons name rest ih =>
    cases same with
    | none =>
      obtain rfl | ⟨_, _, absent, _⟩ := alike
      · obtain rfl | ⟨_, _, absent, _⟩ := also
        · exact .none
        · cases absent
      · cases absent
    | @some value other own =>
      cases value with
      | object members =>
        cases other with
        | object others =>
          obtain ⟨within, rfl, apart, below⟩ := alike.of_object
          obtain ⟨inside, rfl, away, under⟩ := also.of_object
          have left := ordered _ rfl
          have right := orderedToo _ rfl
          refine .some ((sameMembers_iff left.1 right.1).mpr fun key => ?_)
          have equal := sameAt_of_sameMembers own key
          by_cases here : key = name
          · subst here
            exact ih (fun _ found => Body.ordered_of_find? left found)
              (fun _ found => Body.ordered_of_find? right found) below under unchanged equal
          · rwa [← apart key here, ← away key here]
        | _ => cases own
      | _ =>
        obtain rfl | ⟨_, _, absent, _⟩ := alike
        · obtain rfl | ⟨_, _, here, _⟩ := also
          · exact .some own
          · cases here
            cases own
        · cases absent

/-! ### Steps -/

namespace KeyPath

/-- Whether some steps can lead to a place, or to what is above it or below it. -/
def Reaches : List Step → (place : List String) → Prop
  | [], _ => True
  | .broken :: _, [] => True
  | .broken :: _, _ :: _ => False
  | .member codes :: rest, [] => (∃ key, isNamed codes key = true) ∧ Reaches rest []
  | .member codes :: rest, name :: more => isNamed codes name = true ∧ Reaches rest more

/-- The value that a step leads to among some members. -/
def entered? (codes : List Nat) (members : Body) : Option Json :=
  (List.find? (fun entry => isNamed codes entry.1) members).map (·.2)

theorem follow_member (codes : List Nat) (rest : List Step) (members : Body) :
    follow (.member codes :: rest) (.object members) = match entered? codes members with
      | some value => follow rest value
      | none => .ok none := by
  rw [follow, entered?]
  cases List.find? (fun entry => isNamed codes entry.1) members <;> rfl

theorem entered?_by_key (codes : List Nat) (members : Body) :
    entered? codes members = (members.keys.find? (isNamed codes)).bind members.find? := by
  rw [entered?, Keyed.find?_by_key, Option.map_bind]
  refine Option.bind_congr fun key _ => ?_
  simp [Option.map_map, Function.comp_def]

/-- A member of another name can be passed over. -/
theorem entered?_erase {codes : List Nat} {name : String} (other : ¬ isNamed codes name = true)
    (members : Body) : entered? codes (members.erase name) = entered? codes members := by
  rw [entered?, Keyed.erase, List.find?_filter, entered?]
  congr 2
  funext entry
  by_cases same : entry.1 = name
  · simp [same, other]
  · simp [same]

/-- Steps that reach nothing below a place lead nowhere. -/
theorem follow_of_not_reaches {steps : List Step} (aside : ¬ Reaches steps []) (value : Json) :
    follow steps value = .ok none := by
  induction steps generalizing value with
  | nil => exact absurd trivial aside
  | cons step rest ih =>
    cases step with
    | broken => exact absurd trivial aside
    | member codes =>
      cases value with
      | object members =>
        rw [follow_member]
        cases entered : entered? codes members with
        | none => rfl
        | some inner =>
          rw [entered?_by_key] at entered
          obtain ⟨key, found, _⟩ := Option.bind_eq_some_iff.mp entered
          exact ih (fun further => aside ⟨⟨key, List.find?_some found⟩, further⟩) inner
      | _ => rfl

theorem ordered_of_entered? {codes : List Nat} {members : Body} {value : Json}
    (ordered : (Json.object members).Ordered) (entered : entered? codes members = some value) :
    value.Ordered := by
  obtain ⟨entry, found, rfl⟩ := Option.map_eq_some_iff.mp entered
  exact (Json.ordered_object_iff.mp ordered).2 entry (List.mem_of_find?_eq_some found)

section
variable {codes : List Nat} {name : String} {rest : List String} {members others : Body}

/-- Where the step leads that is for another member. -/
theorem entered?_of_not_named (named : ¬ isNamed codes name = true) (ordered : members.Ordered)
    (also : others.Ordered) (alike : Body.EqualBut (name :: rest) members others) :
    entered? codes members = entered? codes others := by
  have rested : members.erase name = others.erase name := by
    apply Keyed.Ordered.ext (ordered.erase name) (also.erase name)
    intro key
    rw [Keyed.find?_erase, Keyed.find?_erase]
    by_cases same : name = key
    · simp [same]
    · simp only [same, if_false, (Body.equalBut_cons.mp alike).1 key (Ne.symm same)]
  rw [← entered?_erase named, rested, entered?_erase named]

/-- A step leads to values that differ at most below them, or to none in both. -/
theorem entered?_of_equalBut (nonempty : rest ≠ []) (ordered : members.Ordered) (also : others.Ordered)
    (alike : Body.EqualBut (name :: rest) members others) :
    Json.EqualBut rest (entered? codes members) (entered? codes others) := by
  obtain ⟨apart, below⟩ := Body.equalBut_cons.mp alike
  have found (key : String) : Json.EqualBut rest (members.find? key) (others.find? key) := by
    by_cases same : key = name
    · exact same ▸ below
    · rw [apart key same]
      exact .refl _ _
  have keys : members.keys = others.keys :=
    ordered.keys_eq also fun key => (found key).eq_none_iff nonempty
  rw [entered?_by_key, entered?_by_key, keys]
  cases others.keys.find? (isNamed codes) with
  | none => exact .refl _ _
  | some key => exact found key

end

/-- Steps that do not reach a place lead to the same in values that differ at most there. -/
theorem follow_of_equalBut {steps : List Step} {place : List String} {value other : Json}
    (aside : ¬ Reaches steps place) (ordered : value.Ordered) (also : other.Ordered)
    (alike : Json.EqualBut place (some value) (some other)) : follow steps value = follow steps other := by
  induction steps generalizing place value other with
  | nil => exact absurd (by cases place <;> trivial) aside
  | cons step rest ih =>
    cases step with
    | broken => rfl
    | member codes =>
      cases place with
      | nil => rw [follow_of_not_reaches aside, follow_of_not_reaches aside]
      | cons name more =>
        obtain same | ⟨members, others, here, there, differ⟩ := alike
        · rw [Option.some.inj same]
        · cases here
          cases there
          have bodies : Body.EqualBut (name :: more) members others := Body.equalBut_cons.mpr differ
          rw [follow_member, follow_member]
          by_cases named : isNamed codes name = true
          · have further : ¬ Reaches rest more := fun reaches => aside ⟨named, reaches⟩
            by_cases last : more = []
            · subst last
              cases entered? codes members <;> cases entered? codes others <;>
                simp only [follow_of_not_reaches further]
            · have inner : Json.EqualBut more (entered? codes members) (entered? codes others) :=
                entered?_of_equalBut last ordered.1 also.1 bodies
              cases left : entered? codes members with
              | none =>
                rw [(inner.eq_none_iff last).mp left]
              | some within =>
                cases right : entered? codes others with
                | none => cases left.symm.trans ((inner.eq_none_iff last).mpr right)
                | some inside =>
                  rw [left, right] at inner
                  exact ih further (ordered_of_entered? ordered left) (ordered_of_entered? also right) inner
          · rw [entered?_of_not_named named ordered.1 also.1 bodies]

end KeyPath
end Dossier
