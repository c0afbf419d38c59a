import Dossier.Json.Value
import Dossier.Proofs.KeyedEntries
import Dossier.Proofs.Paths

/-! Values that count as the same though their numbers may be written differently. -/
namespace Dossier.Json

theorem find?_of_sameMembers {members others : List (String × Json)}
    (alike : sameMembers members others = true) (key : String) :
    (Keyed.find? members key = none ∧ Keyed.find? others key = none) ∨
      ∃ value other, Keyed.find? members key = some value ∧ Keyed.find? others key = some other ∧
        value.same other = true := by
  induction members generalizing others with
  | nil =>
    cases others with
    | nil => exact .inl ⟨rfl, rfl⟩
    | cons _ _ => cases alike
  | cons first rest ih =>
    cases others with
    | nil => cases alike
    | cons second more =>
      obtain ⟨name, value⟩ := first
      obtain ⟨also, other⟩ := second
      simp only [sameMembers, Bool.and_eq_true, beq_iff_eq] at alike
      obtain ⟨⟨rfl, own⟩, later⟩ := alike
      by_cases same : name = key
      · exact .inr ⟨value, other, by simp [Keyed.find?, same], by simp [Keyed.find?, same], own⟩
      · simpa [Keyed.find?, same] using ih later

/-- What is at a place in values that are the same is the same. -/
theorem under?_of_same {value other : Json} (alike : value.same other = true) (names : List String) :
    (value.under? names = none ∧ other.under? names = none) ∨
      ∃ inner outer, value.under? names = some inner ∧ other.under? names = some outer ∧
        inner.same outer = true := by
  induction names generalizing value other with
  | nil => exact .inr ⟨value, other, rfl, rfl, alike⟩
  | cons name rest ih =>
    cases value <;> cases other <;> simp only [same, Bool.false_eq_true] at alike
    all_goals try exact .inl ⟨rfl, rfl⟩
    rename_i members others
    simp only [under?, member?, members?, Option.bind_some]
    rcases find?_of_sameMembers alike name with ⟨none, also⟩ | ⟨inner, outer, here, there, own⟩
    · exact .inl ⟨by simp [none], by simp [also]⟩
    · simpa only [here, there, Option.bind_some] using ih own

mutual
theorem same_refl : (value : Json) → value.same value = true
  | .null | .bool _ | .text _ => by simp [same]
  | .number (.whole _) | .number (.double _) => by simp [same, Number.same, Double.sameValue]
  | .array items => sameItems_refl items
  | .object members => sameMembers_refl members
theorem sameItems_refl : (items : List Json) → sameItems items items = true
  | [] => rfl
  | item :: rest => by simp [sameItems, same_refl item, sameItems_refl rest]
theorem sameMembers_refl : (members : List (String × Json)) → sameMembers members members = true
  | [] => rfl
  | (key, value) :: rest => by simp [sameMembers, same_refl value, sameMembers_refl rest]
end

/-- What is at one place in two values, if anything, is the same. -/
def SameAt : Option Json → Option Json → Prop := Option.Rel fun value other => value.same other = true

theorem SameAt.refl (value : Option Json) : SameAt value value := by
  cases value with
  | none => exact .none
  | some held => exact .some (same_refl held)

theorem sameAt_of_sameMembers {members others : Body} (same : sameMembers members others = true)
    (key : String) : SameAt (members.find? key) (others.find? key) := by
  rcases find?_of_sameMembers same key with ⟨here, there⟩ | ⟨_, _, here, there, own⟩
  · rw [here, there]
    exact .none
  · rw [here, there]
    exact .some own

/-- Members in order are the same if they are so under every key. -/
theorem sameMembers_iff {members others : Body} (ordered : members.Ordered) (also : others.Ordered) :
    sameMembers members others = true ↔ ∀ key, SameAt (members.find? key) (others.find? key) := by
  constructor
  · exact sameAt_of_sameMembers
  · intro same
    have keys : members.keys = others.keys := by
      apply ordered.keys_eq also
      intro key
      have own := same key
      generalize members.find? key = value at own
      generalize others.find? key = other at own
      cases own <;> simp
    induction members generalizing others with
    | nil =>
      cases others with
      | nil => rfl
      | cons _ _ => cases keys
    | cons first rest ih =>
      cases others with
      | nil => cases keys
      | cons second more =>
        obtain ⟨name, value⟩ := first
        obtain ⟨key, other⟩ := second
        obtain ⟨rfl, later⟩ := List.cons.inj keys
        have own : SameAt (some value) (some other) := by simpa [Keyed.find?] using same name
        cases own with
        | some equal =>
          have fresh (list : Body) (absent : name ∉ list.keys) : list.find? name = none :=
            Keyed.find?_eq_none.mpr absent
          have rested : sameMembers rest more = true := by
            apply ih (List.pairwise_cons.mp ordered).2 (List.pairwise_cons.mp also).2 _ later
            intro next
            by_cases here : name = next
            · subst here
              rw [fresh rest (List.nodup_cons.mp ordered.nodup).1,
                fresh more (List.nodup_cons.mp also.nodup).1]
              exact .none
            · simpa [Keyed.find?, here] using same next
          simp [sameMembers, equal, rested]

/-! ### Writing -/

section
variable {members others : Body} (alike : sameMembers members others = true)
include alike

theorem sameAt_at? (names : List String) : SameAt (members.at? names) (others.at? names) := by
  cases names with
  | nil => exact .none
  | cons name rest =>
    rw [Body.at?_eq_under? (List.cons_ne_nil _ _), Body.at?_eq_under? (List.cons_ne_nil _ _)]
    have whole : (Json.object members).same (.object others) = true := alike
    rcases under?_of_same whole (name :: rest) with ⟨here, there⟩ | ⟨_, _, here, there, own⟩
    · rw [here, there]
      exact .none
    · rw [here, there]
      exact .some own

/-- The objects under one key in members that are the same, if there are any, are the same. -/
theorem sameMembers_of_find? (key : String) :
    ((members.find? key).bind members? = none ∧ (others.find? key).bind members? = none) ∨
      ∃ inner outer, (members.find? key).bind members? = some inner ∧ (others.find? key).bind members? = some outer ∧
        sameMembers inner outer = true := by
  rcases find?_of_sameMembers alike key with ⟨here, there⟩ | ⟨value, other, here, there, own⟩
  · exact .inl ⟨by rw [here]; rfl, by rw [there]; rfl⟩
  · rw [here, there]
    cases value <;> cases other <;> simp only [same, Bool.false_eq_true] at own
    case object inner outer => exact .inr ⟨inner, outer, rfl, rfl, own⟩
    all_goals exact .inl ⟨rfl, rfl⟩

theorem sameMembers_insert {value other : Json} (own : value.same other = true) (key : String) :
    sameMembers (Keyed.insert members key value) (Keyed.insert others key other) = true := by
  induction members generalizing others with
  | nil =>
    cases others with
    | nil => simp [Keyed.insert, sameMembers, own]
    | cons _ _ => cases alike
  | cons first rest ih =>
    cases others with
    | nil => cases alike
    | cons second more =>
      obtain ⟨name, held⟩ := first
      obtain ⟨also, kept⟩ := second
      have parts := alike
      simp only [sameMembers, Bool.and_eq_true, beq_iff_eq] at parts
      obtain ⟨⟨rfl, here⟩, later⟩ := parts
      simp only [Keyed.insert]
      split
      · simp [sameMembers, own, here, later]
      · split
        · simp [sameMembers, own, later]
        · simp [sameMembers, here, ih later]

theorem sameMembers_erase (key : String) : sameMembers (Keyed.erase members key) (Keyed.erase others key) = true := by
  induction members generalizing others with
  | nil =>
    cases others with
    | nil => rfl
    | cons _ _ => cases alike
  | cons first rest ih =>
    cases others with
    | nil => cases alike
    | cons second more =>
      obtain ⟨name, held⟩ := first
      obtain ⟨also, kept⟩ := second
      simp only [sameMembers, Bool.and_eq_true, beq_iff_eq] at alike
      obtain ⟨⟨rfl, here⟩, later⟩ := alike
      have rested := ih later
      unfold Keyed.erase at rested ⊢
      by_cases gone : name = key
      · simpa [gone] using rested
      · simpa [gone, sameMembers, here] using rested

theorem sameMembers_put {value other : Json} (own : value.same other = true) (names : List String) :
    sameMembers (members.put value names) (others.put other names) = true := by
  induction names generalizing members others with
  | nil => exact alike
  | cons name rest ih =>
    cases rest with
    | nil => exact sameMembers_insert alike own name
    | cons next below =>
      have entered : sameMembers (((members.find? name).bind members?).getD [])
          (((others.find? name).bind members?).getD []) = true := by
        rcases sameMembers_of_find? alike name with ⟨here, there⟩ | ⟨_, _, here, there, inside⟩
        · rw [here, there]
          rfl
        · rw [here, there]
          exact inside
      have within : (Json.object _).same (.object _) = true := ih entered
      exact sameMembers_insert alike within name

theorem sameMembers_drop (names : List String) : sameMembers (members.drop names) (others.drop names) = true := by
  induction names generalizing members others with
  | nil => exact alike
  | cons name rest ih =>
    cases rest with
    | nil => exact sameMembers_erase alike name
    | cons next below =>
      simp only [Body.drop_cons_cons]
      rcases sameMembers_of_find? alike name with ⟨here, there⟩ | ⟨_, _, here, there, inside⟩
      · rw [here, there]
        exact alike
      · rw [here, there]
        have within : (Json.object _).same (.object _) = true := ih inside
        exact sameMembers_insert alike within name

end

end Dossier.Json
