import Dossier.Proofs.CellOrder
import Dossier.Proofs.HiddenPaths
import Mathlib.Data.Char

/-! Paths that the store reads as they are written. It sees of such a field what stands at its
path, as long as keys do not break off. -/
namespace Dossier

/-- The store sees of a field what is to be seen of it. -/
def Document.Shows (document : Document) (field : String) : Prop :=
  Cell.ofField document field = .ok (document.cell field)

mutual
/-- No key on the way down through objects has a character of code zero. -/
def Json.HasWholeKeys : Json → Prop
  | .object members => MembersHaveWholeKeys members
  | _ => True
def Json.MembersHaveWholeKeys : List (String × Json) → Prop
  | [] => True
  | (key, value) :: rest => '\x00' ∉ key.toList ∧ value.HasWholeKeys ∧ MembersHaveWholeKeys rest
end

namespace KeyPath

/-- A segment without quotes, backslashes and characters of code zero. -/
def IsLiteral (segment : String) : Prop := ∀ c ∈ segment.toList, c ≠ '"' ∧ c ≠ '\\' ∧ c ≠ '\x00'

instance : DecidablePred IsLiteral := fun segment => List.decidableBAll _ segment.toList

theorem readWithin_eq_map {characters : List Char} (literal : ∀ c ∈ characters, c ≠ '\\') :
    readWithin characters.length characters = characters.map (some ·.toNat) := by
  induction characters with
  | nil => rfl
  | cons c rest ih =>
    have first := literal c List.mem_cons_self
    rw [List.length_cons, readWithin, List.map_cons]
    · rw [ih fun other member => literal other (List.mem_cons_of_mem _ member)]
    · exact fun same => absurd same first

/-- No two characters are the halves of a pair of surrogates. -/
theorem join_characters (characters : List Char) :
    join (characters.map (some ·.toNat)) = characters.map Char.toNat := by
  induction characters with
  | nil => rfl
  | cons c rest ih =>
    cases rest with
    | nil => rfl
    | cons next more =>
      have whole : ¬ (0xD800 ≤ c.toNat ∧ c.toNat < 0xDC00 ∧ 0xDC00 ≤ next.toNat ∧ next.toNat < 0xE000) := by
        have valid : c.toNat < 0xD800 ∨ 0xDFFF < c.toNat ∧ c.toNat < 0x110000 := c.valid
        omega
      rw [List.map_cons, List.map_cons, join, if_neg whole]
      exact congrArg (c.toNat :: ·) ih

theorem visible_characters {characters : List Char} (whole : '\x00' ∉ characters) :
    visible (characters.map Char.toNat) = characters.map Char.toNat := by
  apply List.takeWhile_eq_self_iff.mpr
  intro code member
  obtain ⟨c, listed, rfl⟩ := List.mem_map.mp member
  have other : c ≠ '\x00' := fun same => whole (same ▸ listed)
  simpa using fun zero => other (Char.toNat_inj.mp zero)

theorem ofSegment_of_literal {segment : String} (literal : IsLiteral segment) :
    Step.ofSegment segment = .member (segment.toList.map Char.toNat) := by
  have unquoted : segment.toList.filter (· ≠ '"') = segment.toList :=
    List.filter_eq_self.mpr fun c member => by simpa using (literal c member).1
  have whole : '\x00' ∉ segment.toList := fun member => (literal _ member).2.2 rfl
  unfold Step.ofSegment
  rw [unquoted, if_neg (by simpa using whole), readWithin_eq_map fun c member => (literal c member).2.1,
    join_characters, visible_characters whole]

theorem isNamed_iff {key name : String} (whole : '\x00' ∉ key.toList) :
    isNamed (name.toList.map Char.toNat) key = true ↔ key = name := by
  rw [isNamed, visible_characters whole, beq_iff_eq]
  constructor
  · intro same
    exact String.toList_injective (List.map_injective_iff.mpr (fun _ _ => Char.toNat_inj.mp) same)
  · rintro rfl
    rfl

theorem entered?_of_wholeKeys {members : Body} (whole : Json.MembersHaveWholeKeys members) (name : String) :
    entered? (name.toList.map Char.toNat) members = members.find? name := by
  induction members with
  | nil => rfl
  | cons member rest ih =>
    obtain ⟨key, value⟩ := member
    obtain ⟨own, _, later⟩ := whole
    by_cases same : key = name
    · subst same
      have named : isNamed (key.toList.map Char.toNat) key = true := (isNamed_iff own).mpr rfl
      simp [entered?, named, Keyed.find?]
    · have other : ¬ isNamed (name.toList.map Char.toNat) key = true := fun named => same ((isNamed_iff own).mp named)
      have below := ih later
      simp only [entered?] at below
      simp [entered?, other, Keyed.find?, same, below]

theorem hasWholeKeys_of_find? {members : Body} (whole : Json.MembersHaveWholeKeys members) {name : String}
    {value : Json} (found : members.find? name = some value) : value.HasWholeKeys := by
  induction members with
  | nil => cases found
  | cons member rest ih =>
    obtain ⟨key, held⟩ := member
    obtain ⟨_, own, later⟩ := whole
    rw [Keyed.find?] at found
    split at found
    · cases found
      exact own
    · exact ih later found

/-- Literal segments lead where the names lead. -/
theorem follow_of_literal {segments : List String} (literal : ∀ segment ∈ segments, IsLiteral segment)
    {value : Json} (whole : value.HasWholeKeys) :
    follow (segments.map Step.ofSegment) value = .ok (value.under? segments) := by
  induction segments generalizing value with
  | nil => rfl
  | cons name rest ih =>
    have later : ∀ segment ∈ rest, IsLiteral segment := fun segment member =>
      literal segment (List.mem_cons_of_mem _ member)
    rw [List.map_cons, ofSegment_of_literal (literal name List.mem_cons_self)]
    cases value with
    | object members =>
      rw [Json.HasWholeKeys] at whole
      rw [follow_member, entered?_of_wholeKeys whole name]
      change _ = Except.ok ((Keyed.find? members name).bind (·.under? rest))
      cases found : Keyed.find? members name with
      | none => rfl
      | some inner => exact ih later (hasWholeKeys_of_find? whole found)
    | _ => rfl

end KeyPath

theorem Document.shows_idKey (document : Document) : document.Shows idKey := by
  simp [Shows, Cell.ofField, cell, valueAt?, Cell.ofValue, Cell.ofJson]

/-- Of a literal path the store sees what stands there. -/
theorem Document.shows_of_literal {document : Document} {field : String}
    (literal : ∀ segment ∈ Text.segments field, KeyPath.IsLiteral segment)
    (whole : (Json.object document.body).HasWholeKeys) : document.Shows field := by
  by_cases same : field = idKey
  · exact same ▸ document.shows_idKey
  · unfold Shows Cell.ofField cell valueAt?
    rw [if_neg same, if_neg same, foldl_descend, KeyPath.steps, KeyPath.follow_of_literal literal whole]
    cases (Json.object document.body).under? (Text.segments field) <;> rfl

end Dossier
