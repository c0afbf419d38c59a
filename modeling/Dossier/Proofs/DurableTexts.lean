import Dossier.Proofs.StoredTexts
import Mathlib.Data.Nat.Digits.Defs

/-! Values that are read back from their texts as they are. Whole numbers always are; a double
is if its text denotes it, and a value if its doubles are and it does not nest too deeply. -/
namespace Dossier

/-! ### Whole numbers -/

theorem le_ofDigitChars (start : Nat) (digits : List Char) : start ≤ Nat.ofDigitChars 10 digits start := by
  induction digits generalizing start with
  | nil => exact Nat.le_refl _
  | cons c rest ih =>
    rw [Nat.ofDigitChars_cons]
    exact Nat.le_trans (by omega) (ih _)

/-- Digits whose value fits are gathered without loss. -/
theorem Numeral.gather_of_lt {start : Nat} {digits : List Char}
    (fits : Nat.ofDigitChars 10 digits start < significandBound) :
    gather start digits = (Nat.ofDigitChars 10 digits start, []) := by
  induction digits generalizing start with
  | nil => rfl
  | cons c rest ih =>
    have digit : '0'.toNat = 48 := rfl
    rw [Nat.ofDigitChars_cons, Nat.mul_comm, digit] at fits ⊢
    have next : start * 10 + (c.toNat - 48) < significandBound :=
      Nat.lt_of_le_of_lt (le_ofDigitChars _ rest) fits
    rw [gather, if_pos next]
    exact ih fits

theorem Spelling.parts_ofNat {n : Nat} (small : n < Numeral.significandBound) (negative : Bool) :
    ((Spelling.ofNat n).numeral negative).parts = (n, 0) := by
  have value : Nat.ofDigitChars 10 (Nat.toDigits 10 n) 0 = n := Nat.ofDigitChars_ten_toDigits
  have gathered : Numeral.gather 0 (Nat.toDigits 10 n) = (n, []) := by
    rw [Numeral.gather_of_lt (by rwa [value]), value]
  simp [Numeral.parts, Spelling.ofNat, Spelling.numeral, Spelling.exponent?, gathered, Numeral.gather]

theorem Spelling.ofNumeral?_ofNat {n : Nat} {negative : Bool} {word : Whole}
    (value : word.value = if negative then -(n : Int) else n) (signed : negative = true → n ≠ 0) :
    Number.ofNumeral? ((Spelling.ofNat n).numeral negative) = some (.whole word) := by
  have small : n < Numeral.significandBound := by
    have inRange := word.inRange
    rw [value] at inRange
    unfold Numeral.significandBound
    split at inRange <;> omega
  have found : Whole.ofInt? (if negative then -(n : Int) else n) = some word := by
    rw [← value, Whole.ofInt?, dif_pos word.inRange]
  have notMinusZero : (negative && n == 0) = false := by
    cases negative with
    | false => rfl
    | true => simpa using signed rfl
  have bare : ((Spelling.ofNat n).numeral negative).bare = true := rfl
  have sign : ((Spelling.ofNat n).numeral negative).negative = negative := rfl
  simp [Number.ofNumeral?, parts_ofNat small, bare, sign, notMinusZero, found]

/-- Whole numbers are read back as they are. -/
theorem Number.reread_whole (word : Whole) : (Number.whole word).reread = some (.whole word) := by
  have nothing : Ends [] := by simp [Ends]
  obtain ⟨n, negative, text, value, signed⟩ := exists_text_whole word
  have alone := next?_spelled (Spelling.ofNat n) negative nothing
  rw [List.append_nil, ← text, Spelling.ofNumeral?_ofNat value signed] at alone
  simp only [Number.reread, alone]

/-! ### Values -/

/-- A double whose text denotes it, or a whole number. -/
def Number.Durable : Number → Prop
  | .whole _ => True
  | .double d => (Number.double d).reread = some (.double d)

theorem Number.Durable.reread {n : Number} (durable : n.Durable) : n.reread = some n := by
  cases n with
  | whole word => exact reread_whole word
  | double d => exact durable

instance : DecidablePred Number.Durable
  | .whole _ => isTrue trivial
  | .double d => inferInstanceAs (Decidable ((Number.double d).reread = some (.double d)))

namespace Json

mutual
/-- The texts of all doubles in the value denote them. -/
def Durable : Json → Prop
  | .null | .bool _ | .text _ => True
  | .number n => n.Durable
  | .array items => DurableItems items
  | .object members => DurableMembers members
def DurableItems : List Json → Prop
  | [] => True
  | item :: rest => item.Durable ∧ DurableItems rest
def DurableMembers : List (String × Json) → Prop
  | [] => True
  | (_, value) :: rest => value.Durable ∧ DurableMembers rest
end

mutual
def decideDurable : (value : Json) → Decidable value.Durable
  | .null | .bool _ | .text _ => isTrue trivial
  | .number n => inferInstanceAs (Decidable n.Durable)
  | .array items => decideDurableItems items
  | .object members => decideDurableMembers members
def decideDurableItems : (items : List Json) → Decidable (DurableItems items)
  | [] => isTrue trivial
  | item :: rest =>
    have := decideDurable item
    have := decideDurableItems rest
    inferInstanceAs (Decidable (item.Durable ∧ DurableItems rest))
def decideDurableMembers : (members : List (String × Json)) → Decidable (DurableMembers members)
  | [] => isTrue trivial
  | (_, value) :: rest =>
    have := decideDurable value
    have := decideDurableMembers rest
    inferInstanceAs (Decidable (value.Durable ∧ DurableMembers rest))
end

instance : DecidablePred Durable := decideDurable

theorem durableItems_iff {items : List Json} : DurableItems items ↔ ∀ item ∈ items, item.Durable := by
  induction items with
  | nil => simp [DurableItems]
  | cons item rest ih => simp [DurableItems, ih]

theorem durableMembers_iff {members : List (String × Json)} :
    DurableMembers members ↔ ∀ entry ∈ members, entry.2.Durable := by
  induction members with
  | nil => simp [DurableMembers]
  | cons first rest ih =>
    obtain ⟨key, value⟩ := first
    simp [DurableMembers, ih]

theorem nestingItems_le_iff {items : List Json} {levels : Nat} :
    nestingItems items ≤ levels ↔ ∀ item ∈ items, item.nesting ≤ levels := by
  induction items with
  | nil => simp [nestingItems]
  | cons item rest ih => simp [nestingItems, ih]

theorem nestingMembers_le_iff {members : List (String × Json)} {levels : Nat} :
    nestingMembers members ≤ levels ↔ ∀ entry ∈ members, entry.2.nesting ≤ levels := by
  induction members with
  | nil => simp [nestingMembers]
  | cons first rest ih =>
    obtain ⟨key, value⟩ := first
    simp [nestingMembers, ih]

mutual
/-- Within the levels that may be nested a value with durable doubles is read back as it is. -/
theorem reread_of_durable : (value : Json) → value.Durable → ∀ levels, value.nesting ≤ levels →
    value.reread levels = some value
  | .null | .bool _ | .text _ => fun _ _ _ => rfl
  | .number n => fun durable _ _ => by rw [Json.reread, Number.Durable.reread durable, Option.map_some]
  | .array items => by
    intro durable levels shallow
    cases levels with
    | zero => cases shallow
    | succ levels =>
      have inside := rereadItems_of_durable items durable levels (Nat.le_of_succ_le_succ shallow)
      rw [Json.reread, inside, Option.map_some]
  | .object members => by
    intro durable levels shallow
    cases levels with
    | zero => cases shallow
    | succ levels =>
      have inside := rereadMembers_of_durable members durable levels (Nat.le_of_succ_le_succ shallow)
      rw [Json.reread, inside, Option.map_some]
theorem rereadItems_of_durable : (items : List Json) → DurableItems items → ∀ levels,
    nestingItems items ≤ levels → rereadItems levels items = some items
  | [] => fun _ _ _ => rfl
  | item :: rest => by
    intro durable levels shallow
    obtain ⟨own, others⟩ := Nat.max_le.mp shallow
    simp [rereadItems, reread_of_durable item durable.1 levels own,
      rereadItems_of_durable rest durable.2 levels others]
theorem rereadMembers_of_durable : (members : List (String × Json)) → DurableMembers members → ∀ levels,
    nestingMembers members ≤ levels → rereadMembers levels members = some members
  | [] => fun _ _ _ => rfl
  | (key, value) :: rest => by
    intro durable levels shallow
    obtain ⟨own, others⟩ := Nat.max_le.mp shallow
    simp [rereadMembers, reread_of_durable value durable.1 levels own,
      rereadMembers_of_durable rest durable.2 levels others]
end

mutual
/-- What is read back nests no deeper than it may. -/
theorem nesting_le_of_reread : (value : Json) → ∀ levels read, value.reread levels = some read →
    value.nesting ≤ levels
  | .null | .bool _ | .text _ | .number _ => fun _ _ _ => Nat.zero_le _
  | .array items => by
    intro levels _ found
    cases levels with
    | zero => cases found
    | succ levels =>
      obtain ⟨inner, inside, _⟩ := Option.map_eq_some_iff.mp found
      exact Nat.succ_le_succ (nestingItems_le_of_reread items levels inner inside)
  | .object members => by
    intro levels _ found
    cases levels with
    | zero => cases found
    | succ levels =>
      obtain ⟨inner, inside, _⟩ := Option.map_eq_some_iff.mp found
      exact Nat.succ_le_succ (nestingMembers_le_of_reread members levels inner inside)
theorem nestingItems_le_of_reread : (items : List Json) → ∀ levels read,
    rereadItems levels items = some read → nestingItems items ≤ levels
  | [] => fun _ _ _ => Nat.zero_le _
  | item :: rest => by
    intro levels _ found
    simp only [rereadItems, Option.bind_eq_bind, Option.bind_eq_some_iff] at found
    obtain ⟨first, own, others, later, _⟩ := found
    exact Nat.max_le.mpr ⟨nesting_le_of_reread item levels first own,
      nestingItems_le_of_reread rest levels others later⟩
theorem nestingMembers_le_of_reread : (members : List (String × Json)) → ∀ levels read,
    rereadMembers levels members = some read → nestingMembers members ≤ levels
  | [] => fun _ _ _ => Nat.zero_le _
  | (key, value) :: rest => by
    intro levels _ found
    simp only [rereadMembers, Option.bind_eq_bind, Option.bind_eq_some_iff] at found
    obtain ⟨first, own, others, later, _⟩ := found
    exact Nat.max_le.mpr ⟨nesting_le_of_reread value levels first own,
      nestingMembers_le_of_reread rest levels others later⟩
end

mutual
/-- What is read back as it is has durable doubles. -/
theorem durable_of_reread : (value : Json) → ∀ levels, value.reread levels = some value → value.Durable
  | .null | .bool _ | .text _ | .number (.whole _) => fun _ _ => trivial
  | .number (.double d) => by
    intro _ found
    obtain ⟨_, own, same⟩ := Option.map_eq_some_iff.mp found
    cases same
    exact own
  | .array items => by
    intro levels found
    cases levels with
    | zero => cases found
    | succ levels =>
      obtain ⟨_, inside, same⟩ := Option.map_eq_some_iff.mp found
      cases same
      exact durableItems_of_reread items levels inside
  | .object members => by
    intro levels found
    cases levels with
    | zero => cases found
    | succ levels =>
      obtain ⟨_, inside, same⟩ := Option.map_eq_some_iff.mp found
      cases same
      exact durableMembers_of_reread members levels inside
theorem durableItems_of_reread : (items : List Json) → ∀ levels, rereadItems levels items = some items →
    DurableItems items
  | [] => fun _ _ => trivial
  | item :: rest => by
    intro levels found
    simp only [rereadItems, Option.bind_eq_bind, Option.bind_eq_some_iff] at found
    obtain ⟨_, own, _, later, same⟩ := found
    cases same
    exact ⟨durable_of_reread item levels own, durableItems_of_reread rest levels later⟩
theorem durableMembers_of_reread : (members : List (String × Json)) → ∀ levels,
    rereadMembers levels members = some members → DurableMembers members
  | [] => fun _ _ => trivial
  | (key, value) :: rest => by
    intro levels found
    simp only [rereadMembers, Option.bind_eq_bind, Option.bind_eq_some_iff] at found
    obtain ⟨_, own, _, later, same⟩ := found
    cases same
    exact ⟨durable_of_reread value levels own, durableMembers_of_reread rest levels later⟩
end

/-- Members are read back as they are exactly if they nest no deeper than they may and their
doubles are durable. -/
theorem rereadMembers_eq_self_iff {members : List (String × Json)} {levels : Nat} :
    rereadMembers levels members = some members ↔ nestingMembers members ≤ levels ∧ DurableMembers members := by
  constructor
  · intro found
    exact ⟨nestingMembers_le_of_reread members levels members found, durableMembers_of_reread members levels found⟩
  · rintro ⟨shallow, durable⟩
    exact rereadMembers_of_durable members durable levels shallow

end Json
end Dossier
