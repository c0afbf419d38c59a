import Dossier.Store.Query
import Mathlib.Order.Compare

/-! The one order that values are compared and sorted in: nothing before numbers before texts,
numbers of all kinds by their exact values. -/
namespace Dossier

namespace Cell

/-- What is seen of a value, if there is one. -/
def ofValue : Option Json → Cell
  | some value => ofJson value
  | Option.none => none

theorem compare_self (cell : Cell) : cell.compare cell = .eq := by
  cases cell with
  | none => rfl
  | number value => exact Std.ReflOrd.compare_self
  | text value => exact Std.ReflOrd.compare_self

theorem eq_of_compare {cell other : Cell} (same : cell.compare other = .eq) : cell = other := by
  cases cell <;> cases other <;> simp only [compare, reduceCtorEq] at same ⊢
  · exact congrArg number (Std.LawfulEqOrd.eq_of_compare same)
  · exact congrArg text (Std.LawfulEqOrd.eq_of_compare same)

theorem compare_swap (cell other : Cell) : cell.compare other = (other.compare cell).swap := by
  cases cell <;> cases other <;> try rfl
  · exact Std.OrientedOrd.eq_swap
  · exact Std.OrientedOrd.eq_swap

instance : Std.OrientedCmp compare where
  eq_swap := compare_swap _ _

instance : Std.TransCmp compare where
  isLE_trans {first second third} below above := by
    cases first <;> cases second <;> cases third <;> simp only [compare] at below above ⊢
    all_goals first | exact Std.TransOrd.isLE_trans below above | contradiction | rfl

theorem isNone_iff {cell : Cell} : cell.isNone = true ↔ cell = none := by
  cases cell <;> simp [isNone]

theorem ofJson_eq_none {value : Json} : ofJson value = none ↔ value = .null := by
  constructor
  · intro nothing
    cases value with
    | null => rfl
    | number n =>
      cases n with
      | whole whole =>
        simp only [ofJson, ofNumber] at nothing
        split at nothing <;> cases nothing
      | double double => cases nothing
    | _ => cases nothing
  · rintro rfl
    rfl

/-- Elsewhere than with ids, an operand is seen as a stored value is. -/
theorem ofOperand_eq_ofJson {field : String} (other : field ≠ idKey) (operand : Json) :
    ofOperand field operand = ofJson operand := by
  cases operand with
  | bool b => exact if_neg other
  | number n => exact if_neg other
  | _ => rfl

theorem ofOperand_ne_none {operand : Json} (given : operand ≠ .null) (field : String) :
    ofOperand field operand ≠ none := by
  by_cases here : field = idKey
  · intro nothing
    cases operand with
    | null => exact given rfl
    | bool b =>
      rw [ofOperand, if_pos here] at nothing
      cases nothing
    | number n =>
      rw [ofOperand, if_pos here] at nothing
      cases nothing
    | _ => cases nothing
  · rw [ofOperand_eq_ofJson here]
    exact fun same => given (ofJson_eq_none.mp same)

end Cell

/-! ### Comparisons -/

/-- The comparison that allows one outcome only. -/
def Comparison.exactly : Ordering → Comparison
  | .lt => .lt
  | .eq => .eq
  | .gt => .gt

/-- Comparisons with an operand follow the order: of a cell that is not nothing exactly one of
the three strict ones holds, of nothing none, and the others are what they are called. -/
structure Condition.FollowOrder (field : String) (cell : Cell) (operand : Json) : Prop where
  exactly : ∀ outcome, (compare (.exactly outcome) operand).holds field cell = true ↔
    cell ≠ .none ∧ cell.compare (Cell.ofOperand field operand) = outcome
  lte : (compare .lte operand).holds field cell = true ↔
    (compare .lt operand).holds field cell = true ∨ (compare .eq operand).holds field cell = true
  gte : (compare .gte operand).holds field cell = true ↔
    (compare .gt operand).holds field cell = true ∨ (compare .eq operand).holds field cell = true
  operand : field ≠ idKey → Cell.ofOperand field operand = Cell.ofJson operand

namespace Condition

theorem holds_compare {operand : Json} (given : operand ≠ .null) (comparison : Comparison) (field : String)
    (cell : Cell) : (compare comparison operand).holds field cell = true ↔
      cell ≠ .none ∧ comparison.allows (cell.compare (Cell.ofOperand field operand)) = true := by
  have some := Cell.ofOperand_ne_none given field
  have opened : (compare comparison operand).holds field cell =
      relates comparison cell (Cell.ofOperand field operand) := by
    cases operand with
    | null => exact absurd rfl given
    | _ => cases comparison <;> rfl
  simp only [opened, relates, Bool.and_eq_true, Bool.not_eq_true', ← Bool.not_eq_true, Cell.isNone_iff]
  rw [and_iff_left some]

theorem followOrder (field : String) (cell : Cell) {operand : Json} (given : operand ≠ .null) :
    FollowOrder field cell operand where
  exactly outcome := by
    rw [holds_compare given]
    cases outcome <;> simp [Comparison.exactly, Comparison.allows]
  lte := by
    simp only [holds_compare given, ← and_or_left]
    cases cell.compare (Cell.ofOperand field operand) <;> simp [Comparison.allows]
  gte := by
    simp only [holds_compare given, ← and_or_left]
    cases cell.compare (Cell.ofOperand field operand) <;> simp [Comparison.allows]
  operand other := Cell.ofOperand_eq_ofJson other operand

end Condition

/-! ### Sort keys -/

/-- What is to be seen of a field of a document. -/
def Document.cell (document : Document) (field : String) : Cell := Cell.ofValue (document.valueAt? field)

namespace SortKey
variable {key : SortKey} {keys : List SortKey} {a b : Document}

/-- How a key orders two documents. -/
def order (key : SortKey) (a b : Document) : Ordering := key.compare (a.cell key.field) (b.cell key.field)

/-- One document comes before another by the first key that tells them apart. -/
inductive Before : List SortKey → Document → Document → Prop where
  | now {key : SortKey} {keys : List SortKey} {a b : Document} (less : key.order a b = .lt) :
      Before (key :: keys) a b
  | later {key : SortKey} {keys : List SortKey} {a b : Document} (tied : key.order a b = .eq)
      (before : Before keys a b) : Before (key :: keys) a b

/-- No key tells two documents apart. -/
def Tied (keys : List SortKey) (a b : Document) : Prop := ∀ key ∈ keys, key.order a b = .eq

/-- How some keys order two documents, one after the other. -/
def orderAll (keys : List SortKey) (a b : Document) : Ordering :=
  compareAll keys (keys.map (a.cell ·.field)) (keys.map (b.cell ·.field))

theorem orderAll_cons : orderAll (key :: keys) = compareLex key.order (orderAll keys) := rfl

theorem orderAll_eq_lt : orderAll keys a b = .lt ↔ Before keys a b := by
  induction keys with
  | nil =>
    constructor
    · intro less
      cases less
    · intro before
      cases before
  | cons key rest ih =>
    rw [orderAll_cons, compareLex, Ordering.then_eq_lt, ih]
    constructor
    · rintro (less | ⟨tied, before⟩)
      · exact .now less
      · exact .later tied before
    · intro before
      cases before with
      | now less => exact .inl less
      | later tied before => exact .inr ⟨tied, before⟩

theorem orderAll_eq_eq : orderAll keys a b = .eq ↔ Tied keys a b := by
  induction keys with
  | nil => simp [orderAll, compareAll, Tied]
  | cons key rest ih =>
    rw [orderAll_cons, compareLex, Ordering.then_eq_eq, ih, Tied, Tied, List.forall_mem_cons]

instance (key : SortKey) : Std.TransCmp key.order where
  eq_swap {a b} := by
    obtain ⟨field, direction⟩ := key
    cases direction with
    | ascending => exact Cell.compare_swap _ _
    | descending => exact congrArg Ordering.swap (Cell.compare_swap _ _)
  isLE_trans {a b c} below above := by
    obtain ⟨field, direction⟩ := key
    cases direction with
    | ascending =>
      change ((a.cell field).compare (b.cell field)).isLE = true at below
      change ((b.cell field).compare (c.cell field)).isLE = true at above
      change ((a.cell field).compare (c.cell field)).isLE = true
      exact Std.TransCmp.isLE_trans below above
    | descending =>
      have turned (a b : Document) : order ⟨field, .descending⟩ a b = (b.cell field).compare (a.cell field) :=
        (Cell.compare_swap _ _).symm
      rw [turned] at below above ⊢
      exact Std.TransCmp.isLE_trans above below

instance transCmp_orderAll : (keys : List SortKey) → Std.TransCmp (orderAll keys)
  | [] =>
    have constant : orderAll [] = fun _ _ => .eq := rfl
    { eq_swap := by simp [constant], isLE_trans := by simp [constant] }
  | key :: rest =>
    have := transCmp_orderAll rest
    inferInstanceAs (Std.TransCmp (compareLex key.order (orderAll rest)))

/-! ### Two documents -/

theorem mergeSort_pair {α : Type} (before : α → α → Bool) (a b : α) :
    [a, b].mergeSort before = if before a b then [a, b] else [b, a] := by
  rw [List.mergeSort]
  simp [List.MergeSort.Internal.splitInTwo, List.merge]

/-- Two documents change places if the second belongs before the first. -/
theorem sort_pair {cell cell' : Cell} (first : Cell.ofField a key.field = .ok cell)
    (second : Cell.ofField b key.field = .ok cell') :
    sort [key] [a, b] = .ok (if key.compare cell cell' = .gt then [b, a] else [a, b]) := by
  have measured : [a, b].mapM (fun document => do return (← cells [key] document, document)) =
      .ok [([cell], a), ([cell'], b)] := by
    simp only [cells, List.mapM_cons, List.mapM_nil, first, second]
    rfl
  rw [sort, measured]
  change Except.ok ((List.mergeSort [_, _] _).map _) = _
  rw [mergeSort_pair]
  cases compared : key.compare cell cell' <;> simp [compareAll, compared]

end SortKey
end Dossier
