import Dossier.Proofs.CellOrder
import Dossier.Proofs.DateTexts
import Dossier.Proofs.Outcomes
import Dossier.Model.Selection
import Mathlib.Data.String.Basic

/-! Stored dates and time: when the texts that the store keeps of dates are accepted again and
are in the order of the instants that they denote. -/
namespace Dossier

/-! ### Casting -/

/-- A date is stored as the text of the instant that it denotes. -/
theorem castValue_date {value : Json} {instant : Timestamp} (denotes : Cast.instant? value = some instant)
    (model path : String) : castValue model path .date value = .ok (.text instant.text) := by
  have opened : castValue model path .date value = refuse model path (Cast.date value) := by
    cases value with
    | null => cases denotes
    | _ => simp only [castValue]
  rw [opened, Cast.date, denotes]
  rfl

theorem castValue_text {instant : Timestamp} (nameable : instant.IsNameable) (model path : String) :
    castValue model path .date (.text instant.text) = .ok (.text instant.text) := by
  refine castValue_date ?_ model path
  rw [Cast.instant?]
  exact Timestamp.parse?_text nameable

/-- A year that cannot be named is refused, although it was stored. -/
theorem castValue_text_refused {instant : Timestamp} (other : ¬ instant.IsNameable) (model path : String) :
    castValue model path .date (.text instant.text) = .error (.invalidValue model path .noDate) := by
  simp only [castValue, Cast.date, Cast.instant?, Timestamp.parse?_text_eq_none other]
  rfl

/-- The stored text of an instant is accepted again, and kept, exactly if its year can be named. -/
theorem castValue_text_iff {instant : Timestamp} {model path : String} :
    castValue model path .date (.text instant.text) = .ok (.text instant.text) ↔ instant.IsNameable := by
  by_cases nameable : instant.IsNameable
  · exact iff_of_true (castValue_text nameable model path) nameable
  · rw [castValue_text_refused nameable]
    exact iff_of_false (fun kept => by cases kept) nameable

/-! ### Comparing -/

/-- A filter on a field whose values are neither arrays nor maps has its operands cast. -/
theorem castQuery_of_mapM {model : Model} {field : String} {type : FieldType} {asked result : Condition}
    (cast : asked.mapM (castValue model.name field type) = .ok result) (noArray : type ≠ .array)
    (noMap : ∀ fields, type ≠ .object fields) (noId : field ≠ idKey) (typed : model.fieldType? field = some type)
    (passes : model.guardPassword field .filter = .ok ()) :
    model.castQuery [(field, asked)] = .ok [(field, result)] := by
  have condition : model.castCondition field asked = .ok result := by
    rw [Model.castCondition, passes]
    change (if field = idKey then _ else _) = _
    rw [if_neg noId, typed]
    cases type with
    | array => exact absurd rfl noArray
    | object fields => exact absurd rfl (noMap fields)
    | _ => exact cast
  exact mapM_eq_ok.mpr (.cons (bind_eq_ok.mpr ⟨_, condition, rfl⟩) .nil)

theorem castQuery_compare {model : Model} {field : String} {type : FieldType} {operand result : Json}
    (cast : castValue model.name field type operand = .ok result) (noArray : type ≠ .array)
    (noMap : ∀ fields, type ≠ .object fields) (comparison : Comparison) (noId : field ≠ idKey)
    (typed : model.fieldType? field = some type) (passes : model.guardPassword field .filter = .ok ()) :
    model.castQuery [(field, .compare comparison operand)] = .ok [(field, .compare comparison result)] :=
  castQuery_of_mapM (bind_eq_ok.mpr ⟨result, cast, rfl⟩) noArray noMap noId typed passes

/-- A filter on a date field compares with the text of the instant that it names. -/
theorem castQuery_date {value : Json} {instant : Timestamp} (denotes : Cast.instant? value = some instant)
    {model : Model} {field : String} (comparison : Comparison) (noId : field ≠ idKey)
    (typed : model.fieldType? field = some .date) (passes : model.guardPassword field .filter = .ok ()) :
    model.castQuery [(field, .compare comparison value)] =
      .ok [(field, .compare comparison (.text instant.text))] :=
  castQuery_compare (castValue_date denotes model.name field) (by simp) (by simp) comparison noId typed passes

theorem holds_text (comparison : Comparison) (field seen asked : String) :
    (Condition.compare comparison (.text asked)).holds field (.text seen) =
      comparison.allows (Cell.compare (.text seen) (.text asked)) := by
  cases comparison <;> rfl

/-- Two dates behave in the store as the instants that they denote do in time. -/
structure Chronological (a b : Json) (s t : Timestamp) : Prop where
  /-- They are stored as the texts of their instants. -/
  stored : ∀ model path, castValue model path .date a = .ok (.text s.text) ∧
    castValue model path .date b = .ok (.text t.text)
  /-- These are accepted again, and cast to themselves. -/
  kept : ∀ model path, castValue model path .date (.text s.text) = .ok (.text s.text) ∧
    castValue model path .date (.text t.text) = .ok (.text t.text)
  /-- Their bytes are in the order of the instants. -/
  sorts : s.bytes < t.bytes ↔ s.millis < t.millis
  /-- Asked for documents by the second date, the store compares the instants. -/
  filters : ∀ {model : Model} {field : String} {document : Document} (comparison : Comparison),
    field ≠ idKey → model.fieldType? field = some .date → model.guardPassword field .filter = .ok () →
      Cell.ofField document field = .ok (.text s.text) →
        ∃ query, model.castQuery [(field, .compare comparison b)] = .ok query ∧
          Query.test document query = .ok (comparison.allows (compare s.millis t.millis))
  /-- Sorting documents by the field sorts them by the instants. -/
  orders : ∀ {field : String} {x y : Document},
    Cell.ofField x field = .ok (.text s.text) → Cell.ofField y field = .ok (.text t.text) →
      SortKey.sort [⟨field, .ascending⟩] [x, y] = .ok (if s.millis ≤ t.millis then [x, y] else [y, x]) ∧
      SortKey.sort [⟨field, .descending⟩] [x, y] = .ok (if t.millis ≤ s.millis then [x, y] else [y, x])

/-- Dates behave as time does exactly if the years of both, in universal time, have four digits. -/
theorem chronological_iff {a b : Json} {s t : Timestamp} (first : Cast.instant? a = some s)
    (second : Cast.instant? b = some t) : Chronological a b s t ↔ s.IsNameable ∧ t.IsNameable := by
  constructor
  · intro chronological
    obtain ⟨kept, other⟩ := chronological.kept "" ""
    exact ⟨castValue_text_iff.mp kept, castValue_text_iff.mp other⟩
  · rintro ⟨nameable, other⟩
    have compared : Cell.compare (.text s.text) (.text t.text) = compare s.millis t.millis :=
      Timestamp.compare_text nameable other
    exact {
      stored := fun model path => ⟨castValue_date first model path, castValue_date second model path⟩
      kept := fun model path => ⟨castValue_text_iff.mpr nameable, castValue_text_iff.mpr other⟩
      sorts := Timestamp.bytes_lt_iff nameable other
      filters := by
        intro model field document comparison noId typed passes seen
        refine ⟨_, castQuery_date second comparison noId typed passes, ?_⟩
        rw [Query.test, seen]
        change (if (Condition.compare comparison (.text t.text)).holds field (.text s.text) = true then _ else _) = _
        rw [holds_text, compared]
        split
        · rename_i allowed
          rw [allowed]
          rfl
        · rename_i refused
          rw [Bool.not_eq_true] at refused
          rw [refused]
          rfl
      orders := by
        intro field x y left right
        rw [SortKey.sort_pair left right, SortKey.sort_pair left right]
        simp only [SortKey.compare, compared, Ordering.swap_eq_gt, compare_gt_iff_gt, compare_lt_iff_lt]
        rw [← ite_not, ← ite_not (_ < _)]
        simp only [Int.not_lt, and_self] }

/-- A text that crosses midnight on its way to universal time, and a millisecond later as a number. -/
theorem autumn_chronological : ∃ s t : Timestamp,
    Cast.instant? (.text "2023-11-15T00:13:20.1234+02:00") = some s ∧
      Cast.instant? (.number (.whole ⟨1700000000124, by decide⟩)) = some t ∧
      Chronological (.text "2023-11-15T00:13:20.1234+02:00") (.number (.whole ⟨1700000000124, by decide⟩)) s t := by
  refine ⟨⟨1700000000123, by decide⟩, ⟨1700000000124, by decide⟩, by decide +kernel, by decide +kernel, ?_⟩
  exact (chronological_iff (by decide +kernel) (by decide +kernel)).mpr ⟨by decide +kernel, by decide +kernel⟩

/-- The last millisecond of the year 9999 and the first of the next year: both can be stored, the
text of the later sorts before that of the earlier, and it is refused when it is given again. -/
theorem millennium_not_chronological : ∃ s t : Timestamp,
    Cast.instant? (.number (.whole ⟨253402300799999, by decide⟩)) = some s ∧
      Cast.instant? (.number (.whole ⟨253402300800000, by decide⟩)) = some t ∧
      s.millis < t.millis ∧ t.bytes < s.bytes ∧
      castValue "event" "day" .date (.text t.text) = .error (.invalidValue "event" "day" .noDate) ∧
      ¬ Chronological (.number (.whole ⟨253402300799999, by decide⟩))
        (.number (.whole ⟨253402300800000, by decide⟩)) s t := by
  refine ⟨⟨253402300799999, by decide⟩, ⟨253402300800000, by decide⟩, by decide +kernel, by decide +kernel,
    by decide +kernel, by decide +kernel, castValue_text_refused (by decide +kernel) _ _, ?_⟩
  intro chronological
  have less := chronological.sorts.mpr (by decide +kernel)
  exact absurd less (by decide +kernel)

end Dossier
