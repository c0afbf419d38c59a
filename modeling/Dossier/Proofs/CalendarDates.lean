import Dossier.Calendar

/-! Dates and day numbers stand for each other, and later days have later dates. -/
namespace Dossier.Calendar

/-! ### Months -/

/-- The days of the first of some months, given the lengths of all. -/
def daysOf (lengths : List Nat) (months : Nat) : Nat := (lengths.take months).foldl (· + ·) 0

theorem daysOf_cons_succ (length : Nat) (rest : List Nat) (months : Nat) :
    daysOf (length :: rest) (months + 1) = length + daysOf rest months := by
  rw [daysOf, List.take_succ_cons, List.foldl_cons, Nat.add_comm 0 length]
  exact List.foldl_assoc

theorem daysOf_succ {lengths : List Nat} {index length : Nat} (found : lengths[index]? = some length) :
    daysOf lengths (index + 1) = daysOf lengths index + length := by
  rw [daysOf, List.take_add_one, found, Option.toList_some, List.foldl_append]
  rfl

theorem daysOf_mono {lengths : List Nat} {fewer months : Nat} (upTo : fewer ≤ months) :
    daysOf lengths fewer ≤ daysOf lengths months := by
  induction months with
  | zero =>
    obtain rfl := Nat.le_zero.mp upTo
    exact Nat.le_refl _
  | succ months ih =>
    rcases Nat.le_succ_iff.mp upTo with earlier | rfl
    · refine Nat.le_trans (ih earlier) ?_
      cases found : lengths[months]? with
      | none =>
        refine Nat.le_of_eq ?_
        rw [daysOf, daysOf, List.take_add_one, found, Option.toList_none, List.append_nil]
      | some length =>
        rw [daysOf_succ found]
        exact Nat.le_add_right _ _
    · exact Nat.le_refl _

/-- A day lies in one of the months, and its day of the month counts from the month's first day. -/
theorem exists_monthAndDay {lengths : List Nat} {offset : Nat} (month : Nat)
    (within : offset < daysOf lengths lengths.length) :
    ∃ index length day, monthAndDay month lengths offset = (month + index, day) ∧
      lengths[index]? = some length ∧ 1 ≤ day ∧ day ≤ length ∧ daysOf lengths index + day = offset + 1 := by
  induction lengths generalizing month offset with
  | nil => cases within
  | cons length rest ih =>
    by_cases here : offset < length
    · rw [monthAndDay, if_pos here]
      exact ⟨0, length, offset + 1, rfl, rfl, Nat.succ_pos _, here, Nat.zero_add _⟩
    · rw [List.length_cons, daysOf_cons_succ] at within
      obtain ⟨index, own, day, name, found, least, most, sum⟩ := ih (month + 1) (by omega : offset - length < _)
      refine ⟨index + 1, own, day, ?_, found, least, most, ?_⟩
      · rw [monthAndDay, if_neg here, name, Nat.add_assoc, Nat.add_comm 1]
      · rw [daysOf_cons_succ]
        omega

/-! ### Years -/

theorem daysBeforeYear_mono {year later : Int} (upTo : year ≤ later) :
    daysBeforeYear year ≤ daysBeforeYear later := by
  simp only [daysBeforeYear, leapsBefore]
  omega

/-- A year is as long as its months together. -/
theorem daysBeforeYear_next (year : Int) :
    daysBeforeYear (year + 1) = daysBeforeYear year + daysOf (monthLengths (isLeap year)) 12 := by
  rw [daysBeforeYear_succ]
  cases isLeap year <;> rfl

theorem length_monthLengths (leap : Bool) : (monthLengths leap).length = 12 := rfl

/-! ### Dates -/

namespace Date

/-- How a valid date stands in its year. -/
theorem isValid_iff {date : Date} : date.isValid = true ↔
    1 ≤ date.month ∧ 1 ≤ date.day ∧
      ∃ length, (monthLengths (isLeap date.year))[date.month - 1]? = some length ∧ date.day ≤ length := by
  rw [isValid, Bool.and_eq_true, Bool.and_eq_true, decide_eq_true_iff, decide_eq_true_iff, and_assoc]
  cases (monthLengths (isLeap date.year))[date.month - 1]? <;> simp

theorem bounds_of_isValid {date : Date} (valid : date.isValid = true) : date.month ≤ 12 ∧ date.day ≤ 31 := by
  obtain ⟨first, -, length, found, most⟩ := isValid_iff.mp valid
  obtain ⟨inside, -⟩ := List.getElem?_eq_some_iff.mp found
  rw [length_monthLengths] at inside
  have longest : ∀ leap, ∀ length ∈ monthLengths leap, length ≤ 31 := by decide
  exact ⟨by omega, Nat.le_trans most (longest _ _ (List.mem_of_getElem? found))⟩

theorem dayNumber_eq (date : Date) : date.dayNumber =
    daysBeforeYear date.year + daysOf (monthLengths (isLeap date.year)) (date.month - 1) + (date.day - 1) := rfl

/-- Where the date of a day stands in its year. -/
theorem exists_ofDayNumber (day : Int) : ∃ index length dayOfMonth,
    ofDayNumber day = ⟨yearOf day, 1 + index, dayOfMonth⟩ ∧
      (monthLengths (isLeap (yearOf day)))[index]? = some length ∧ 1 ≤ dayOfMonth ∧ dayOfMonth ≤ length ∧
        daysBeforeYear (yearOf day) + daysOf (monthLengths (isLeap (yearOf day))) index + dayOfMonth = day + 1 := by
  obtain ⟨begun, ending⟩ := yearOf_bounds day
  rw [daysBeforeYear_next] at ending
  have within : (day - daysBeforeYear (yearOf day)).toNat < daysOf (monthLengths (isLeap (yearOf day)))
      (monthLengths (isLeap (yearOf day))).length := by
    rw [length_monthLengths]
    omega
  obtain ⟨index, length, dayOfMonth, name, found, least, most, sum⟩ := exists_monthAndDay 1 within
  exact ⟨index, length, dayOfMonth, by rw [ofDayNumber, name], found, least, most, by omega⟩

theorem isValid_ofDayNumber (day : Int) : (ofDayNumber day).isValid = true := by
  obtain ⟨index, length, dayOfMonth, date, found, least, most, _⟩ := exists_ofDayNumber day
  rw [date, isValid_iff]
  exact ⟨Nat.le_add_right _ _, least, length, by rwa [Nat.add_sub_cancel_left], most⟩

/-- The date of a day denotes the day. -/
theorem dayNumber_ofDayNumber (day : Int) : (ofDayNumber day).dayNumber = day := by
  obtain ⟨index, length, dayOfMonth, date, _, _, _, sum⟩ := exists_ofDayNumber day
  rw [date, dayNumber_eq]
  simp only [Nat.add_sub_cancel_left]
  omega

/-- A date is earlier by its year, then by its month, then by its day. -/
def Before (first second : Date) : Prop :=
  first.year < second.year ∨ first.year = second.year ∧
    (first.month < second.month ∨ first.month = second.month ∧ first.day < second.day)

/-- A valid date lies within its month. -/
theorem dayNumber_lt_of_isValid {date : Date} (valid : date.isValid = true) :
    date.dayNumber < daysBeforeYear date.year + daysOf (monthLengths (isLeap date.year)) date.month := by
  obtain ⟨first, _, length, found, most⟩ := isValid_iff.mp valid
  have month := daysOf_succ found
  rw [Nat.sub_add_cancel first] at month
  rw [dayNumber_eq]
  omega

theorem dayNumber_lt_of_before {first second : Date} (valid : first.isValid = true)
    (other : second.isValid = true) (before : first.Before second) : first.dayNumber < second.dayNumber := by
  have inMonth := dayNumber_lt_of_isValid valid
  obtain ⟨_, least, _⟩ := isValid_iff.mp other
  have begun := dayNumber_eq second
  rcases before with year | ⟨year, month | ⟨month, day⟩⟩
  · -- the earlier year is over before the later one begins
    have inYear := (bounds_of_isValid valid).1
    calc first.dayNumber
      _ < daysBeforeYear first.year + daysOf (monthLengths (isLeap first.year)) first.month := inMonth
      _ ≤ daysBeforeYear first.year + daysOf (monthLengths (isLeap first.year)) 12 :=
        Int.add_le_add_left (Int.ofNat_le.mpr (daysOf_mono inYear)) _
      _ = daysBeforeYear (first.year + 1) := (daysBeforeYear_next _).symm
      _ ≤ daysBeforeYear second.year := daysBeforeYear_mono year
      _ ≤ second.dayNumber := by omega
  · rw [year] at inMonth
    calc first.dayNumber
      _ < daysBeforeYear second.year + daysOf (monthLengths (isLeap second.year)) first.month := inMonth
      _ ≤ daysBeforeYear second.year + daysOf (monthLengths (isLeap second.year)) (second.month - 1) :=
        Int.add_le_add_left (Int.ofNat_le.mpr (daysOf_mono (Nat.le_sub_one_of_lt month))) _
      _ ≤ second.dayNumber := by omega
  · rw [dayNumber_eq, year, month, begun]
    omega

theorem before_or (first second : Date) : first.Before second ∨ first = second ∨ second.Before first := by
  obtain ⟨year, month, day⟩ := first
  obtain ⟨year', month', day'⟩ := second
  simp only [Before, mk.injEq]
  omega

/-- The calendar goes through the dates in their order. -/
theorem before_ofDayNumber {first second : Int} :
    (ofDayNumber first).Before (ofDayNumber second) ↔ first < second := by
  have valid := isValid_ofDayNumber first
  have other := isValid_ofDayNumber second
  constructor
  · intro before
    rw [← dayNumber_ofDayNumber first, ← dayNumber_ofDayNumber second]
    exact dayNumber_lt_of_before valid other before
  · intro less
    rw [← dayNumber_ofDayNumber first, ← dayNumber_ofDayNumber second] at less
    rcases before_or (ofDayNumber first) (ofDayNumber second) with before | same | after
    · exact before
    · rw [same] at less
      exact absurd less (Int.lt_irrefl _)
    · exact absurd (dayNumber_lt_of_before other valid after) (Int.lt_asymm less)

theorem ofDayNumber_inj {first second : Int} : ofDayNumber first = ofDayNumber second ↔ first = second := by
  constructor
  · intro same
    rw [← dayNumber_ofDayNumber first, same, dayNumber_ofDayNumber]
  · exact congrArg ofDayNumber

/-! ### From a date to the next -/

/-- The day after a date: the next of its month, or else the first of the month or year that follows. -/
def next (date : Date) : Date :=
  if Date.isValid ⟨date.year, date.month, date.day + 1⟩ then ⟨date.year, date.month, date.day + 1⟩
  else if date.month < 12 then ⟨date.year, date.month + 1, 1⟩
  else ⟨date.year + 1, 1, 1⟩

theorem isValid_first {year : Int} {month : Nat} (positive : 1 ≤ month) (upTo : month ≤ 12) :
    isValid ⟨year, month, 1⟩ = true := by
  have inside : month - 1 < (monthLengths (isLeap year)).length := by
    rw [length_monthLengths]
    omega
  have nonempty : ∀ leap, ∀ length ∈ monthLengths leap, 1 ≤ length := by decide
  exact isValid_iff.mpr ⟨positive, Nat.le_refl _, _, List.getElem?_eq_getElem inside,
    nonempty _ _ (List.getElem_mem inside)⟩

/-- Days are counted as the calendar goes from date to date. -/
theorem dayNumber_next {date : Date} (valid : date.isValid = true) :
    date.next.isValid = true ∧ date.next.dayNumber = date.dayNumber + 1 := by
  obtain ⟨first, least, length, found, most⟩ := isValid_iff.mp valid
  have number := dayNumber_eq date
  rw [next]
  split
  · rename_i inMonth
    refine ⟨inMonth, ?_⟩
    rw [dayNumber_eq, number]
    dsimp only
    omega
  · rename_i atEnd
    -- the day is the last of its month
    have last : date.day = length := by
      refine Nat.le_antisymm most (Nat.not_lt.mp fun before => atEnd ?_)
      exact isValid_iff.mpr ⟨first, Nat.le_add_left _ _, length, found, before⟩
    have month := daysOf_succ found
    rw [Nat.sub_add_cancel first] at month
    split
    · rename_i inYear
      refine ⟨isValid_first (Nat.le_add_left _ _) inYear, ?_⟩
      rw [dayNumber_eq]
      simp only [Nat.add_sub_cancel]
      omega
    · rename_i yearEnd
      refine ⟨isValid_first (by decide) (by decide), ?_⟩
      have december : date.month = 12 := Nat.le_antisymm (bounds_of_isValid valid).1 (Nat.not_lt.mp yearEnd)
      have year := daysBeforeYear_next date.year
      have begun : daysOf (monthLengths (isLeap (date.year + 1))) (1 - 1) = 0 := rfl
      rw [december] at month
      rw [dayNumber_eq, begun]
      rw [december] at number
      dsimp only
      omega

end Date
end Dossier.Calendar
