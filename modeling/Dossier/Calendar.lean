/-! The Gregorian calendar carried back before its beginning: dates as day
numbers, counted from the first of January of the year 0, and back. -/
namespace Dossier.Calendar

/-- Leap years before a year, counted from the year 0. -/
def leapsBefore (year : Int) : Int := (year + 3) / 4 - (year + 99) / 100 + (year + 399) / 400

def daysBeforeYear (year : Int) : Int := 365 * year + leapsBefore year

def isLeap (year : Int) : Bool := year % 4 == 0 && (year % 100 != 0 || year % 400 == 0)

/-- The lengths of the twelve months in order. -/
def monthLengths (leap : Bool) : List Nat :=
  [31, if leap then 29 else 28, 31, 30, 31, 30, 31, 31, 30, 31, 30, 31]

structure Date where
  year : Int
  month : Nat
  day : Nat
deriving DecidableEq

/-- A date that the calendar has. -/
def Date.isValid (date : Date) : Bool :=
  1 ≤ date.month && 1 ≤ date.day &&
    match (monthLengths (isLeap date.year))[date.month - 1]? with
    | some length => date.day ≤ length
    | none => false

/-- The days from the first of January of the year 0 to a date. -/
def Date.dayNumber (date : Date) : Int :=
  let before : Nat := ((monthLengths (isLeap date.year)).take (date.month - 1)).foldl (· + ·) 0
  daysBeforeYear date.year + before + (date.day - 1 : Int)

/-- The year a day falls in. The quotient by the mean length of a year is at most
one off, which the comparison with the two neighbouring New Year's days mends. -/
def yearOf (day : Int) : Int :=
  let guess := 400 * day / 146097
  if day < daysBeforeYear guess then guess - 1
  else if daysBeforeYear (guess + 1) ≤ day then guess + 1
  else guess

/-- Month and day of the month, both from 1, of a day counted from 0 within the
months that are left. -/
def monthAndDay : (month : Nat) → List Nat → (offset : Nat) → Nat × Nat
  | month, [], offset => (month, offset + 1)
  | month, length :: rest, offset =>
    if offset < length then (month, offset + 1) else monthAndDay (month + 1) rest (offset - length)

/-- The date with a given day number. -/
def Date.ofDayNumber (day : Int) : Date :=
  let year := yearOf day
  let (month, dayOfMonth) :=
    monthAndDay 1 (monthLengths (isLeap year)) (day - daysBeforeYear year).toNat
  ⟨year, month, dayOfMonth⟩

/-- A leap year is the one that is a day longer. -/
theorem daysBeforeYear_succ (year : Int) :
    daysBeforeYear (year + 1) = daysBeforeYear year + if isLeap year then 366 else 365 := by
  simp only [daysBeforeYear, leapsBefore, isLeap, Bool.and_eq_true, Bool.or_eq_true, beq_iff_eq,
    bne_iff_ne, ne_eq]
  split <;> omega

/-- Every day lies between the New Year's day of its year and the next. -/
theorem yearOf_bounds (day : Int) :
    daysBeforeYear (yearOf day) ≤ day ∧ day < daysBeforeYear (yearOf day + 1) := by
  obtain ⟨guess, mean⟩ : ∃ guess, guess = 400 * day / 146097 := ⟨_, rfl⟩
  simp only [yearOf, ← mean]
  by_cases early : day < daysBeforeYear guess
  · rw [if_pos early, Int.sub_add_cancel]
    refine ⟨?_, early⟩
    simp only [daysBeforeYear, leapsBefore] at early ⊢
    omega
  · rw [if_neg early]
    by_cases late : daysBeforeYear (guess + 1) ≤ day
    · rw [if_pos late]
      refine ⟨late, ?_⟩
      simp only [daysBeforeYear, leapsBefore] at late ⊢
      omega
    · rw [if_neg late]
      exact ⟨Int.not_lt.mp early, Int.not_le.mp late⟩

end Dossier.Calendar
