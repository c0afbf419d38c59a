import Dossier.Proofs.RoundedDoubles
import Mathlib.Tactic.FieldSimp
import Mathlib.Tactic.Positivity

/-! The digits that are written for a double: a number that rounds to it, found on one of the grids
that are tried. -/
namespace Dossier.Double
variable {d : Double} {power : Int} {multiple : Nat}

/-! ### Grids -/

theorem gridStep_pos (power : Int) : 0 < (gridStep power).1 ∧ 0 < (gridStep power).2 := by
  have ten (n : Nat) : 0 < Nat.pow 10 n := Nat.pow_pos (by decide)
  have quarters : 0 < 4 * unitsPerOne := Nat.mul_pos (by decide) unitsPerOne_pos
  unfold gridStep
  split
  · exact ⟨Nat.mul_pos (ten _) quarters, Nat.one_pos⟩
  · exact ⟨quarters, ten _⟩

/-- The step of a grid is a power of ten, in quarters of a unit. -/
theorem gridStep_eq (power : Int) :
    ((gridStep power).1 : ℚ) = 10 ^ power * (4 * unitsPerOne) * (gridStep power).2 := by
  unfold gridStep
  generalize unitsPerOne = units
  simp only [Nat.pow_eq]
  split
  · rename_i positive
    obtain ⟨n, rfl⟩ := Int.eq_ofNat_of_zero_le positive
    push_cast
    simp
  · rename_i negative
    obtain ⟨n, rfl⟩ : ∃ n : Nat, power = -n := ⟨power.natAbs, by omega⟩
    have nonzero : (10 : ℚ) ^ n ≠ 0 := by positivity
    rw [Int.natAbs_neg, Int.natAbs_natCast, zpow_neg, zpow_natCast]
    push_cast
    field_simp

theorem holds_iff_covers : d.holds (gridStep power) multiple = true ↔ d.Covers (multiple * 10 ^ power) := by
  obtain ⟨-, positive⟩ := gridStep_pos power
  have nonzero : (0 : ℚ) < (gridStep power).2 := by exact_mod_cast positive
  have point : ((multiple * (gridStep power).1 : Nat) : ℚ) =
      multiple * 10 ^ power * (4 * unitsPerOne) * (gridStep power).2 := by
    rw [Nat.cast_mul, gridStep_eq]
    ring
  have least (bound : Nat) : bound * (gridStep power).2 ≤ multiple * (gridStep power).1 ↔
      (bound : ℚ) ≤ multiple * 10 ^ power * (4 * unitsPerOne) := by
    rw [← Nat.cast_le (α := ℚ), point, Nat.cast_mul, mul_le_mul_iff_left₀ nonzero]
  have most (bound : Nat) : multiple * (gridStep power).1 ≤ bound * (gridStep power).2 ↔
      multiple * 10 ^ power * (4 * unitsPerOne) ≤ (bound : ℚ) := by
    rw [← Nat.cast_le (α := ℚ), point, Nat.cast_mul, mul_le_mul_iff_left₀ nonzero]
  have below := lt_iff_lt_of_le_iff_le (most d.lowerEnd)
  have above := lt_iff_lt_of_le_iff_le (least d.upperEnd)
  unfold holds Covers
  split <;> simp only [Bool.and_eq_true, decide_eq_true_iff, least, most, below, above]

/-! ### What is found on a grid -/

variable {step : Nat × Nat}

theorem holds_of_onGrid? (found : d.onGrid? step = some multiple) : d.holds step multiple = true := by
  unfold onGrid? at found
  simp only at found
  split at found
  · rename_i below above
    obtain rfl := Option.some.inj found
    split_ifs <;> assumption
  · rename_i below _
    rwa [← Option.some.inj found]
  · rename_i above
    rwa [← Option.some.inj found]
  · cases found

/-- On a grid that is finer than the upper half of its interval a double has a multiple. -/
theorem exists_onGrid? (positive : 0 < step.1) (fine : step.1 < 2 * 2 ^ d.shift * step.2) :
    ∃ multiple, d.onGrid? step = some multiple := by
  have division := Nat.div_add_mod (d.quarters * step.2) step.1
  have rest := Nat.mod_lt (d.quarters * step.2) positive
  have above : d.holds step (d.quarters * step.2 / step.1 + 1) = true := by
    have next : (d.quarters * step.2 / step.1 + 1) * step.1 =
        step.1 * (d.quarters * step.2 / step.1) + step.1 := by ring
    have upper : d.upperEnd * step.2 = d.quarters * step.2 + 2 * 2 ^ d.shift * step.2 := Nat.add_mul ..
    have lower : d.lowerEnd * step.2 ≤ d.quarters * step.2 := Nat.mul_le_mul_right _ (Nat.sub_le _ _)
    unfold holds
    split <;> simp only [next, upper, Bool.and_eq_true, decide_eq_true_iff] <;> omega
  unfold onGrid?
  simp only [above]
  cases d.holds step (d.quarters * step.2 / step.1) <;> exact ⟨_, rfl⟩

theorem coarsest_holds {grids : Nat} (found : ∃ index < grids, ∃ multiple,
    d.onGrid? (gridStep (power - index)) = some multiple) :
    d.holds (gridStep (d.coarsest grids power).2) (d.coarsest grids power).1 = true := by
  induction grids generalizing power with
  | zero =>
    obtain ⟨_, none, _⟩ := found
    cases none
  | succ grids ih =>
    rw [coarsest]
    cases own : d.onGrid? (gridStep power) with
    | some multiple => exact holds_of_onGrid? own
    | none =>
      obtain ⟨index, within, multiple, later⟩ := found
      cases index with
      | zero =>
        rw [Int.natCast_zero, Int.sub_zero, own] at later
        cases later
      | succ index =>
        refine ih ⟨index, Nat.lt_of_succ_lt_succ within, multiple, ?_⟩
        rw [← later, Int.sub_sub, Int.natCast_succ, Int.add_comm]

/-! ### The grids that are tried -/

/-- The last of the grids is finer than the upper half of the interval, for each length in binary
that a double can have. -/
theorem gridStep_lt : ∀ log : Nat, log < 2099 →
    (gridStep (((log : Int) - 1074) * 30103 / 100000 - 18)).1 <
      2 * 2 ^ (log - 52) * (gridStep (((log : Int) - 1074) * 30103 / 100000 - 18)).2 := by
  decide +kernel

theorem log2_units_le (d : Double) : d.units.log2 ≤ 52 + d.shift := by
  by_cases zero : d.units = 0
  · simp [zero]
  · have below : d.units < 2 ^ (53 + d.shift) := by
      rw [Nat.pow_add]
      exact Nat.mul_lt_mul_of_pos_right d.canonical.1 (Nat.two_pow_pos _)
    have log := (Nat.log2_lt zero).mpr below
    omega

/-- The digits written for a double are those of a number that rounds to it. -/
theorem shortest_covers (d : Double) : d.Covers (d.shortest.1 * 10 ^ d.shortest.2) := by
  refine holds_iff_covers.mp (coarsest_holds ⟨20, by decide, ?_⟩)
  have log := d.log2_units_le
  have shift := d.canonical.2.1
  have last : d.startPower - ((20 : Nat) : Int) = ((d.units.log2 : Int) - 1074) * 30103 / 100000 - 18 := by
    simp only [startPower]
    omega
  rw [last]
  refine exists_onGrid? (gridStep_pos _).1 (Nat.lt_of_lt_of_le (gridStep_lt _ (by omega)) ?_)
  exact Nat.mul_le_mul_right _ (Nat.mul_le_mul_left 2 (Nat.pow_le_pow_right (by decide) (by omega)))

/-- A double other than zero has a digit other than zero. -/
theorem shortest_ne_zero (nonzero : d.mantissa ≠ 0) : d.shortest.1 ≠ 0 := by
  intro zero
  have positive := d.shortest_covers.pos nonzero
  rw [zero] at positive
  simp at positive

end Dossier.Double
