/-
# Workplan.Proofs.ShiftLaws — how shifts compose

Shifts in one direction add up. Shifts in opposite directions do not undo each other: each settles on
its own side of the days off, a shift forward right after a working day and a shift back on one. They
are adjoint, and going back by what was passed leads to the closest working day:

* `Steady.le_closestFrom_iff` — up to the closest working day, no working day is passed;
* `Steady.shift_shift_ahead`, `Steady.shift_shift_back` — in one direction;
* `Steady.shift_shift_neg` — there and back;
* `Steady.shift_le_iff_le_shift` — which dates each way reaches;
* `shift_laws` — the laws together.
-/
import Workplan.Proofs.ShiftCounts

namespace Workplan.Calendar

set_option autoImplicit false

variable {cal : Calendar} {d e : Date} {m n : Int}

/-! ## The closest working day -/

theorem Steady.le_closestFrom_iff (steady : cal.Steady)
    (some : ∃ w, d ≤ w ∧ cal.works w = true) : e ≤ cal.closestFrom d ↔ cal.between d e ≤ 0 := by
  obtain ⟨found, search, works, none⟩ := workingFrom?_spec (steady.exists_near some)
  have closest : cal.closestFrom d = found := by rw [closestFrom, search, Option.getD_some]
  have counted : cal.between d found = 0 := by
    rw [between_eq_worked (le_workingFrom? search), none]
    rfl
  rw [closest]
  constructor
  · intro reached
    have more := cal.between_mono d reached
    omega
  · intro days
    refine Std.not_lt.mp fun late => ?_
    have more := between_lt d (Std.le_refl _) late works
    omega

/-! ## One shift after another -/

theorem Steady.shift_shift_ahead (steady : cal.Steady) (first : 0 ≤ m) (second : 0 ≤ n)
    (enough : cal.HasDays d (m + n)) : cal.shift (cal.shift d m) n = cal.shift d (m + n) := by
  have enoughFirst : cal.HasDays d m := enough.mono (.inl ⟨first, by omega⟩)
  have counted := steady.between_shift enoughFirst
  have left := steady.hasDays_shift enoughFirst enough
  rcases Int.lt_or_eq_of_le second with positive | rfl
  · have same : ∀ e, cal.shift (cal.shift d m) n ≤ e ↔ cal.shift d (m + n) ≤ e := by
      intro e
      have total := cal.between_add d (cal.shift d m) e
      rw [steady.shift_le_iff positive left, steady.shift_le_iff (by omega) enough]
      omega
    exact Std.le_antisymm ((same _).mpr (Std.le_refl _)) ((same _).mp (Std.le_refl _))
  · rw [Int.add_zero, shift_zero]

theorem Steady.shift_shift_back (steady : cal.Steady) (first : m ≤ 0) (second : n ≤ 0)
    (enough : cal.HasDays d (m + n)) : cal.shift (cal.shift d m) n = cal.shift d (m + n) := by
  have enoughFirst : cal.HasDays d m := enough.mono (.inr ⟨by omega, first⟩)
  have counted := steady.between_shift enoughFirst
  have left := steady.hasDays_shift enoughFirst enough
  rcases Int.lt_or_eq_of_le second with negative | rfl
  · have same : ∀ e, e ≤ cal.shift (cal.shift d m) n ↔ e ≤ cal.shift d (m + n) := by
      intro e
      have total := cal.between_add d (cal.shift d m) e
      rw [steady.le_shift_iff negative left, steady.le_shift_iff (by omega) enough]
      omega
    exact Std.le_antisymm ((same _).mp (Std.le_refl _)) ((same _).mpr (Std.le_refl _))
  · rw [Int.add_zero, shift_zero]

/-- Going back by what was passed leads to the first of the working days that were passed. -/
theorem Steady.shift_shift_neg (steady : cal.Steady) (positive : 0 < n) (enough : cal.HasDays d n) :
    cal.shift (cal.shift d n) (-n) = cal.closestFrom d := by
  have counted := steady.between_shift enough
  have some : ∃ w, d ≤ w ∧ cal.works w = true := by
    have days := enough.2
    rw [between_eq_worked d.le_last] at days
    have more : 0 < cal.worked d Date.last := by omega
    obtain ⟨w, after, -, works⟩ := exists_works more
    exact ⟨w, after, works⟩
  have left : cal.HasDays (cal.shift d n) (-n) :=
    steady.hasDays_shift enough (by rw [Int.add_right_neg]; exact cal.hasDays_zero d)
  have same : ∀ e, e ≤ cal.shift (cal.shift d n) (-n) ↔ e ≤ cal.closestFrom d := by
    intro e
    have total := cal.between_add d (cal.shift d n) e
    rw [steady.le_shift_iff (by omega) left, steady.le_closestFrom_iff some]
    omega
  exact Std.le_antisymm ((same _).mp (Std.le_refl _)) ((same _).mpr (Std.le_refl _))

/-- A shift forward ends by a date if the shift back from that date does not go past its start. -/
theorem Steady.shift_le_iff_le_shift (steady : cal.Steady) (ahead : 0 ≤ n)
    (enough : cal.HasDays d n) (enoughBack : cal.HasDays e (-n)) :
    cal.shift d n ≤ e ↔ d ≤ cal.shift e (-n) := by
  rcases Int.lt_or_eq_of_le ahead with positive | rfl
  · rw [steady.shift_le_iff positive enough, steady.le_shift_iff (by omega) enoughBack,
      cal.between_swap d e]
    omega
  · exact Iff.rfl

/-- On a steady calendar with days enough, shifts in one direction add up, going back by the working
days that were passed leads to the closest working day, and the two directions are adjoint. -/
theorem shift_laws (steady : cal.Steady) :
    (∀ d m n, 0 ≤ m → 0 ≤ n → cal.HasDays d (m + n) →
      cal.shift (cal.shift d m) n = cal.shift d (m + n)) ∧
    (∀ d m n, 0 ≤ m → 0 ≤ n → cal.HasDays d (-(m + n)) →
      cal.shift (cal.shift d (-m)) (-n) = cal.shift d (-(m + n))) ∧
    (∀ d n, 1 ≤ n → cal.HasDays d n → cal.shift (cal.shift d n) (-n) = cal.closestFrom d) ∧
    ∀ d e n, 0 ≤ n → cal.HasDays d n → cal.HasDays e (-n) →
      (cal.shift d n ≤ e ↔ d ≤ cal.shift e (-n)) := by
  refine ⟨?ahead, ?back, ?closest, ?adjoint⟩
  case ahead =>
    intro d m n first second enough
    exact steady.shift_shift_ahead first second enough
  case back =>
    intro d m n first second enough
    rw [Int.neg_add] at enough ⊢
    exact steady.shift_shift_back (by omega) (by omega) enough
  case closest =>
    intro d n positive enough
    exact steady.shift_shift_neg (by omega) enough
  case adjoint =>
    intro d e n ahead enough enoughBack
    exact steady.shift_le_iff_le_shift ahead enough enoughBack

/-- From a Saturday over the two next working days and back: to the Monday. -/
theorem shift_laws_from_saturday :
    Sample.week.Steady ∧ Sample.week.HasDays (Sample.day 3) (1 + 1) ∧
      Sample.week.HasDays (Sample.day 8) (-(1 + 1)) ∧
      Sample.week.shift (Sample.week.shift (Sample.day 3) 1) 1 =
        Sample.week.shift (Sample.day 3) (1 + 1) ∧
      Sample.week.shift (Sample.week.shift (Sample.day 8) (-1)) (-1) =
        Sample.week.shift (Sample.day 8) (-(1 + 1)) ∧
      Sample.week.shift (Sample.week.shift (Sample.day 3) (1 + 1)) (-(1 + 1)) = Sample.day 5 ∧
      (Sample.week.shift (Sample.day 3) (1 + 1) ≤ Sample.day 8 ↔
        Sample.day 3 ≤ Sample.week.shift (Sample.day 8) (-(1 + 1))) := by
  have saturday : Sample.week.HasDays (Sample.day 3) (1 + 1) :=
    HasDays.of_between (show Sample.week.between _ (Sample.day 3) ≤ 1 + 1 by decide)
      (show 1 + 1 ≤ Sample.week.between _ (Sample.day 7) by decide)
  have thursday : Sample.week.HasDays (Sample.day 8) (-(1 + 1)) :=
    HasDays.of_between (show Sample.week.between _ (Sample.day 5) ≤ -(1 + 1) by decide)
      (show -(1 + 1) ≤ Sample.week.between _ (Sample.day 8) by decide)
  have monday : Sample.week.closestFrom (Sample.day 3) = Sample.day 5 := by decide
  obtain ⟨ahead, back, closest, adjoint⟩ := shift_laws Sample.steady_week
  have there := closest (Sample.day 3) (1 + 1) (by decide) saturday
  rw [monday] at there
  exact ⟨Sample.steady_week, saturday, thursday,
    ahead (Sample.day 3) 1 1 (by decide) (by decide) saturday,
    back (Sample.day 8) 1 1 (by decide) (by decide) thursday, there,
    adjoint (Sample.day 3) (Sample.day 8) (1 + 1) (by decide) saturday thursday⟩

end Workplan.Calendar
