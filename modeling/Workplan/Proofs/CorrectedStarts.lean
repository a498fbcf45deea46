/-
# Workplan.Proofs.CorrectedStarts — whether the acceptable start resolves a collision

A dependant that is held back is moved to the closest working day from its acceptable start on. Where a
link binds its start, that resolves the collision. Where a link binds its finish, the acceptable start is
found by going back from the barrier, and the finish by passing as many working days again; that leads
back to the barrier only from right after a working day, and else to an earlier date:

* `Steady.shift_neg_shift` — back and there;
* `corrected_active_iff` — when a corrected task is still held back; at any rate no working day is left
  up to the barrier;
* `corrected_stays_active` — an ordinary weekend before the barrier is enough.
-/
import Workplan.Proofs.ShiftLaws

namespace Workplan

set_option autoImplicit false

namespace Calendar

variable {cal : Calendar} {d : Date} {n : Int}

theorem closestFrom_of_works (works : cal.works d = true) : cal.closestFrom d = d := by
  rw [closestFrom, patience, workingFrom?, if_pos works, Option.getD_some]

theorem between_prev (inside : Date.first < d) :
    cal.between d.prev d = if cal.works d.prev = true then 1 else 0 := by
  have less := Date.prev_lt inside
  have one := cal.worked_next (Std.lt_of_lt_of_le less d.le_last)
  rw [Date.next_prev inside] at one
  rw [between_eq_worked (Std.le_of_lt less), one]
  split <;> rfl

/-- Passing as many working days as were entered on the way back leads to where that began, but for days
off: to an earlier date if the day before was off. -/
theorem Steady.shift_neg_shift (steady : cal.Steady) (positive : 0 < n)
    (enough : cal.HasDays d (-n)) :
    cal.between (cal.shift (cal.shift d (-n)) n) d = 0 ∧
      (cal.shift (cal.shift d (-n)) n < d ↔ cal.works d.prev = false) := by
  have left : cal.HasDays (cal.shift d (-n)) n :=
    steady.hasDays_shift enough (by rw [Int.add_left_neg]; exact cal.hasDays_zero d)
  have back := steady.between_shift enough
  have there := steady.between_shift left
  have way := cal.between_swap d (cal.shift d (-n))
  have inside : Date.first < d := by
    refine Std.not_le.mp fun early => ?_
    have none := cal.between_mono d early
    have entered := enough.1
    rw [between_self] at none
    omega
  constructor
  · have total := cal.between_add (cal.shift d (-n)) (cal.shift (cal.shift d (-n)) n) d
    omega
  · have total := cal.between_add (cal.shift d (-n)) d.prev d
    have last := cal.between_prev inside
    rw [Date.lt_iff_le_prev inside, steady.shift_le_iff positive left]
    cases works : cal.works d.prev with
    | true =>
      rw [works, if_pos rfl] at last
      simp only [Bool.true_eq_false, iff_false]
      omega
    | false =>
      rw [works, if_neg (by decide)] at last
      simp only [iff_true]
      omega

end Calendar

namespace Relation

variable {relation : Relation} {dependee : Span} {task : Task} {lag : Int} {cal : Calendar}

/-- The task, moved to the closest working day from its acceptable start on. -/
def corrected (relation : Relation) (dependee : Span) (task : Task) (lag : Int) (cal : Calendar) :
    Task :=
  task.shiftTo (cal.closestFrom (relation.forward dependee task.span lag cal).acceptable) cal

theorem span_corrected : (relation.corrected dependee task lag cal).span =
    ⟨cal.closestFrom (relation.forward dependee task.span lag cal).acceptable,
      cal.shift (cal.closestFrom (relation.forward dependee task.span lag cal).acceptable)
        (task.span.length cal)⟩ :=
  task.span_shiftTo _ cal

/-- A corrected task does not come before the barrier, if its start is bound or it takes no time. -/
theorem barrier_le_corrected
    (short : relation.bindsDependantFinish = false ∨ task.span.length cal = 0) :
    relation.barrier dependee lag cal ≤
      relation.dependantDate (relation.corrected dependee task lag cal).span := by
  have late := cal.le_closestFrom (relation.forward dependee task.span lag cal).acceptable
  rw [span_corrected]
  cases binds : relation.bindsDependantFinish with
  | false =>
    rw [acceptable_of_bindsStart binds] at late ⊢
    simpa [dependantDate, binds] using late
  | true =>
    have none : task.span.length cal = 0 := short.resolve_left (by simp [binds])
    have acceptable : (relation.forward dependee task.span lag cal).acceptable =
        relation.barrier dependee lag cal := by
      rw [acceptable_of_bindsFinish binds, none]
      rfl
    rw [acceptable] at late ⊢
    rw [none]
    simpa [dependantDate, binds] using late

/-- Otherwise it ends where going back from the barrier by its length, and there again, leads to. -/
theorem dependantDate_corrected (steady : cal.Steady) (binds : relation.bindsDependantFinish = true)
    (long : 0 < task.span.length cal)
    (enough : cal.HasDays (relation.barrier dependee lag cal) (-task.span.length cal)) :
    relation.dependantDate (relation.corrected dependee task lag cal).span =
      cal.shift (cal.shift (relation.barrier dependee lag cal) (-task.span.length cal))
        (task.span.length cal) := by
  have works := steady.works_shift (by omega) enough
  rw [span_corrected, acceptable_of_bindsFinish binds, Calendar.closestFrom_of_works works]
  simp [dependantDate, binds]

/-- On a steady calendar with days enough before the barrier, a corrected task is held back no more,
unless its finish is bound, it takes some time, and the day before the barrier is off. Even then no
working day is left up to the barrier. -/
theorem corrected_active_iff (steady : cal.Steady)
    (enough : relation.bindsDependantFinish = true →
      cal.HasDays (relation.barrier dependee lag cal) (-task.span.length cal)) :
    ((relation.forward dependee (relation.corrected dependee task lag cal).span lag cal).active =
        true ↔
      relation.bindsDependantFinish = true ∧ 0 < task.span.length cal ∧
        cal.works (relation.barrier dependee lag cal).prev = false) ∧
    cal.between (relation.dependantDate (relation.corrected dependee task lag cal).span)
      (relation.barrier dependee lag cal) ≤ 0 := by
  have nonneg := task.span.length_nonneg cal
  rw [forward_active_iff]
  by_cases short : relation.bindsDependantFinish = false ∨ task.span.length cal = 0
  · have late : relation.barrier dependee lag cal ≤ _ := barrier_le_corrected short
    have none := cal.between_mono (relation.dependantDate
      (relation.corrected dependee task lag cal).span) late
    rw [Calendar.between_self] at none
    refine ⟨⟨fun early => absurd early (Std.not_lt.mpr late), fun ⟨binds, long, _⟩ => ?_⟩, none⟩
    rcases short with bindsStart | empty
    · rw [binds] at bindsStart
      contradiction
    · omega
  · obtain ⟨bindsNot, some⟩ := not_or.mp short
    have binds : relation.bindsDependantFinish = true := by simpa using bindsNot
    have long : 0 < task.span.length cal := by omega
    obtain ⟨none, early⟩ := steady.shift_neg_shift long (enough binds)
    rw [dependantDate_corrected steady binds long (enough binds), none, early]
    simp [binds, long]

end Relation

namespace Sample

/-- From a Wednesday to the end of the Monday after it. -/
def pastMonday : Span := ⟨day 0, day 6⟩

/-- From a Wednesday over the weekend after it. -/
def untilMonday : Span := ⟨day 0, day 5⟩

/-- On a Wednesday and a Thursday. -/
def twoDays : Task := task inner (day 0) (day 2)

end Sample

namespace Relation

open Sample (pastMonday untilMonday twoDays week)

/-- A task of two days that has to end with a Monday is moved to the Friday before, and ends in time. -/
theorem corrected_active_iff_over_weekend :
    week.Steady ∧ week.HasDays (finishFinish.barrier pastMonday 0 week) (-twoDays.span.length week) ∧
      (finishFinish.forward pastMonday twoDays.span 0 week).active = true ∧
      (finishFinish.forward pastMonday (finishFinish.corrected pastMonday twoDays 0 week).span 0
        week).active = false := by
  have enough : week.HasDays (Sample.day 6) (-2) :=
    .of_between (show week.between _ (Sample.day 2) ≤ -2 by decide)
      (show -2 ≤ week.between _ (Sample.day 6) by decide)
  have length : twoDays.span.length week = 2 := by decide
  have barrier : finishFinish.barrier pastMonday 0 week = Sample.day 6 := by decide
  rw [length, barrier]
  refine ⟨Sample.steady_week, enough, by decide, ?_⟩
  have held : (finishFinish.forward pastMonday (finishFinish.corrected pastMonday twoDays 0 week).span
      0 week).active = true ↔ _ :=
    (corrected_active_iff Sample.steady_week fun _ => by rw [length, barrier]; exact enough).1
  rw [barrier] at held
  rw [← Bool.not_eq_true, held]
  decide

/-- One that has to last until the Monday comes to end with the Friday, and is held back as before. -/
theorem corrected_stays_active :
    week.Steady ∧ untilMonday.start ≤ untilMonday.finish ∧ twoDays.start ≤ twoDays.finish ∧
      week.HasDays (finishFinish.barrier untilMonday 0 week) (-twoDays.span.length week) ∧
      (finishFinish.forward untilMonday (finishFinish.corrected untilMonday twoDays 0 week).span 0
        week).active = true := by
  refine ⟨Sample.steady_week, by decide, by decide, ?_, by decide⟩
  exact .of_between (show week.between _ (Sample.day 1) ≤ _ by decide)
    (show _ ≤ week.between _ (Sample.day 5) by decide)

end Relation

end Workplan
