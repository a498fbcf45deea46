/-
# Workplan.Proofs.Collisions — what the acceptable date of a collision is good for

* `forward?_eq_some_iff` — a link is tested on the spans of its two tasks;
* `start_le_acceptable` — a task that a link holds back is never asked to start earlier;
* `acceptable_of_bindsStart` — where the start is bound, the acceptable date is the barrier;
* `not_active_of_placed` — where every day is worked, a task moved to an acceptable date is not held
  back any more.
-/
import Workplan.Link
import Workplan.Proofs.WorkingDays
import Workplan.Task

namespace Workplan

set_option autoImplicit false

theorem Link.forward?_eq_some_iff {link : Link} {span? : TaskId → Option Span} {cal : Calendar}
    {collision : Collision} : link.forward? span? cal = some collision ↔
      ∃ dependee dependant, span? link.dependee = some dependee ∧
        span? link.dependant = some dependant ∧
        collision = link.relation.forward dependee dependant link.lag.days cal := by
  unfold forward? binding?
  cases span? link.dependee with
  | none => simp
  | some dependee =>
    cases span? link.dependant with
    | none => simp
    | some dependant => simp [eq_comm]

theorem Task.span_ordered {task : Task} (ordered : task.start ≤ task.finish) :
    task.span.start ≤ task.span.finish := by
  unfold span
  split
  · exact Std.le_refl _
  · exact ordered

theorem Task.span_start (task : Task) : task.span.start = task.start := by
  unfold span
  split <;> rfl

theorem Task.finish_span_le {task : Task} (ordered : task.start ≤ task.finish) :
    task.span.finish ≤ task.finish := by
  unfold Task.span
  split
  · exact ordered
  · exact Std.le_refl _

theorem Task.length_of_milestone {task : Task} (cal : Calendar) (milestone : task.milestone = true) :
    task.span.length cal = 0 := by
  refine Span.length_of_isEmpty cal ?_
  simp [span, milestone, Span.isEmpty, Std.le_refl]

/-- A task that is moved takes the same number of working days from its new start on. -/
theorem Task.span_shiftTo (task : Task) (start : Date) (cal : Calendar) :
    (task.shiftTo start cal).span = ⟨start, cal.shift start (task.span.length cal)⟩ := by
  cases milestone : task.milestone with
  | true =>
    rw [Task.length_of_milestone cal milestone, Task.span]
    exact if_pos milestone
  | false => simp [Task.span, Task.shiftTo, milestone]

namespace Relation

variable {relation : Relation} {dependee dependant : Span} {lag : Int} {cal : Calendar}

theorem acceptable_of_bindsStart (binds : relation.bindsDependantFinish = false) :
    (relation.forward dependee dependant lag cal).acceptable =
      relation.barrier dependee lag cal := by
  simp [forward, binds]

theorem acceptable_of_bindsFinish (binds : relation.bindsDependantFinish = true) :
    (relation.forward dependee dependant lag cal).acceptable =
      cal.shift (relation.barrier dependee lag cal) (-dependant.length cal) := by
  simp [forward, binds]

/-- Being held back never means to start earlier, on any calendar. -/
theorem start_le_acceptable (ordered : dependant.start ≤ dependant.finish)
    (active : (relation.forward dependee dependant lag cal).active = true) :
    dependant.start ≤ (relation.forward dependee dependant lag cal).acceptable := by
  have early := (forward_active_iff ..).mp active
  cases binds : relation.bindsDependantFinish with
  | false =>
    rw [acceptable_of_bindsStart binds]
    have start : relation.dependantDate dependant = dependant.start := by
      simp [dependantDate, binds]
    rw [start] at early
    exact Std.le_of_lt early
  | true =>
    rw [acceptable_of_bindsFinish binds]
    have finish : relation.dependantDate dependant = dependant.finish := by
      simp [dependantDate, binds]
    rw [finish] at early
    exact cal.le_shift_neg_length ordered (Std.le_of_lt early)

/-- Where every day is worked, a task at an acceptable date, as it was or moved there, is not held
back any more. The ends of the calendar do no harm. -/
theorem not_active_of_placed {task placed : Task} (ordered : task.start ≤ task.finish)
    (moved : placed = task ∨ placed = task.shiftTo placed.start .everyDay)
    (late : (relation.forward dependee task.span lag .everyDay).acceptable ≤ placed.start) :
    (relation.forward dependee placed.span lag .everyDay).active = false := by
  rw [← Bool.not_eq_true, forward_active_iff]
  refine Std.not_lt.mpr ?_
  cases binds : relation.bindsDependantFinish with
  | false =>
    rw [acceptable_of_bindsStart binds, ← Task.span_start] at late
    simpa [dependantDate, binds] using late
  | true =>
    have order := Task.span_ordered ordered
    have inOrder := Date.le_iff.mp order
    have length := Calendar.length_everyDay order
    have start := task.span_start
    have limit : (relation.barrier dependee lag .everyDay).day ≤ Date.last.day :=
      (relation.barrier dependee lag .everyDay).le_lastDay
    rw [acceptable_of_bindsFinish binds, Date.le_iff,
      Calendar.day_shift_everyDay_back _ (by omega), length] at late
    have finish : relation.dependantDate placed.span = placed.span.finish := by
      simp [dependantDate, binds]
    rw [finish, Date.le_iff]
    rcases moved with rfl | moved
    · rw [start] at late length inOrder
      omega
    · have ahead := Calendar.day_shift_everyDay_ahead placed.start (task.span.length_nonneg .everyDay)
      rw [moved, Task.span_shiftTo]
      show (relation.barrier dependee lag .everyDay).day ≤
        (Calendar.everyDay.shift placed.start (task.span.length .everyDay)).day
      rw [ahead, length]
      omega

end Relation

end Workplan
