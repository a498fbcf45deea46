/-
# Workplan.Proofs.PulledInside — where pulling leads a subtask

How far a task sticks out of its container is counted in working days, from the end of the container to
that of the task, and the task goes back by as many. Then as many working days lie between its new start and
the end of the container as it takes, if there are as many in the container at all. So a task that moves
and takes some time ends inside. But if nothing sticks out except days off, there is nothing to go back by,
and the task stays as it is:

* `pulledStart_of_early`, `pulledStart_of_late` — where a task starts afterwards;
* `length_le_between_pulledStart` — from there on, there is room for it;
* `finish_pulled_le_iff` — when it ends inside;
* `IsPulled`, `pullIn_isPulled` — what pulling does to each of the tasks, and what it reports;
* `pullIn_leaves_days_off` — a task that stays outside, by a weekend.
-/
import Workplan.Proofs.BackwardChecks
import Workplan.Proofs.PulledTasks

namespace Workplan

set_option autoImplicit false

namespace Task

variable {task : Task}

/-- Counted from its start to its finish, a task takes at least its length; a milestone takes none. -/
theorem length_le_between (cal : Calendar) (ordered : task.start ≤ task.finish) :
    task.span.length cal ≤ cal.between task.start task.finish := by
  rw [Span.length_eq_between cal (span_ordered ordered), span_start]
  exact cal.between_mono _ (finish_span_le ordered)

/-- It takes no less if its finish counts, as that of a milestone does only where it is the start. -/
theorem length_eq_between (cal : Calendar) (counts : task.span.finish = task.finish)
    (ordered : task.start ≤ task.finish) :
    task.span.length cal = cal.between task.start task.finish := by
  rw [Span.length_eq_between cal (span_ordered ordered), span_start, counts]

theorem finish_shiftTo (task : Task) (start : Date) (cal : Calendar) :
    (task.shiftTo start cal).finish = cal.shift start (task.span.length cal) := by
  cases milestone : task.milestone with
  | true =>
    rw [length_of_milestone cal milestone]
    exact if_pos milestone
  | false => simp [shiftTo, milestone]

end Task

namespace Bounds

variable {task : Task} {first last : Date} {cal : Calendar}

/-! ## The new start -/

theorem le_pulledStart (task : Task) (first last : Date) (cal : Calendar) :
    first ≤ pulledStart task first last cal := by
  simp only [pulledStart]
  split
  · exact Std.right_le_max
  · exact Std.right_le_max

/-- A task that starts before its container starts with it, whatever sticks out at the other end. -/
theorem pulledStart_of_early (early : task.start ≤ first) :
    pulledStart task first last cal = first := by
  simp only [pulledStart, Date.max_eq_right early]
  split
  · rename_i sticksOut
    have nonneg := cal.between_nonneg_of_le (Std.le_of_lt sticksOut)
    exact Date.max_eq_right (cal.shift_le first (by omega))
  · rfl

/-- A task that starts inside moves by what sticks out, but no further than to where its container
starts. -/
theorem pulledStart_of_late (late : first ≤ task.start) :
    pulledStart task first last cal =
      if last < task.finish then max (cal.shift task.start (-cal.between last task.finish)) first
      else task.start := by
  simp only [pulledStart, Date.max_eq_left late]

/-- A task inside its container stays, and so does one that ends outside by days off alone. -/
theorem pulledStart_of_inside (late : first ≤ task.start)
    (daysOff : last < task.finish → cal.between last task.finish = 0) :
    pulledStart task first last cal = task.start := by
  rw [pulledStart_of_late late]
  split
  · rename_i sticksOut
    rw [daysOff sticksOut]
    exact Date.max_eq_left late
  · rfl

/-! ## Room -/

/-- Both shifts by which a task is pulled have days enough: the one of its start, by what sticks out, and
the one from the new start to the new finish. -/
structure CanPull (task : Task) (first last : Date) (cal : Calendar) : Prop where
  back : first < task.start → last < task.finish →
    cal.HasDays task.start (-cal.between last task.finish)
  ahead : cal.HasDays (pulledStart task first last cal) (task.span.length cal)

/-- A task that is no longer than its container has room in it from its new start on. -/
theorem length_le_between_pulledStart (steady : cal.Steady) (ordered : task.start ≤ task.finish)
    (fits : task.span.length cal ≤ cal.between first last)
    (back : first < task.start → last < task.finish →
      cal.HasDays task.start (-cal.between last task.finish)) :
    task.span.length cal ≤ cal.between (pulledStart task first last cal) last := by
  have taken := Task.length_le_between cal ordered
  by_cases early : task.start ≤ first
  · rwa [pulledStart_of_early early]
  have inside : first < task.start := Std.not_le.mp early
  rw [pulledStart_of_late (Std.le_of_lt inside)]
  split
  · rename_i sticksOut
    rcases Std.max_eq_or (a := cal.shift task.start (-cal.between last task.finish))
      (b := first) with start | start
    · -- going back by what sticks out makes as much room as the task has where it is
      have counted := steady.between_shift (back inside sticksOut)
      have fromStart := cal.between_add task.start
        (cal.shift task.start (-cal.between last task.finish)) last
      have toFinish := cal.between_add task.start last task.finish
      rw [start]
      omega
    · rwa [start]
  · rename_i inTime
    exact taken.trans (cal.between_mono _ (Std.not_lt.mp inTime))

/-- For a task whose finish counts and that is no longer than its container, the calendar always has the
days. -/
theorem canPull_of_fits (steady : cal.Steady) (ordered : task.start ≤ task.finish)
    (counts : task.span.finish = task.finish) (fits : task.span.length cal ≤ cal.between first last) :
    CanPull task first last cal := by
  have taken := Task.length_eq_between cal counts ordered
  have back : first < task.start → last < task.finish →
      cal.HasDays task.start (-cal.between last task.finish) := by
    intro inside sticksOut
    have nonneg := cal.between_nonneg_of_le (Std.le_of_lt sticksOut)
    have toFinish := cal.between_add task.start last task.finish
    have around := cal.between_add task.start first last
    refine .of_between (a := first) (b := task.start) (by omega) ?_
    rw [Calendar.between_self]
    omega
  have room := length_le_between_pulledStart steady ordered fits back
  refine ⟨back, .of_between (a := pulledStart task first last cal) (b := last) ?_ room⟩
  rw [Calendar.between_self]
  exact task.span.length_nonneg cal

/-! ## One task -/

/-- What pulling between two dates makes of a task. -/
structure IsPulled (task : Task) (first last : Date) (cal : Calendar) (placed : Task) : Prop where
  notBefore : first ≤ placed.start
  sameLength : placed.span.length cal = task.span.length cal
  stays : first ≤ task.start → task.finish ≤ last → placed = task
  /-- If there is room for the task, then it has no working day from the last date on. -/
  worksInside : task.span.length cal ≤ cal.between first last →
    cal.between last placed.span.finish ≤ 0
  /-- It ends by the last date, unless it has stuck out by days off alone, or takes no time and the last
  date is a day off itself. -/
  endsInside : task.span.finish = task.finish → task.span.length cal ≤ cal.between first last →
    (placed.finish ≤ last ↔ task.start < first ∨ task.finish ≤ last ∨
      0 < cal.between last task.finish ∧ (0 < task.span.length cal ∨ cal.works last = true))

theorem length_pulled (steady : cal.Steady) (days : CanPull task first last cal) :
    (pulled task first last cal).span.length cal = task.span.length cal := by
  unfold pulled
  split
  · rfl
  · exact steady.length_shiftTo days.ahead.2

/-- With room for it, a task that moves ends inside, if it takes some time. -/
theorem finish_pulled_le (steady : cal.Steady) (days : CanPull task first last cal)
    (moves : pulledStart task first last cal ≠ task.start) (some : 0 < task.span.length cal)
    (room : task.span.length cal ≤ cal.between (pulledStart task first last cal) last) :
    (pulled task first last cal).finish ≤ last := by
  rw [pulled_of_moves moves, Task.finish_shiftTo]
  exact (steady.shift_le_iff some days.ahead).mpr room

/-- If it takes none, it starts and ends on the first working day from the end of the container on. -/
theorem pulledStart_le_iff (steady : cal.Steady) (days : CanPull task first last cal)
    (ordered : task.start ≤ task.finish) (inOrder : first ≤ last) (counts : task.span.finish = task.finish)
    (empty : task.span.length cal = 0) (some : 0 < cal.between last task.finish) :
    pulledStart task first last cal ≤ last ↔ cal.works last = true := by
  have taken := Task.length_eq_between cal counts ordered
  have toFinish := cal.between_add task.start last task.finish
  have sticksOut : last < task.finish := by
    refine Std.not_le.mp fun inTime => ?_
    have nonneg := cal.between_nonneg_of_le inTime
    have swap := cal.between_swap last task.finish
    omega
  have inside : first < task.start := by
    refine Std.not_le.mp fun early => ?_
    have nonneg := cal.between_nonneg_of_le (Std.le_trans early inOrder)
    omega
  have enough := days.back inside sticksOut
  have negative : -cal.between last task.finish < 0 := by omega
  have counted := steady.between_shift enough
  have notBefore : last ≤ cal.shift task.start (-cal.between last task.finish) :=
    (steady.le_shift_iff negative enough).mpr (by omega)
  rw [pulledStart_of_late (Std.le_of_lt inside), if_pos sticksOut,
    Date.max_eq_left (Std.le_trans inOrder notBefore)]
  constructor
  · intro inTime
    have works := steady.works_shift negative enough
    rwa [Std.le_antisymm inTime notBefore] at works
  · intro works
    refine Std.not_lt.mp fun after => ?_
    have less := Calendar.between_lt task.start (Std.le_refl last) after works
    omega

/-- When a task that is no longer than its container comes to end inside. -/
theorem finish_pulled_le_iff (steady : cal.Steady) (days : CanPull task first last cal)
    (ordered : task.start ≤ task.finish) (inOrder : first ≤ last) (counts : task.span.finish = task.finish)
    (fits : task.span.length cal ≤ cal.between first last) :
    (pulled task first last cal).finish ≤ last ↔ task.start < first ∨ task.finish ≤ last ∨
      0 < cal.between last task.finish ∧ (0 < task.span.length cal ∨ cal.works last = true) := by
  have room := length_le_between_pulledStart steady ordered fits days.back
  -- a task without working days ends where it starts
  have ofEmpty : pulledStart task first last cal ≠ task.start → task.span.length cal = 0 →
      (pulled task first last cal).finish = pulledStart task first last cal := by
    intro moves empty
    rw [pulled_of_moves moves, Task.finish_shiftTo, empty, Calendar.shift_zero]
  by_cases early : task.start < first
  · refine iff_of_true ?_ (.inl early)
    have start : pulledStart task first last cal = first :=
      pulledStart_of_early (Std.le_of_lt early)
    have moves : pulledStart task first last cal ≠ task.start := by
      rw [start]
      rintro rfl
      exact Std.lt_irrefl early
    rcases Int.lt_or_eq_of_le (task.span.length_nonneg cal) with some | empty
    · exact finish_pulled_le steady days moves some room
    · rw [ofEmpty moves empty.symm, start]
      exact inOrder
  have late : first ≤ task.start := Std.not_lt.mp early
  by_cases inTime : task.finish ≤ last
  · refine iff_of_true ?_ (.inr (.inl inTime))
    rwa [pulled_of_stays (pulledStart_of_inside late fun out => absurd inTime (Std.not_le.mpr out))]
  rw [or_iff_right early, or_iff_right inTime]
  have sticksOut : last < task.finish := Std.not_le.mp inTime
  have nonneg := cal.between_nonneg_of_le (Std.le_of_lt sticksOut)
  rcases Int.lt_or_eq_of_le nonneg with out | daysOff
  · rw [and_iff_right out]
    have moves : pulledStart task first last cal ≠ task.start := by
      intro stays
      have taken := Task.length_eq_between cal counts ordered
      have toFinish := cal.between_add task.start last task.finish
      rw [stays] at room
      omega
    rcases Int.lt_or_eq_of_le (task.span.length_nonneg cal) with some | empty
    · exact iff_of_true (finish_pulled_le steady days moves some room) (.inl some)
    · rw [ofEmpty moves empty.symm, or_iff_right (by omega)]
      exact pulledStart_le_iff steady days ordered inOrder counts empty.symm out
  · rw [pulled_of_stays (pulledStart_of_inside late fun _ => daysOff.symm)]
    exact iff_of_false inTime fun out => by omega

theorem isPulled_pulled (steady : cal.Steady) (inOrder : first ≤ last)
    (ordered : task.start ≤ task.finish)
    (range : task.span.finish ≠ task.finish ∨ cal.between first last < task.span.length cal →
      CanPull task first last cal) :
    IsPulled task first last cal (pulled task first last cal) := by
  have days : CanPull task first last cal := by
    by_cases needed : task.span.finish ≠ task.finish ∨
        cal.between first last < task.span.length cal
    · exact range needed
    · obtain ⟨counts, short⟩ := not_or.mp needed
      exact canPull_of_fits steady ordered (not_not.mp counts) (Int.not_lt.mp short)
  have length := length_pulled steady days
  refine ⟨?notBefore, length, ?stays, ?worksInside, ?endsInside⟩
  case notBefore =>
    rw [pulled_start]
    exact le_pulledStart task first last cal
  case stays =>
    intro late inTime
    exact pulled_of_stays (pulledStart_of_inside late fun out => absurd inTime (Std.not_le.mpr out))
  case worksInside =>
    intro fits
    have room := length_le_between_pulledStart steady ordered fits days.back
    have pulledInOrder : (pulled task first last cal).start ≤ (pulled task first last cal).finish :=
      pulled_ordered ordered
    have taken := Span.length_eq_between cal (Task.span_ordered pulledInOrder)
    rw [Task.span_start, pulled_start, length] at taken
    have total := cal.between_add (pulledStart task first last cal) last
      (pulled task first last cal).span.finish
    omega
  case endsInside =>
    intro counts fits
    exact finish_pulled_le_iff steady days ordered inOrder counts fits

/-! ## All of them -/

/-- On a steady calendar, each task directly inside a container comes to be pulled between the two dates
that the container had. The report lists just those that have got other dates, each once. Days enough
are asked for only where a task is longer than the container, or a milestone with a finish of its own. -/
theorem pullIn_isPulled {o : Outline} {container : TaskId} {outer : Task} (steady : cal.Steady)
    (forest : o.hierarchy.IsForest) (ordered : o.Ordered) (found : o.task? container = some outer)
    (range : ∀ id task, o.container id = some container → o.task? id = some task →
      task.span.finish ≠ task.finish ∨
        cal.between outer.start outer.finish < task.span.length cal →
      CanPull task outer.start outer.finish cal) :
    ∃ final moved, pullIn o container cal = (final, .ok moved) ∧ moved.Nodup ∧
      (∀ id, id ∈ moved ↔ o.container id = some container ∧ final.dates? id ≠ o.dates? id) ∧
      ∀ id task, o.container id = some container → o.task? id = some task →
        ∃ placed, final.task? id = some placed ∧
          IsPulled task outer.start outer.finish cal placed := by
  obtain ⟨final, moved, done, distinct, direct, -, each⟩ := pullIn_spec forest ordered found cal
  have reported : ∀ id, o.container id = some container →
      (id ∈ moved ↔ final.dates? id ≠ o.dates? id) := by
    intro id below
    obtain ⟨task, there⟩ := Outline.exists_task?_iff.mpr (Outline.mem_ids_of_container below)
    obtain ⟨placed, moves⟩ := each id task below there
    rw [moves, Outline.dates?_of_task? placed, Outline.dates?_of_task? there, pulled_start]
    refine not_congr ⟨fun stays => ?_, fun same => (Prod.mk.inj (Option.some.inj same)).1⟩
    rw [stays, pulled_of_stays stays]
  refine ⟨final, moved, done, distinct, fun id => ?_, fun id task below there => ?_⟩
  · constructor
    · intro named
      have below := direct id named
      exact ⟨below, (reported id below).mp named⟩
    · rintro ⟨below, differ⟩
      exact (reported id below).mpr differ
  · obtain ⟨placed, -⟩ := each id task below there
    exact ⟨_, placed, isPulled_pulled steady (ordered container outer found)
      (ordered id task there) (range id task below there)⟩

end Bounds

namespace Sample

/-- Two tasks in one that goes from a Monday to the end of a Wednesday: one too late, one too long. -/
def crowded : Except OutlineError Outline := do
  let o ← twofold ⟨day 5, day 8⟩ ⟨day 7, day 9⟩
  o.nest outer (task other (day 6) (day 12))

theorem forest_crowded {o : Outline} (built : crowded = .ok o) :
    o.hierarchy.IsForest ∧ o.Ordered := by
  unfold crowded at built
  obtain ⟨_, two, third⟩ := exists_ok_of_bind built
  obtain ⟨forest, ordered⟩ := forest_twofold two
  exact ⟨Outline.isForest_nest forest third, Outline.ordered_nest ordered third⟩

/-- A task from a Friday to the end of the Sunday after it, in one for the Friday alone. -/
def friday : Except OutlineError Outline :=
  twofold ⟨day 2, day 3⟩ ⟨day 2, day 5⟩

end Sample

namespace Bounds

open Sample (week)

/-- The first subtask comes to end with the container; the second keeps its length and ends later. -/
theorem pullIn_isPulled_crowded : ∃ o final moved, Sample.crowded = .ok o ∧
    pullIn o Sample.outer week = (final, .ok moved) ∧ Sample.inner ∈ moved ∧
    (∃ placed, final.task? Sample.inner = some placed ∧ Sample.day 5 ≤ placed.start ∧
      placed.finish ≤ Sample.day 8 ∧ placed.span.length week = 2) ∧
    ∃ placed, final.task? Sample.other = some placed ∧ Sample.day 5 ≤ placed.start ∧
      placed.span.length week = 4 := by
  obtain ⟨o, built⟩ : ∃ o, Sample.crowded = .ok o := ⟨_, rfl⟩
  obtain ⟨forest, ordered⟩ := Sample.forest_crowded built
  obtain ⟨found, nested, late, long⟩ :
      o.task? Sample.outer = some (Sample.task Sample.outer (Sample.day 5) (Sample.day 8)) ∧
      o.nested Sample.outer = [Sample.inner, Sample.other] ∧
      o.task? Sample.inner = some (Sample.task Sample.inner (Sample.day 7) (Sample.day 9)) ∧
      o.task? Sample.other = some (Sample.task Sample.other (Sample.day 6) (Sample.day 12)) := by
    cases built
    decide
  have below : ∀ id, o.container id = some Sample.outer ↔ id = Sample.inner ∨ id = Sample.other := by
    intro id
    have listed : id ∈ o.nested Sample.outer ↔ o.container id = some Sample.outer :=
      forest.mem_nested Sample.outer id
    rw [← listed, nested]
    simp
  -- the second one goes back by the two days that stick out, and takes four from the Monday on
  have backs : week.HasDays (Sample.day 6) (-2) :=
    .of_between (show week.between _ (Sample.day 2) ≤ -2 by decide)
      (show -2 ≤ week.between _ (Sample.day 6) by decide)
  have aheads : week.HasDays (Sample.day 5) 4 :=
    .of_between (show week.between _ (Sample.day 5) ≤ 4 by decide)
      (show 4 ≤ week.between _ (Sample.day 9) by decide)
  have range : ∀ id task, o.container id = some Sample.outer → o.task? id = some task →
      task.span.finish ≠ task.finish ∨
        week.between (Sample.day 5) (Sample.day 8) < task.span.length week →
      CanPull task (Sample.day 5) (Sample.day 8) week := by
    intro id task inside there needed
    rcases (below id).mp inside with rfl | rfl
    · cases late.symm.trans there
      exact absurd needed (by decide)
    · cases long.symm.trans there
      exact ⟨fun _ _ => backs, aheads⟩
  obtain ⟨final, moved, done, -, reported, each⟩ :=
    pullIn_isPulled Sample.steady_week forest ordered found range
  obtain ⟨placed, there, fits⟩ := each _ _ ((below _).mpr (.inl rfl)) late
  obtain ⟨other, otherThere, pulled⟩ := each _ _ ((below _).mpr (.inr rfl)) long
  have inTime : placed.finish ≤ Sample.day 8 :=
    (fits.endsInside rfl (by decide)).mpr (.inr (.inr (by decide)))
  refine ⟨o, final, moved, built, done, ?_, ⟨placed, there, fits.notBefore, inTime, ?_⟩,
    other, otherThere, pulled.notBefore, ?_⟩
  · refine (reported _).mpr ⟨(below _).mpr (.inl rfl), fun same => ?_⟩
    rw [Outline.dates?_of_task? there, Outline.dates?_of_task? late] at same
    rw [(Prod.mk.inj (Option.some.inj same)).2] at inTime
    exact absurd inTime (by decide)
  · exact fits.sameLength.trans (by decide)
  · exact pulled.sameLength.trans (by decide)

/-- The task takes the Friday alone, as there is room for, and would fit where it starts. But the weekend
that it sticks out by is no working day, and so it stays as it is. -/
theorem pullIn_leaves_days_off : ∃ o, Sample.friday = .ok o ∧ week.Steady ∧
    o.dates? Sample.outer = some (Sample.day 2, Sample.day 3) ∧
    o.task? Sample.inner = some (Sample.task Sample.inner (Sample.day 2) (Sample.day 5)) ∧
    (Sample.task Sample.inner (Sample.day 2) (Sample.day 5)).span.length week ≤
      week.between (Sample.day 2) (Sample.day 3) ∧
    pullIn o Sample.outer week = (o, .ok []) ∧ ¬ Sample.day 5 ≤ Sample.day 3 := by
  obtain ⟨o, built⟩ : ∃ o, Sample.friday = .ok o := ⟨_, rfl⟩
  obtain ⟨forest, -⟩ := Sample.forest_twofold built
  have only : o.nested Sample.outer = [Sample.inner] := by
    cases built
    decide
  have order := nestedByStart_single forest only
  refine ⟨o, built, Sample.steady_week, ?_⟩
  cases built
  simp only [pullIn, order]
  exact ⟨by decide, by decide, by decide, rfl, by decide⟩

end Bounds

end Workplan
