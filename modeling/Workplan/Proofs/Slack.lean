/-
# Workplan.Proofs.Slack — where no task is late already

In a plan that keeps all its links, with containers that last as long as what lies in them, no task
should start after its latest start. With days off this holds up to days off: shifting back does not
undo shifting forward, so the latest dates can fall on days off before the dates of the task, but there
is no working day between them.

* `Steady.worked_latestFinish` — the latest finish that a kept link allows;
* `Solves.worked_finish` — the latest finish of every task, against the order of the plan;
* `no_late_task` — no working day lies between the latest start of a task and its start, and a task that
  takes any time starts by its latest start. A task that ends with the plan is critical, if it starts
  on a working day, or takes no time and comes right after one;
* `late_tasks` — no more than that holds where days off, milestones and the end of the calendar come in.
-/
import Workplan.Proofs.Admission
import Workplan.Proofs.LatestDates
import Workplan.Proofs.SteadyWalks

namespace Workplan

set_option autoImplicit false

namespace Calendar

variable {cal : Calendar}

theorem between_nonneg {a b : Date} (none : cal.worked b a = 0) : 0 ≤ cal.between a b := by
  have way := cal.worked_le_add Date.first b a
  rw [between_eq_sub]
  omega

/-! ## The latest finish that a link allows -/

section Spans

variable {span dependee dependant : Span} {latest : Date}

/-- The latest start, if no working day lies between the latest finish and the finish. -/
theorem worked_latestStart (ordered : span.start ≤ span.finish)
    (none : cal.worked latest span.finish = 0) :
    cal.worked (cal.shift latest (-span.length cal)) span.start = 0 := by
  rw [length_eq_worked ordered]
  refine worked_shift_back_eq_zero ?_ ?_
  · have total := cal.worked_le_add span.start latest span.finish
    omega
  · have fewer := cal.worked_mono (Std.le_refl latest) ordered
    omega

/-- A span that takes any time starts by its latest start. -/
theorem le_latestStart (ordered : span.start ≤ span.finish)
    (none : cal.worked latest span.finish = 0) (positive : 0 < span.length cal) :
    span.start ≤ cal.shift latest (-span.length cal) := by
  rw [length_eq_worked ordered] at positive ⊢
  have total := cal.worked_le_add span.start latest span.finish
  have before : span.start ≤ latest := by
    by_contra after
    have reversed := cal.worked_of_le (Std.le_of_lt (Std.not_le.mp after))
    omega
  have enough : cal.worked span.start span.finish ≤ cal.worked span.start latest := by omega
  exact cal.le_shift_back before enough

/-- The latest finish, if no working day lies between the latest start and the start. -/
theorem Steady.worked_shift_length (steady : cal.Steady) (ordered : span.start ≤ span.finish)
    (none : cal.worked latest span.start = 0)
    (room : span.length cal ≤ cal.worked span.finish Date.last) :
    cal.worked (cal.shift latest (span.length cal)) span.finish = 0 := by
  rw [length_eq_worked ordered, Int.ofNat_le] at room
  rw [length_eq_worked ordered]
  refine steady.worked_shift_ahead_eq_zero ?_ room
  have total := cal.worked_le_add latest span.start span.finish
  omega

/-- A date is kept up to working days when the date that waits for it is. -/
theorem Steady.worked_shift_lag (steady : cal.Steady) {date waiting : Date} {lag : Int}
    (kept : cal.shift date lag ≤ waiting) (none : cal.worked latest waiting = 0)
    (room : lag.natAbs ≤ cal.worked date Date.last) :
    cal.worked (cal.shift latest (-lag)) date = 0 := by
  obtain ⟨count, rfl | rfl⟩ := Int.eq_nat_or_neg lag
  · rw [Int.natAbs_natCast] at room
    have passed := steady.worked_shift_ahead room
    have start := cal.le_shift date (Int.natCast_nonneg count)
    have way := cal.worked_mono (Std.le_refl date) kept
    have total := cal.worked_le_add date latest waiting
    have fewer := cal.worked_mono (Std.le_refl latest) (Std.le_trans start kept)
    exact worked_shift_back_eq_zero (by omega) (by omega)
  · rw [Int.natAbs_neg, Int.natAbs_natCast] at room
    rw [Int.neg_neg]
    refine steady.worked_shift_ahead_eq_zero ?_ room
    have back := cal.worked_shift_back_le date count
    have total := cal.worked_le_add latest (cal.shift date (-count)) date
    have fewer := cal.worked_mono (Std.le_refl latest) kept
    omega

/-- If the dependant is kept, and no working day lies between its latest start and its start, then none
lies between the latest finish of the dependee and its finish. -/
theorem Steady.worked_latestFinish (steady : cal.Steady) {relation : Relation} {lag : Int}
    (first : dependee.start ≤ dependee.finish) (second : dependant.start ≤ dependant.finish)
    (kept : (relation.forward dependee dependant lag cal).active = false)
    (none : cal.worked latest dependant.start = 0)
    (lagRoom : lag.natAbs ≤ cal.worked dependee.finish Date.last)
    (room : dependee.length cal ≤ cal.worked dependee.finish Date.last)
    (roomToo : dependant.length cal ≤ cal.worked dependant.finish Date.last) :
    cal.worked (relation.latestFinish dependee dependant lag latest cal) dependee.finish = 0 := by
  rw [← Bool.not_eq_true, Relation.forward_active_iff, Std.not_lt, Relation.barrier] at kept
  have bound : cal.worked (if relation.bindsDependantFinish then
      cal.shift latest (dependant.length cal) else latest) (relation.dependantDate dependant) = 0 := by
    unfold Relation.dependantDate
    split
    · exact steady.worked_shift_length second none roomToo
    · exact none
  have early : relation.dependeeDate dependee ≤ dependee.finish := by
    unfold Relation.dependeeDate
    split
    · exact first
    · exact Std.le_refl _
  have left := cal.worked_mono early (Std.le_refl Date.last)
  have reached := steady.worked_shift_lag kept bound (Nat.le_trans lagRoom left)
  have most := cal.worked_le dependee.finish Date.last
  have opposite : Lag.opposite lag = -lag := Lag.opposite_eq_neg (by omega) (by omega)
  simp only [Relation.latestFinish, opposite]
  split
  · rename_i usesStart
    rw [Relation.dependeeDate, if_pos usesStart] at reached
    exact steady.worked_shift_length first reached room
  · rename_i usesFinish
    rw [Relation.dependeeDate, if_neg usesFinish] at reached
    exact reached

end Spans

end Calendar

namespace CriticalPath

open Calendar

/-! ## Against the order of the plan -/

/-- Every link is kept by all tasks on which it bears. -/
def LinksKept (o : Outline) (net : Network) (cal : Calendar) : Prop :=
  ∀ link ∈ net.links, ∀ id, o.hierarchy.Under id link.dependant → ∀ dependee own,
    o.span? link.dependee = some dependee → o.span? id = some own →
      (link.relation.forward dependee own link.lag.days cal).active = false

/-- All links are kept, and containers finish no earlier than the tasks nested in them. -/
structure IsFeasible (o : Outline) (net : Network) (cal : Calendar) : Prop where
  kept : LinksKept o net cal
  covered : ∀ id container child outer, o.container id = some container →
    o.span? id = some child → o.span? container = some outer → child.finish ≤ outer.finish

/-- A coherent plan on a steady calendar that keeps all its links, and in which containers cover the
dates of the tasks nested in them. -/
structure IsTimely (o : Outline) (net : Network) (cal : Calendar) : Prop where
  coherent : Coherent o net
  ordered : o.Ordered
  steady : cal.Steady
  kept : LinksKept o net cal
  covered : ∀ id container child outer, o.container id = some container →
    o.task? id = some child → o.task? container = some outer →
      outer.start ≤ child.start ∧ child.finish ≤ outer.finish

/-- After the end of the plan, the calendar has as many working days as any lag or task counts. -/
structure HasRoom (o : Outline) (net : Network) (cal : Calendar) (planEnd : Date) : Prop where
  lags : ∀ link ∈ net.links, link.lag.days.natAbs ≤ cal.between planEnd Date.last
  lengths : ∀ id span, o.span? id = some span → span.length cal ≤ cal.between planEnd Date.last

section Plan

variable {o : Outline} {net : Network} {cal : Calendar} {planEnd : Date} {path : CriticalPath}
  {id : TaskId} {task : Task} {dates : LatestDates}

/-- No working day lies between the latest finish of a task and its finish. By induction against the
order of the plan: a working day there would come before all that limits the latest finish. -/
theorem Solves.worked_finish (coherent : Coherent o net) (ordered : o.Ordered) (steady : cal.Steady)
    (feasible : IsFeasible o net cal) (ends : o.finish? = some planEnd)
    (room : HasRoom o net cal planEnd) (solves : Solves o net cal planEnd path)
    (found : o.task? id = some task) (latest : path.latest? id = some dates) :
    cal.worked dates.finish task.span.finish = 0 := by
  have early : ∀ {id task}, o.task? id = some task → task.span.finish ≤ planEnd := by
    intro id task found
    obtain ⟨_, same, -, last⟩ := finish?_spec
      (List.ne_nil_of_mem (Outline.exists_task?_iff.mp ⟨task, found⟩))
    cases same.symm.trans ends
    exact Std.le_trans (Task.finish_span_le (ordered id task found)) (last id task found)
  have roomAt : ∀ {id task}, o.task? id = some task →
      cal.worked planEnd Date.last ≤ cal.worked task.span.finish Date.last := fun found =>
    worked_mono (early found) (Std.le_refl Date.last)
  have between := cal.between_eq_worked planEnd.le_last
  induction id using coherent.backwards generalizing task dates with
  | step id ih =>
    refine Nat.eq_zero_of_not_pos fun some => ?_
    obtain ⟨w, after, before, works⟩ := exists_works some
    have next : w.next.day = w.day + 1 := by
      have less := Date.lt_iff.mp before
      have limit := Date.le_iff.mp task.span.finish.le_last
      rw [Date.day_next]
      omega
    -- a date with no working day up to the finish comes after the working day
    have passes : ∀ {date}, cal.worked date task.span.finish = 0 → w.next ≤ date := by
      intro date none
      refine Date.le_iff.mpr ?_
      by_contra notYet
      have reached := worked_pos (a := date) (Date.le_iff.mpr (by omega)) before works
      omega
    have beyond : w.next ≤ dates.finish := by
      rw [solves.le_finish_iff coherent latest]
      refine ⟨passes (worked_of_le (early found)), ?_, fun container outer above there => ?_⟩
      · rintro _ ⟨link, member, rfl, later, under, limit, dependee, own, there, first, second, rfl⟩
        obtain ⟨target, targetFound⟩ := solves.exists_task? there
        have kept := feasible.kept link member later under dependee own first second
        have lagRoom := room.lags link member
        have length := room.lengths _ dependee first
        have lengthToo := room.lengths _ own second
        cases first.symm.trans (Outline.span?_of_task? found)
        cases second.symm.trans (Outline.span?_of_task? targetFound)
        have finish := ih later (.link (Network.contains_of_mem member) under) targetFound there
        have inOrder := Task.span_ordered (ordered later target targetFound)
        have start := worked_latestStart inOrder finish
        rw [← solves.start_eq targetFound there] at start
        have here := roomAt found
        have thereToo := roomAt targetFound
        exact passes (steady.worked_latestFinish (Task.span_ordered (ordered _ task found)) inOrder
          kept start (by omega) (by omega) (by omega))
      · obtain ⟨outerTask, outerFound⟩ := solves.exists_task? there
        have finish := ih container (.containment above) outerFound there
        have covered := feasible.covered id container _ _ above (Outline.span?_of_task? found)
          (Outline.span?_of_task? outerFound)
        have fewer := cal.worked_mono (Std.le_refl outer.finish) covered
        exact passes (by omega)
    have reached := Date.le_iff.mp beyond
    have start := Date.le_iff.mp after
    omega

/-- A task that ends with the plan cannot start later, if it starts on a working day, or takes no time
and comes right after one. -/
theorem start_eq_of_last (ordered : task.start ≤ task.finish) (steady : cal.Steady)
    (start : dates.start = cal.shift dates.finish (-task.span.length cal))
    (none : cal.worked dates.finish task.span.finish = 0) (early : dates.finish ≤ task.span.finish)
    (works : 0 < task.span.length cal ∧ cal.works task.start = true ∨
      task.span.length cal = 0 ∧ cal.works task.span.finish.prev = true) :
    dates.start = task.start := by
  have inOrder := Task.span_ordered ordered
  rw [← Task.span_start]
  rcases works with ⟨positive, works⟩ | ⟨empty, works⟩
  · have late := le_latestStart inOrder none positive
    rw [← start] at late
    refine Std.le_antisymm (Std.not_lt.mp fun later => ?_) late
    have length := cal.length_eq_worked inOrder
    have total := cal.worked_le_add task.span.start dates.finish task.span.finish
    have exact : cal.worked (cal.shift dates.finish (-cal.worked task.span.start task.span.finish))
        dates.finish = cal.worked task.span.start task.span.finish :=
      steady.worked_shift_back (a := task.span.start) (by omega)
    rw [← length, ← start] at exact
    have most := cal.worked_mono (Std.le_refl task.span.start) early
    have before : dates.start ≤ dates.finish := by
      rw [start]
      exact cal.shift_le _ (by omega)
    have way := cal.worked_add late before
    have one := worked_pos (Std.le_refl task.span.start) later (Task.span_start task ▸ works)
    omega
  -- the working day right before the finish lies in no empty span
  · have last : ∀ {date}, date ≤ task.span.finish → cal.worked date task.span.finish = 0 →
        date = task.span.finish := by
      intro date upTo zero
      refine Std.le_antisymm upTo (Std.not_lt.mp fun less => ?_)
      have previous := task.span.finish.day_prev
      have limit : Date.first.day ≤ date.day := date.firstDay_le
      rw [Date.lt_iff] at less
      have one := worked_pos (a := date) (b := task.span.finish) (Date.le_iff.mpr (by omega))
        (Date.lt_iff.mpr (by omega)) works
      omega
    have length := cal.length_eq_worked inOrder
    rw [last inOrder (by omega), start, empty, last early none]
    rfl

end Plan

/-- On a coherent plan that keeps all its links and covers nested tasks, with working days enough after
its end, every task has latest dates, no working day lies between its latest start and its start, and it
starts by its latest start if it takes any time. A task that ends with the plan is critical, if it
starts on a working day, or takes no time and comes right after one. -/
theorem no_late_task {o : Outline} {net : Network} {cal : Calendar} {planEnd : Date}
    (coherent : Coherent o net) (ordered : o.Ordered) (steady : cal.Steady)
    (feasible : IsFeasible o net cal) (ends : o.finish? = some planEnd)
    (room : HasRoom o net cal planEnd) :
    ∃ path, compute o net cal = .ok path ∧
      ∀ id task, o.task? id = some task → ∃ dates, path.latest? id = some dates ∧
        0 ≤ cal.between task.start dates.start ∧
        (0 < task.span.length cal → task.start ≤ dates.start) ∧
        (task.span.finish = planEnd →
          (0 < task.span.length cal ∧ cal.works task.start = true ∨
            task.span.length cal = 0 ∧ cal.works planEnd.prev = true) →
          id ∈ path.critical) := by
  obtain ⟨path, done, solves⟩ := compute_spec coherent cal ends
  refine ⟨path, done, fun id task found => ?_⟩
  obtain ⟨dates, latest⟩ : ∃ dates, path.latest? id = some dates := ⟨_, solves.latest id task found⟩
  have none := solves.worked_finish coherent ordered steady feasible ends room found latest
  have inOrder := Task.span_ordered (ordered id task found)
  have start := solves.start_eq found latest
  have noneStart := worked_latestStart inOrder none
  rw [← start, Task.span_start] at noneStart
  refine ⟨dates, latest, between_nonneg noneStart, fun positive => ?_, fun last works => ?_⟩
  · have late := le_latestStart inOrder none positive
    rwa [← start, Task.span_start] at late
  · rw [solves.critical id task dates found latest]
    have early := solves.finish_le coherent latest
    exact start_eq_of_last (ordered id task found) steady start none (last ▸ early) (last ▸ works)

/-- Timely plans are feasible, if no container is a milestone. -/
theorem IsTimely.isFeasible {o : Outline} {net : Network} {cal : Calendar} (timely : IsTimely o net cal)
    (longer : ∀ id container outer, o.container id = some container → o.task? container = some outer →
      outer.milestone = false) : IsFeasible o net cal where
  kept := timely.kept
  covered id container child outer above first second := by
    obtain ⟨task, found, rfl⟩ := Option.map_eq_some_iff.mp first
    obtain ⟨outerTask, outerFound, rfl⟩ := Option.map_eq_some_iff.mp second
    obtain ⟨-, covered⟩ := timely.covered id container task outerTask above found outerFound
    have whole : outerTask.span.finish = outerTask.finish := by
      simp [Task.span, longer id container outerTask above outerFound]
    rw [whole]
    exact Std.le_trans (Task.finish_span_le (timely.ordered id task found)) covered

end CriticalPath

namespace Sample

/-! ## Plans of three tasks -/

/-- The second task lies in the first, the third stands beside them. -/
def threeTasks (outerTask innerTask otherTask : Task) : Except OutlineError Outline := do
  let o ← Outline.empty.add outerTask
  let o ← o.nest outerTask.id innerTask
  o.add otherTask

/-- Two tasks on a Monday and a Tuesday, and another on the three working days before. -/
def mondayPlan : Except OutlineError Outline :=
  threeTasks (task outer (day 5) (day 7)) (task inner (day 5) (day 7))
    (task other (day 0) (day 3))

def linked (link : Link) : Network := (Network.empty {}).insertLink link

def milestone (id : TaskId) (start finish : Date) : Task :=
  { task id start finish with milestone := true }

/-- The stock calendar: day 2 is a Friday, day 5 a Monday. -/
def week : Calendar := WorkWeek.calendar {}

theorem steady_week : week.Steady :=
  Calendar.steady_week (show Weekday.monday ∉ ({} : WorkWeek).daysOff by decide) fun _ => rfl

theorem timely_threeTasks {outerTask innerTask otherTask : Task} {link : Link} {cal : Calendar}
    {o : Outline} (built : threeTasks outerTask innerTask otherTask = .ok o) (steady : cal.Steady)
    (known : o.contains link.dependant = true ∧ o.contains link.dependee = true)
    (noLoop : (Network.empty {}).isLooping o.hierarchy link.key = false)
    (kept : ∀ id ∈ link.dependant :: o.hierarchy.descendants link.dependant,
      ∀ dependee ∈ o.span? link.dependee, ∀ own ∈ o.span? id,
        (link.relation.forward dependee own link.lag.days cal).active = false)
    (covered : ∀ id ∈ o.ids, ∀ container ∈ o.container id, ∀ child ∈ o.task? id,
      ∀ outer ∈ o.task? container, outer.start ≤ child.start ∧ child.finish ≤ outer.finish) :
    CriticalPath.IsTimely o (linked link) cal := by
  unfold threeTasks at built
  obtain ⟨_, top, rest⟩ := exists_ok_of_bind built
  obtain ⟨_, below, beside⟩ := exists_ok_of_bind rest
  have coherent := (((coherent_empty {}).add_task top).nest below).add_task beside
  have ordered := Outline.ordered_nest (Outline.ordered_add Outline.ordered_empty top) below
  refine ⟨coherent.insertLink known.1 known.2 noLoop, Outline.ordered_add ordered beside, steady,
    fun only member id under dependee own first second => ?_,
    fun id container child outer above first second =>
      covered id (Outline.exists_task?_iff.mp ⟨child, first⟩) container above child first outer
        second⟩
  obtain rfl | ⟨old, -⟩ := Catalog.mem_insert.mp member
  · refine kept id ?_ dependee first own second
    rcases under with rfl | inside
    · exact List.mem_cons_self
    · exact List.mem_cons_of_mem _ ((coherent.forest.mem_descendants_iff).mpr inside)
  · exact absurd old (Catalog.not_mem_empty _)

end Sample

namespace CriticalPath

/-- The tasks that wait for the other one start on the Monday after it; none of the three is late, and the
inner task is critical. -/
theorem no_late_task_in_container : ∃ o path dates, Sample.mondayPlan = .ok o ∧
    compute o Sample.network Sample.week = .ok path ∧
    path.latest? Sample.other = some dates ∧ Sample.day 0 ≤ dates.start ∧
    Sample.inner ∈ path.critical := by
  obtain ⟨o, built⟩ : ∃ o, Sample.mondayPlan = .ok o := ⟨_, rfl⟩
  have timely : IsTimely o Sample.network Sample.week := by
    refine Sample.timely_threeTasks built Sample.steady_week ?_ ?_ ?_ ?_ <;> cases built <;> decide
  have plain : ∀ task ∈ o.tasks, task.milestone = false := by
    cases built
    decide
  have ends : o.finish? = some (Sample.day 7) := by
    cases built
    decide
  have room : HasRoom o Sample.network Sample.week (Sample.day 7) := by
    have days : 5 ≤ Sample.week.between (Sample.day 7) Date.last := by
      have nextWeek : Sample.week.between (Sample.day 7) (Sample.day 14) = 5 := by decide
      have more := Sample.week.worked_mono (a := Sample.day 7) (Std.le_refl _)
        (Date.le_last (Sample.day 14))
      rw [Calendar.between_eq_worked (by decide)] at nextWeek ⊢
      omega
    have short : ∀ task ∈ o.tasks, task.span.length Sample.week ≤ 5 := by
      cases built
      decide
    have noLag : ∀ link ∈ Sample.network.links, (link.lag.days.natAbs : Int) ≤ 5 := by decide
    refine ⟨fun link member => Int.le_trans (noLag link member) days, fun id span found => ?_⟩
    obtain ⟨task, there, rfl⟩ := Option.map_eq_some_iff.mp found
    exact Int.le_trans (short task (mem_tasks.mpr ⟨id, there⟩)) days
  obtain ⟨path, done, late⟩ := no_late_task timely.coherent timely.ordered timely.steady
    (timely.isFeasible fun _ container outer _ found => plain outer (mem_tasks.mpr ⟨container, found⟩))
    ends room
  obtain ⟨dates, latest, -, inTime, -⟩ := late Sample.other
    (Sample.task Sample.other (Sample.day 0) (Sample.day 3)) (by cases built; decide)
  obtain ⟨-, -, -, -, critical⟩ := late Sample.inner
    (Sample.task Sample.inner (Sample.day 5) (Sample.day 7)) (by cases built; decide)
  exact ⟨o, path, dates, built, done, latest, inTime (by decide),
    critical rfl (.inl ⟨by decide, by decide⟩)⟩

end CriticalPath

namespace Sample

/-! ## Timely plans with late tasks -/

/-- Three tasks from a Saturday to the Tuesday after. -/
def weekendPlan : Except OutlineError Outline :=
  threeTasks (task outer (day 3) (day 6)) (task inner (day 3) (day 6))
    (task other (day 3) (day 6))

/-- A milestone on a Monday, and tasks on the Friday before. -/
def fridayPlan : Except OutlineError Outline :=
  threeTasks (task outer (day 2) (day 3)) (task inner (day 2) (day 3))
    (milestone other (day 5) (day 5))

/-- A container that is a milestone. -/
def milestonePlan : Except OutlineError Outline :=
  threeTasks (milestone outer (day 0) (day 2)) (task inner (day 0) (day 2))
    (task other (day 0) (day 2))

/-- Milestones at the end of the calendar. -/
def lastPlan : Except OutlineError Outline :=
  threeTasks (milestone outer Date.last Date.last) (milestone inner Date.last Date.last)
    (task other (Date.last.addDays (-3)) Date.last.prev)

def startLink : Network := linked { key := ⟨outer, other⟩, relation := .startStart }

def leadLink : Network := linked { key := ⟨outer, other⟩, lag := { days := -1 } }

def backLink : Network := linked { key := ⟨other, outer⟩ }

def lagLink : Network := linked { key := ⟨outer, other⟩, lag := { days := 5 } }

end Sample

namespace CriticalPath

def HasLateTask (o : Outline) (path : CriticalPath) : Prop :=
  ∃ id task dates, o.task? id = some task ∧ path.latest? id = some dates ∧ dates.start < task.start

/-- Timely plans with a late task, or with no critical one: days off hide tasks that start on them, or
take no time; a milestone has no finish of its own to cover nested tasks; and no lag leads past the
end of the calendar. -/
theorem late_tasks :
    (∃ o path, Sample.weekendPlan = .ok o ∧ IsTimely o Sample.startLink Sample.week ∧
      compute o Sample.startLink Sample.week = .ok path ∧ path.critical = []) ∧
    (∃ o path, Sample.fridayPlan = .ok o ∧ IsTimely o Sample.leadLink Sample.week ∧
      compute o Sample.leadLink Sample.week = .ok path ∧ HasLateTask o path) ∧
    (∃ o path, Sample.milestonePlan = .ok o ∧ IsTimely o Sample.backLink .everyDay ∧
      compute o Sample.backLink .everyDay = .ok path ∧ HasLateTask o path) ∧
    ∃ o path, Sample.lastPlan = .ok o ∧ IsTimely o Sample.lagLink .everyDay ∧
      compute o Sample.lagLink .everyDay = .ok path ∧ HasLateTask o path := by
  refine ⟨?weekend, ?friday, ?milestone, ?last⟩
  case weekend =>
    obtain ⟨o, built⟩ : ∃ o, Sample.weekendPlan = .ok o := ⟨_, rfl⟩
    have timely : IsTimely o Sample.startLink Sample.week := by
      refine Sample.timely_threeTasks built Sample.steady_week ?_ ?_ ?_ ?_ <;> cases built <;> decide
    cases built
    exact ⟨_, _, rfl, timely, rfl, by decide⟩
  case friday =>
    obtain ⟨o, built⟩ : ∃ o, Sample.fridayPlan = .ok o := ⟨_, rfl⟩
    have timely : IsTimely o Sample.leadLink Sample.week := by
      refine Sample.timely_threeTasks built Sample.steady_week ?_ ?_ ?_ ?_ <;> cases built <;> decide
    cases built
    exact ⟨_, _, rfl, timely, rfl, Sample.other, _, _, rfl, rfl, by decide⟩
  case milestone =>
    obtain ⟨o, built⟩ : ∃ o, Sample.milestonePlan = .ok o := ⟨_, rfl⟩
    have timely : IsTimely o Sample.backLink .everyDay := by
      refine Sample.timely_threeTasks built Calendar.steady_everyDay ?_ ?_ ?_ ?_ <;>
        cases built <;> decide
    cases built
    exact ⟨_, _, rfl, timely, rfl, Sample.inner, _, _, rfl, rfl, by decide⟩
  case last =>
    obtain ⟨o, built⟩ : ∃ o, Sample.lastPlan = .ok o := ⟨_, rfl⟩
    have timely : IsTimely o Sample.lagLink .everyDay := by
      refine Sample.timely_threeTasks built Calendar.steady_everyDay ?_ ?_ ?_ ?_ <;>
        cases built <;> decide +kernel
    cases built
    exact ⟨_, _, rfl, timely, rfl, Sample.other, _, _, rfl, rfl, by decide⟩

end CriticalPath

end Workplan
