/-
# Workplan.Proofs.LatePlacements — the latest dates as the best late placement

Where every day is worked, the latest finish that a relation allows its dependee undoes the test of the
relation, so that the latest dates of a plan are a placement of its tasks that keeps all links, and the
one in which every task finishes as late as it can. Both are told apart from the ends of the calendar,
where shifting a date stops short.

* `finish_le_latestFinish`, `kept_of_latestFinish` — the two tests of a relation;
* `finish_le_latest` — no late placement lets a task finish later;
* `isLate_latest` — the latest dates are a late placement;
* `latest_dates_optimal` — both, for every coherent plan.
-/
import Workplan.Proofs.Admission
import Workplan.Proofs.LatestDates
import Workplan.Proofs.WorkingDays

namespace Workplan.CriticalPath

set_option autoImplicit false

/-! ## The two tests of a relation -/

section Relation

variable {relation : Relation} {dependee dependant first second : Span} {lag : Int}

/-- A dependee that a dependant keeps finishes by the latest finish that any later start of the dependant
allows. -/
theorem finish_le_latestFinish {start : Date}
    (fits : dependee.finish.day = dependee.start.day + first.length .everyDay)
    (early : dependant.start ≤ start)
    (inTime : dependant.finish.day ≤ start.day + second.length .everyDay)
    (room : start.day + second.length .everyDay < Date.last.day)
    (opposite : Lag.opposite lag = -lag)
    (kept : (relation.forward dependee dependant lag .everyDay).active = false) :
    dependee.finish ≤ relation.latestFinish first second lag start .everyDay := by
  rw [← Bool.not_eq_true, Relation.forward_active_iff, Std.not_lt, Date.le_iff] at kept
  rw [Date.le_iff] at early ⊢
  have lengths := And.intro (first.length_nonneg .everyDay) (second.length_nonneg .everyDay)
  have lower : Date.first.day ≤ dependee.start.day := dependee.start.firstDay_le
  have upper : dependee.finish.day ≤ Date.last.day := dependee.finish.le_lastDay
  cases relation <;>
    simp only [Relation.barrier, Relation.dependeeDate, Relation.dependantDate,
      Relation.latestFinish, opposite, Relation.usesDependeeStart, Relation.bindsDependantFinish,
      Calendar.day_shift_everyDay, if_true, if_false, Bool.false_eq_true] at kept ⊢ <;>
    omega

/-- A dependee that finishes by the latest finish that the start of a dependant allows is kept by it. -/
theorem kept_of_latestFinish
    (fits : dependee.finish.day = dependee.start.day + first.length .everyDay)
    (fitsToo : dependant.finish.day = dependant.start.day + second.length .everyDay)
    (room : Date.first < dependee.start) (roomToo : dependant.finish < Date.last)
    (opposite : Lag.opposite lag = -lag)
    (inTime : dependee.finish ≤ relation.latestFinish first second lag dependant.start .everyDay) :
    (relation.forward dependee dependant lag .everyDay).active = false := by
  rw [← Bool.not_eq_true, Relation.forward_active_iff, Std.not_lt, Date.le_iff]
  rw [Date.lt_iff] at room roomToo
  rw [Date.le_iff] at inTime
  have lengths := And.intro (first.length_nonneg .everyDay) (second.length_nonneg .everyDay)
  have lower : Date.first.day ≤ dependant.start.day := dependant.start.firstDay_le
  cases relation <;>
    simp only [Relation.barrier, Relation.dependeeDate, Relation.dependantDate,
      Relation.latestFinish, opposite, Relation.usesDependeeStart, Relation.bindsDependantFinish,
      Calendar.day_shift_everyDay, if_true, if_false, Bool.false_eq_true] at inTime ⊢ <;>
    omega

end Relation

/-! ## Late placements -/

/-- A placement of the tasks with their lengths, in which they finish by the end of the plan, nested
tasks by the finish of their container, and every link is kept by all tasks on which it bears. -/
structure IsLate (o : Outline) (net : Network) (cal : Calendar) (planEnd : Date)
    (place : TaskId → Span) : Prop where
  length : ∀ id task, o.task? id = some task →
    (place id).finish.day = (place id).start.day + task.span.length cal
  byEnd : ∀ id ∈ o.ids, (place id).finish ≤ planEnd
  inContainer : ∀ id container, o.container id = some container →
    (place id).finish ≤ (place container).finish
  kept : ∀ link ∈ net.links, ∀ id, o.hierarchy.Under id link.dependant →
    (link.relation.forward (place link.dependee) (place id) link.lag.days cal).active = false

/-- The latest dates as a placement. -/
def placement (path : CriticalPath) (id : TaskId) : Span :=
  match path.latest? id with
  | some dates => ⟨dates.start, dates.finish⟩
  | none => ⟨Date.first, Date.first⟩

section Plan

variable {o : Outline} {net : Network} {planEnd : Date} {path : CriticalPath}

theorem placement_of_latest? {id : TaskId} {dates : LatestDates}
    (found : path.latest? id = some dates) : path.placement id = ⟨dates.start, dates.finish⟩ := by
  rw [placement, found]

/-- No late placement lets a task finish later, by induction against the order of the plan: if all that
a task leads to finishes by its latest finish, so does the task. -/
theorem finish_le_latest (coherent : Coherent o net) (room : planEnd < Date.last)
    (lags : ∀ link ∈ net.links, link.lag ≠ .least)
    (solves : Solves o net .everyDay planEnd path) {place : TaskId → Span}
    (late : IsLate o net .everyDay planEnd place) {id : TaskId} {dates : LatestDates}
    (latest : path.latest? id = some dates) : (place id).finish ≤ dates.finish := by
  induction id using coherent.backwards generalizing dates with
  | step id ih =>
    obtain ⟨task, found⟩ := solves.exists_task? latest
    rw [solves.le_finish_iff coherent latest]
    refine ⟨late.byEnd id (Outline.exists_task?_iff.mp ⟨task, found⟩), ?_, ?_⟩
    · rintro _ ⟨link, member, rfl, later, under, limit, dependee, own, there, first, second, rfl⟩
      obtain ⟨target, targetFound⟩ := solves.exists_task? there
      cases first.symm.trans (Outline.span?_of_task? found)
      cases second.symm.trans (Outline.span?_of_task? targetFound)
      have inTime := Date.le_iff.mp (ih later (.link (Network.contains_of_mem member) under) there)
      have early := Date.le_iff.mp (solves.finish_le coherent there)
      have last := Date.lt_iff.mp room
      have length := late.length later target targetFound
      have lower : Date.first.day ≤ (place later).start.day := (place later).start.firstDay_le
      have start : limit.start.day = limit.finish.day - target.span.length .everyDay := by
        rw [solves.start_eq targetFound there, Calendar.day_shift_everyDay]
        have upper : limit.finish.day ≤ Date.last.day := limit.finish.le_lastDay
        have positive := target.span.length_nonneg .everyDay
        omega
      exact finish_le_latestFinish (late.length _ task found) (Date.le_iff.mpr (by omega))
        (by omega) (by omega) (Lag.opposite_days_iff.mpr (lags link member))
        (late.kept link member later under)
    · intro container outer above there
      exact Std.le_trans (late.inContainer id container above)
        (ih container (.containment above) there)

/-- If no latest start lies at the beginning of the calendar, the latest dates are a late placement. -/
theorem isLate_latest (coherent : Coherent o net) (room : planEnd < Date.last)
    (lags : ∀ link ∈ net.links, link.lag ≠ .least)
    (solves : Solves o net .everyDay planEnd path)
    (inside : ∀ id dates, path.latest? id = some dates → Date.first < dates.start) :
    IsLate o net .everyDay planEnd path.placement := by
  have exists_latest : ∀ {id}, id ∈ o.ids → ∃ task dates, o.task? id = some task ∧
      path.latest? id = some dates := by
    intro id known
    obtain ⟨task, found⟩ := Outline.exists_task?_iff.mpr known
    exact ⟨task, _, found, solves.latest id task found⟩
  have length : ∀ id task, o.task? id = some task → (path.placement id).finish.day =
      (path.placement id).start.day + task.span.length .everyDay := by
    intro id task found
    obtain ⟨dates, latest⟩ : ∃ dates, path.latest? id = some dates := ⟨_, solves.latest id task found⟩
    have start := solves.start_eq found latest
    have positive := task.span.length_nonneg .everyDay
    have low := Date.lt_iff.mp (inside id dates latest)
    have upper := Date.le_iff.mp dates.finish.le_last
    rw [placement_of_latest? latest]
    show dates.finish.day = dates.start.day + task.span.length .everyDay
    rw [start, Calendar.day_shift_everyDay] at low ⊢
    omega
  refine ⟨length, fun id known => ?_, fun id container above => ?_, fun link member id under => ?_⟩
  · obtain ⟨task, dates, -, latest⟩ := exists_latest known
    rw [placement_of_latest? latest]
    exact solves.finish_le coherent latest
  · obtain ⟨known, knownContainer⟩ := coherent.forest.mem_tasks id container above
    obtain ⟨-, dates, -, latest⟩ := exists_latest known
    obtain ⟨-, outer, -, there⟩ := exists_latest knownContainer
    rw [placement_of_latest? latest, placement_of_latest? there]
    exact ((solves.le_finish_iff coherent latest).mp (Std.le_refl _)).2.2 container outer above there
  · have arrow : Precedes o.hierarchy net link.dependee id :=
      .link (Network.contains_of_mem member) under
    obtain ⟨knownDependee, known⟩ := mem_ids_of_precedes coherent.forest coherent.liesOn arrow
    obtain ⟨task, dates, found, latest⟩ := exists_latest knownDependee
    obtain ⟨target, limit, targetFound, there⟩ := exists_latest known
    have limited := ((solves.le_finish_iff coherent latest).mp (Std.le_refl _)).2.1 _
      ⟨link, member, rfl, id, under, limit, _, _, there, Outline.span?_of_task? found,
        Outline.span?_of_task? targetFound, rfl⟩
    refine kept_of_latestFinish (length _ task found) (length id target targetFound) ?_ ?_
      (Lag.opposite_days_iff.mpr (lags link member)) ?_
    · rw [placement_of_latest? latest]
      exact inside _ dates latest
    · rw [placement_of_latest? there]
      exact Std.lt_of_le_of_lt (solves.finish_le coherent there) room
    · rw [placement_of_latest? latest, placement_of_latest? there]
      exact limited

end Plan

/-- Where every day is worked, no task of a coherent plan ends with the calendar and every lag has its
opposite, every task has latest dates, and no late placement lets it finish later than by these. If none
of them begins with the calendar, they are a late placement themselves. -/
theorem latest_dates_optimal {o : Outline} {net : Network} {cal : Calendar}
    (coherent : Coherent o net) (nonempty : o.ids ≠ [])
    (inside : ∀ id task, o.task? id = some task → task.finish < Date.last)
    (lags : ∀ link ∈ net.links, link.lag ≠ .least)
    (everyDay : ∀ day, cal.works day = true) :
    ∃ planEnd path, o.finish? = some planEnd ∧ compute o net cal = .ok path ∧
      (∀ id task, o.task? id = some task → ∃ dates, path.latest? id = some dates ∧
        dates.start = cal.shift dates.finish (-task.span.length cal)) ∧
      (∀ place, IsLate o net cal planEnd place → ∀ id dates, path.latest? id = some dates →
        (place id).finish ≤ dates.finish) ∧
      ((∀ id dates, path.latest? id = some dates → Date.first < dates.start) →
        IsLate o net cal planEnd path.placement) := by
  have same : cal = .everyDay := by
    obtain ⟨works⟩ := cal
    exact congrArg Calendar.mk (funext everyDay)
  subst same
  obtain ⟨planEnd, ends, ⟨last, lastTask, lastFound, rfl⟩, -⟩ := finish?_spec nonempty
  have room := inside last lastTask lastFound
  obtain ⟨path, done, solves⟩ := compute_spec coherent .everyDay ends
  refine ⟨_, path, ends, done, fun id task found => ?_, ?_, isLate_latest coherent room lags solves⟩
  · exact ⟨_, solves.latest id task found, solves.start_eq found (solves.latest id task found)⟩
  · exact fun place late id dates latest => finish_le_latest coherent room lags solves late latest

/-- The other task has to finish before the outer one and what lies in it, which both take the last two
days of the plan. -/
theorem latest_dates_optimal_in_container : ∃ o planEnd path, Sample.outline = .ok o ∧
    o.finish? = some planEnd ∧ compute o Sample.network .everyDay = .ok path ∧
    path.placement Sample.other = ⟨{ day := 0 }, Sample.first⟩ ∧
    IsLate o Sample.network .everyDay planEnd path.placement ∧
    ∀ place, IsLate o Sample.network .everyDay planEnd place →
      (place Sample.other).finish ≤ Sample.first := by
  obtain ⟨o, built⟩ : ∃ o, Sample.outline = .ok o := ⟨_, rfl⟩
  obtain ⟨coherent, -⟩ := Sample.coherent_outline built
  have allInside : ∀ task ∈ o.tasks, task.finish < Date.last := by
    cases built
    decide
  have inside : ∀ id task, o.task? id = some task → task.finish < Date.last :=
    fun id task found => allInside task (mem_tasks.mpr ⟨id, found⟩)
  have listed : ∀ link ∈ Sample.network.toList, link.lag ≠ .least := by decide
  have lags : ∀ link ∈ Sample.network.links, link.lag ≠ .least := fun link member =>
    listed link (Catalog.mem_def.mp member)
  have everyDay : ∀ day, Calendar.everyDay.works day = true := fun _ => rfl
  obtain ⟨planEnd, path, ends, done, -, best, late⟩ :=
    latest_dates_optimal coherent (by cases built; decide) inside lags everyDay
  have latest : path.latest? Sample.other = some ⟨{ day := 0 }, Sample.first⟩ := by
    cases built
    cases done
    decide
  have allLate : ∀ entry ∈ path.latest, Date.first < entry.2.start := by
    cases built
    cases done
    decide
  refine ⟨o, planEnd, path, built, ends, done, placement_of_latest? latest, late ?_,
    fun place placed => best place placed Sample.other _ latest⟩
  intro id dates found
  obtain ⟨before, after, shape, -⟩ := List.lookup_eq_some_iff.mp found
  exact allLate (id, dates) (by simp [shape])

end Workplan.CriticalPath
