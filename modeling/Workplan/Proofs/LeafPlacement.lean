/-
# Workplan.Proofs.LeafPlacement — where a pass puts a task without subtasks

The links on such a task and on what contains it each tell a date, from the dependee as the pass
leaves it and the task as the pass finds it. The task is never skipped, and its start is the latest
of the dates that are asked for:

* `Turn.leaf` — the start as the pass computes it;
* `leaf_start_spec` — the start in terms of the links alone: strong links pin it to the latest date,
  links that only hold back never let it come earlier than it was, and where every day is worked
  none of them is violated in the end.
-/
import Workplan.Proofs.Admission
import Workplan.Proofs.Collisions
import Workplan.Proofs.Pass

namespace Workplan.Schedule

set_option autoImplicit false

/-- The dates that the links on a task and on what contains it tell: for each, the first working day
on which the start of the task is acceptable, by the final place of the dependee and the old one of
the task. -/
def boundDates (o final : Outline) (net : Network) (cal : Calendar) (id : TaskId) : Set Date :=
  {date | ∃ link ∈ net.links, o.hierarchy.Under id link.dependant ∧ ∃ dependee own,
    final.span? link.dependee = some dependee ∧ o.span? id = some own ∧
      date = cal.closestFrom (link.relation.forward dependee own link.lag.days cal).acceptable}

section Turn

variable {o final seen : Outline} {net : Network} {cal : Calendar} {report : ScheduleReport}
  {id : TaskId} {task : Task}

/-- At its turn a task finds all that comes before it as it stays. -/
theorem Turn.source (coherent : Coherent o net)
    (turn : Turn (Flow.ofPlan o net) cal o final report id seen) {source : TaskId}
    (arrow : Precedes o.hierarchy net source id) : seen.task? source = final.task? source := by
  rw [← leads_ofPlan coherent.forest coherent.liesOn] at arrow
  exact turn.sources source arrow

theorem Turn.linkDates_eq (coherent : Coherent o net)
    (turn : Turn (Flow.ofPlan o net) cal o final report id seen) :
    linkDates net o.hierarchy seen cal id = boundDates o final net cal id := by
  have own : seen.span? id = o.span? id := Outline.span?_congr turn.own
  have dependees : ∀ link ∈ net.links, o.hierarchy.Under id link.dependant →
      seen.span? link.dependee = final.span? link.dependee := fun link member under =>
    Outline.span?_congr (turn.source coherent (.link (Network.contains_of_mem member) under))
  ext date
  constructor
  · rintro ⟨link, member, under, collision, found, rfl⟩
    obtain ⟨dependee, dependant, first, second, rfl⟩ := Link.forward?_eq_some_iff.mp found
    have final : final.span? link.dependee = some dependee := dependees link member under ▸ first
    exact ⟨link, member, under, dependee, dependant, final, own ▸ second, rfl⟩
  · rintro ⟨link, member, under, dependee, dependant, first, second, rfl⟩
    have there : seen.span? link.dependee = some dependee := (dependees link member under).trans first
    exact ⟨link, member, under, _, Link.forward?_eq_some_iff.mpr
      ⟨dependee, dependant, there, own.trans second, rfl⟩, rfl⟩

/-- Where the same tasks are known, every link on the task can be tested. -/
theorem exists_forward? (cal : Calendar) (coherent : Coherent o net) (same : seen.hierarchy = o.hierarchy)
    {link : Link} (member : link ∈ net.links) (known : id ∈ o.ids) :
    ∃ dependee own, seen.span? link.dependee = some dependee ∧ seen.span? id = some own ∧
      (link.retarget id).forward? seen.span? cal =
        some (link.relation.forward dependee own link.lag.days cal) := by
  have ids : seen.ids = o.ids := congrArg Hierarchy.tasks same
  have spans : ∀ x, x ∈ o.ids → ∃ span, seen.span? x = some span := by
    intro x inside
    obtain ⟨task, found⟩ := Outline.exists_task?_iff.mpr (ids ▸ inside)
    exact ⟨task.span, Outline.span?_of_task? found⟩
  obtain ⟨-, knownDependee⟩ := coherent.liesOn _ (Network.contains_of_mem member)
  obtain ⟨dependee, first⟩ := spans _ (Outline.contains_iff.mp knownDependee)
  obtain ⟨own, second⟩ := spans id known
  exact ⟨dependee, own, first, second,
    Link.forward?_eq_some_iff.mpr ⟨dependee, own, first, second, rfl⟩⟩

/-- The windows of a turn open on the dates of its links: those that pin the task, and the others. -/
theorem exists_weakDates (coherent : Coherent o net) (seen : Outline) (cal : Calendar)
    (id : TaskId) :
    ∃ weak, strongDates net seen cal id ∪ weak = linkDates net o.hierarchy seen cal id ∧
      Window.OpensAt (demands (Flow.ofPlan o net) seen cal id).strong (strongDates net seen cal id) ∧
      Window.OpensAt (demands (Flow.ofPlan o net) seen cal id).weak weak := by
  obtain ⟨strong, weak, -⟩ := demands_spec seen cal id (Flow.ofPlan o net)
  rw [collected_strongDate? coherent.liesOn] at strong
  exact ⟨_, strongDates_union_collected coherent.forest coherent.liesOn, strong, weak⟩

/-- A task without subtasks is not skipped; it stays, or starts on the latest date asked for. -/
theorem Turn.leaf (coherent : Coherent o net)
    (turn : Turn (Flow.ofPlan o net) cal o final report id seen) (found : o.task? id = some task)
    (leaf : o.nested id = []) :
    id ∉ report.skipped ∧ ∃ placed weak, final.task? id = some placed ∧
      strongDates net seen cal id ∪ weak = boundDates o final net cal id ∧
      (placed = task ∨ placed = task.shiftTo placed.start cal) ∧
      ((startDates (strongDates net seen cal id) weak task.start task.earliestStart).Nonempty →
        IsGreatest (startDates (strongDates net seen cal id) weak task.start task.earliestStart)
          placed.start) := by
  obtain ⟨weak, links, strongOpens, weakOpens⟩ := exists_weakDates coherent seen cal id
  have none : (demands (Flow.ofPlan o net) seen cal id).subtaskDates = [] :=
    (subtaskDates_eq_nil_iff coherent.forest turn.hierarchy).mpr leaf
  have opens := opensAt_startWindow strongOpens weakOpens none task
  obtain ⟨start, window⟩ := opens.exists_window
  have placed := turn.placed task found
  rw [window] at opens
  rw [window, leaf] at placed
  refine ⟨?_, leafAt cal task start, weak, placed, links.trans (turn.linkDates_eq coherent), ?_⟩
  · rw [turn.skipped task found, window]
    simp
  · cases opens with
    | all none => exact ⟨.inl rfl, fun some => absurd none some.ne_empty⟩
    | @latest date _ greatest =>
      simp only [leafAt, Window.atLeast]
      split
      · rename_i same
        exact ⟨.inl rfl, fun _ => same ▸ greatest⟩
      · exact ⟨.inr rfl, fun _ => greatest⟩

/-- A link of the task itself that is violated tells a date no earlier than the old start. -/
theorem start_le_of_mem_strongDates (ordered : task.start ≤ task.finish)
    (own : seen.task? id = some task)
    (noneStrong : ∀ link ∈ net.links, link.dependant = id → link.hardness ≠ .strong) {date : Date}
    (member : date ∈ strongDates net seen cal id) : task.start ≤ date := by
  obtain ⟨link, known, rfl, collision, found, strong, rfl⟩ := member
  obtain ⟨dependee, dependant, -, span, rfl⟩ := Link.forward?_eq_some_iff.mp found
  have rubber : link.hardness = .rubber := by
    cases hardness : link.hardness with
    | rubber => rfl
    | strong => exact absurd hardness (noneStrong link known rfl)
  have active : (link.relation.forward dependee dependant link.lag.days cal).active = true := by
    simpa [isWeak, rubber] using strong
  have spans : dependant = task.span := by
    rw [Outline.span?_of_task? own] at span
    exact (Option.some.inj span).symm
  have late := Relation.start_le_acceptable (spans ▸ Task.span_ordered ordered) active
  rw [spans, Task.span_start] at late
  exact Std.le_trans late (spans ▸ cal.le_closestFrom _)

/-- Where every day is worked, a task that keeps all its dates is held back by no link. -/
theorem exists_inactive {placed : Task} (coherent : Coherent o net)
    (same : final.hierarchy = o.hierarchy) (ordered : task.start ≤ task.finish)
    (found : o.task? id = some task) (placedIs : final.task? id = some placed)
    (moved : placed = task ∨ placed = task.shiftTo placed.start .everyDay)
    (late : ∀ date ∈ boundDates o final net .everyDay id, date ≤ placed.start) {link : Link}
    (member : link ∈ net.links) (under : o.hierarchy.Under id link.dependant) :
    ∃ collision, (link.retarget id).forward? final.span? .everyDay = some collision ∧
      collision.active = false := by
  have known : id ∈ o.ids := Outline.exists_task?_iff.mp ⟨task, found⟩
  obtain ⟨dependee, span, first, second, tested⟩ :=
    exists_forward? .everyDay coherent same member known
  rw [Outline.span?_of_task? placedIs] at second
  cases second
  have asked := late _
    ⟨link, member, under, dependee, task.span, first, Outline.span?_of_task? found, rfl⟩
  rw [Calendar.closestFrom_everyDay] at asked
  exact ⟨_, tested, Relation.not_active_of_placed ordered moved asked⟩

end Turn

/-- After a pass, a task without subtasks is not skipped. Its start is at or after every date of its
links and its earliest start. A strong link of its own pins it to the latest of these; if it has
none, but some link bears on it, its old start counts too. Where every day is worked, no link that
bears on it is violated any more. -/
theorem leaf_start_spec {o : Outline} {net : Network} (coherent : Coherent o net)
    (ordered : o.Ordered) (cal : Calendar) :
    ∃ final report, run true o net cal = (final, .ok report) ∧
      ∀ id task, o.task? id = some task → o.nested id = [] →
        id ∉ report.skipped ∧ ∃ placed, final.task? id = some placed ∧
          (∀ date ∈ boundDates o final net cal id, date ≤ placed.start) ∧
          (∀ date, task.earliestStart = some date → date ≤ placed.start) ∧
          ((∃ link ∈ net.links, link.dependant = id ∧ link.hardness = .strong) →
            IsGreatest (boundDates o final net cal id ∪ {date | task.earliestStart = some date})
              placed.start) ∧
          ((∀ link ∈ net.links, link.dependant = id → link.hardness ≠ .strong) →
            (boundDates o final net cal id).Nonempty →
            IsGreatest (boundDates o final net cal id ∪
              {date | task.earliestStart = some date ∨ date = task.start}) placed.start) ∧
          ((∀ day, cal.works day = true) →
            ∀ link ∈ net.links, o.hierarchy.Under id link.dependant →
              ∃ collision, (link.retarget id).forward? final.span? cal = some collision ∧
                collision.active = false) := by
  obtain ⟨final, report, done, pass⟩ := run_spec coherent cal
  refine ⟨final, report, done, fun id task found leaf => ?_⟩
  have known : id ∈ o.ids := Outline.exists_task?_iff.mp ⟨task, found⟩
  obtain ⟨seen, turn⟩ := pass.turn id known
  obtain ⟨kept, placed, weak, placedIs, bounds, moved, latest⟩ := turn.leaf coherent found leaf
  have inOrder := ordered id task found
  have own : seen.task? id = some task := turn.own.trans found
  have late : ∀ date ∈ boundDates o final net cal id, date ≤ placed.start := by
    rw [← bounds]
    intro date member
    exact (latest ⟨date, .inl (.inl member)⟩).2 (.inl (.inl member))
  refine ⟨kept, placed, placedIs, late, ?_, ?_, ?_, ?_⟩
  · intro date earliest
    exact (latest ⟨date, .inr earliest⟩).2 (.inr earliest)
  · rintro ⟨link, member, rfl, strong⟩
    obtain ⟨dependee, span, -, -, tested⟩ :=
      exists_forward? cal coherent turn.hierarchy member known
    have pinned : (strongDates net seen cal link.dependant).Nonempty :=
      ⟨_, link, member, rfl, _, tested, by simp [isWeak, strong], rfl⟩
    rw [startDates_of_strong pinned] at latest
    rw [← bounds]
    exact latest (pinned.inl.inl)
  · intro noneStrong held
    rw [← bounds] at held ⊢
    exact isGreatest_of_floor latest
      (fun _ member => start_le_of_mem_strongDates inOrder own noneStrong member) held
  · intro everyDay link member under
    have same : cal = .everyDay := by
      obtain ⟨works⟩ := cal
      exact congrArg Calendar.mk (funext everyDay)
    subst same
    exact exists_inactive coherent pass.redated.hierarchy inOrder found placedIs moved late member
      under

/-- The inner task waits with its container, although no link is its own. -/
theorem leaf_start_spec_in_container : ∃ o final report, Sample.outline = .ok o ∧
    run true o Sample.network .everyDay = (final, .ok report) ∧
    Sample.inner ∉ report.skipped ∧ ∃ placed, final.task? Sample.inner = some placed ∧
      placed.start = Sample.last ∧
      IsGreatest (boundDates o final Sample.network .everyDay Sample.inner ∪
        {date | (none : Option Date) = some date ∨ date = Sample.first}) placed.start := by
  obtain ⟨o, built⟩ : ∃ o, Sample.outline = .ok o := ⟨_, rfl⟩
  obtain ⟨coherent, ordered⟩ := Sample.coherent_outline built
  obtain ⟨final, report, done, spec⟩ := leaf_start_spec coherent ordered .everyDay
  have start : ((run true o Sample.network .everyDay).1.task? Sample.inner).map Task.start =
      some Sample.last := by
    cases built
    decide
  obtain ⟨kept, placed, placedIs, -, -, -, held, -⟩ := spec Sample.inner
    (Sample.task Sample.inner Sample.first Sample.last) (by cases built; decide)
    (by cases built; decide)
  obtain ⟨-, waited, waitedIs, -⟩ := spec Sample.other
    (Sample.task Sample.other Sample.first Sample.last) (by cases built; decide)
    (by cases built; decide)
  rw [done, placedIs] at start
  refine ⟨o, final, report, built, done, kept, placed, placedIs, Option.some.inj start,
    held ?_ ?_⟩
  · intro link member own
    rcases Catalog.mem_insert.mp member with rfl | ⟨none, -⟩
    · contradiction
    · exact absurd none (Catalog.not_mem_empty link)
  · have own : o.span? Sample.inner =
        some (Sample.task Sample.inner Sample.first Sample.last).span := by
      cases built
      decide
    have inside : o.hierarchy.Inside Sample.inner Sample.outer :=
      .of_container (by cases built; rfl)
    exact ⟨_, { key := ⟨Sample.outer, Sample.other⟩ }, Catalog.mem_insert.mpr (.inl rfl),
      .inr inside, waited.span, _, Outline.span?_of_task? waitedIs, own, rfl⟩

end Workplan.Schedule
