/-
# Workplan.Proofs.ContainerPlacement — where a pass puts a container

A container starts with the first of its subtasks, but a strong link of its own pins its start too,
so it can be skipped. Links that bind starts cannot do this to it: each bears on every subtask as
well, and tells them the same date, so by the time of the container they all keep it.

* `boundDates_subset` — the dates that a container is told are told to what lies in it;
* `Turn.container` — a container whose subtasks keep the dates that it is told keeps them as well;
* `Passes.inTime` — so, from the subtasks upwards, does every task;
* `start_links_kept` — nothing is skipped, and all that a link bears on keeps it.
-/
import Workplan.Proofs.LeafPlacement

namespace Workplan.Schedule

set_option autoImplicit false

variable {o final seen : Outline} {net : Network} {cal : Calendar} {report : ScheduleReport}
  {id : TaskId} {task : Task}

/-- The pass has placed the task, no earlier than the links on it tell. -/
def InTime (o final : Outline) (net : Network) (cal : Calendar) (report : ScheduleReport)
    (id : TaskId) : Prop :=
  id ∉ report.skipped ∧ ∃ placed, final.task? id = some placed ∧
    ∀ date ∈ boundDates o final net cal id, date ≤ placed.start

/-- Where links bind starts, the dates that they tell do not depend on whom they tell them. -/
theorem boundDates_subset {inner outer : TaskId}
    (binds : ∀ link ∈ net.links, o.hierarchy.Under outer link.dependant →
      link.relation.bindsDependantFinish = false)
    (under : o.hierarchy.Under inner outer) (known : inner ∈ o.ids) :
    boundDates o final net cal outer ⊆ boundDates o final net cal inner := by
  rintro date ⟨link, member, above, dependee, -, there, -, rfl⟩
  obtain ⟨task, found⟩ := Outline.exists_task?_iff.mpr known
  refine ⟨link, member, under.trans above, dependee, task.span, there,
    Outline.span?_of_task? found, ?_⟩
  rw [Relation.acceptable_of_bindsStart (binds link member above),
    Relation.acceptable_of_bindsStart (binds link member above)]

/-- The first date of the subtasks is the start or the finish of one of them. -/
theorem Turn.le_covered (coherent : Coherent o net)
    (turn : Turn (Flow.ofPlan o net) cal o final report id seen) (inOrder : final.Ordered)
    {date : Date}
    (kept : ∀ child, o.container child = some id →
      ∃ placed, final.task? child = some placed ∧ date ≤ placed.start)
    (nested : (demands (Flow.ofPlan o net) seen cal id).subtaskDates ≠ []) (task : Task) :
    date ≤ (covered (demands (Flow.ofPlan o net) seen cal id) task).1 := by
  obtain ⟨child, there, below, seenIs, ends⟩ :=
    (mem_subtaskDates coherent.forest).mp (covered_spec nested task).1
  obtain ⟨placed, placedIs, late⟩ := kept child below
  cases (seenIs.symm.trans (turn.source coherent (.containment below))).trans placedIs
  rcases ends with starts | finishes
  · rw [starts]
    exact late
  · rw [finishes]
    exact Std.le_trans late (inOrder child _ placedIs)

/-- A container whose subtasks start no earlier than it is told takes its dates from them. -/
theorem Turn.container (coherent : Coherent o net)
    (turn : Turn (Flow.ofPlan o net) cal o final report id seen) (found : o.task? id = some task)
    (nested : o.nested id ≠ []) (free : task.earliestStart = none) (inOrder : final.Ordered)
    (kept : ∀ child, o.container child = some id → ∃ placed, final.task? child = some placed ∧
      ∀ date ∈ boundDates o final net cal id, date ≤ placed.start) :
    InTime o final net cal report id := by
  obtain ⟨weakDates, links, strong, weak⟩ := exists_weakDates coherent seen cal id
  have nestedDates : (demands (Flow.ofPlan o net) seen cal id).subtaskDates ≠ [] :=
    (subtaskDates_eq_nil_iff coherent.forest turn.hierarchy).not.mpr nested
  have early : ∀ date ∈ boundDates o final net cal id,
      date ≤ (covered (demands (Flow.ofPlan o net) seen cal id) task).1 := by
    intro date told
    refine turn.le_covered coherent inOrder (fun child below => ?_) nestedDates task
    obtain ⟨placed, placedIs, late⟩ := kept child below
    exact ⟨placed, placedIs, late date told⟩
  have linked : ∀ date, date ∈ strongDates net seen cal id ∨ date ∈ weakDates →
      date ∈ boundDates o final net cal id := by
    intro date asked
    rw [← turn.linkDates_eq coherent, ← links]
    exact asked
  have window : startWindow (demands (Flow.ofPlan o net) seen cal id) task =
      some (.between (covered (demands (Flow.ofPlan o net) seen cal id) task).1
        (covered (demands (Flow.ofPlan o net) seen cal id) task).2) := by
    refine startWindow_eq_between strong weak nestedDates fun date asked => ?_
    rcases asked with inStrong | inWeak | earliest
    · exact early date (linked date (.inl inStrong))
    · exact early date (linked date (.inr inWeak))
    · rw [free] at earliest
      contradiction
  have isContainer : (o.nested id).isEmpty = false := by
    rw [← Bool.not_eq_true, List.isEmpty_iff]
    exact nested
  have placed := turn.placed task found
  rw [window, isContainer] at placed
  refine ⟨?_, _, placed, early⟩
  rw [turn.skipped task found, window]
  simp

/-- If all links bind starts, and no container has an earliest start, the subtasks keep every date
that their container is told, so a pass places every task in time. -/
theorem Passes.inTime {before : ScheduleReport} (coherent : Coherent o net)
    (pass : Passes (Flow.ofPlan o net) cal o.ids o final before report) (ordered : o.Ordered)
    (free : ∀ id task, o.task? id = some task → o.nested id ≠ [] → task.earliestStart = none)
    (binds : ∀ link ∈ net.links, link.relation.bindsDependantFinish = false) {id : TaskId}
    (known : id ∈ o.ids) : InTime o final net cal report id := by
  induction id using coherent.forest.bottomUp with
  | step id ih =>
    obtain ⟨task, found⟩ := Outline.exists_task?_iff.mpr known
    obtain ⟨seen, turn⟩ := pass.turn id known
    by_cases leaf : o.nested id = []
    · obtain ⟨kept, placed, weak, placedIs, bounds, -, latest⟩ := turn.leaf coherent found leaf
      refine ⟨kept, placed, placedIs, fun date told => ?_⟩
      rw [← bounds] at told
      exact (latest ⟨date, .inl (.inl told)⟩).2 (.inl (.inl told))
    · have inOrder := pass.redated.ordered ordered
      refine turn.container coherent found leaf (free id task found leaf) inOrder ?_
      intro child below
      have nested := (coherent.forest.mem_nested id child).mpr below
      have there : child ∈ o.ids := Outline.mem_ids_of_container below
      obtain ⟨-, placed, placedIs, late⟩ := ih child nested there
      exact ⟨placed, placedIs, fun date told =>
        late date (boundDates_subset (fun link member _ => binds link member)
          (.inr (.of_container below)) there told)⟩

/-- If all links bind starts, and no container has an earliest start, a pass skips nothing, and
everything that a link bears on starts no earlier than the barrier of the link. -/
theorem start_links_kept (coherent : Coherent o net) (ordered : o.Ordered)
    (free : ∀ id task, o.task? id = some task → o.nested id ≠ [] → task.earliestStart = none)
    (startLinks : ∀ link ∈ net.links,
      link.relation = .finishStart ∨ link.relation = .startStart) (cal : Calendar) :
    ∃ final report, run true o net cal = (final, .ok report) ∧ report.skipped = [] ∧
      ∀ link ∈ net.links, ∀ id, o.hierarchy.Under id link.dependant →
        ∃ dependee placed, final.task? link.dependee = some dependee ∧
          final.task? id = some placed ∧
          link.relation.barrier dependee.span link.lag.days cal ≤ placed.start := by
  obtain ⟨final, report, done, pass⟩ := run_spec coherent cal
  have binds : ∀ link ∈ net.links, link.relation.bindsDependantFinish = false := by
    intro link member
    rcases startLinks link member with same | same <;> rw [same] <;> rfl
  have inTime : ∀ id ∈ o.ids, InTime o final net cal report id :=
    fun _ known => pass.inTime coherent ordered free binds known
  refine ⟨final, report, done, ?_, ?_⟩
  · refine List.eq_nil_iff_forall_not_mem.mpr fun id member => ?_
    by_cases known : id ∈ o.ids
    · exact (inTime id known).1 member
    · exact absurd ((pass.othersSkipped id known).mp member) List.not_mem_nil
  · intro link member id under
    have ends := coherent.liesOn _ (Network.contains_of_mem member)
    have known : id ∈ o.ids := by
      rcases under with rfl | inside
      · exact Outline.contains_iff.mp ends.1
      · exact (coherent.forest.mem_tasks_of_inside inside).1
    obtain ⟨-, placed, placedIs, late⟩ := inTime id known
    obtain ⟨-, dependee, dependeeIs, -⟩ := inTime _ (Outline.contains_iff.mp ends.2)
    obtain ⟨task, found⟩ := Outline.exists_task?_iff.mpr known
    have told : cal.closestFrom (link.relation.barrier dependee.span link.lag.days cal) ≤
        placed.start := by
      refine late _ ⟨link, member, under, dependee.span, task.span,
        Outline.span?_of_task? dependeeIs, Outline.span?_of_task? found, ?_⟩
      rw [Relation.acceptable_of_bindsStart (binds link member)]
    exact ⟨dependee, placed, dependeeIs, placedIs, Std.le_trans (cal.le_closestFrom _) told⟩

/-- The strong link on the outer task moves the inner one first, so the outer one can follow. -/
theorem start_links_kept_in_container : ∃ o final report, Sample.outline = .ok o ∧
    run true o Sample.network .everyDay = (final, .ok report) ∧ report.skipped = [] ∧
    ∃ dependee placed, final.task? Sample.other = some dependee ∧
      final.task? Sample.inner = some placed ∧
      Relation.finishStart.barrier dependee.span 0 .everyDay ≤ placed.start := by
  obtain ⟨o, built⟩ : ∃ o, Sample.outline = .ok o := ⟨_, rfl⟩
  obtain ⟨coherent, ordered⟩ := Sample.coherent_outline built
  have allFree : ∀ node ∈ o.nodes.entries, node.task.earliestStart = none := by
    cases built
    decide
  have free : ∀ id task, o.task? id = some task → o.nested id ≠ [] →
      task.earliestStart = none := by
    intro id task found _
    obtain ⟨node, there, rfl⟩ := Option.map_eq_some_iff.mp found
    exact allFree node (Catalog.mem_of_find? there).1
  have startLinks : ∀ link ∈ Sample.network.links,
      link.relation = .finishStart ∨ link.relation = .startStart := by
    intro link member
    rcases Catalog.mem_insert.mp member with rfl | ⟨none, -⟩
    · exact .inl rfl
    · exact absurd none (Catalog.not_mem_empty link)
  obtain ⟨final, report, done, noneSkipped, kept⟩ :=
    start_links_kept coherent ordered free startLinks .everyDay
  have inside : o.hierarchy.Inside Sample.inner Sample.outer :=
    .of_container (by cases built; rfl)
  exact ⟨o, final, report, built, done, noneSkipped,
    kept { key := ⟨Sample.outer, Sample.other⟩ } (Catalog.mem_insert.mpr (.inl rfl))
      Sample.inner (.inr inside)⟩

end Workplan.Schedule
