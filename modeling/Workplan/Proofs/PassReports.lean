/-
# Workplan.Proofs.PassReports — what a pass reports, and what it leaves alone

A pass writes to the plan while it goes on, so that what it reports and what it has done could come
apart, and an error could leave half of it behind. Neither happens:

* `exists_withDates_placedAt` — a turn gives its task new dates and changes nothing else of it;
* `Passes.keeps` — so does a whole pass, to every task;
* `Accounts` — the report names just the tasks with new dates, each once and none before one that
  constrains it, and besides tasks that stay as they are;
* `pass_report_spec` — without a cycle the pass gives such a report. With one, and where scheduling is
  disabled, it changes nothing, since the order of the tasks is known before the first of them has
  its turn.
-/
import Workplan.Proofs.PassOrder

namespace Workplan

set_option autoImplicit false

namespace Schedule

/-! ## New dates and nothing else -/

theorem exists_withDates_leafAt (cal : Calendar) (task : Task) (start : Window) :
    ∃ first last, leafAt cal task start = task.withDates first last := by
  unfold leafAt
  split
  · exact ⟨task.start, task.finish, rfl⟩
  · rename_i date _
    split
    · exact ⟨task.start, task.finish, rfl⟩
    · exact ⟨date, (task.shiftTo date cal).finish, rfl⟩

theorem exists_withDates_placedAt (cal : Calendar) (d : Demands) (isLeaf : Bool) (task : Task)
    (start : Window) : ∃ first last, placedAt cal d isLeaf task start = task.withDates first last := by
  unfold placedAt
  split
  · exact exists_withDates_leafAt cal task start
  · exact ⟨_, _, rfl⟩

section Pass

variable {flow : Flow} {o final : Outline} {cal : Calendar} {report : ScheduleReport}

/-- A pass over all tasks keeps everything of a task but its dates. -/
theorem Passes.keeps (pass : Passes flow cal o.ids o final {} report) {id : TaskId} {task : Task}
    (found : o.task? id = some task) :
    ∃ first last, final.task? id = some (task.withDates first last) := by
  obtain ⟨seen, turn⟩ := pass.turn id (Outline.exists_task?_iff.mp ⟨task, found⟩)
  rw [turn.placed task found]
  cases startWindow (demands flow seen cal id) task with
  | none => exact ⟨task.start, task.finish, rfl⟩
  | some start =>
    obtain ⟨first, last, same⟩ := exists_withDates_placedAt cal (demands flow seen cal id)
      (o.nested id).isEmpty task start
    exact ⟨first, last, congrArg some same⟩

/-- A pass leaves the tasks alone that it skips. -/
theorem Passes.skipped_stays (pass : Passes flow cal o.ids o final {} report) {id : TaskId}
    (skipped : id ∈ report.skipped) : final.task? id = o.task? id := by
  by_cases known : id ∈ o.ids
  · obtain ⟨task, found⟩ := Outline.exists_task?_iff.mpr known
    obtain ⟨seen, turn⟩ := pass.turn id known
    rw [turn.placed task found, (turn.skipped task found).mp skipped, found]
    rfl
  · exact pass.others id known

/-- Since only dates change, a task changes exactly if its dates do. -/
theorem Passes.dates_ne_iff (pass : Passes flow cal o.ids o final {} report) (id : TaskId) :
    final.dates? id ≠ o.dates? id ↔ final.task? id ≠ o.task? id :=
  not_congr (Outline.dates?_eq_iff fun _ found => pass.keeps found)

end Pass

/-! ## Reports -/

/-- What a pass has done, and its report of it. -/
structure Accounts (o final : Outline) (net : Network) (report : ScheduleReport) : Prop where
  nodup_modified : report.modified.Nodup
  nodup_skipped : report.skipped.Nodup
  disjoint : report.modified.Disjoint report.skipped
  /-- The modified tasks are those whose start or finish has changed. -/
  mem_modified : ∀ id, id ∈ report.modified ↔ final.dates? id ≠ o.dates? id
  /-- None comes after another one that it leads to. -/
  inOrder : report.modified.Pairwise fun earlier later =>
    ¬ Relation.TransGen (Flow.ofPlan o net).Leads later earlier
  /-- The same tasks, in the same containers and in the same order. -/
  hierarchy : final.hierarchy = o.hierarchy
  /-- Of a task nothing but its dates has changed. -/
  keeps : ∀ id task, o.task? id = some task →
    ∃ start finish, final.task? id = some (task.withDates start finish)

section Run

variable {o : Outline}

theorem exists_accounts (forest : o.hierarchy.IsForest) {net : Network}
    (acyclic : Acyclic (Flow.ofPlan o net).Leads) (cal : Calendar) :
    ∃ final report, run true o net cal = (final, .ok report) ∧ Accounts o final net report := by
  obtain ⟨list, sorted, taken⟩ := exists_run_order forest acyclic cal
  obtain ⟨final, report, done, pass, reports⟩ := placeAll_plan cal (fun _ => .refl _) sorted
  obtain ⟨modified, skipped, rfl, inOrder, -, -⟩ := placeAll_reports done
  refine ⟨final, _, taken.trans done, reports.nodup_modified, reports.nodup_skipped, ?_, ?_, ?_,
    pass.redated.hierarchy, fun id task found => pass.keeps found⟩
  · intro id named skipped
    exact (reports.mem_modified id).mp named (pass.skipped_stays skipped)
  · intro id
    rw [reports.mem_modified, pass.dates_ne_iff]
  · have apart := sorted.pairwise_not_way (closed_ofPlan net forest)
    simpa using apart.sublist inOrder

/-- A pass over a plan without a cycle succeeds, with a report that accounts for what it has done. With
a cycle it fails, names a task on one, and changes nothing, and neither does a pass that is disabled. -/
theorem pass_report_spec (forest : o.hierarchy.IsForest) (net : Network) (cal : Calendar) :
    run false o net cal = (o, .ok {}) ∧
    (Acyclic (Flow.ofPlan o net).Leads → ∃ final report,
      run true o net cal = (final, .ok report) ∧ Accounts o final net report) ∧
    (¬ Acyclic (Flow.ofPlan o net).Leads → ∃ task,
      run true o net cal = (o, .error (.cycle task)) ∧
        Relation.TransGen (Flow.ofPlan o net).Leads task task) := by
  refine ⟨run_disabled o net cal, fun acyclic => exists_accounts forest acyclic cal,
    fun cyclic => ?_⟩
  have closed := closed_ofPlan net forest
  cases layered : (Flow.ofPlan o net).layers with
  | ok layers => exact absurd ((Flow.exists_layers_iff closed).mp ⟨layers, layered⟩) cyclic
  | error reason =>
    -- the layers come first, so no task has had its turn
    obtain ⟨task, rfl, cycle⟩ := Flow.leads_self_of_layers_error closed layered
    refine ⟨task, ?_, cycle⟩
    simp only [run, pass, if_true, layered]

end Run

end Schedule

namespace Sample

/-- The inner task has to wait for the outer one, too, which ends only with it. -/
def looped : Network := network.insertLink { key := ⟨inner, outer⟩ }

end Sample

namespace Schedule

/-- The inner task moves and takes the outer one with it; if it also had to wait for the outer one,
nothing would move. -/
theorem pass_report_spec_in_container : ∃ o final report task, Sample.outline = .ok o ∧
    run true o Sample.network .everyDay = (final, .ok report) ∧
    Accounts o final Sample.network report ∧ report.modified = [Sample.inner, Sample.outer] ∧
    run true o Sample.looped .everyDay = (o, .error (.cycle task)) := by
  obtain ⟨o, built⟩ : ∃ o, Sample.outline = .ok o := ⟨_, rfl⟩
  obtain ⟨coherent, -⟩ := Sample.coherent_outline built
  obtain ⟨-, succeeds, -⟩ := pass_report_spec coherent.forest Sample.network .everyDay
  obtain ⟨final, report, done, accounts⟩ :=
    succeeds (acyclic_leads coherent.forest coherent.acyclic)
  have moved : (run true o Sample.network .everyDay).2.toOption.map ScheduleReport.modified =
      some [Sample.inner, Sample.outer] := by
    cases built
    decide
  rw [done] at moved
  obtain ⟨-, -, fails⟩ := pass_report_spec coherent.forest Sample.looped .everyDay
  have around : ¬ Acyclic (Flow.ofPlan o Sample.looped).Leads := by
    intro acyclic
    have there : Flow.Leads (Flow.ofPlan o Sample.looped) Sample.outer Sample.inner := by
      unfold Flow.Leads
      cases built
      decide
    have back : Flow.Leads (Flow.ofPlan o Sample.looped) Sample.inner Sample.outer := by
      unfold Flow.Leads
      cases built
      decide
    exact acyclic Sample.outer (.tail (.single there) back)
  obtain ⟨task, failed, -⟩ := fails around
  exact ⟨o, final, report, task, built, done, accounts, Option.some.inj moved, failed⟩

end Schedule

end Workplan
