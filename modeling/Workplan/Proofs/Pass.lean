/-
# Workplan.Proofs.Pass — one pass, task by task

A pass places each task once, after all that lead to it. So when its turn comes, a task finds those
as they will stay, finds itself as it was, and is not touched again:

* `placeTask_spec` — a turn always succeeds, and changes no task but its own;
* `placeAll_spec` — the turns in a sorted list, by induction on the list;
* `run_spec` — every task of a coherent plan has its turn, and no error comes of it.
-/
import Workplan.Proofs.Demands
import Workplan.Proofs.Redating

namespace Workplan.Schedule

set_option autoImplicit false

/-! ## One turn -/

/-- A task without subtasks, moved to the start of its window. -/
def leafAt (cal : Calendar) (task : Task) (start : Window) : Task :=
  match start.lower with
  | none => task
  | some date => if date = task.start then task else task.shiftTo date cal

/-- A container at the start of its window, with a finish for its subtasks. -/
def containerAt (task : Task) (start : Window) (finish : Option Date) : Task :=
  task.withDates (start.lower.getD task.start)
    (max (finish.getD task.finish) (start.lower.getD task.start))

/-- What a pass makes of a task that it does not skip. -/
def placedAt (cal : Calendar) (d : Demands) (isLeaf : Bool) (task : Task) (start : Window) : Task :=
  if isLeaf then leafAt cal task start
  else containerAt task start (if d.subtaskDates = [] then none else some (covered d task).2)

section Turn

variable (cal : Calendar) {o : Outline} {id : TaskId} {task : Task}

theorem placeLeaf_spec (found : o.task? id = some task) (start : Window) :
    ∃ placed outcome, placeLeaf o cal task start = .ok (placed, outcome) ∧ outcome ≠ .skipped ∧
      (outcome = .modified → leafAt cal task start ≠ task) ∧
      ∀ x, placed.task? x = if x = id then some (leafAt cal task start) else o.task? x := by
  have same := Outline.id_of_task? found
  have kept : ∀ x, o.task? x = if x = id then some task else o.task? x := by
    intro x
    split
    · rename_i here
      rw [here, found]
    · rfl
  unfold placeLeaf leafAt
  cases start.lower with
  | none => exact ⟨o, .unchanged, rfl, by decide, nofun, kept⟩
  | some date =>
    by_cases stays : date = task.start
    · simp only [if_pos stays]
      exact ⟨o, .unchanged, rfl, by decide, nofun, kept⟩
    · simp only [if_neg stays]
      obtain ⟨shifted, done, tasks⟩ := Outline.shift_of_known (Outline.mem_ids_of_task? found) date cal
      refine ⟨shifted, .modified, by rw [done]; rfl, by decide,
        fun _ same => stays (congrArg Task.start same), fun x => ?_⟩
      rw [tasks, same]
      split
      · rename_i here
        rw [here, found]
        rfl
      · rfl

theorem placeContainer_spec (found : o.task? id = some task) (start : Window)
    (finish : Option Date) :
    ∃ placed outcome, placeContainer o task start finish = .ok (placed, outcome) ∧
      outcome ≠ .skipped ∧ (outcome = .modified → containerAt task start finish ≠ task) ∧
      ∀ x, placed.task? x = if x = id then some (containerAt task start finish) else o.task? x := by
  have same := Outline.id_of_task? found
  simp only [placeContainer, containerAt]
  by_cases stays : start.lower.getD task.start = task.start ∧
      max (finish.getD task.finish) (start.lower.getD task.start) = task.finish
  · refine ⟨o, .unchanged, by rw [if_pos stays], by decide, by simp, fun x => ?_⟩
    rw [stays.2, stays.1]
    split
    · rename_i here
      rw [here, found]
      rfl
    · rfl
  · have ordered := (Window.max_le_iff.mp (Std.le_refl
      (max (finish.getD task.finish) (start.lower.getD task.start)))).2
    obtain ⟨dated, done, tasks⟩ := Outline.setDates_of_known (Outline.mem_ids_of_task? found) ordered
    refine ⟨dated, .modified, by rw [if_neg stays, done]; rfl, by decide,
      fun _ same => stays ⟨congrArg Task.start same, congrArg Task.finish same⟩, fun x => ?_⟩
    rw [tasks, same]
    split
    · rename_i here
      rw [here, found]
      rfl
    · rfl

/-- The turn of a task skips it if its window is empty, and else places it; all other tasks stay.
Only a task that changes is called modified. -/
theorem placeTask_spec (flow : Flow) (found : o.task? id = some task) :
    ∃ placed outcome, placeTask flow cal o id = .ok (placed, outcome) ∧
      (outcome = .skipped ↔ startWindow (demands flow o cal id) task = none) ∧
      (outcome = .modified → placed.task? id ≠ o.task? id) ∧
      ∀ x, placed.task? x = if x = id then
        some (((startWindow (demands flow o cal id) task).map
          (placedAt cal (demands flow o cal id) (o.nested id).isEmpty task)).getD task)
        else o.task? x := by
  unfold placeTask
  rw [found]
  cases window : startWindow (demands flow o cal id) task with
  | none =>
    refine ⟨o, .skipped, by simp [window], by simp, nofun, fun x => ?_⟩
    split
    · rename_i here
      rw [here, found]
      rfl
    · rfl
  | some start =>
    simp only [window]
    by_cases leaf : (o.nested id).isEmpty = true
    · simp only [if_pos leaf]
      obtain ⟨placed, outcome, done, differs, changes, tasks⟩ := placeLeaf_spec cal found start
      refine ⟨placed, outcome, done, by simp [differs],
        by simpa [tasks, found] using changes, fun x => ?_⟩
      simp only [tasks, Option.map_some, Option.getD_some, placedAt, if_pos leaf]
    · simp only [if_neg leaf]
      obtain ⟨placed, outcome, done, differs, changes, tasks⟩ := placeContainer_spec found start
        (if (demands flow o cal id).subtaskDates = [] then none
          else some (covered (demands flow o cal id) task).2)
      refine ⟨placed, outcome, done, by simp [differs],
        by simpa [tasks, found] using changes, fun x => ?_⟩
      simp only [tasks, Option.map_some, Option.getD_some, placedAt, if_neg leaf]

end Turn

/-! ## All turns -/

/-- The turn of a task on the way from one outline to another: the outline it finds, with all that
lead to it as they stay, and what it makes of the task. -/
structure Turn (flow : Flow) (cal : Calendar) (o final : Outline) (report : ScheduleReport)
    (id : TaskId) (seen : Outline) : Prop where
  hierarchy : seen.hierarchy = o.hierarchy
  own : seen.task? id = o.task? id
  sources : ∀ source, flow.Leads source id → seen.task? source = final.task? source
  skipped : ∀ task, o.task? id = some task →
    (id ∈ report.skipped ↔ startWindow (demands flow seen cal id) task = none)
  modified : id ∈ report.modified → final.task? id ≠ o.task? id
  placed : ∀ task, o.task? id = some task →
    final.task? id = some (((startWindow (demands flow seen cal id) task).map
      (placedAt cal (demands flow seen cal id) (o.nested id).isEmpty task)).getD task)

theorem mem_skipped_note {report : ScheduleReport} {id x : TaskId} {outcome : Outcome} :
    x ∈ (report.note id outcome).skipped ↔
      x ∈ report.skipped ∨ x = id ∧ outcome = .skipped := by
  cases outcome <;> simp [ScheduleReport.note]

theorem mem_modified_note {report : ScheduleReport} {id x : TaskId} {outcome : Outcome} :
    x ∈ (report.note id outcome).modified ↔
      x ∈ report.modified ∨ x = id ∧ outcome = .modified := by
  cases outcome <;> simp [ScheduleReport.note]

section All

variable {flow : Flow} (cal : Calendar)

/-- What a pass over a list of tasks does to an outline, if all that lead to a task come before it. -/
structure Passes (flow : Flow) (cal : Calendar) (list : List TaskId) (o final : Outline)
    (before report : ScheduleReport) : Prop where
  redated : o.Redated final
  others : ∀ x, x ∉ list → final.task? x = o.task? x
  othersSkipped : ∀ x, x ∉ list → (x ∈ report.skipped ↔ x ∈ before.skipped)
  othersModified : ∀ x, x ∉ list → (x ∈ report.modified ↔ x ∈ before.modified)
  turn : ∀ id ∈ list, ∃ seen, Turn flow cal o final report id seen

theorem placeAll_spec {list : List TaskId} (nodup : list.Nodup)
    (sorted : list.Pairwise fun earlier later => ¬ flow.Leads later earlier)
    (noLoop : ∀ task, ¬ flow.Leads task task) (o : Outline) (before : ScheduleReport)
    (known : ∀ id ∈ list, id ∈ o.ids)
    (fresh : ∀ id ∈ list, id ∉ before.skipped ∧ id ∉ before.modified) :
    ∃ final report, placeAll flow cal list o before = (final, .ok report) ∧
      Passes flow cal list o final before report := by
  induction list generalizing o before with
  | nil =>
    exact ⟨o, before, rfl, .refl o, fun _ _ => rfl, fun _ _ => .rfl, fun _ _ => .rfl, by simp⟩
  | cons id rest ih =>
    obtain ⟨notLater, nodupRest⟩ := List.nodup_cons.mp nodup
    obtain ⟨first, sortedRest⟩ := List.pairwise_cons.mp sorted
    obtain ⟨task, found⟩ := Outline.exists_task?_iff.mpr (known id List.mem_cons_self)
    obtain ⟨next, outcome, done, skipped, changes, tasks⟩ := placeTask_spec cal flow found
    have redated := redated_placeTask done
    have ids : next.ids = o.ids := congrArg Hierarchy.tasks redated.hierarchy
    obtain ⟨final, report, rests, pass⟩ := ih nodupRest sortedRest next (before.note id outcome)
      (fun x later => ids ▸ known x (List.mem_cons_of_mem _ later))
      (fun x later => by
        obtain ⟨notSkipped, notModified⟩ := fresh x (List.mem_cons_of_mem _ later)
        have differ : x ≠ id := fun same => notLater (same ▸ later)
        simp [mem_skipped_note, mem_modified_note, notSkipped, notModified, differ])
    refine ⟨final, report, by rw [placeAll, done]; exact rests, redated.trans pass.redated,
      ?_, ?_, ?_, ?_⟩
    · intro x outside
      obtain ⟨differ, notRest⟩ := not_or.mp (List.mem_cons.not.mp outside)
      rw [pass.others x notRest, tasks, if_neg differ]
    · intro x outside
      obtain ⟨differ, notRest⟩ := not_or.mp (List.mem_cons.not.mp outside)
      rw [pass.othersSkipped x notRest, mem_skipped_note]
      simp [differ]
    · intro x outside
      obtain ⟨differ, notRest⟩ := not_or.mp (List.mem_cons.not.mp outside)
      rw [pass.othersModified x notRest, mem_modified_note]
      simp [differ]
    · intro x member
      rcases List.mem_cons.mp member with rfl | later
      · obtain ⟨notSkipped, notModified⟩ := fresh x member
        refine ⟨o, rfl, rfl, fun source leads => ?_, fun other there => ?_, fun named => ?_,
          fun other there => ?_⟩
        · have differ : source ≠ x := fun same => noLoop x (same ▸ leads)
          have notRest : source ∉ rest := fun inside => first source inside leads
          rw [pass.others source notRest, tasks, if_neg differ]
        · cases found.symm.trans there
          rw [pass.othersSkipped x notLater, mem_skipped_note, ← skipped]
          simp [notSkipped]
        · rw [pass.othersModified x notLater, mem_modified_note] at named
          rw [pass.others x notLater]
          exact changes (named.resolve_left notModified).2
        · cases found.symm.trans there
          rw [pass.others x notLater, tasks, if_pos rfl]
      · have differ : x ≠ id := fun same => notLater (same ▸ later)
        have same : next.task? x = o.task? x := by rw [tasks, if_neg differ]
        have nested : next.nested = o.nested := congrArg Hierarchy.nested redated.hierarchy
        obtain ⟨seen, turn⟩ := pass.turn x later
        refine ⟨seen, turn.hierarchy.trans redated.hierarchy, turn.own.trans same, turn.sources,
          ?_, ?_, ?_⟩
        · exact fun other there => turn.skipped other (same.trans there)
        · exact fun named => same ▸ turn.modified named
        · intro other there
          rw [turn.placed other (same.trans there), nested]

end All

/-- A pass over a coherent plan makes no error, and every task has its turn. -/
theorem run_spec {o : Outline} {net : Network} (coherent : Coherent o net) (cal : Calendar) :
    ∃ final report, run true o net cal = (final, .ok report) ∧
      Passes (Flow.ofPlan o net) cal o.ids o final {} report := by
  have closed := closed_ofPlan net coherent.forest
  obtain ⟨layers, layered⟩ := (Flow.exists_layers_iff closed).mpr
    (acyclic_leads coherent.forest coherent.acyclic)
  have sorted := Flow.layers_isSorted closed layered
  have listed : ∀ id, id ∈ layers.flatten ↔ id ∈ o.ids := fun id => sorted.mem_iff
  obtain ⟨final, report, done, pass⟩ := placeAll_spec cal
    (sorted.perm.nodup_iff.mpr closed.nodup_tasks) sorted.pairwise sorted.not_leads_self o {}
    (fun id member => (listed id).mp member) (by simp)
  refine ⟨final, report, ?_, pass.redated, ?_, ?_, ?_, ?_⟩
  · simp only [run, Schedule.pass, if_true, layered]
    exact done
  · exact fun x outside => pass.others x fun inside => outside ((listed x).mp inside)
  · exact fun x outside => pass.othersSkipped x fun inside => outside ((listed x).mp inside)
  · exact fun x outside => pass.othersModified x fun inside => outside ((listed x).mp inside)
  · exact fun id known => pass.turn id ((listed id).mpr known)

end Workplan.Schedule
