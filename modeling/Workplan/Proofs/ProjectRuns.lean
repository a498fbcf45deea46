/-
# Workplan.Proofs.ProjectRuns — a project through all its edits

`Edit` lists what may be asked of a project. `apply` does it and keeps the project as it is then,
also where the project refuses; a run is one edit after another.

* `isCoherent_apply` — one edit keeps the plan of a project coherent;
* `isCoherent_run` — and so does a run;
* `run_stays_acyclic` — so in a project that started empty nothing ever comes before itself, and
  links join known tasks that lie apart.
-/
import Workplan.Project
import Workplan.Proofs.LinkEdits
import Workplan.Proofs.Redating
import Workplan.Proofs.TaskEdits

namespace Workplan.Project

set_option autoImplicit false

/-- What is asked of a project. -/
inductive Edit where
  | add (task : Task)
  | nest (parent : TaskId) (task : Task)
  | move (task : TaskId) (target : Option TaskId)
  | setDates (task : TaskId) (start finish : Date)
  | links (edit : LinkEdit)
  | setPredecessors (task : TaskId) (text separator : List Char)
  | loadRecords (records : List Record)
  | detach (task : TaskId)
  | clearLinks
  | reschedule
  | fitBounds (tasks : List TaskId)
  | enable (on : Bool)

/-- The project after an edit that gives a new one or is refused. -/
def after (p : Project) : Except ProjectError Project → Project
  | .ok edited => edited
  | .error _ => p

/-- The project after an edit, refused or not. -/
def apply (p : Project) : Edit → Project
  | .add task => p.after (p.add task)
  | .nest parent task => p.after (p.nest parent task)
  | .move task target => (p.move task target).1
  | .setDates task start finish => p.after (p.setDates task start finish)
  | .links edit => (p.editLinks fun h net => edit.perform h net).state
  | .setPredecessors task text separator => (p.setPredecessors task text separator).state
  | .loadRecords records => (p.loadRecords records).state
  | .detach task => (p.detach task).state
  | .clearLinks => p.clearLinks
  | .reschedule => p.reschedule.1
  | .fitBounds tasks => (p.fitBounds tasks).1
  | .enable on => p.enable on

/-- The project after edits in order. -/
def run (p : Project) (edits : List Edit) : Project :=
  edits.foldl apply p

/-- The plan of the project can be computed, and no task in it ends before it starts. -/
structure IsCoherent (p : Project) : Prop where
  plan : Coherent p.outline p.network
  ordered : p.outline.Ordered

variable {p : Project}

theorem IsCoherent.of_network (coherent : p.IsCoherent) {edited : Project}
    (same : edited.outline = p.outline) (kept : Coherent p.outline edited.network) :
    edited.IsCoherent :=
  ⟨same ▸ kept, same ▸ coherent.ordered⟩

theorem IsCoherent.of_redated (coherent : p.IsCoherent) {edited : Project}
    (redated : p.outline.Redated edited.outline) (same : edited.network = p.network) :
    edited.IsCoherent :=
  ⟨same ▸ coherent.plan.of_hierarchy redated.hierarchy, redated.ordered coherent.ordered⟩

theorem isCoherent_of_withOutline (coherent : p.IsCoherent)
    {edited : Except OutlineError Outline}
    (kept : ∀ outline, edited = .ok outline → Coherent outline p.network ∧ outline.Ordered) :
    (p.after (p.withOutline edited)).IsCoherent := by
  cases edited with
  | error reason => exact coherent
  | ok outline => exact ⟨(kept outline rfl).1, (kept outline rfl).2⟩

theorem isCoherent_move (coherent : p.IsCoherent) (task : TaskId) (target : Option TaskId) :
    (p.move task target).1.IsCoherent := by
  simp only [move]
  split
  · exact coherent
  · rename_i moved done
    have ordered := Outline.ordered_move coherent.ordered done
    split
    · rename_i order sorted
      exact ⟨coherent.plan.move done sorted, ordered⟩
    · obtain ⟨restored, undone, -, -⟩ := move_back coherent.plan.forest done
      rw [undone]
      exact ⟨coherent.plan.move_back done undone, Outline.ordered_move ordered undone⟩

theorem isCoherent_setPredecessors (coherent : p.IsCoherent) (task : TaskId)
    (text separator : List Char) : (p.setPredecessors task text separator).state.IsCoherent := by
  unfold setPredecessors
  split
  · exact coherent
  · rename_i tokens _
    have cleared := coherent.plan.removeAll ((p.network.asDependant task).map Link.key)
    exact coherent.of_network rfl (cleared.applyPredecessors task tokens)

theorem isCoherent_reschedule (coherent : p.IsCoherent) : p.reschedule.1.IsCoherent := by
  have redated := Schedule.redated_run p.enabled p.outline p.network p.calendar
  unfold reschedule
  split
  · exact coherent
  · split
    · rename_i stopped
      rw [stopped] at redated
      exact coherent.of_redated redated rfl
    · rename_i done
      rw [done] at redated
      exact coherent.of_redated redated rfl

theorem isCoherent_fitBounds (coherent : p.IsCoherent) (tasks : List TaskId) :
    (p.fitBounds tasks).1.IsCoherent := by
  have redated := Bounds.redated_fit p.outline tasks
  unfold fitBounds
  split
  · rename_i stopped
    rw [stopped] at redated
    exact coherent.of_redated redated rfl
  · rename_i done
    rw [done] at redated
    exact coherent.of_redated redated rfl

/-- Every edit keeps the plan of a project coherent, whether it succeeds or not. -/
theorem isCoherent_apply (coherent : p.IsCoherent) (edit : Edit) : (p.apply edit).IsCoherent := by
  cases edit with
  | add task =>
    exact isCoherent_of_withOutline coherent fun _ done =>
      ⟨coherent.plan.add_task done, Outline.ordered_add coherent.ordered done⟩
  | nest parent task =>
    exact isCoherent_of_withOutline coherent fun _ done =>
      ⟨coherent.plan.nest done, Outline.ordered_nest coherent.ordered done⟩
  | move task target => exact isCoherent_move coherent task target
  | setDates task start finish =>
    refine isCoherent_of_withOutline coherent fun _ done => ?_
    have redated := Outline.redatedOn_setDates done
    exact ⟨coherent.plan.of_hierarchy redated.hierarchy, redated.ordered coherent.ordered⟩
  | links edit => exact coherent.of_network rfl (coherent.plan.perform edit)
  | setPredecessors task text separator =>
    exact isCoherent_setPredecessors coherent task text separator
  | loadRecords records => exact coherent.of_network rfl (coherent.plan.restore records)
  | detach task => exact coherent.of_network rfl (coherent.plan.removeAll _)
  | clearLinks => exact coherent.of_network rfl coherent.plan.clear
  | reschedule => exact isCoherent_reschedule coherent
  | fitBounds tasks => exact isCoherent_fitBounds coherent tasks
  | enable on => exact coherent.of_network rfl coherent.plan

theorem isCoherent_ofSettings {settings : Settings} (opened : ofSettings settings = .ok p) :
    p.IsCoherent := by
  obtain ⟨week, -, rfl⟩ := exists_ok_of_map opened
  exact ⟨coherent_empty settings.defaults, Outline.ordered_empty⟩

theorem isCoherent_run (coherent : p.IsCoherent) (edits : List Edit) :
    (p.run edits).IsCoherent := by
  induction edits generalizing p with
  | nil => exact coherent
  | cons edit rest ih => exact ih (isCoherent_apply coherent edit)

/-- Whatever is asked of a project that starts empty, in whatever order and with whatever success:
nothing in its plan comes before itself, and every link joins two known tasks of which neither is
or contains the other. -/
theorem run_stays_acyclic {settings : Settings} {start : Project}
    (opened : ofSettings settings = .ok start) (edits : List Edit) :
    Acyclic (Precedes (start.run edits).hierarchy (start.run edits).network) ∧
      ∀ key, (start.run edits).network.contains key = true →
        (start.run edits).outline.contains key.dependant = true ∧
        (start.run edits).outline.contains key.dependee = true ∧
        key.dependant ≠ key.dependee ∧
        ¬ (start.run edits).hierarchy.Inside key.dependant key.dependee ∧
        ¬ (start.run edits).hierarchy.Inside key.dependee key.dependant := by
  have coherent := (isCoherent_run (isCoherent_ofSettings opened) edits).plan
  refine ⟨coherent.acyclic, fun key there => ?_⟩
  obtain ⟨dependant, dependee⟩ := coherent.liesOn key there
  exact ⟨dependant, dependee, apart_of_acyclic coherent.acyclic there⟩

/-- A container waits for a task, and only then is a task nested in it; that the other task should
wait for the nested one, or lie in the container, is refused. -/
def Edit.sample : List Edit :=
  [.add (Sample.task Sample.outer Sample.first Sample.last),
    .add (Sample.task Sample.other Sample.first Sample.last),
    .links (.create ⟨Sample.outer, Sample.other⟩),
    .nest Sample.outer (Sample.task Sample.inner Sample.first Sample.last),
    .links (.create ⟨Sample.other, Sample.inner⟩),
    .move Sample.other (some Sample.outer),
    .reschedule]

theorem run_stays_acyclic_sample : ∃ start, ofSettings { weekends := [] } = .ok start ∧
    (start.run Edit.sample).outline.nested Sample.outer = [Sample.inner] ∧
    (start.run Edit.sample).network.contains ⟨Sample.outer, Sample.other⟩ = true ∧
    Acyclic (Precedes (start.run Edit.sample).hierarchy (start.run Edit.sample).network) ∧
    ¬ (start.run Edit.sample).hierarchy.Inside Sample.other Sample.outer := by
  refine ⟨_, rfl, by decide, by decide, ?_⟩
  obtain ⟨acyclic, apart⟩ := run_stays_acyclic (show ofSettings { weekends := [] } = .ok _ from rfl)
    Edit.sample
  obtain ⟨-, -, -, -, outside⟩ := apart ⟨Sample.outer, Sample.other⟩ (by decide)
  exact ⟨acyclic, outside⟩

end Workplan.Project
