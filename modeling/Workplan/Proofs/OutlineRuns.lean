/-
# Workplan.Proofs.OutlineRuns — an outline through all its edits

`Edit` lists what may be asked of an outline. A refused edit leaves it as it is; a run is one edit after
another, starting with no task at all.

* `isForest_edited` — an edit that is made keeps the outline a forest;
* `isForest_run` — and so does a run, whatever is refused on the way;
* `run_isTraversable` — so containers and nested tasks always agree, every walk along them ends, and
  the walk down lists all that lies in a task in order.
-/
import Workplan.Proofs.Admission
import Workplan.Proofs.ForestWalks
import Workplan.Proofs.Redating

namespace Workplan.Outline

set_option autoImplicit false

/-- What is asked of an outline. -/
inductive Edit where
  | add (task : Task)
  | nest (parent : TaskId) (task : Task)
  | move (id : TaskId) (target : Option TaskId)
  | setDates (id : TaskId) (start finish : Date)
  | setStart (id : TaskId) (start : Date)
  | setFinish (id : TaskId) (finish : Date)
  | shift (id : TaskId) (start : Date) (cal : Calendar)

/-- The outline with the edit, unless it is refused. -/
def edited (o : Outline) : Edit → Except OutlineError Outline
  | .add task => o.add task
  | .nest parent task => o.nest parent task
  | .move id target => o.move id target
  | .setDates id start finish => o.setDates id start finish
  | .setStart id start => o.setStart id start
  | .setFinish id finish => o.setFinish id finish
  | .shift id start cal => o.shift id start cal

/-- The outline after an edit, refused or not. -/
def apply (o : Outline) (edit : Edit) : Outline :=
  match o.edited edit with
  | .ok after => after
  | .error _ => o

/-- The outline after edits in order. -/
def run (o : Outline) (edits : List Edit) : Outline :=
  edits.foldl apply o

variable {o after : Outline}

theorem hierarchy_setStart {id : TaskId} {start : Date} (done : o.setStart id start = .ok after) :
    after.hierarchy = o.hierarchy := by
  unfold setStart at done
  split at done
  · cases done
    exact hierarchy_updateTask ..
  · contradiction

theorem hierarchy_setFinish {id : TaskId} {finish : Date}
    (done : o.setFinish id finish = .ok after) : after.hierarchy = o.hierarchy := by
  unfold setFinish at done
  split at done
  · contradiction
  · split at done
    · contradiction
    · cases done
      exact hierarchy_updateTask ..

theorem isForest_edited (forest : o.hierarchy.IsForest) {edit : Edit}
    (done : o.edited edit = .ok after) : after.hierarchy.IsForest := by
  cases edit with
  | add task => exact isForest_add forest done
  | nest parent task => exact isForest_nest forest done
  | move id target => exact isForest_move forest done
  | setDates id start finish => exact (redatedOn_setDates done).hierarchy ▸ forest
  | setStart id start => exact hierarchy_setStart done ▸ forest
  | setFinish id finish => exact hierarchy_setFinish done ▸ forest
  | shift id start cal => exact (redatedOn_shift done).hierarchy ▸ forest

theorem isForest_apply (forest : o.hierarchy.IsForest) (edit : Edit) :
    (o.apply edit).hierarchy.IsForest := by
  unfold apply
  split
  · rename_i done
    exact isForest_edited forest done
  · exact forest

theorem isForest_run (forest : o.hierarchy.IsForest) (edits : List Edit) :
    (o.run edits).hierarchy.IsForest := by
  induction edits generalizing o with
  | nil => exact forest
  | cons edit rest ih => exact ih (isForest_apply forest edit)

/-- Whatever tasks are added, nested, moved and given new dates, and whatever of it is refused: no task
ever lies in itself, containers and nested tasks name known tasks and agree, and the walks up and down
end with what they ought to list. -/
theorem run_isTraversable (edits : List Edit) : (empty.run edits).hierarchy.IsTraversable :=
  (isForest_run isForest_empty edits).isTraversable

/-- A container is moved into another one, where another task lies already, and the one that it holds
goes with it; moving the outer one into it is refused. -/
example :
    let o := empty.run [
      .add (Sample.task Sample.outer Sample.first Sample.last),
      .nest Sample.outer (Sample.task Sample.other Sample.first Sample.last),
      .add (Sample.task Sample.inner Sample.first Sample.last),
      .nest Sample.inner (Sample.task Sample.innermost Sample.first Sample.last),
      .move Sample.inner (some Sample.outer), .move Sample.outer (some Sample.innermost)]
    o.hierarchy.descendants Sample.outer = [Sample.other, Sample.inner, Sample.innermost] ∧
      o.hierarchy.ancestors Sample.innermost = [Sample.inner, Sample.outer] := by
  decide

end Workplan.Outline
