/-
# Workplan.Schedule — one pass of dates over a plan

A pass goes through the layers of the flow and gives every task a start. Each arc into the task
leaves a window to its start:

* a link that is strong, or that the task violates, pins the start to its acceptable date;
* a rubber link that is kept, and an inherited link, only keep the start from coming earlier;
* subtasks confine a container to the dates they take;
* the earliest start of the task is a bound of its own.

A task whose windows leave no date is skipped. A task without subtasks keeps its length in working
days, a container takes its dates from its subtasks.
-/
import Workplan.Flow.Order
import Workplan.Window

namespace Workplan

set_option autoImplicit false

/-- What a pass has done to a task. -/
inductive Outcome where
  | unchanged | modified | skipped
  deriving DecidableEq

/-- The tasks that a pass gave new dates and those it had to leave alone, in its order. -/
structure ScheduleReport where
  modified : List TaskId := []
  skipped : List TaskId := []
  deriving DecidableEq

def ScheduleReport.note (report : ScheduleReport) (task : TaskId) : Outcome → ScheduleReport
  | .unchanged => report
  | .modified => { report with modified := report.modified ++ [task] }
  | .skipped => { report with skipped := report.skipped ++ [task] }

/-- The windows that the arcs into a task leave to its start, `none` if they exclude each other,
and the dates of its subtasks. -/
structure Demands where
  strong : Option Window := some .all
  weak : Option Window := some .all
  subtaskDates : List Date := []

namespace Schedule

/-- The window that a link leaves to the start of its dependant, by the way in which it would have to
move: nothing before the first working day on which the start is acceptable, nothing after the last
one, or the acceptable date alone. -/
def linkWindow (collision : Collision) (cal : Calendar) : Window :=
  match collision.move with
  | .later => .atLeast (cal.closestFrom collision.acceptable)
  | .earlier => .atMost (cal.closestTo collision.acceptable)
  | .stay => .between collision.acceptable collision.acceptable

/-- Links are tested where the dependant stands, which never asks it to start earlier. -/
theorem linkWindow_forward? {link : Link} {span? : TaskId → Option Span} {cal : Calendar}
    {collision : Collision} (tested : link.forward? span? cal = some collision) :
    linkWindow collision cal = .atLeast (cal.closestFrom collision.acceptable) := by
  obtain ⟨binding, -, rfl⟩ := Option.map_eq_some_iff.mp tested
  rfl

/-- Whether a link only keeps its dependant from starting earlier: it is rubber, and kept. -/
def isWeak (link : Link) (collision : Collision) : Bool :=
  link.hardness = .rubber && !collision.active

/-- Adds what an arc into a task demands. -/
def demand (o : Outline) (cal : Calendar) (task : TaskId) (d : Demands) (arc : Arc) : Demands :=
  match arc.cause with
  | .containment =>
    match o.task? arc.source with
    | none => d
    | some child => { d with subtaskDates := d.subtaskDates ++ [child.start, child.finish] }
  | .explicit link =>
    match link.forward? o.span? cal with
    | none => d
    | some collision =>
      let window := linkWindow collision cal
      if isWeak link collision then { d with weak := d.weak.bind (·.intersect window) }
      else { d with strong := d.strong.bind (·.intersect window) }
  | .inherited link =>
    match (link.retarget task).forward? o.span? cal with
    | none => d
    | some collision =>
      { d with weak := d.weak.bind (·.intersect (linkWindow collision cal)) }

/-- All that the arcs into a task demand. -/
def demands (flow : Flow) (o : Outline) (cal : Calendar) (task : TaskId) : Demands :=
  (flow.incoming task).foldl (demand o cal task) {}

/-- The dates that the subtasks of a task take, or else the task itself. -/
def covered (d : Demands) (task : Task) : Date × Date :=
  match d.subtaskDates.min?, d.subtaskDates.max? with
  | some first, some last => (first, last)
  | _, _ => (task.start, task.finish)

/-- The window that strong and weak demands leave together; weak ones alone never let a task start
earlier than it, or a subtask of it, does. -/
def linked (strong weak : Window) (floor : Date) : Option Window :=
  if !strong.isAll then strong.intersect weak
  else if !weak.isAll then weak.intersect (.atLeast floor)
  else some .all

/-- The window that remains for the start of a task. -/
def startWindow (d : Demands) (task : Task) : Option Window := do
  let span := covered d task
  let strong ← d.strong
  let weak ← d.weak
  let start ← linked strong weak (min span.1 task.start)
  let start ←
    match task.earliestStart with
    | none => some start
    | some earliest => start.intersect (.atLeast earliest)
  if d.subtaskDates = [] then some start else start.intersect (.between span.1 span.2)

/-- Gives a container its start from the window and its finish from its subtasks. -/
def placeContainer (o : Outline) (task : Task) (start : Window) (finish : Option Date) :
    Except OutlineError (Outline × Outcome) :=
  let newStart := start.lower.getD task.start
  let newFinish := max (finish.getD task.finish) newStart
  if newStart = task.start ∧ newFinish = task.finish then .ok (o, .unchanged)
  else (o.setDates task.id newStart newFinish).map (·, .modified)

/-- Moves a task without subtasks to the start of the window. -/
def placeLeaf (o : Outline) (cal : Calendar) (task : Task) (start : Window) :
    Except OutlineError (Outline × Outcome) :=
  match start.lower with
  | none => .ok (o, .unchanged)
  | some newStart =>
    if newStart = task.start then .ok (o, .unchanged)
    else (o.shift task.id newStart cal).map (·, .modified)

/-- Places one task by the dates that the others have now. -/
def placeTask (flow : Flow) (cal : Calendar) (o : Outline) (id : TaskId) :
    Except OutlineError (Outline × Outcome) :=
  match o.task? id with
  | none => .ok (o, .unchanged)
  | some task =>
    let d := demands flow o cal id
    match startWindow d task with
    | none => .ok (o, .skipped)
    | some start =>
      if (o.nested id).isEmpty then placeLeaf o cal task start
      else
        placeContainer o task start
          (if d.subtaskDates = [] then none else some (covered d task).2)

/-- Places tasks one after another; what has been placed before an error stays. -/
def placeAll (flow : Flow) (cal : Calendar) :
    List TaskId → Outline → ScheduleReport → Outline × Except ScheduleError ScheduleReport
  | [], o, report => (o, .ok report)
  | id :: rest, o, report =>
    match placeTask flow cal o id with
    | .error reason => (o, .error (.outline reason))
    | .ok (placed, outcome) => placeAll flow cal rest placed (report.note id outcome)

/-- One pass over all tasks, layer by layer. -/
def pass (o : Outline) (net : Network) (cal : Calendar) :
    Outline × Except ScheduleError ScheduleReport :=
  let flow := Flow.ofPlan o net
  match flow.layers with
  | .error reason => (o, .error reason)
  | .ok layers => placeAll flow cal layers.flatten o {}

/-- A pass if scheduling is enabled; otherwise nothing changes. -/
def run (enabled : Bool) (o : Outline) (net : Network) (cal : Calendar) :
    Outline × Except ScheduleError ScheduleReport :=
  if enabled then pass o net cal else (o, .ok {})

theorem run_disabled (o : Outline) (net : Network) (cal : Calendar) :
    run false o net cal = (o, .ok {}) := rfl

end Schedule

end Workplan
