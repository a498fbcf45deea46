/-
# Workplan.Critical — how late a task can be

Going back through the flow from the end of the plan, every task gets the latest dates with which
the plan still ends in time: it finishes by the end of the plan, by the latest finish of its
container, and early enough for each link on it. A task that cannot start later than it does is
critical.
-/
import Workplan.Bounds
import Workplan.Flow.Order

namespace Workplan

set_option autoImplicit false

/-- The latest dates a task can have. -/
structure LatestDates where
  start : Date
  finish : Date
  deriving DecidableEq

structure CriticalPath where
  /-- The latest dates, those of the last tasks of the plan first. -/
  latest : List (TaskId × LatestDates) := []
  critical : List TaskId := []
  /-- Whether a lag was negated that has no opposite; a program that checks its arithmetic stops there
  and tells no critical path. -/
  overflows : Bool := false
  deriving DecidableEq

namespace CriticalPath

def latest? (path : CriticalPath) (task : TaskId) : Option LatestDates :=
  path.latest.lookup task

def isCritical (path : CriticalPath) (task : TaskId) : Bool :=
  path.critical.contains task

/-- The latest finish that an arc allows its source, if its target has latest dates. -/
def arcLimit? (o : Outline) (cal : Calendar) (path : CriticalPath) (arc : Arc) : Option Date := do
  let link ← arc.link?
  let dependant ← path.latest? arc.target
  let collision ← link.backward? dependant.start o.span? cal
  return collision.acceptable

/-- Whether looking back along an arc negates a lag that has no opposite. -/
def arcOverflows (o : Outline) (cal : Calendar) (path : CriticalPath) (arc : Arc) : Bool :=
  arc.link?.any (fun link => link.lag = .least) && (arcLimit? o cal path arc).isSome

/-- The latest finish of a task, once the tasks it leads to have their latest dates. -/
def latestFinish (flow : Flow) (o : Outline) (cal : Calendar) (planEnd : Date)
    (path : CriticalPath) (task : TaskId) : Date :=
  let limits := (flow.outgoing task).filterMap (arcLimit? o cal path)
  let container := ((o.container task).bind path.latest?).map LatestDates.finish
  (limits ++ container.toList).foldl min planEnd

/-- Adds the latest dates of a task. -/
def step (flow : Flow) (o : Outline) (cal : Calendar) (planEnd : Date) (path : CriticalPath)
    (id : TaskId) : CriticalPath :=
  match o.task? id with
  | none => path
  | some task =>
    let finish := latestFinish flow o cal planEnd path id
    let start := cal.shift finish (-task.span.length cal)
    { latest := path.latest ++ [(id, ⟨start, finish⟩)]
      critical := if start = task.start then path.critical ++ [id] else path.critical
      overflows := path.overflows || (flow.outgoing id).any (arcOverflows o cal path) }

/-- The latest dates of all tasks, and the critical tasks by number. -/
def compute (o : Outline) (net : Network) (cal : Calendar) : Except ScheduleError CriticalPath :=
  match o.finish? with
  | none => .ok {}
  | some planEnd =>
    let flow := Flow.ofPlan o net
    match flow.order with
    | .error reason => .error reason
    | .ok order =>
      let path := order.reverse.foldl (step flow o cal planEnd) {}
      .ok { path with critical := (TaskSet.ofList path.critical).entries }

end CriticalPath

end Workplan
