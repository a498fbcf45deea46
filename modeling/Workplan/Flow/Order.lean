/-
# Workplan.Flow.Order — tasks in the order of their arcs

The order comes from a depth-first search: tasks are taken in the order of the flow, and a task is
put in front of the tasks sorted so far once everything it leads to is. If a task then still comes
before one that leads to it, there is a cycle, and the error names a task of it. Layers group the
order by the length of the longest way into a task.
-/
import Workplan.Flow

namespace Workplan

set_option autoImplicit false

/-- Why a plan cannot be computed. -/
inductive ScheduleError where
  | cycle (task : TaskId)
  | outline (reason : OutlineError)
  deriving DecidableEq

def ScheduleError.message : ScheduleError → String
  | cycle task => s!"Scheduling graph contains a cycle through task {task}"
  | outline reason => reason.message

/-- The tasks not yet seen by a search, and those it is done with, the latest first. -/
structure Sweep where
  unseen : List TaskId
  sorted : List TaskId := []

namespace Flow

/-- Sorts a task in after all tasks it leads to; a task that leads to itself stops the search. -/
def finish (flow : Flow) : Nat → TaskId → Sweep → Except TaskId Sweep
  | 0, _, sweep => .ok sweep
  | depth + 1, task, sweep =>
    if task ∈ sweep.unseen then
      let next := flow.successors task
      if task ∈ next then .error task
      else
        match next.reverse.foldlM (fun sweep task => flow.finish depth task sweep)
            { sweep with unseen := sweep.unseen.filter (· ≠ task) } with
        | .error cyclic => .error cyclic
        | .ok inner => .ok { inner with sorted := task :: inner.sorted }
    else .ok sweep

/-- The tasks as the search sorts them. -/
def sortedTasks (flow : Flow) : Except TaskId (List TaskId) :=
  match flow.tasks.foldlM (fun sweep task => flow.finish flow.tasks.length task sweep)
      { unseen := flow.tasks } with
  | .error cyclic => .error cyclic
  | .ok sweep => .ok sweep.sorted

/-- The first task of a list that comes before a task leading to it, shown by that task. -/
def lateSource? (flow : Flow) : List TaskId → List TaskId → Option TaskId
  | _, [] => none
  | before, task :: rest =>
    match ((flow.sources task).filter fun source => source ≠ task && source ∉ before).getLast? with
    | some late => some late
    | none => flow.lateSource? (task :: before) rest

/-- All tasks, each after every task that leads to it. -/
def order (flow : Flow) : Except ScheduleError (List TaskId) :=
  match flow.sortedTasks with
  | .error cyclic => .error (.cycle cyclic)
  | .ok sorted =>
    match flow.lateSource? [] sorted with
    | some late => .error (.cycle late)
    | none => .ok sorted

/-- One more than the highest known level of a task that leads to the given one. -/
def levelAfter (flow : Flow) (known : List (TaskId × Nat)) (task : TaskId) : Nat :=
  ((flow.sources task).filterMap fun source => (known.lookup source).map (· + 1)).foldl max 0

/-- The level of each task, in a list where a task comes after all that lead to it. -/
def levels (flow : Flow) : List TaskId → List (TaskId × Nat) → List (TaskId × Nat)
  | [], known => known
  | task :: rest, known => flow.levels rest (known ++ [(task, flow.levelAfter known task)])

/-- The tasks by level, from the lowest; within a level they keep their order. -/
def layers (flow : Flow) : Except ScheduleError (List (List TaskId)) :=
  match flow.order with
  | .error reason => .error reason
  | .ok sorted =>
    let known := flow.levels sorted []
    let height := (known.map fun entry => entry.2 + 1).foldl max 0
    .ok ((List.range height).map fun level =>
      (known.filter fun entry => entry.2 = level).map Prod.fst)

end Flow

end Workplan
