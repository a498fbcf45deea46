/-
# Workplan.Hierarchy — which tasks contain which

Links are checked against a hierarchy without regard to where it comes from: it knows some tasks,
and tells for each its container and the tasks nested directly in it. Both ways are followed step
by step, at most once for every task of the hierarchy, so a walk always ends.

* `ancestors` climbs from container to container; `descendants` lists whatever is nested below,
  each task followed by its own descendants.
* `related` — one of the two tasks is or contains the other.
-/
import Workplan.TaskId

namespace Workplan

set_option autoImplicit false

/-- A containment order on tasks. -/
structure Hierarchy where
  /-- The tasks that take part in it. -/
  tasks : List TaskId
  knows : TaskId → Bool
  container : TaskId → Option TaskId
  nested : TaskId → List TaskId

namespace Hierarchy

/-- Every task is known and stands alone. -/
def flat : Hierarchy where
  tasks := []
  knows _ := true
  container _ := none
  nested _ := []

def climb (h : Hierarchy) : Nat → TaskId → List TaskId
  | 0, _ => []
  | steps + 1, task =>
    match h.container task with
    | none => []
    | some parent => parent :: h.climb steps parent

/-- The containers of a task, from the innermost outwards. -/
def ancestors (h : Hierarchy) (task : TaskId) : List TaskId :=
  h.climb h.tasks.length task

def descend (h : Hierarchy) : Nat → TaskId → List TaskId
  | 0, _ => []
  | steps + 1, task => (h.nested task).flatMap fun child => child :: h.descend steps child

/-- Everything nested in a task at any depth; each task comes right before what it contains. -/
def descendants (h : Hierarchy) (task : TaskId) : List TaskId :=
  h.descend h.tasks.length task

/-- Whether the first task contains the second, directly or through others. -/
def isAncestor (h : Hierarchy) (ancestor task : TaskId) : Bool :=
  (h.ancestors task).contains ancestor

/-- Whether the tasks are the same or one contains the other. -/
def related (h : Hierarchy) (a b : TaskId) : Bool :=
  a = b || h.isAncestor a b || h.isAncestor b a

/-- How deep a task is nested; a task on its own has depth 1. -/
def depth (h : Hierarchy) (task : TaskId) : Nat :=
  (h.ancestors task).length + 1

theorem related_self (h : Hierarchy) (task : TaskId) : h.related task task = true := by
  simp [related]

theorem related_comm (h : Hierarchy) (a b : TaskId) : h.related a b = h.related b a := by
  simp only [related, Bool.or_assoc, eq_comm (a := a) (b := b)]
  rw [Bool.or_comm (h.isAncestor a b)]

end Hierarchy

end Workplan
