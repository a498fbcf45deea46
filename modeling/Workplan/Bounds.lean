/-
# Workplan.Bounds — containers and the dates of their subtasks

`fit` stretches or shrinks the containers of changed tasks to the dates of their direct subtasks,
in rounds: a container that changes puts its own container into the next round, and each round
takes its containers by number. `pullIn` goes the other way and moves the subtasks that stick out
of a container back into it.
-/
import Workplan.Outline

namespace Workplan

set_option autoImplicit false

/-- Tasks by number, each once. -/
abbrev TaskSet := Catalog fun task : TaskId => task

def TaskSet.ofList (tasks : List TaskId) : TaskSet :=
  tasks.foldl Catalog.insert .empty

theorem TaskSet.mem_ofList {tasks : List TaskId} {id : TaskId} :
    id ∈ (TaskSet.ofList tasks).entries ↔ id ∈ tasks := by
  have insertAll : ∀ set : TaskSet,
      id ∈ tasks.foldl Catalog.insert set ↔ id ∈ set ∨ id ∈ tasks := by
    induction tasks with
    | nil => simp
    | cons task rest ih =>
      intro set
      rw [List.foldl_cons, ih, Catalog.mem_insert, List.mem_cons]
      by_cases same : id = task
      · simp [same]
      · simp [same]
  rw [← Catalog.mem_def, TaskSet.ofList, insertAll]
  simp [Catalog.not_mem_empty]

namespace Bounds

/-- The first start and the last finish of the direct subtasks. -/
def spanOfNested? (o : Outline) (container : TaskId) : Option (Date × Date) :=
  let children := (o.nested container).filterMap o.task?
  match (children.map Task.start).min?, (children.map Task.finish).max? with
  | some first, some last => some (first, last)
  | _, _ => none

/-- Sets the dates of a container to those of its subtasks; no outline means that they are the
dates it has. -/
def refit? (o : Outline) (container : TaskId) : Except OutlineError (Option Outline) :=
  match spanOfNested? o container, o.task? container with
  | some (first, last), some task =>
    if task.start = first ∧ task.finish = last then .ok none
    else (o.setDates container first last).map some
  | _, _ => .ok none

/-- One round; the answer lists the containers that changed. -/
def fitRound : List TaskId → Outline → Outline × Except OutlineError (List TaskId)
  | [], o => (o, .ok [])
  | container :: rest, o =>
    match refit? o container with
    | .error reason => (o, .error reason)
    | .ok none => fitRound rest o
    | .ok (some fitted) =>
      let (last, changed) := fitRound rest fitted
      (last, changed.map (container :: ·))

/-- Rounds until nothing changes. A round is one step up the outline from the round before, so
there are at most as many as tasks. -/
def fitRounds : Nat → TaskSet → Outline → Outline × Except OutlineError (List TaskId)
  | 0, _, o => (o, .ok [])
  | rounds + 1, level, o =>
    if level.entries = [] then (o, .ok [])
    else
      match fitRound level.entries o with
      | (fitted, .error reason) => (fitted, .error reason)
      | (fitted, .ok changed) =>
        let (last, later) := fitRounds rounds (.ofList (changed.filterMap fitted.container)) fitted
        (last, later.map (changed ++ ·))

/-- Fits the containers of the given tasks, then those of the containers that changed, and so on;
the answer lists the containers in the order of their changes. -/
def fit (o : Outline) (tasks : List TaskId) : Outline × Except OutlineError (List TaskId) :=
  fitRounds (o.size + 1) (.ofList (tasks.filterMap o.container)) o

/-- Where a subtask has to start to lie between two dates: not before the first, and early enough to
end by the second if the first allows it. -/
def pulledStart (task : Task) (first last : Date) (cal : Calendar) : Date :=
  let start := max task.start first
  if last < task.finish then max (cal.shift start (-cal.between last task.finish)) first
  else start

/-- Pulls subtasks between two dates; the answer lists those that moved. -/
def pullAll (first last : Date) (cal : Calendar) :
    List TaskId → Outline → Outline × Except OutlineError (List TaskId)
  | [], o => (o, .ok [])
  | id :: rest, o =>
    match o.task? id with
    | none => pullAll first last cal rest o
    | some task =>
      let start := pulledStart task first last cal
      if start = task.start then pullAll first last cal rest o
      else
        match o.shift id start cal with
        | .error reason => (o, .error reason)
        | .ok shifted =>
          let (final, moved) := pullAll first last cal rest shifted
          (final, moved.map (id :: ·))

/-- The direct subtasks by their start; those that start together keep their order. -/
def nestedByStart (o : Outline) (container : TaskId) : List TaskId :=
  (((o.nested container).filterMap o.task?).mergeSort fun a b => a.start ≤ b.start).map Task.id

/-- Moves the direct subtasks that stick out of a container back inside, keeping their lengths,
and fits the containers of those that moved; the answer lists them. -/
def pullIn (o : Outline) (container : TaskId) (cal : Calendar) :
    Outline × Except OutlineError (List TaskId) :=
  match o.task? container with
  | none => (o, .ok [])
  | some task =>
    match pullAll task.start task.finish cal (nestedByStart o container) o with
    | (pulled, .error reason) => (pulled, .error reason)
    | (pulled, .ok moved) =>
      let (fitted, changed) := fit pulled moved
      (fitted, changed.map fun _ => moved)

end Bounds

end Workplan
