/-
# Workplan.Outline — tasks nested in one another

An outline holds tasks by their numbers. Each task may lie in a container, and each keeps the list
of the tasks nested in it, in the order in which they came. The two tell the same story from both
ends: every edit changes them together.

* `add`, `nest` — a new task, at the top or last in a container.
* `move` — under another container or to the top, never into itself.
* `setDates`, `setStart`, `setFinish`, `shift` — new dates for one task.
-/
import Workplan.Catalog
import Workplan.Date.Text
import Workplan.Hierarchy
import Workplan.Task

namespace Workplan

set_option autoImplicit false

/-- A task with its place in the outline. -/
structure Node where
  task : Task
  container : Option TaskId := none
  nested : List TaskId := []
  deriving DecidableEq

def Node.id (node : Node) : TaskId := node.task.id

/-- Why an outline refuses an edit. -/
inductive OutlineError where
  | duplicate (task : TaskId)
  | notFound (task : TaskId)
  | moveInside (task target : TaskId)
  | reversedDates (task : TaskId) (start finish : Date)
  deriving DecidableEq

def OutlineError.message : OutlineError → String
  | duplicate task => s!"Task already exists: {task}"
  | notFound task => s!"Task not found: {task}"
  | moveInside task target =>
    s!"Cannot move task {task} under {target}: target is the task itself or one of its subtasks"
  | reversedDates task start finish =>
    s!"Invalid dates for task {task}: end {finish} is before start {start}"

structure Outline where
  nodes : Catalog Node.id

namespace Outline

def empty : Outline := ⟨.empty⟩

instance : Inhabited Outline := ⟨empty⟩

/-! ## Questions -/

def node? (o : Outline) (id : TaskId) : Option Node := o.nodes.find? id

def task? (o : Outline) (id : TaskId) : Option Task := (o.node? id).map Node.task

def contains (o : Outline) (id : TaskId) : Bool := o.nodes.contains id

/-- All tasks by number. -/
def tasks (o : Outline) : List Task := o.nodes.entries.map Node.task

def ids (o : Outline) : List TaskId := o.nodes.entries.map Node.id

def size (o : Outline) : Nat := o.nodes.size

def container (o : Outline) (id : TaskId) : Option TaskId := (o.node? id).bind Node.container

/-- The tasks directly in a task, in the order in which they came. -/
def nested (o : Outline) (id : TaskId) : List TaskId := ((o.node? id).map Node.nested).getD []

/-- The containment of the outline. -/
def hierarchy (o : Outline) : Hierarchy where
  tasks := o.ids
  knows := o.contains
  container := o.container
  nested := o.nested

/-- The tasks without a container. -/
def roots (o : Outline) : List TaskId :=
  (o.nodes.entries.filter fun node => node.container.isNone).map Node.id

/-- The span of a task that counts for links. -/
def span? (o : Outline) (id : TaskId) : Option Span := (o.task? id).map Task.span

/-- The earliest start of all tasks. -/
def start? (o : Outline) : Option Date := (o.tasks.map Task.start).min?

/-- The latest finish of all tasks. -/
def finish? (o : Outline) : Option Date := (o.tasks.map Task.finish).max?

/-! ## Edits -/

/-- Adds a task at the top. -/
def add (o : Outline) (task : Task) : Except OutlineError Outline :=
  if o.contains task.id then .error (.duplicate task.id)
  else if task.finish < task.start then .error (.reversedDates task.id task.start task.finish)
  else .ok ⟨o.nodes.insert { task }⟩

def updateTask (o : Outline) (id : TaskId) (f : Task → Task) (keeps : ∀ t, (f t).id = t.id) :
    Outline :=
  ⟨o.nodes.update id (fun node => { node with task := f node.task }) fun node => keeps node.task⟩

def setContainer (o : Outline) (id : TaskId) (container : Option TaskId) : Outline :=
  ⟨o.nodes.update id (fun node => { node with container }) fun _ => rfl⟩

def updateNested (o : Outline) (id : TaskId) (f : List TaskId → List TaskId) : Outline :=
  ⟨o.nodes.update id (fun node => { node with nested := f node.nested }) fun _ => rfl⟩

/-- Puts a task last in a container. -/
def attach (o : Outline) (id parent : TaskId) : Outline :=
  (o.setContainer id (some parent)).updateNested parent (· ++ [id])

/-- Takes a task out of its container. -/
def detach (o : Outline) (id : TaskId) : Outline :=
  match o.container id with
  | none => o
  | some parent => (o.updateNested parent fun nested => nested.filter (· ≠ id)).setContainer id none

/-- Adds a task in a container. -/
def nest (o : Outline) (parent : TaskId) (task : Task) : Except OutlineError Outline :=
  if o.contains parent then (o.add task).map fun added => added.attach task.id parent
  else .error (.notFound parent)

/-- Moves a task, with all that is nested in it, to the end of a container or to the top. -/
def move (o : Outline) (id : TaskId) (target : Option TaskId) : Except OutlineError Outline :=
  if !o.contains id then .error (.notFound id)
  else
    match target with
    | none => .ok (o.detach id)
    | some parent =>
      if !o.contains parent then .error (.notFound parent)
      else if parent = id || o.hierarchy.isAncestor id parent then .error (.moveInside id parent)
      else .ok ((o.detach id).attach id parent)

/-! ## Dates -/

/-- Sets both dates of a task. -/
def setDates (o : Outline) (id : TaskId) (start finish : Date) : Except OutlineError Outline :=
  if finish < start then .error (.reversedDates id start finish)
  else if o.contains id then .ok (o.updateTask id (·.withDates start finish) fun _ => rfl)
  else .error (.notFound id)

/-- Sets the start; the finish moves along if it would come before it. -/
def setStart (o : Outline) (id : TaskId) (start : Date) : Except OutlineError Outline :=
  if o.contains id then
    .ok (o.updateTask id (fun task => task.withDates start (max task.finish start)) fun _ => rfl)
  else .error (.notFound id)

/-- Sets the finish. -/
def setFinish (o : Outline) (id : TaskId) (finish : Date) : Except OutlineError Outline :=
  match o.task? id with
  | none => .error (.notFound id)
  | some task =>
    if finish < task.start then .error (.reversedDates id task.start finish)
    else .ok (o.updateTask id (fun task => task.withDates task.start finish) fun _ => rfl)

/-- Moves a task to a new start and keeps its length in working days. -/
def shift (o : Outline) (id : TaskId) (start : Date) (cal : Calendar) :
    Except OutlineError Outline :=
  if o.contains id then .ok (o.updateTask id (·.shiftTo start cal) fun _ => rfl)
  else .error (.notFound id)

end Outline

end Workplan
