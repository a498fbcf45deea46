/-
# Workplan.Project — a plan that knows when its dates are out of date

A project holds an outline, the links on it, a working week and settings. Every edit that can touch
the dates marks the schedule as stale, and rescheduling, if it is on, does nothing unless it is.
Links are edited through `editLinks`; it goes by the changes that the edit tells.

* `move` takes a move back that would put the flow of the plan into a cycle.
* `setPredecessors` replaces all links on which a task waits; the text is read whole before any
  link is touched.
-/
import Workplan.Critical
import Workplan.Predecessor
import Workplan.Schedule
import Workplan.Settings

namespace Workplan

set_option autoImplicit false

/-- Why a project refuses an edit or cannot compute its dates. -/
inductive ProjectError where
  | outline (reason : OutlineError)
  | link (reason : LinkError)
  | predecessor (reason : PredecessorError)
  | schedule (reason : ScheduleError)
  | term (reason : TermError)
  | moveClosesLoop (task : TaskId)
  deriving DecidableEq

def ProjectError.message : ProjectError → String
  | outline reason => reason.message
  | link reason => reason.message
  | predecessor reason => reason.message
  | schedule reason => reason.message
  | term reason => reason.message
  | moveClosesLoop task => s!"Moving task {task} would create a dependency loop"

structure Project where
  settings : Settings
  outline : Outline
  week : WorkWeek
  network : Network
  enabled : Bool
  stale : Bool := false

namespace Project

/-- An empty project. -/
def ofSettings (settings : Settings) : Except SettingsError Project :=
  settings.week.map fun week =>
    { settings, outline := .empty, week, network := .empty settings.defaults,
      enabled := settings.enabled }

/-- An empty project with the settings stored at a place. -/
def ofPlace (place : Place) : Except StoreError Project :=
  match Settings.load place with
  | .error reason => .error reason
  | .ok settings => (ofSettings settings).mapError .invalid

def calendar (p : Project) : Calendar := p.week.calendar

def hierarchy (p : Project) : Hierarchy := p.outline.hierarchy

/-! ## Links -/

/-- Edits the links; the schedule is stale after any change. -/
def editLinks {α : Type} (p : Project) (edit : Hierarchy → Network → Edited Network α) :
    Edited Project α :=
  let edited := edit p.hierarchy p.network
  ⟨edited.answer, { p with network := edited.state, stale := p.stale || !edited.changes.isEmpty },
    edited.changes⟩

/-- Removes all links. -/
def clearLinks (p : Project) : Project :=
  { p with network := p.network.clear.state, stale := true }

/-- Removes the links of a task; the task stays. -/
def detach (p : Project) (task : TaskId) : Edited Project (List Link) :=
  p.editLinks fun _ net => net.detach task

/-- The predecessors of a task as a text. -/
def formatPredecessors (p : Project) (task : TaskId) (separator : List Char) : List Char :=
  Predecessor.format p.network task separator

/-- Replaces the predecessors of a task by those in a text; where a link is refused, the old ones
are gone and those before it stay. -/
def setPredecessors (p : Project) (task : TaskId) (text separator : List Char) :
    Edited Project (Except ProjectError (List Link)) :=
  match Predecessor.parseAll text separator with
  | .error reason => ⟨.error (.predecessor reason), p, []⟩
  | .ok predecessors =>
    (p.editLinks fun h net =>
      (net.removeAll ((net.asDependant task).map Link.key)).andThen fun _ net =>
        Predecessor.apply h net task predecessors).map fun answer =>
          answer.mapError .predecessor

/-- The records of all links. -/
def records (p : Project) : List Record := Record.ofNetwork p.network

/-- Makes the links that records tell, as one batch. -/
def loadRecords (p : Project) (records : List Record) :
    Edited Project (Except ProjectError CommitReport) :=
  (p.editLinks fun h net => Record.restore h net records).map fun answer =>
    answer.mapError .term

/-! ## Tasks -/

/-- Takes a new outline and marks the schedule as stale, unless the outline was refused. -/
def withOutline (p : Project) (edited : Except OutlineError Outline) :
    Except ProjectError Project :=
  match edited with
  | .error reason => .error (.outline reason)
  | .ok outline => .ok { p with outline, stale := true }

def add (p : Project) (task : Task) : Except ProjectError Project :=
  p.withOutline (p.outline.add task)

def nest (p : Project) (parent : TaskId) (task : Task) : Except ProjectError Project :=
  p.withOutline (p.outline.nest parent task)

def setDates (p : Project) (task : TaskId) (start finish : Date) : Except ProjectError Project :=
  p.withOutline (p.outline.setDates task start finish)

/-- Moves a task under a new container. A move that closes a loop is refused and taken back, which
puts the task last in its old container. -/
def move (p : Project) (task : TaskId) (target : Option TaskId) :
    Project × Except ProjectError Unit :=
  let old := p.outline.container task
  match p.outline.move task target with
  | .error reason => (p, .error (.outline reason))
  | .ok moved =>
    match (Flow.ofPlan moved p.network).order with
    | .ok _ => ({ p with outline := moved, stale := true }, .ok ())
    | .error _ =>
      match moved.move task old with
      | .error reason => ({ p with outline := moved }, .error (.outline reason))
      | .ok restored => ({ p with outline := restored }, .error (.moveClosesLoop task))

/-! ## Dates -/

/-- A pass over the plan, if rescheduling is on and the schedule is stale. -/
def reschedule (p : Project) : Project × Except ProjectError ScheduleReport :=
  if !p.enabled || !p.stale then (p, .ok {})
  else
    match Schedule.run p.enabled p.outline p.network p.calendar with
    | (outline, .error reason) => ({ p with outline }, .error (.schedule reason))
    | (outline, .ok report) => ({ p with outline, stale := false }, .ok report)

/-- Fits the containers of the given tasks to their subtasks. -/
def fitBounds (p : Project) (tasks : List TaskId) : Project × Except ProjectError (List TaskId) :=
  match Bounds.fit p.outline tasks with
  | (outline, .error reason) => ({ p with outline }, .error (.schedule (.outline reason)))
  | (outline, .ok changed) =>
    ({ p with outline, stale := p.stale || !changed.isEmpty }, .ok changed)

/-- The critical path of the dates as they are. -/
def criticalPath (p : Project) : Except ProjectError CriticalPath :=
  (CriticalPath.compute p.outline p.network p.calendar).mapError .schedule

/-- Turns rescheduling on or off. -/
def enable (p : Project) (on : Bool) : Project := { p with enabled := on }

end Project

end Workplan
