/-
# Workplan.Task — units of work and the dates they take

A span starts on a day and ends before a day. It may be empty, and its length is counted in working
days, never below zero. A task takes the days from its start up to its finish. A milestone marks its
start and takes no time, whatever its finish. Moving a task keeps its length in working days.
-/
import Workplan.Calendar
import Workplan.TaskId

namespace Workplan

set_option autoImplicit false

/-- From the start up to, and without, the finish. -/
structure Span where
  start : Date
  finish : Date
  deriving DecidableEq

namespace Span

def isEmpty (span : Span) : Bool := span.finish ≤ span.start

/-- The number of working days in the span. -/
def length (span : Span) (cal : Calendar) : Int :=
  max (cal.between span.start span.finish) 0

theorem length_nonneg (span : Span) (cal : Calendar) : 0 ≤ span.length cal :=
  Int.le_max_right _ _

theorem length_of_isEmpty {span : Span} (cal : Calendar) (empty : span.isEmpty = true) :
    span.length cal = 0 := by
  have reversed : span.finish ≤ span.start := of_decide_eq_true empty
  rw [Date.le_iff] at reversed
  unfold length Calendar.between
  split
  · rename_i ordered
    rw [Date.le_iff] at ordered
    have none : (span.finish.day - span.start.day).toNat = 0 := by omega
    rw [none]
    rfl
  · omega

end Span

structure Task where
  id : TaskId
  name : String
  start : Date
  finish : Date
  milestone : Bool := false
  /-- The date before which the task is never scheduled. -/
  earliestStart : Option Date := none
  deriving DecidableEq

namespace Task

/-- A milestone at the given date. -/
def milestoneAt (id : TaskId) (name : String) (date : Date) : Task :=
  { id, name, start := date, finish := date, milestone := true }

/-- The span that counts for links; a milestone has only its start. -/
def span (task : Task) : Span :=
  if task.milestone then ⟨task.start, task.start⟩ else ⟨task.start, task.finish⟩

/-- Moves the task to a new start and keeps its length in working days. -/
def shiftTo (task : Task) (start : Date) (cal : Calendar) : Task :=
  { task with
    start
    finish := if task.milestone then start else cal.shift start (task.span.length cal) }

def withDates (task : Task) (start finish : Date) : Task :=
  { task with start, finish }

end Task

end Workplan
