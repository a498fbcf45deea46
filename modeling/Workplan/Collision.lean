/-
# Workplan.Collision — testing a tie between two spans

Looking forward, the dependee stands and the dependant must not come too early: its boundary has to
reach the barrier, which is the dependee's boundary moved by the lag. Looking back, the dependant
stands and the dependee must not end too late.
-/
import Workplan.Lag
import Workplan.Relation

namespace Workplan

set_option autoImplicit false

/-- The direction in which a collision asks a task to move, if in any. -/
inductive Direction where
  | earlier | stay | later
  deriving DecidableEq

/-- As a step on the line of time. -/
def Direction.sign : Direction → Int
  | earlier => -1
  | stay => 0
  | later => 1

/-- The outcome of a test: the date up to which, or from which, the task is acceptable, the way it
would have to move, and whether it has to. -/
structure Collision where
  acceptable : Date
  move : Direction
  active : Bool
  deriving DecidableEq

namespace Relation

/-- The date that the dependant's boundary has to reach. -/
def barrier (relation : Relation) (dependee : Span) (lag : Int) (cal : Calendar) : Date :=
  cal.shift (relation.dependeeDate dependee) lag

/-- Tests where the dependant stands; acceptable is the earliest start. -/
def forward (relation : Relation) (dependee dependant : Span) (lag : Int) (cal : Calendar) :
    Collision :=
  let barrier := relation.barrier dependee lag cal
  { acceptable :=
      if relation.bindsDependantFinish then cal.shift barrier (-dependant.length cal) else barrier
    move := .later
    active := relation.dependantDate dependant < barrier }

/-- The latest finish of the dependee if the dependant starts at the candidate date. The lag is taken
back in a word of 64 bits. -/
def latestFinish (relation : Relation) (dependee dependant : Span) (lag : Int) (candidate : Date)
    (cal : Calendar) : Date :=
  let bound :=
    if relation.bindsDependantFinish then cal.shift candidate (dependant.length cal) else candidate
  let reached := cal.shift bound (Lag.opposite lag)
  if relation.usesDependeeStart then cal.shift reached (dependee.length cal) else reached

/-- Tests where the dependee ends against a start of the dependant; acceptable is the latest
finish. -/
def backward (relation : Relation) (dependee dependant : Span) (lag : Int) (candidate : Date)
    (cal : Calendar) : Collision :=
  let latest := relation.latestFinish dependee dependant lag candidate cal
  { acceptable := latest
    move := .earlier
    active := latest < dependee.finish }

theorem forward_active_iff (relation : Relation) (dependee dependant : Span) (lag : Int)
    (cal : Calendar) : (relation.forward dependee dependant lag cal).active = true ↔
      relation.dependantDate dependant < relation.barrier dependee lag cal :=
  decide_eq_true_iff

end Relation

end Workplan
