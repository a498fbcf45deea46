/-
# Workplan.Flow — what has to be placed before what

The flow of a plan is a directed graph on its tasks. A link leads from its dependee to its
dependant, and again to every task nested in the dependant, which inherits it; and every task leads
to its container, whose dates come from what it contains. Tasks and arcs keep the order in which
they were added, parallel arcs stay apart, and the arcs at a task are listed latest first.

* `mem_arcs_ofPlan` — the arcs of a plan, each with its cause.
-/
import Workplan.Network
import Workplan.Outline

namespace Workplan

set_option autoImplicit false

/-- Why one task comes before another. -/
inductive Cause where
  | explicit (link : Link)
  /-- The link is one of a container of the target. -/
  | inherited (link : Link)
  /-- The target is the container of the source. -/
  | containment
  deriving DecidableEq

/-- The source has to be placed before the target. -/
structure Arc where
  source : TaskId
  target : TaskId
  cause : Cause
  deriving DecidableEq

/-- The link that an arc stands for, between its own two tasks. -/
def Arc.link? (arc : Arc) : Option Link :=
  match arc.cause with
  | .explicit link => some link
  | .inherited link => some (link.retarget arc.target)
  | .containment => none

structure Flow where
  tasks : List TaskId := []
  arcs : List Arc := []
  deriving DecidableEq

namespace Flow

def contains (flow : Flow) (task : TaskId) : Bool := flow.tasks.contains task

/-- Adds a task unless it is there. -/
def addTask (flow : Flow) (task : TaskId) : Flow :=
  if flow.contains task then flow else { flow with tasks := flow.tasks ++ [task] }

/-- The tasks alone, without arcs. -/
def ofTasks (tasks : List TaskId) : Flow := tasks.foldl addTask {}

/-- The arcs from each task to its container. -/
def containmentArcs (o : Outline) : List Arc :=
  o.ids.filterMap fun task => (o.container task).map fun parent => ⟨task, parent, .containment⟩

/-- The arc of a link and those that the tasks nested in its dependant inherit. -/
def linkArcs (o : Outline) (link : Link) : List Arc :=
  ⟨link.dependee, link.dependant, .explicit link⟩ ::
    (o.hierarchy.descendants link.dependant).map fun task =>
      ⟨link.dependee, task, .inherited link⟩

/-- The flow of an outline and the links on it; arcs at tasks outside the outline are left out. -/
def ofPlan (o : Outline) (net : Network) : Flow where
  tasks := o.ids
  arcs := (containmentArcs o ++ net.toList.flatMap (linkArcs o)).filter fun arc =>
    o.contains arc.source && o.contains arc.target

/-- The arcs into a task, the latest first. -/
def incoming (flow : Flow) (task : TaskId) : List Arc :=
  (flow.arcs.filter fun arc => arc.target = task).reverse

/-- The arcs out of a task, the latest first. -/
def outgoing (flow : Flow) (task : TaskId) : List Arc :=
  (flow.arcs.filter fun arc => arc.source = task).reverse

/-- The tasks that a task leads to, along the latest arc first. -/
def successors (flow : Flow) (task : TaskId) : List TaskId :=
  (flow.outgoing task).map Arc.target

/-- The tasks that lead to a task, along the latest arc first. -/
def sources (flow : Flow) (task : TaskId) : List TaskId :=
  (flow.incoming task).map Arc.source

theorem mem_incoming {flow : Flow} {task : TaskId} {arc : Arc} :
    arc ∈ flow.incoming task ↔ arc ∈ flow.arcs ∧ arc.target = task := by
  simp [incoming]

theorem mem_outgoing {flow : Flow} {task : TaskId} {arc : Arc} :
    arc ∈ flow.outgoing task ↔ arc ∈ flow.arcs ∧ arc.source = task := by
  simp [outgoing]

theorem mem_containmentArcs {o : Outline} {arc : Arc} :
    arc ∈ containmentArcs o ↔
      arc.source ∈ o.ids ∧ o.container arc.source = some arc.target ∧ arc.cause = .containment := by
  rcases arc with ⟨source, target, cause⟩
  simp only [containmentArcs, List.mem_filterMap, Option.map_eq_some_iff, Arc.mk.injEq]
  constructor
  · rintro ⟨task, member, parent, found, rfl, rfl, rfl⟩
    exact ⟨member, found, rfl⟩
  · rintro ⟨member, found, rfl⟩
    exact ⟨source, member, target, found, rfl, rfl, rfl⟩

theorem mem_linkArcs {o : Outline} {link : Link} {arc : Arc} :
    arc ∈ linkArcs o link ↔ arc.source = link.dependee ∧
      (arc.target = link.dependant ∧ arc.cause = .explicit link ∨
        arc.target ∈ o.hierarchy.descendants link.dependant ∧ arc.cause = .inherited link) := by
  rcases arc with ⟨source, target, cause⟩
  simp only [linkArcs, List.mem_cons, List.mem_map, Arc.mk.injEq]
  constructor
  · rintro (⟨rfl, rfl, rfl⟩ | ⟨task, member, rfl, rfl, rfl⟩)
    · exact ⟨rfl, .inl ⟨rfl, rfl⟩⟩
    · exact ⟨rfl, .inr ⟨member, rfl⟩⟩
  · rintro ⟨rfl, ⟨rfl, rfl⟩ | ⟨member, rfl⟩⟩
    · exact .inl ⟨rfl, rfl, rfl⟩
    · exact .inr ⟨target, member, rfl, rfl, rfl⟩

theorem mem_arcs_ofPlan {o : Outline} {net : Network} {arc : Arc} :
    arc ∈ (ofPlan o net).arcs ↔
      (arc ∈ containmentArcs o ∨ ∃ link ∈ net.toList, arc ∈ linkArcs o link) ∧
        o.contains arc.source = true ∧ o.contains arc.target = true := by
  simp only [ofPlan, List.mem_filter, List.mem_append, List.mem_flatMap, Bool.and_eq_true]

end Flow

end Workplan
