/-
# Workplan.Network.Loop — would a link close a loop?

A link holds for the dependant and for everything nested in it, and a container ends with what it
contains. A new link therefore closes a loop when its dependee is reached from its dependant by
following links forward, down into the tasks that a link enters and up from a task to its
container. A walk keeps apart the tasks that it entered, whose nested tasks it enters too, from
those to which it only climbed. Climbing to a task that was entered before adds nothing, and the
walk ends as soon as a stop shows that the dependee is reached.
-/
import Workplan.Hierarchy
import Workplan.Network

namespace Workplan

set_option autoImplicit false

/-! ## Searching step by step -/

/-- Whether a place that is sought is found by steps from the places on the stack. Each place is visited
once: it leaves the list of places that are still open, and its successors come onto the stack, the last
of them on top. A visit that is idle, given the places left open, is not made; the number bounds the
visits. -/
def Reach.finds {α : Type} [DecidableEq α] (next : α → List α) (idle : List α → α → Bool)
    (sought : α → Bool) : Nat → List α → List α → Bool
  | 0, _, _ => false
  | visits + 1, places, stack =>
    match stack.dropWhile fun place => place ∉ places with
    | [] => false
    | place :: rest =>
      let left := places.filter (· ≠ place)
      if idle left place then finds next idle sought visits left rest
      else sought place || finds next idle sought visits left ((next place).reverse ++ rest)

/-! ## Walks along links -/

/-- How a walk came to a task: along a link, so that all inside is held back too, or from a task
nested in it. -/
inductive Arrival where
  | entered | climbed
  deriving DecidableEq

/-- A task on a walk. -/
structure Stop where
  task : TaskId
  arrival : Arrival
  deriving DecidableEq

namespace Network

/-- Where a walk goes on from a stop. -/
def nextStops (h : Hierarchy) (net : Network) (stop : Stop) : List Stop :=
  let inside :=
    match stop.arrival with
    | .entered => h.nested stop.task
    | .climbed => []
  (inside ++ net.dependantsOf stop.task).map (⟨·, .entered⟩) ++
    (h.container stop.task).toList.map (⟨·, .climbed⟩)

/-- Whether a stop shows that the target is reached: it is the target, or a link that enters it
holds for the target, or the target ends only after it. -/
def reaches (h : Hierarchy) (target : TaskId) (stop : Stop) : Bool :=
  match stop.arrival with
  | .entered => h.related stop.task target
  | .climbed => stop.task = target || h.isAncestor target stop.task

/-- All stops that a walk from the dependant can come to. -/
def places (h : Hierarchy) (net : Network) (dependant : TaskId) : List Stop :=
  (dependant :: h.tasks ++ net.toList.map Link.dependant).flatMap fun task =>
    [⟨task, .entered⟩, ⟨task, .climbed⟩]

/-- Whether a walk with the given stops still open climbs to a task that it entered before. -/
def isIdle (left : List Stop) (stop : Stop) : Bool :=
  stop.arrival = .climbed && ⟨stop.task, .entered⟩ ∉ left

/-- Whether a link with the given key would close a loop. -/
def isLooping (h : Hierarchy) (net : Network) (key : LinkKey) : Bool :=
  let all := places h net key.dependant
  Reach.finds (nextStops h net) isIdle (reaches h key.dependee) all.length all
    [⟨key.dependant, .entered⟩]

end Network

end Workplan
