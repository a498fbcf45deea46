/-
# Workplan.Network.Edit — adding, changing and removing links

A link is admitted if it is new, both its tasks are known, they are neither the same nor nested in
one another, and it closes no loop; the first of these that fails is the reason of the refusal.
Every edit tells its changes, but two are silent: clearing the whole network, and changing how
strictly a link is held.

* `add_refused` — a refused link leaves the network as it was and tells nothing.
* `changes_setHardness`, `changes_clear` — the silent edits.
-/
import Workplan.Change
import Workplan.Network.Loop

namespace Workplan

set_option autoImplicit false

/-- Why a network refuses an edit. -/
inductive LinkError where
  | alreadyExists (key : LinkKey)
  | onItself (task : TaskId)
  | nestedTasks (key : LinkKey)
  | loop (key : LinkKey)
  | notFound (key : LinkKey)
  | unknownTask (task : TaskId)
  deriving DecidableEq

def LinkError.message : LinkError → String
  | alreadyExists key => s!"Dependency already exists: {key}"
  | onItself task => s!"Task cannot depend on itself: {task}"
  | nestedTasks key => s!"Tasks are hierarchically related, one contains the other: {key}"
  | loop key => s!"Dependency would create a loop: {key}"
  | notFound key => s!"Dependency not found: {key}"
  | unknownTask task => s!"Unknown task: {task}"

namespace Network

/-- The checks that need only the two tasks. -/
def checkPair (h : Hierarchy) (key : LinkKey) : Except LinkError Unit :=
  if key.dependant = key.dependee then .error (.onItself key.dependant)
  else if h.related key.dependant key.dependee then .error (.nestedTasks key)
  else .ok ()

/-- Whether a link with the given key would be admitted now, and if not, why. -/
def validate (h : Hierarchy) (net : Network) (key : LinkKey) : Except LinkError Unit :=
  if net.contains key then .error (.alreadyExists key)
  else if !h.knows key.dependant then .error (.unknownTask key.dependant)
  else if !h.knows key.dependee then .error (.unknownTask key.dependee)
  else
    match checkPair h key with
    | .error refusal => .error refusal
    | .ok () => if net.isLooping h key then .error (.loop key) else .ok ()

def canAdd (h : Hierarchy) (net : Network) (key : LinkKey) : Bool :=
  match net.validate h key with
  | .ok () => true
  | .error _ => false

/-- Adds a link if it is admitted. -/
def add (h : Hierarchy) (net : Network) (link : Link) : Edited Network (Except LinkError Link) :=
  match net.validate h link.key with
  | .error refusal => ⟨.error refusal, net, []⟩
  | .ok () => ⟨.ok link, net.insertLink link, [.added link]⟩

/-- The link between two tasks that asks what the network's new links ask. -/
def newLink (net : Network) (key : LinkKey) : Link :=
  { key, relation := net.defaults.relation, hardness := net.defaults.hardness }

/-- Removes a link; there need not be one. -/
def remove (net : Network) (key : LinkKey) : Edited Network (Option Link) :=
  match net.find? key with
  | none => ⟨none, net, []⟩
  | some link => ⟨some link, net.eraseLink key, [.removed link]⟩

/-- Removes links one after another. -/
def removeAll (net : Network) : List LinkKey → Edited Network (List Link)
  | [] => ⟨[], net, []⟩
  | key :: rest =>
    (net.remove key).andThen fun removed net =>
      (net.removeAll rest).map (removed.toList ++ ·)

/-- Removes every link of a task. -/
def detach (net : Network) (task : TaskId) : Edited Network (List Link) :=
  net.removeAll ((net.linksOf task).map Link.key)

/-- Removes all links and tells nothing. -/
def clear (net : Network) : Edited Network Unit :=
  ⟨(), .empty net.defaults, []⟩

/-- Changes what a link asks; the answer is the link as it is then. -/
def amend (net : Network) (key : LinkKey) (f : Link → Link)
    (keeps : ∀ link, (f link).key = link.key) (tell : Link → List Change) :
    Edited Network (Except LinkError Link) :=
  match net.find? key with
  | none => ⟨.error (.notFound key), net, []⟩
  | some link => ⟨.ok (f link), net.updateLink key f keeps, tell (f link)⟩

def setRelation (net : Network) (key : LinkKey) (relation : Relation) :
    Edited Network (Except LinkError Link) :=
  net.amend key (fun link => { link with relation }) (fun _ => rfl) fun link => [.changed link]

def setLag (net : Network) (key : LinkKey) (lag : Lag) : Edited Network (Except LinkError Link) :=
  net.amend key (fun link => { link with lag }) (fun _ => rfl) fun link => [.changed link]

/-- Sets how strictly a link is held, and tells nothing. -/
def setHardness (net : Network) (key : LinkKey) (hardness : Hardness) :
    Edited Network (Except LinkError Link) :=
  net.amend key (fun link => { link with hardness }) (fun _ => rfl) fun _ => []

theorem add_refused {h : Hierarchy} {net : Network} {link : Link} {refusal : LinkError}
    (refused : (net.add h link).answer = .error refusal) :
    (net.add h link).state = net ∧ (net.add h link).changes = [] := by
  unfold add at refused ⊢
  split at refused
  · exact ⟨rfl, rfl⟩
  · contradiction

theorem changes_clear (net : Network) : net.clear.changes = [] := rfl

theorem changes_setHardness (net : Network) (key : LinkKey) (hardness : Hardness) :
    (net.setHardness key hardness).changes = [] := by
  unfold setHardness amend
  split <;> rfl

end Network

end Workplan
