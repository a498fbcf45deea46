/-
# Workplan.Network — the links between tasks

A network holds the links by key, with an index of their ends. `mem_index` is its invariant: the
index holds the two ends of every link and nothing else, so reading the ends of a task and looking
their links up tells exactly the links of that task.

* `insertLink`, `eraseLink`, `updateLink`, `empty` are the only ways to a network.
* `find?_insertLink`, `find?_eraseLink` — seen through `find?`, a network is a finite map.
* `ext_mem`, `ext_find?` — and it is that map, but for what new links ask.
* `describe` names every field of every link, links by key, and the defaults for new ones.
-/
import Workplan.Catalog
import Workplan.Link
import Workplan.Network.Index

namespace Workplan

set_option autoImplicit false

/-- What a new link asks if nothing else is said. -/
structure LinkDefaults where
  relation : Relation := .finishStart
  hardness : Hardness := .strong
  deriving DecidableEq

structure Network where
  links : Catalog Link.key
  index : Catalog fun e : LinkEnd => e
  defaults : LinkDefaults := {}
  mem_index : ∀ e, e ∈ index ↔ ∃ link ∈ links, e ∈ link.key.ends

namespace Network

/-- No link at all. -/
def empty (defaults : LinkDefaults) : Network where
  links := .empty
  index := .empty
  defaults
  mem_index e := by simp [Catalog.mem_def, Catalog.empty]

instance : Inhabited Network := ⟨empty {}⟩

/-- Adds a link, in the place of one with the same key. -/
def insertLink (net : Network) (link : Link) : Network where
  links := net.links.insert link
  index := (net.index.insert link.key.dependantEnd).insert link.key.dependeeEnd
  defaults := net.defaults
  mem_index e := by
    simp only [Catalog.mem_insert, net.mem_index, ne_eq]
    constructor
    · rintro (rfl | ⟨rfl | ⟨⟨other, member, inside⟩, -⟩, -⟩)
      · exact ⟨link, .inl rfl, LinkKey.mem_ends.mpr (.inr rfl)⟩
      · exact ⟨link, .inl rfl, LinkKey.mem_ends.mpr (.inl rfl)⟩
      · by_cases same : other.key = link.key
        · exact ⟨link, .inl rfl, same ▸ inside⟩
        · exact ⟨other, .inr ⟨member, same⟩, inside⟩
    · rintro ⟨other, rfl | ⟨member, differ⟩, inside⟩
      · rcases LinkKey.mem_ends.mp inside with rfl | rfl
        · by_cases same : other.key.dependantEnd = other.key.dependeeEnd
          · exact .inl same
          · exact .inr ⟨.inl rfl, same⟩
        · exact .inl rfl
      · refine .inr ⟨.inr ⟨⟨other, member, inside⟩, ?_⟩, ?_⟩
        · rintro rfl
          exact differ (LinkKey.key_of_mem_ends inside).symm
        · rintro rfl
          exact differ (LinkKey.key_of_mem_ends inside).symm

/-- Drops the link with the given key. -/
def eraseLink (net : Network) (key : LinkKey) : Network where
  links := net.links.erase key
  index := (net.index.erase key.dependantEnd).erase key.dependeeEnd
  defaults := net.defaults
  mem_index e := by
    simp only [Catalog.mem_erase, net.mem_index, ne_eq]
    constructor
    · rintro ⟨⟨⟨other, member, inside⟩, notDependant⟩, notDependee⟩
      refine ⟨other, ⟨member, ?_⟩, inside⟩
      rintro rfl
      rcases LinkKey.mem_ends.mp inside with same | same
      · exact notDependant same
      · exact notDependee same
    · rintro ⟨other, ⟨member, differ⟩, inside⟩
      refine ⟨⟨⟨other, member, inside⟩, ?_⟩, ?_⟩
      · rintro rfl
        exact differ (LinkKey.key_of_mem_ends inside).symm
      · rintro rfl
        exact differ (LinkKey.key_of_mem_ends inside).symm

/-- Changes what the link with the given key asks. -/
def updateLink (net : Network) (key : LinkKey) (f : Link → Link)
    (keeps : ∀ link, (f link).key = link.key) : Network where
  links := net.links.update key f keeps
  index := net.index
  defaults := net.defaults
  mem_index e := by
    rw [net.mem_index]
    constructor
    · rintro ⟨link, member, inside⟩
      refine ⟨_, Catalog.mem_update.mpr ⟨link, member, rfl⟩, ?_⟩
      split
      · rw [keeps]; exact inside
      · exact inside
    · rintro ⟨updated, amended, inside⟩
      obtain ⟨link, member, rfl⟩ := Catalog.mem_update.mp amended
      refine ⟨link, member, ?_⟩
      split at inside
      · rw [keeps] at inside; exact inside
      · exact inside

/-- A network is its links and what new ones ask: the index follows from the links. -/
theorem ext_mem {net other : Network} (same : ∀ link, link ∈ net.links ↔ link ∈ other.links)
    (defaults : net.defaults = other.defaults) : net = other := by
  have links : net.links = other.links := Catalog.ext_mem same
  have index : net.index = other.index := Catalog.ext_mem fun e => by
    rw [net.mem_index, other.mem_index, links]
  cases net
  cases other
  cases links
  cases defaults
  cases index
  rfl

/-! ## Questions -/

/-- The link with the given key. -/
def find? (net : Network) (key : LinkKey) : Option Link := net.links.find? key

def contains (net : Network) (key : LinkKey) : Bool := net.links.contains key

/-- All links by key. -/
def toList (net : Network) : List Link := net.links.entries

def size (net : Network) : Nat := net.links.size

/-- The links at the ends in a range of the index, in its order. -/
def linksBetween (net : Network) (first last : LinkEnd) : List Link :=
  (net.index.range first last).filterMap fun e => net.find? e.key

/-- The links on which the task waits, by dependee. -/
def asDependant (net : Network) (task : TaskId) : List Link :=
  net.linksBetween (.firstOf task .dependant) (.lastOf task .dependant)

/-- The links that wait for the task, by dependant. -/
def asDependee (net : Network) (task : TaskId) : List Link :=
  net.linksBetween (.firstOf task .dependee) (.lastOf task .dependee)

/-- All links of a task: those on which it waits, then those that wait for it. -/
def linksOf (net : Network) (task : TaskId) : List Link :=
  net.linksBetween (.firstOf task .dependant) (.lastOf task .dependee)

/-- The tasks that wait directly for a task. -/
def dependantsOf (net : Network) (task : TaskId) : List TaskId :=
  (net.index.range (.firstOf task .dependee) (.lastOf task .dependee)).map LinkEnd.other

theorem ext_find? {net other : Network} (same : net.find? = other.find?)
    (defaults : net.defaults = other.defaults) : net = other := by
  have links : net.links = other.links := Catalog.ext_find? fun key => congrFun same key
  exact ext_mem (fun link => by rw [links]) defaults

theorem find?_insertLink (net : Network) (link : Link) (key : LinkKey) :
    (net.insertLink link).find? key = if link.key = key then some link else net.find? key :=
  Catalog.find?_insert net.links link key

theorem find?_eraseLink (net : Network) (key other : LinkKey) :
    (net.eraseLink key).find? other = if other = key then none else net.find? other :=
  Catalog.find?_erase net.links key other

end Network

/-! ## Spelled out for people -/

/-- The relation in words, dependee first. -/
def Relation.longName : Relation → String
  | startStart => "StartStart"
  | finishStart => "FinishStart"
  | finishFinish => "FinishFinish"
  | startFinish => "StartFinish"

/-- A named group of fields. -/
def describeFields (name : String) (fields : List (String × String)) : String :=
  name ++ " \x7b " ++ ", ".intercalate (fields.map fun field => field.1 ++ ": " ++ field.2) ++
    " \x7d"

def TaskId.describe (task : TaskId) : String := s!"TaskId({task})"

def LinkKey.describe (key : LinkKey) : String :=
  describeFields "DependencyKey"
    [("dependant", key.dependant.describe), ("dependee", key.dependee.describe)]

def Link.describe (link : Link) : String :=
  describeFields "TaskDependency"
    [("key", link.key.describe), ("constraint", link.relation.longName),
      ("hardness", link.hardness.name), ("difference", toString link.lag)]

def Network.describe (net : Network) : String :=
  describeFields "DependencyCollection"
    [("dependencies", "[" ++ ", ".intercalate (net.toList.map Link.describe) ++ "]"),
      ("default_constraint", net.defaults.relation.longName),
      ("default_hardness", net.defaults.hardness.name)]

end Workplan
