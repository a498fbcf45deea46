/-
# Workplan.Proofs.LinkQueries — the links of a task, read from the index

Asking for the links of a task reads a range of the index and looks up the link of each end in it.
The index holds the two ends of every link and nothing else, so none is missed and none is told
from an end that was left behind:

* `index_perm` — the index lists both ends of each link, once;
* `mem_asDependant`, `mem_asDependee`, `mem_linksOf` — which links the answers hold;
* `sorted_asDependant`, `sorted_asDependee`, `linksOf_eq` — and in which order;
* `nodup_linksOf` — each once, unless a task waits for itself.
-/
import Mathlib.Data.List.Nodup
import Workplan.Network

namespace Workplan.Network

set_option autoImplicit false

variable {net : Network}

theorem key_of_find? {key : LinkKey} {link : Link} (found : net.find? key = some link) :
    link.key = key :=
  (Catalog.mem_of_find? found).2

theorem mem_links_iff {link : Link} : link ∈ net.links ↔ net.find? link.key = some link := by
  simp [find?, Catalog.find?_eq_some_iff]

theorem mem_toList {link : Link} : link ∈ net.toList ↔ net.find? link.key = some link :=
  mem_links_iff

theorem sorted_toList (net : Network) : net.toList.Pairwise fun a b => a.key < b.key :=
  net.links.sorted

theorem contains_eq_isSome (net : Network) (key : LinkKey) :
    net.contains key = (net.find? key).isSome := rfl

/-! ## The index -/

theorem nodup_ends (key : LinkKey) : key.ends.Nodup := by
  simp [LinkKey.ends, LinkKey.dependantEnd, LinkKey.dependeeEnd]

theorem index_perm (net : Network) :
    net.index.entries.Perm (net.toList.flatMap fun link => link.key.ends) := by
  refine (List.perm_ext_iff_of_nodup (Catalog.nodup_of_sorted net.index.sorted)
    (List.nodup_flatMap.mpr ⟨fun link _ => nodup_ends link.key, ?_⟩)).mpr fun e => ?_
  · refine net.sorted_toList.imp fun {a b} less => ?_
    intro e left right
    have same := (LinkKey.key_of_mem_ends left).symm.trans (LinkKey.key_of_mem_ends right)
    exact Std.lt_irrefl (same ▸ less)
  · rw [← Catalog.mem_def, net.mem_index, List.mem_flatMap]
    rfl

theorem mem_linksBetween {first last : LinkEnd} {link : Link} :
    link ∈ net.linksBetween first last ↔
      net.find? link.key = some link ∧ ∃ e ∈ link.key.ends, first ≤ e ∧ e ≤ last := by
  simp only [linksBetween, List.mem_filterMap, Catalog.mem_range, net.mem_index]
  constructor
  · rintro ⟨e, ⟨-, between⟩, found⟩
    have key := key_of_find? found
    exact ⟨key ▸ found, e, key ▸ LinkKey.mem_ends_key e, between⟩
  · rintro ⟨found, e, inside, between⟩
    refine ⟨e, ⟨⟨link, mem_links_iff.mpr found, inside⟩, between⟩, ?_⟩
    rwa [LinkKey.key_of_mem_ends inside]

/-- The links are told in the order of their ends. -/
theorem pairwise_linksBetween {first last : LinkEnd} {before : Link → Link → Prop}
    (ordered : ∀ a b : LinkEnd, first ≤ a ∧ a ≤ last → first ≤ b ∧ b ≤ last → a < b →
      ∀ l m : Link, l.key = a.key → m.key = b.key → before l m) :
    (net.linksBetween first last).Pairwise before := by
  refine List.pairwise_filterMap.mpr ((net.index.sorted_range first last).imp_of_mem ?_)
  intro a b left right less l foundLeft m foundRight
  exact ordered a b (Catalog.mem_range.mp left).2 (Catalog.mem_range.mp right).2 less l m
    (key_of_find? foundLeft) (key_of_find? foundRight)

theorem other_lt {a b : LinkEnd} (task : a.task = b.task) (role : a.role = b.role) (less : a < b) :
    a.other < b.other := by
  rw [LinkEnd.lt_iff, task, role] at less
  rw [TaskId.lt_iff]
  omega

/-! ## The links of a task -/

theorem mem_asDependant {task : TaskId} {link : Link} :
    link ∈ net.asDependant task ↔ net.find? link.key = some link ∧ link.dependant = task := by
  simp [asDependant, mem_linksBetween, LinkEnd.between_role_iff, LinkKey.mem_ends,
    LinkKey.dependantEnd, LinkKey.dependeeEnd, Link.dependant]

theorem mem_asDependee {task : TaskId} {link : Link} :
    link ∈ net.asDependee task ↔ net.find? link.key = some link ∧ link.dependee = task := by
  simp [asDependee, mem_linksBetween, LinkEnd.between_role_iff, LinkKey.mem_ends,
    LinkKey.dependantEnd, LinkKey.dependeeEnd, Link.dependee]

theorem sorted_asDependant (net : Network) (task : TaskId) :
    (net.asDependant task).Pairwise fun a b => a.dependee < b.dependee := by
  refine pairwise_linksBetween fun a b insideA insideB less l m keyL keyM => ?_
  obtain ⟨taskA, roleA⟩ := LinkEnd.between_role_iff.mp insideA
  obtain ⟨taskB, roleB⟩ := LinkEnd.between_role_iff.mp insideB
  have others := other_lt (taskA.trans taskB.symm) (roleA.trans roleB.symm) less
  simpa [Link.dependee, keyL, keyM, LinkEnd.key, roleA, roleB] using others

theorem sorted_asDependee (net : Network) (task : TaskId) :
    (net.asDependee task).Pairwise fun a b => a.dependant < b.dependant := by
  refine pairwise_linksBetween fun a b insideA insideB less l m keyL keyM => ?_
  obtain ⟨taskA, roleA⟩ := LinkEnd.between_role_iff.mp insideA
  obtain ⟨taskB, roleB⟩ := LinkEnd.between_role_iff.mp insideB
  have others := other_lt (taskA.trans taskB.symm) (roleA.trans roleB.symm) less
  simpa [Link.dependant, keyL, keyM, LinkEnd.key, roleA, roleB] using others

/-- In the index the ends of a task as a dependant come right before its ends as a dependee. -/
theorem linksOf_eq (net : Network) (task : TaskId) :
    net.linksOf task = net.asDependant task ++ net.asDependee task := by
  have apart : LinkEnd.lastOf task .dependant < LinkEnd.firstOf task .dependee := by
    rw [LinkEnd.lt_iff]
    exact .inr ⟨rfl, .inl (by decide : Role.dependant.rank < Role.dependee.rank)⟩
  rw [linksOf, asDependant, asDependee, linksBetween, linksBetween, linksBetween,
    ← List.filterMap_append, ← net.index.range_eq_append apart fun e => ?_]
  simp only [LinkEnd.between_task_iff, LinkEnd.between_role_iff, ← and_or_left]
  cases e.role <;> simp

theorem mem_linksOf {task : TaskId} {link : Link} :
    link ∈ net.linksOf task ↔ net.find? link.key = some link ∧ link.key.touches task = true := by
  simp only [linksOf_eq, List.mem_append, mem_asDependant, mem_asDependee, ← and_or_left,
    LinkKey.touches, Bool.or_eq_true, decide_eq_true_eq]
  rfl

/-- Only a link of a task with itself would be told twice. -/
theorem nodup_linksOf (apart : ∀ key, net.contains key = true → key.dependant ≠ key.dependee)
    (task : TaskId) : (net.linksOf task).Nodup := by
  rw [linksOf_eq]
  refine (Catalog.nodup_of_sorted (net.sorted_asDependant task)).append
    (Catalog.nodup_of_sorted (net.sorted_asDependee task)) fun link left right => ?_
  obtain ⟨found, dependant⟩ := mem_asDependant.mp left
  obtain ⟨-, dependee⟩ := mem_asDependee.mp right
  refine apart link.key ?_ (dependant.trans dependee.symm)
  rw [contains_eq_isSome, found]
  rfl

end Workplan.Network
