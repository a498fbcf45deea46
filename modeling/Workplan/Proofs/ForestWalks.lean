/-
# Workplan.Proofs.ForestWalks — walks along a forest end, and what they list

A walk up asks for one container after another, until there is none. A walk down keeps a stack: it takes
the task on top and puts the tasks nested in it in its place, until the stack is empty. Neither counts
its steps, so on containers that run in a circle neither would end. In a forest both do:

* `IsForest.climbs` — the walk up lists the `ancestors`;
* `IsForest.unstacks` — the walk down lists the `descendants`;
* `IsForest.nodup_descendants`, `IsForest.descendants_split` — each of them once, after its container
  and right before what lies in it.

`IsTraversable` puts together what can be relied on.
-/
import Workplan.Proofs.Forest

namespace Workplan.Hierarchy

set_option autoImplicit false

/-- Going from container to container, one meets the listed tasks and then comes to an end. -/
inductive Climbs (h : Hierarchy) : TaskId → List TaskId → Prop where
  | top {task : TaskId} (root : h.container task = none) : Climbs h task []
  | up {task container : TaskId} {above : List TaskId} (found : h.container task = some container)
      (rest : Climbs h container above) : Climbs h task (container :: above)

/-- Emptying a stack, where each task taken from the top makes room for those nested in it, one takes the
listed tasks and then comes to an end. -/
inductive Unstacks (h : Hierarchy) : List TaskId → List TaskId → Prop where
  | empty : Unstacks h [] []
  | take {task : TaskId} {stack taken : List TaskId} (rest : Unstacks h (h.nested task ++ stack) taken) :
      Unstacks h (task :: stack) (task :: taken)

variable {h : Hierarchy}

/-! ## Upwards -/

theorem IsForest.climbs (forest : h.IsForest) (task : TaskId) : h.Climbs task (h.ancestors task) := by
  induction depth : (h.ancestors task).length generalizing task with
  | zero =>
    have none : h.ancestors task = [] := List.eq_nil_of_length_eq_zero depth
    rw [none]
    refine .top ?_
    cases found : h.container task with
    | none => rfl
    | some container =>
      rw [forest.ancestors_cons found] at none
      contradiction
  | succ depth ih =>
    cases found : h.container task with
    | none =>
      rw [ancestors_of_root found] at depth
      contradiction
    | some container =>
      rw [forest.ancestors_cons found] at depth ⊢
      exact .up found (ih container (Nat.succ.inj depth))

/-! ## Downwards -/

theorem IsForest.depth_of_nested (forest : h.IsForest) {child task : TaskId}
    (nested : child ∈ h.nested task) :
    child ∈ h.tasks ∧ (h.ancestors child).length = (h.ancestors task).length + 1 := by
  have found := (forest.mem_nested task child).mp nested
  rw [forest.ancestors_cons found]
  exact ⟨(forest.mem_tasks _ _ found).1, rfl⟩

/-- Where a task has no room below it in the hierarchy, another step down lists nothing more. -/
theorem IsForest.descend_succ (forest : h.IsForest) {steps : Nat} {task : TaskId}
    (room : h.tasks.length ≤ steps + (h.ancestors task).length) :
    h.descend (steps + 1) task = h.descend steps task := by
  induction steps generalizing task with
  | zero =>
    have leaf : h.nested task = [] := by
      refine List.eq_nil_iff_forall_not_mem.mpr fun child member => ?_
      obtain ⟨known, deeper⟩ := forest.depth_of_nested member
      have short : (h.ancestors child).length < h.tasks.length := forest.length_climb_lt known _
      omega
    simp [descend, leaf]
  | succ steps ih =>
    rw [descend, descend]
    refine List.flatMap_congr fun child member => ?_
    obtain ⟨-, deeper⟩ := forest.depth_of_nested member
    rw [ih (by omega)]

/-- What lies below a task: each task directly in it, followed by what lies below that one. -/
theorem IsForest.descendants_eq (forest : h.IsForest) (task : TaskId) :
    h.descendants task = (h.nested task).flatMap fun child => child :: h.descendants child := by
  have whole := forest.descend_succ (Nat.le_add_right h.tasks.length (h.ancestors task).length)
  rw [descendants, ← whole, descend]
  rfl

/-- A stack is emptied from its top, one whole branch after the other. -/
theorem IsForest.unstacks_append (forest : h.IsForest) (task : TaskId) :
    ∀ {stack taken : List TaskId}, h.Unstacks stack taken →
      h.Unstacks (task :: stack) (task :: (h.descendants task ++ taken)) := by
  induction task using forest.bottomUp with
  | step task ih =>
    intro stack taken rest
    refine .take ?_
    rw [forest.descendants_eq]
    generalize h.nested task = nested at ih
    induction nested with
    | nil => exact rest
    | cons child others later =>
      simp only [List.flatMap_cons, List.cons_append, List.append_assoc]
      exact ih child List.mem_cons_self
        (later fun other member => ih other (List.mem_cons_of_mem child member))

theorem IsForest.unstacks (forest : h.IsForest) (task : TaskId) :
    h.Unstacks (h.nested task) (h.descendants task) := by
  have emptied := forest.unstacks_append task .empty
  rw [List.append_nil] at emptied
  cases emptied with
  | take rest => rwa [List.append_nil] at rest

/-! ## What the walk down lists -/

/-- No task lies in two tasks of one container. -/
theorem IsForest.eq_of_under (forest : h.IsForest) {task first second container : TaskId}
    (inFirst : h.Under task first) (inSecond : h.Under task second)
    (foundFirst : h.container first = some container)
    (foundSecond : h.container second = some container) : first = second := by
  have outward : ∀ {a b : TaskId}, h.container a = some container → h.container b = some container →
      Relation.ReflTransGen (fun x y => h.container x = some y) a b → a = b := by
    intro a b foundA foundB way
    rcases Relation.ReflTransGen.cases_head way with same | ⟨next, found, rest⟩
    · exact same
    · obtain rfl : container = next := Option.some.inj (foundA.symm.trans found)
      exact absurd (Relation.TransGen.tail' rest foundB) (forest.not_inside_self container)
  have upFirst := Relation.reflTransGen_iff_eq_or_transGen.mpr (inFirst.imp_left Eq.symm)
  have upSecond := Relation.reflTransGen_iff_eq_or_transGen.mpr (inSecond.imp_left Eq.symm)
  have unique : Relator.RightUnique fun x y => h.container x = some y :=
    fun _ _ _ one other => Option.some.inj (one.symm.trans other)
  rcases Relation.ReflTransGen.total_of_right_unique unique upFirst upSecond with way | way
  · exact outward foundFirst foundSecond way
  · exact (outward foundSecond foundFirst way).symm

theorem IsForest.nodup_descendants (forest : h.IsForest) (task : TaskId) :
    (h.descendants task).Nodup := by
  induction task using forest.bottomUp with
  | step task ih =>
    rw [forest.descendants_eq]
    refine List.nodup_flatMap.mpr ⟨fun child member => List.nodup_cons.mpr ⟨?_, ih child member⟩, ?_⟩
    · rw [forest.mem_descendants_iff]
      exact forest.not_inside_self child
    · have container : ∀ child ∈ h.nested task, h.container child = some task :=
        fun child => (forest.mem_nested task child).mp
      refine (forest.nodup_nested task).imp_of_mem fun first second differ => ?_
      refine List.disjoint_left.mpr fun below inFirst inSecond => differ ?_
      rw [List.mem_cons, forest.mem_descendants_iff] at inFirst inSecond
      exact forest.eq_of_under inFirst inSecond (container _ first) (container _ second)

/-- Each task comes after its container, and right before all that lies in it. -/
theorem IsForest.descendants_split (forest : h.IsForest) {outer task : TaskId}
    (below : task ∈ h.descendants outer) : ∃ before after,
      h.descendants outer = before ++ task :: (h.descendants task ++ after) ∧
      ∃ container, h.container task = some container ∧ (container = outer ∨ container ∈ before) := by
  induction outer using forest.bottomUp with
  | step outer ih =>
    rw [forest.descendants_eq] at below ⊢
    obtain ⟨child, nested, inside⟩ := List.mem_flatMap.mp below
    have found := (forest.mem_nested outer child).mp nested
    obtain ⟨left, right, split⟩ := List.append_of_mem nested
    rw [split, List.flatMap_append, List.flatMap_cons]
    rcases List.mem_cons.mp inside with rfl | deeper
    · exact ⟨_, _, rfl, outer, found, .inl rfl⟩
    · obtain ⟨before, after, shape, container, held, place⟩ := ih child nested deeper
      refine ⟨left.flatMap (fun child => child :: h.descendants child) ++ child :: before,
        after ++ right.flatMap fun child => child :: h.descendants child, ?_, container, held, .inr ?_⟩
      · rw [shape]
        simp
      · rcases place with rfl | earlier
        · simp
        · simp [earlier]

/-! ## All together -/

/-- Containers and nested tasks tell one story about known tasks, and both walks come to an end. -/
structure IsTraversable (h : Hierarchy) : Prop where
  mem_tasks_of_container : ∀ task container, h.container task = some container →
    task ∈ h.tasks ∧ container ∈ h.tasks
  mem_tasks_of_nested : ∀ container task, task ∈ h.nested container →
    task ∈ h.tasks ∧ container ∈ h.tasks
  /-- A task stands once in the list of its container and in no other. -/
  count_nested : ∀ container task,
    (h.nested container).count task = if h.container task = some container then 1 else 0
  not_inside_self : ∀ task, ¬ h.Inside task task
  climbs : ∀ task, h.Climbs task (h.ancestors task)
  unstacks : ∀ task, h.Unstacks (h.nested task) (h.descendants task)
  /-- Below a task, whatever it is an ancestor of is listed once. -/
  count_descendants : ∀ outer task,
    (h.descendants outer).count task = if h.isAncestor outer task then 1 else 0
  /-- Each task of the list comes after its container, and its own subtree follows it. -/
  preorder : ∀ outer task, task ∈ h.descendants outer → ∃ before after,
    h.descendants outer = before ++ task :: (h.descendants task ++ after) ∧
      ∃ container, h.container task = some container ∧ (container = outer ∨ container ∈ before)

theorem IsForest.isTraversable (forest : h.IsForest) : h.IsTraversable where
  mem_tasks_of_container := forest.mem_tasks
  mem_tasks_of_nested container task member :=
    forest.mem_tasks task container ((forest.mem_nested container task).mp member)
  count_nested container task := by
    rw [(forest.nodup_nested container).count]
    exact if_congr (forest.mem_nested container task) rfl rfl
  not_inside_self := forest.not_inside_self
  climbs := forest.climbs
  unstacks := forest.unstacks
  count_descendants outer task := by
    rw [(forest.nodup_descendants outer).count]
    exact if_congr (forest.mem_descendants_iff.trans forest.isAncestor_iff.symm) rfl rfl
  preorder _ _ below := forest.descendants_split below

end Workplan.Hierarchy
