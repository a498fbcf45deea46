/-
# Workplan.Proofs.OutlineEdits — every edit of an outline leaves a forest

What a task's node holds after an edit, read through `container`, `nested` and `ids`; and from it
that each edit keeps the outline a forest. A new date touches none of the three, so it leaves the
hierarchy as it was (`hierarchy_updateTask`). A task is attached only where it is not yet, to a
container that does not lie in it:

* `isForest_add`, `isForest_nest`, `isForest_move` — new tasks and moves;
* `container_nest`, `container_move`, `nested_move` — who lies where afterwards;
* `ordered_add`, `ordered_nest`, `ordered_move` — no task ends before it starts.
-/
import Workplan.Outline
import Workplan.Proofs.Forest

namespace Workplan

set_option autoImplicit false

/-! ## Answers of edits -/

section Answers

variable {ε α β : Type} {answer : Except ε α} {b : β}

theorem exists_ok_of_map {f : α → β} (done : answer.map f = .ok b) :
    ∃ a, answer = .ok a ∧ f a = b := by
  cases answer with
  | error => contradiction
  | ok a => exact ⟨a, rfl, Except.ok.inj done⟩

theorem error_of_map {f : α → β} {reason : ε} (failed : answer.map f = .error reason) :
    answer = .error reason := by
  cases answer with
  | error why => exact congrArg Except.error (Except.error.inj failed)
  | ok => contradiction

theorem exists_error_of_mapError {ε' : Type} {f : ε → ε'} {reason : ε'}
    (failed : answer.mapError f = .error reason) : ∃ why, answer = .error why ∧ f why = reason := by
  cases answer with
  | error why => exact ⟨why, rfl, Except.error.inj failed⟩
  | ok => contradiction

theorem exists_ok_of_bind {f : α → Except ε β} (done : answer.bind f = .ok b) :
    ∃ a, answer = .ok a ∧ f a = .ok b := by
  cases answer with
  | error => contradiction
  | ok a => exact ⟨a, rfl, done⟩

theorem mapM_eq_ok_iff {f : α → Except ε β} {list : List α} {found : List β} :
    list.mapM f = .ok found ↔ List.Forall₂ (fun a b => f a = .ok b) list found := by
  induction list generalizing found with
  | nil => cases found <;> simp [pure, Except.pure]
  | cons a rest ih =>
    rw [List.mapM_cons]
    cases first : f a with
    | error reason => cases found <;> simp [bind, Except.bind, first]
    | ok b =>
      cases later : rest.mapM f with
      | error reason => cases found <;> simp [bind, Except.bind, first, ← ih, later]
      | ok more => cases found <;> simp [bind, Except.bind, pure, Except.pure, first, ← ih, later]

theorem exists_mapM_error_iff {f : α → Except ε β} {list : List α} :
    (∃ reason, list.mapM f = .error reason) ↔ ∃ a ∈ list, ∃ reason, f a = .error reason := by
  induction list with
  | nil => simp [pure, Except.pure]
  | cons a rest ih =>
    rw [List.mapM_cons, List.exists_mem_cons_iff, ← ih]
    cases first : f a with
    | error reason => simp [bind, Except.bind]
    | ok b => cases later : rest.mapM f <;> simp [bind, Except.bind, pure, Except.pure]

end Answers

namespace Outline

variable {o : Outline}

theorem contains_iff {id : TaskId} : o.contains id = true ↔ id ∈ o.ids := by
  simp only [contains, Catalog.contains_iff, ids, List.mem_map, Catalog.mem_def]

theorem nodup_ids (o : Outline) : o.ids.Nodup := by
  refine List.pairwise_map.mpr (o.nodes.sorted.imp fun less same => ?_)
  rw [same] at less
  exact Std.lt_irrefl less

theorem node?_eq_none_iff {id : TaskId} : o.node? id = none ↔ id ∉ o.ids := by
  rw [← contains_iff, contains, Catalog.contains, ← node?]
  simp

theorem exists_task?_iff {id : TaskId} : (∃ task, o.task? id = some task) ↔ id ∈ o.ids := by
  rw [← not_iff_not, ← node?_eq_none_iff, task?]
  cases o.node? id <;> simp

theorem mem_ids_of_container {id parent : TaskId} (found : o.container id = some parent) :
    id ∈ o.ids := by
  by_contra unknown
  simp [container, node?_eq_none_iff.mpr unknown] at found

theorem container_of_unknown {id : TaskId} (unknown : id ∉ o.ids) : o.container id = none := by
  simp [container, node?_eq_none_iff.mpr unknown]

theorem nested_of_unknown {id : TaskId} (unknown : id ∉ o.ids) : o.nested id = [] := by
  simp [nested, node?_eq_none_iff.mpr unknown]

/-- The finish of no task comes before its start. -/
def Ordered (o : Outline) : Prop :=
  ∀ id task, o.task? id = some task → task.start ≤ task.finish

theorem id_of_task? {id : TaskId} {task : Task} (found : o.task? id = some task) : task.id = id := by
  obtain ⟨node, there, rfl⟩ := Option.map_eq_some_iff.mp found
  exact (Catalog.mem_of_find? there).2

theorem mem_ids_of_task? {id : TaskId} {task : Task} (found : o.task? id = some task) :
    task.id ∈ o.ids := by
  rw [id_of_task? found]
  exact exists_task?_iff.mp ⟨task, found⟩

theorem span?_of_task? {id : TaskId} {task : Task} (found : o.task? id = some task) :
    o.span? id = some task.span := by
  rw [span?, found]
  rfl

theorem span?_congr {other : Outline} {id : TaskId} (same : o.task? id = other.task? id) :
    o.span? id = other.span? id := by
  rw [span?, same, span?]

/-- It is enough to know that containers and nested tasks agree: who has a container is a task of
the outline, and so is the container. -/
theorem isForest_of (agree : ∀ parent task, task ∈ o.nested parent ↔ o.container task = some parent)
    (nodup : ∀ parent, (o.nested parent).Nodup)
    (acyclic : ∀ task, ¬ o.hierarchy.Inside task task) : o.hierarchy.IsForest where
  mem_nested := agree
  nodup_nested := nodup
  not_inside_self := acyclic
  mem_tasks task parent found := by
    refine ⟨mem_ids_of_container found, ?_⟩
    by_contra unknown
    have member := (agree parent task).mpr found
    simp [nested_of_unknown unknown] at member

/-- An outline is its tasks, the container of each and what is nested in each. -/
theorem ext_places {other : Outline} (tasks : ∀ id, other.task? id = o.task? id)
    (containers : ∀ id, other.container id = o.container id)
    (nested : ∀ id, other.nested id = o.nested id) : other = o := by
  obtain ⟨nodes⟩ := o
  obtain ⟨otherNodes⟩ := other
  refine congrArg Outline.mk (Catalog.ext_find? fun id => ?_)
  have task := tasks id
  have container := containers id
  have held := nested id
  simp only [task?, node?, Outline.container, Outline.nested] at task container held
  cases left : otherNodes.find? id with
  | none => cases right : nodes.find? id <;> simp_all
  | some node =>
    cases right : nodes.find? id with
    | none => simp_all
    | some same =>
      obtain ⟨_, _, _⟩ := node
      obtain ⟨_, _, _⟩ := same
      simp_all

theorem container_empty (id : TaskId) : empty.container id = none := rfl

theorem isForest_empty : empty.hierarchy.IsForest := by
  refine isForest_of (fun parent task => ?_) (fun parent => ?_) fun task inside => ?_
  · have alone : empty.nested parent = [] := rfl
    simp [alone, container_empty]
  · exact List.nodup_nil
  · obtain ⟨container, found, -⟩ := Hierarchy.inside_iff.mp inside
    cases (container_empty task).symm.trans found

/-! ## New dates -/

section Dates

variable (o : Outline) (id : TaskId) (f : Task → Task) (keeps : ∀ t, (f t).id = t.id)

theorem node?_updateTask (x : TaskId) : (o.updateTask id f keeps).node? x =
    if x = id then (o.node? x).map fun node => { node with task := f node.task }
    else o.node? x :=
  Catalog.find?_update _ _ _ (fun node => keeps node.task) _

theorem task?_updateTask (x : TaskId) : (o.updateTask id f keeps).task? x =
    if x = id then (o.task? x).map f else o.task? x := by
  simp only [task?, node?_updateTask]
  split
  · cases o.node? x <;> rfl
  · rfl

/-- Whatever happens to the dates of a task, all tasks stay where they are. -/
theorem hierarchy_updateTask : (o.updateTask id f keeps).hierarchy = o.hierarchy := by
  have ids : (o.updateTask id f keeps).ids = o.ids :=
    Catalog.keys_update _ _ _ fun node => keeps node.task
  have knows : (o.updateTask id f keeps).contains = o.contains := by
    funext x
    rw [Bool.eq_iff_iff, contains_iff, contains_iff, ids]
  have containers : (o.updateTask id f keeps).container = o.container := by
    funext x
    simp only [container, node?_updateTask]
    split
    · cases o.node? x <;> rfl
    · rfl
  have nested : (o.updateTask id f keeps).nested = o.nested := by
    funext x
    simp only [Outline.nested, node?_updateTask]
    split
    · cases o.node? x <;> rfl
    · rfl
  simp only [hierarchy, ids, knows, containers, nested]

end Dates

theorem setDates_of_known {o : Outline} {id : TaskId} (known : id ∈ o.ids) {start finish : Date}
    (ordered : start ≤ finish) : ∃ dated, o.setDates id start finish = .ok dated ∧
      ∀ x, dated.task? x =
        if x = id then (o.task? x).map fun task => task.withDates start finish else o.task? x := by
  have inOrder : ¬ finish < start := Std.not_lt.mpr ordered
  refine ⟨o.updateTask id (·.withDates start finish) fun _ => rfl, ?_, task?_updateTask o id _ _⟩
  rw [setDates, if_neg inOrder, if_pos (contains_iff.mpr known)]

theorem shift_of_known {o : Outline} {id : TaskId} (known : id ∈ o.ids) (start : Date)
    (cal : Calendar) : ∃ shifted, o.shift id start cal = .ok shifted ∧
      ∀ x, shifted.task? x =
        if x = id then (o.task? x).map fun task => task.shiftTo start cal else o.task? x := by
  refine ⟨o.updateTask id (·.shiftTo start cal) fun _ => rfl, ?_, task?_updateTask o id _ _⟩
  rw [shift, if_pos (contains_iff.mpr known)]

/-! ## New tasks -/

theorem add_eq_ok {o added : Outline} {task : Task} (done : o.add task = .ok added) :
    task.id ∉ o.ids ∧ task.start ≤ task.finish ∧ added = ⟨o.nodes.insert { task }⟩ := by
  unfold add at done
  split at done
  · contradiction
  · rename_i unknown
    split at done
    · contradiction
    · rename_i ordered
      cases done
      exact ⟨fun member => unknown (contains_iff.mpr member), Std.not_lt.mp ordered, rfl⟩

theorem node?_add {o added : Outline} {task : Task} (done : o.add task = .ok added) (x : TaskId) :
    added.node? x = if task.id = x then some { task } else o.node? x := by
  obtain ⟨-, -, rfl⟩ := add_eq_ok done
  exact Catalog.find?_insert ..

theorem mem_ids_add {o added : Outline} {task : Task} (done : o.add task = .ok added) {x : TaskId} :
    x ∈ added.ids ↔ x = task.id ∨ x ∈ o.ids := by
  rw [← not_iff_not, not_or, ← node?_eq_none_iff, ← node?_eq_none_iff, node?_add done]
  split
  · rename_i same
    simp [same]
  · rename_i differ
    simp [Ne.symm differ]

theorem container_add {o added : Outline} {task : Task} (done : o.add task = .ok added) :
    added.container = o.container := by
  funext x
  simp only [container, node?_add done]
  split
  · rename_i same
    rw [← same, node?_eq_none_iff.mpr (add_eq_ok done).1]
    rfl
  · rfl

theorem nested_add {o added : Outline} {task : Task} (done : o.add task = .ok added) :
    added.nested = o.nested := by
  funext x
  simp only [nested, node?_add done]
  split
  · rename_i same
    rw [← same, node?_eq_none_iff.mpr (add_eq_ok done).1]
    rfl
  · rfl

theorem inside_add {o added : Outline} {task : Task} (done : o.add task = .ok added) :
    added.hierarchy.Inside = o.hierarchy.Inside := by
  simp only [Hierarchy.Inside, hierarchy, container_add done]

theorem isForest_add {o added : Outline} {task : Task} (forest : o.hierarchy.IsForest)
    (done : o.add task = .ok added) : added.hierarchy.IsForest := by
  refine isForest_of ?_ ?_ ?_
  · rw [container_add done, nested_add done]
    exact forest.mem_nested
  · rw [nested_add done]
    exact forest.nodup_nested
  · rw [inside_add done]
    exact forest.not_inside_self

/-! ## Attaching and detaching -/

section Parts

variable (o : Outline) (id : TaskId)

theorem ids_setContainer (container : Option TaskId) : (o.setContainer id container).ids = o.ids :=
  Catalog.keys_update o.nodes id (fun node => { node with container }) fun _ => rfl

theorem ids_updateNested (f : List TaskId → List TaskId) : (o.updateNested id f).ids = o.ids :=
  Catalog.keys_update o.nodes id (fun node => { node with nested := f node.nested }) fun _ => rfl

theorem node?_setContainer (container : Option TaskId) (x : TaskId) :
    (o.setContainer id container).node? x =
      if x = id then (o.node? x).map fun node => { node with container } else o.node? x :=
  Catalog.find?_update o.nodes id (fun node => { node with container }) (fun _ => rfl) x

theorem node?_updateNested (f : List TaskId → List TaskId) (x : TaskId) :
    (o.updateNested id f).node? x =
      if x = id then (o.node? x).map fun node => { node with nested := f node.nested }
      else o.node? x :=
  Catalog.find?_update o.nodes id (fun node => { node with nested := f node.nested })
    (fun _ => rfl) x

end Parts

section Attach

variable (o : Outline) (id parent : TaskId)

theorem ids_attach : (o.attach id parent).ids = o.ids := by
  rw [attach, ids_updateNested, ids_setContainer]

theorem node?_attach (x : TaskId) : (o.attach id parent).node? x =
    (o.node? x).map fun node =>
      { node with
        container := if x = id then some parent else node.container
        nested := if x = parent then node.nested ++ [id] else node.nested } := by
  rw [attach, node?_updateNested, node?_setContainer]
  cases o.node? x with
  | none => simp
  | some node => split <;> split <;> simp_all

theorem task?_attach (x : TaskId) : (o.attach id parent).task? x = o.task? x := by
  simp only [task?, node?_attach, Option.map_map]
  rfl

variable {o id parent}

theorem container_attach (known : id ∈ o.ids) (x : TaskId) :
    (o.attach id parent).container x = if x = id then some parent else o.container x := by
  simp only [container, node?_attach]
  cases found : o.node? x with
  | none =>
    have unknown : x ≠ id := fun same => node?_eq_none_iff.mp found (same ▸ known)
    simp [unknown]
  | some node => simp

theorem nested_attach (known : parent ∈ o.ids) (x : TaskId) :
    (o.attach id parent).nested x = if x = parent then o.nested x ++ [id] else o.nested x := by
  simp only [nested, node?_attach]
  cases found : o.node? x with
  | none =>
    have unknown : x ≠ parent := fun same => node?_eq_none_iff.mp found (same ▸ known)
    simp [unknown]
  | some node => by_cases atParent : x = parent <;> simp [atParent]

/-- Attaching a task that has no container, to one that does not lie in it. -/
theorem isForest_attach (forest : o.hierarchy.IsForest) (known : id ∈ o.ids)
    (knownParent : parent ∈ o.ids) (root : o.container id = none) (apart : parent ≠ id)
    (outside : ¬ o.hierarchy.Inside parent id) : (o.attach id parent).hierarchy.IsForest := by
  have alone : ∀ x, id ∉ o.nested x := by
    intro x member
    have found := (forest.mem_nested x id).mp member
    exact absurd (root.symm.trans found) (by simp)
  refine isForest_of (fun x task => ?_) (fun x => ?_) ?_
  · have agree : task ∈ o.nested x ↔ o.container task = some x := forest.mem_nested x task
    rw [nested_attach knownParent, container_attach known]
    by_cases atParent : x = parent <;> by_cases moved : task = id
    · simp [atParent, moved]
    · subst atParent
      simp [moved, agree]
    · subst moved
      simp [atParent, Ne.symm atParent, alone x]
    · simp [atParent, moved, agree]
  · rw [nested_attach knownParent]
    split
    · refine List.nodup_append.mpr ⟨forest.nodup_nested x, by simp, ?_⟩
      intro a member b single same
      rw [List.mem_singleton.mp single] at same
      exact alone x (same ▸ member)
    · exact forest.nodup_nested x
  · have arrows : ∀ a b, (o.attach id parent).container a = some b →
        o.container a = some b ∨ a = id ∧ b = parent := by
      intro a b found
      rw [container_attach known] at found
      split at found
      · rename_i same
        exact .inr ⟨same, (Option.some.inj found).symm⟩
      · exact .inl found
    refine Acyclic.extend forest.not_inside_self arrows ?_
    rintro target rfl way
    rcases Relation.reflTransGen_iff_eq_or_transGen.mp way with same | inside
    · exact apart same.symm
    · exact outside inside

end Attach

section Detach

theorem filter_ne_of_not_mem {id : TaskId} {list : List TaskId} (absent : id ∉ list) :
    list.filter (· ≠ id) = list := by
  refine List.filter_eq_self.mpr fun task member => decide_eq_true ?_
  rintro rfl
  exact absent member

variable (o : Outline) (id : TaskId)

theorem ids_detach : (o.detach id).ids = o.ids := by
  unfold detach
  split
  · rfl
  · rw [ids_setContainer, ids_updateNested]

theorem task?_detach (x : TaskId) : (o.detach id).task? x = o.task? x := by
  unfold detach
  split
  · rfl
  · simp only [task?, node?_setContainer, node?_updateNested]
    cases o.node? x with
    | none => simp
    | some node => split <;> split <;> rfl

theorem container_detach (x : TaskId) :
    (o.detach id).container x = if x = id then none else o.container x := by
  unfold detach
  split
  · rename_i root
    split
    · rename_i same
      rw [same, root]
    · rfl
  · simp only [container, node?_setContainer, node?_updateNested]
    cases o.node? x with
    | none => simp
    | some node => split <;> split <;> rfl

variable {o}

theorem nested_detach (forest : o.hierarchy.IsForest) (x : TaskId) :
    (o.detach id).nested x = (o.nested x).filter (· ≠ id) := by
  have elsewhere : o.container id ≠ some x → (o.nested x).filter (· ≠ id) = o.nested x :=
    fun differ => filter_ne_of_not_mem fun member => differ ((forest.mem_nested x id).mp member)
  unfold detach
  split
  · rename_i root
    rw [elsewhere (by simp [root])]
  · rename_i parent found
    have held : ((o.updateNested parent fun nested => nested.filter (· ≠ id)).setContainer id
        none).nested x = if x = parent then (o.nested x).filter (· ≠ id) else o.nested x := by
      simp only [nested, node?_setContainer, node?_updateNested]
      cases o.node? x with
      | none => simp
      | some node => split <;> split <;> simp_all
    rw [held]
    split
    · rfl
    · rename_i atOther
      exact (elsewhere (by simp [found, Ne.symm atOther])).symm

theorem inside_of_detach {task outer : TaskId} (inside : (o.detach id).hierarchy.Inside task outer) :
    o.hierarchy.Inside task outer := by
  refine Relation.TransGen.mono (fun a b found => ?_) _ _ inside
  change (o.detach id).container a = some b at found
  rw [container_detach] at found
  split at found
  · contradiction
  · exact found

theorem isForest_detach (forest : o.hierarchy.IsForest) : (o.detach id).hierarchy.IsForest := by
  refine isForest_of (fun x task => ?_) (fun x => ?_) fun task inside =>
    forest.not_inside_self task (inside_of_detach id inside)
  · have agree : task ∈ o.nested x ↔ o.container task = some x := forest.mem_nested x task
    rw [nested_detach id forest, container_detach]
    by_cases moved : task = id <;> simp [moved, ← agree]
  · rw [nested_detach id forest]
    exact (forest.nodup_nested x).filter _

end Detach

/-! ## Nesting and moving -/

theorem nest_eq_ok {o nested : Outline} {parent : TaskId} {task : Task}
    (done : o.nest parent task = .ok nested) :
    parent ∈ o.ids ∧ ∃ added, o.add task = .ok added ∧ nested = added.attach task.id parent := by
  unfold nest at done
  split at done
  · rename_i known
    refine ⟨contains_iff.mp known, ?_⟩
    cases sum : o.add task with
    | error reason => simp [sum, Except.map] at done
    | ok added =>
      simp only [sum, Except.map, Except.ok.injEq] at done
      exact ⟨added, rfl, done.symm⟩
  · contradiction

theorem move_eq_ok {o moved : Outline} {id : TaskId} {target : Option TaskId}
    (done : o.move id target = .ok moved) : id ∈ o.ids ∧
      (target = none ∧ moved = o.detach id ∨
        ∃ parent, target = some parent ∧ parent ∈ o.ids ∧ parent ≠ id ∧
          o.hierarchy.isAncestor id parent = false ∧ moved = (o.detach id).attach id parent) := by
  unfold move at done
  split at done
  · contradiction
  · rename_i known
    refine ⟨contains_iff.mp (by simpa using known), ?_⟩
    split at done
    · cases done
      exact .inl ⟨rfl, rfl⟩
    · rename_i parent
      split at done
      · contradiction
      · rename_i knownParent
        split at done
        · contradiction
        · rename_i free
          cases done
          simp only [Bool.or_eq_true, decide_eq_true_eq, not_or, Bool.not_eq_true] at free
          exact .inr ⟨parent, rfl, contains_iff.mp (by simpa using knownParent), free.1, free.2, rfl⟩

theorem mem_ids_nest {o nested : Outline} {parent : TaskId} {task : Task}
    (done : o.nest parent task = .ok nested) {x : TaskId} :
    x ∈ nested.ids ↔ x = task.id ∨ x ∈ o.ids := by
  obtain ⟨-, added, sum, rfl⟩ := nest_eq_ok done
  rw [ids_attach, mem_ids_add sum]

theorem container_nest {o nested : Outline} {parent : TaskId} {task : Task}
    (done : o.nest parent task = .ok nested) (x : TaskId) :
    nested.container x = if x = task.id then some parent else o.container x := by
  obtain ⟨-, added, sum, rfl⟩ := nest_eq_ok done
  rw [container_attach ((mem_ids_add sum).mpr (.inl rfl)), container_add sum]

theorem isForest_nest {o nested : Outline} {parent : TaskId} {task : Task}
    (forest : o.hierarchy.IsForest) (done : o.nest parent task = .ok nested) :
    nested.hierarchy.IsForest := by
  obtain ⟨known, added, sum, rfl⟩ := nest_eq_ok done
  have unknown := (add_eq_ok sum).1
  refine isForest_attach (isForest_add forest sum) ((mem_ids_add sum).mpr (.inl rfl))
    ((mem_ids_add sum).mpr (.inr known)) ?_ ?_ ?_
  · rw [container_add sum, container_of_unknown unknown]
  · rintro rfl
    exact unknown known
  · rw [inside_add sum]
    exact fun inside => unknown (forest.mem_tasks_of_inside inside).2

theorem ordered_empty : empty.Ordered := fun _ _ found => nomatch found

theorem ordered_add {o added : Outline} {task : Task} (ordered : o.Ordered)
    (done : o.add task = .ok added) : added.Ordered := by
  intro id other found
  simp only [task?, node?_add done] at found
  split at found
  · cases found
    exact (add_eq_ok done).2.1
  · exact ordered id other found

theorem ordered_nest {o nested : Outline} {parent : TaskId} {task : Task} (ordered : o.Ordered)
    (done : o.nest parent task = .ok nested) : nested.Ordered := by
  obtain ⟨-, added, sum, rfl⟩ := nest_eq_ok done
  intro id other found
  rw [task?_attach] at found
  exact ordered_add ordered sum id other found

theorem task?_move {o moved : Outline} {id : TaskId} {target : Option TaskId}
    (done : o.move id target = .ok moved) (x : TaskId) : moved.task? x = o.task? x := by
  obtain ⟨-, ⟨-, rfl⟩ | ⟨parent, -, -, -, -, rfl⟩⟩ := move_eq_ok done
  · exact task?_detach o id x
  · rw [task?_attach, task?_detach]

theorem ordered_move {o moved : Outline} {id : TaskId} {target : Option TaskId}
    (ordered : o.Ordered) (done : o.move id target = .ok moved) : moved.Ordered := by
  intro x task found
  rw [task?_move done] at found
  exact ordered x task found

theorem container_move {o moved : Outline} {id : TaskId} {target : Option TaskId}
    (done : o.move id target = .ok moved) (x : TaskId) :
    moved.container x = if x = id then target else o.container x := by
  obtain ⟨known, ⟨rfl, rfl⟩ | ⟨parent, rfl, -, -, -, rfl⟩⟩ := move_eq_ok done
  · exact container_detach o id x
  · rw [container_attach (by rwa [ids_detach]), container_detach]
    split <;> rfl

/-- A moved task leaves the list that it stood in and comes last in that of its new container. -/
theorem nested_move {o moved : Outline} {id : TaskId} {target : Option TaskId}
    (forest : o.hierarchy.IsForest) (done : o.move id target = .ok moved) (x : TaskId) :
    moved.nested x = if target = some x then (o.nested x).filter (· ≠ id) ++ [id]
      else (o.nested x).filter (· ≠ id) := by
  obtain ⟨-, ⟨rfl, rfl⟩ | ⟨parent, rfl, known, -, -, rfl⟩⟩ := move_eq_ok done
  · exact nested_detach id forest x
  · rw [nested_attach (by rwa [ids_detach]), nested_detach id forest]
    simp only [Option.some.injEq, eq_comm]

theorem ids_move {o moved : Outline} {id : TaskId} {target : Option TaskId}
    (done : o.move id target = .ok moved) : moved.ids = o.ids := by
  obtain ⟨-, ⟨-, rfl⟩ | ⟨parent, -, -, -, -, rfl⟩⟩ := move_eq_ok done
  · exact ids_detach o id
  · rw [ids_attach, ids_detach]

theorem isForest_move {o moved : Outline} {id : TaskId} {target : Option TaskId}
    (forest : o.hierarchy.IsForest) (done : o.move id target = .ok moved) :
    moved.hierarchy.IsForest := by
  obtain ⟨known, ⟨-, rfl⟩ | ⟨parent, -, knownParent, apart, free, rfl⟩⟩ := move_eq_ok done
  · exact isForest_detach id forest
  · refine isForest_attach (isForest_detach id forest) (by rwa [ids_detach]) (by rwa [ids_detach]) ?_ apart ?_
    · rw [container_detach, if_pos rfl]
    · intro inside
      have ancestor := forest.isAncestor_iff.mpr (inside_of_detach id inside)
      rw [free] at ancestor
      contradiction

end Outline

end Workplan
