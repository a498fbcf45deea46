/-
# Workplan.Proofs.TaskEdits — new tasks and new places

A task that is added at the top changes nothing for the others. A nested one inherits links and
leads to its container, and nobody checks what that does; but whatever comes before the new task
came before its container already, so a cycle through it would be an old one. A move is checked, and
if it fails the check it is taken back, which always works.

* `Coherent.add_task`, `Coherent.nest`, `Coherent.move` — plans stay coherent;
* `move_back` — a task can go back to the container from which it came.
-/
import Workplan.Proofs.Precedence

namespace Workplan

set_option autoImplicit false

variable {o : Outline} {net : Network}

theorem coherent_empty (defaults : LinkDefaults) : Coherent .empty (.empty defaults) where
  forest := Outline.isForest_empty
  liesOn _ there := absurd there Network.not_contains_empty
  acyclic task cycle := by
    obtain ⟨next, arrow, -⟩ := Relation.TransGen.head'_iff.mp cycle
    cases arrow with
    | link there _ => exact Network.not_contains_empty there
    | containment found => cases (Outline.container_empty task).symm.trans found

theorem Coherent.of_hierarchy {other : Outline} (coherent : Coherent o net)
    (same : other.hierarchy = o.hierarchy) : Coherent other net where
  forest := same ▸ coherent.forest
  liesOn := same ▸ coherent.liesOn
  acyclic := same ▸ coherent.acyclic

theorem Coherent.of_containers {other : Outline} (coherent : Coherent o net)
    (forest : other.hierarchy.IsForest) (known : ∀ id ∈ o.ids, id ∈ other.ids)
    (same : other.container = o.container) : Coherent other net where
  forest := forest
  liesOn key there := by
    obtain ⟨dependant, dependee⟩ := coherent.liesOn key there
    refine ⟨Outline.contains_iff.mpr (known _ ?_), Outline.contains_iff.mpr (known _ ?_)⟩
    · exact Outline.contains_iff.mp dependant
    · exact Outline.contains_iff.mp dependee
  acyclic := by
    have arrows : Precedes other.hierarchy net = Precedes o.hierarchy net := precedes_congr same
    rw [arrows]
    exact coherent.acyclic

/-! ## New tasks -/

theorem Coherent.add_task {added : Outline} {task : Task} (coherent : Coherent o net)
    (done : o.add task = .ok added) : Coherent added net := by
  refine coherent.of_containers (Outline.isForest_add coherent.forest done) ?_ ?_
  · exact fun id known => (Outline.mem_ids_add done).mpr (.inr known)
  · exact Outline.container_add done

/-- What lies under an old task lies under it still when the new task is joined with its
container. -/
theorem under_of_inside_nest {nested : Outline} {parent : TaskId} {new : Task}
    (forest : o.hierarchy.IsForest) (done : o.nest parent new = .ok nested) {task outer : TaskId}
    (inside : nested.hierarchy.Inside task outer) :
    outer ∈ o.ids ∧ o.hierarchy.Under (if task = new.id then parent else task) outer := by
  obtain ⟨knownParent, added, sum, -⟩ := Outline.nest_eq_ok done
  have unknown := (Outline.add_eq_ok sum).1
  have step : ∀ a b, nested.container a = some b →
      b ∈ o.ids ∧ o.hierarchy.Under (if a = new.id then parent else a) b := by
    intro a b found
    rw [Outline.container_nest done] at found
    split at found
    · rename_i same
      cases found
      rw [if_pos same]
      exact ⟨knownParent, .inl rfl⟩
    · rename_i differ
      rw [if_neg differ]
      exact ⟨(forest.mem_tasks a b found).2, .inr (.of_container found)⟩
  induction inside with
  | single found => exact step _ _ found
  | @tail middle _ _ found ih =>
    obtain ⟨knownMiddle, under⟩ := ih
    obtain ⟨known, last⟩ := step _ _ found
    have old : middle ≠ new.id := fun same => unknown (same ▸ knownMiddle)
    rw [if_neg old] at last
    exact ⟨known, under.trans last⟩

/-- A nested task closes no loop, although nothing is checked. -/
theorem Coherent.nest {nested : Outline} {parent : TaskId} {new : Task}
    (coherent : Coherent o net) (done : o.nest parent new = .ok nested) : Coherent nested net := by
  have forest := coherent.forest
  obtain ⟨knownParent, added, sum, -⟩ := Outline.nest_eq_ok done
  have unknown := (Outline.add_eq_ok sum).1
  have grown : ∀ id, o.contains id = true → nested.contains id = true := by
    intro id known
    rw [Outline.contains_iff] at known ⊢
    exact (Outline.mem_ids_nest done).mpr (.inr known)
  have differs : ∀ id, id ∈ o.ids → id ≠ new.id := fun id known same => unknown (same ▸ known)
  refine ⟨Outline.isForest_nest forest done, fun key there => ?_, ?_⟩
  · obtain ⟨dependant, dependee⟩ := coherent.liesOn key there
    exact ⟨grown _ dependant, grown _ dependee⟩
  -- the new task is joined with its container, so that every arrow but the one between them is old
  · refine Acyclic.of_joined coherent.acyclic (acyclic_one (differs parent knownParent).symm)
      (fun task => if task = new.id then parent else task) ?_
    intro a b arrow
    cases arrow with
    | @link key _ there under =>
      obtain ⟨dependant, dependee⟩ := coherent.liesOn key there
      have oldDependee := differs _ (Outline.contains_iff.mp dependee)
      have oldDependant := differs _ (Outline.contains_iff.mp dependant)
      refine .inl ?_
      simp only [if_neg oldDependee]
      refine .single (.link there ?_)
      rcases under with rfl | inside
      · rw [if_neg oldDependant]
        exact .inl rfl
      · exact (under_of_inside_nest forest done inside).2
    | containment found =>
      change nested.container a = some b at found
      rw [Outline.container_nest done] at found
      split at found
      · rename_i same
        cases found
        refine .inr ⟨?_, same, rfl⟩
        simp only [if_pos same, if_neg (differs parent knownParent)]
      · rename_i differ
        refine .inl ?_
        simp only [if_neg differ, if_neg (differs b (forest.mem_tasks a b found).2)]
        exact .single (.containment found)

/-! ## New places -/

/-- A task that was moved lies in what it lay in before, so its old container has not come to lie
in it. -/
theorem not_inside_of_moved {moved : Outline} {id parent : TaskId} {target : Option TaskId}
    (forest : o.hierarchy.IsForest) (done : o.move id target = .ok moved)
    (old : o.container id = some parent) : ¬ moved.hierarchy.Inside parent id := by
  have before : ∀ {task}, moved.hierarchy.Inside task id → task = id ∨ o.hierarchy.Inside task id := by
    intro task inside
    induction inside using Relation.TransGen.head_induction_on with
    | @single a found =>
      by_cases same : a = id
      · exact .inl same
      · have kept : o.container a = some id := by
          rw [← found]
          exact ((Outline.container_move done a).trans (if_neg same)).symm
        exact .inr (.of_container kept)
    | @head a b found _ ih =>
      by_cases same : a = id
      · exact .inl same
      · have kept : o.container a = some b := by
          rw [← found]
          exact ((Outline.container_move done a).trans (if_neg same)).symm
        rcases ih with rfl | above
        · exact .inr (.of_container kept)
        · exact .inr ((Hierarchy.Inside.of_container kept).trans above)
  have upwards : o.hierarchy.Inside id parent := .of_container old
  intro inside
  rcases before inside with rfl | below
  · exact forest.not_inside_self _ upwards
  · exact forest.not_inside_self _ (below.trans upwards)

/-- Taking a move back succeeds and gives every task the container it had. -/
theorem move_back {moved : Outline} {id : TaskId} {target : Option TaskId}
    (forest : o.hierarchy.IsForest) (done : o.move id target = .ok moved) :
    ∃ restored, moved.move id (o.container id) = .ok restored ∧
      restored.container = o.container ∧ restored.ids = o.ids := by
  have ids := Outline.ids_move done
  have known : moved.contains id = true := by
    rw [Outline.contains_iff, ids]
    exact (Outline.move_eq_ok done).1
  obtain ⟨restored, undone⟩ : ∃ restored, moved.move id (o.container id) = .ok restored := by
    cases old : o.container id with
    | none => exact ⟨moved.detach id, by simp [Outline.move, known]⟩
    | some parent =>
      have upwards : o.hierarchy.Inside id parent := .of_container old
      have knownParent : moved.contains parent = true := by
        rw [Outline.contains_iff, ids]
        exact (forest.mem_tasks id parent old).2
      have apart : parent ≠ id := fun same => forest.not_inside_self id (same ▸ upwards)
      have free : moved.hierarchy.isAncestor id parent = false := by
        rw [← Bool.not_eq_true, (Outline.isForest_move forest done).isAncestor_iff]
        exact not_inside_of_moved forest done old
      exact ⟨(moved.detach id).attach id parent,
        by simp [Outline.move, known, knownParent, apart, free]⟩
  refine ⟨restored, undone, ?_, (Outline.ids_move undone).trans ids⟩
  funext x
  rw [Outline.container_move undone, Outline.container_move done]
  split
  · rename_i same
    rw [same]
  · rfl

theorem Coherent.move {moved : Outline} {id : TaskId} {target : Option TaskId}
    (coherent : Coherent o net) (done : o.move id target = .ok moved) {order : List TaskId}
    (ordered : (Flow.ofPlan moved net).order = .ok order) : Coherent moved net := by
  have forest := Outline.isForest_move coherent.forest done
  have lies : net.LiesOn moved.hierarchy := by
    intro key there
    obtain ⟨dependant, dependee⟩ := coherent.liesOn key there
    change moved.contains _ = true ∧ moved.contains _ = true
    rw [Outline.contains_iff, Outline.contains_iff, Outline.ids_move done]
    exact ⟨Outline.contains_iff.mp dependant, Outline.contains_iff.mp dependee⟩
  exact ⟨forest, lies, (exists_order_iff_acyclic forest lies).mp ⟨order, ordered⟩⟩

theorem Coherent.move_back {moved restored : Outline} {id : TaskId} {target : Option TaskId}
    (coherent : Coherent o net) (done : o.move id target = .ok moved)
    (undone : moved.move id (o.container id) = .ok restored) : Coherent restored net := by
  obtain ⟨_, same, containers, ids⟩ := Workplan.move_back coherent.forest done
  cases undone.symm.trans same
  have forest := Outline.isForest_move (Outline.isForest_move coherent.forest done) undone
  exact coherent.of_containers forest (fun id known => ids ▸ known) containers

end Workplan
