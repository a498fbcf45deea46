/-
# Workplan.Proofs.Forest — containment as a forest

In a forest the container of a task and the lists of nested tasks tell the same story from both
ends, and no task lies in itself. The walks up and down a hierarchy stop after as many steps as it
has tasks; in a forest that cuts nothing off:

* `mem_ancestors_iff`, `mem_descendants_iff` — the walks find whatever lies above, and below;
* `isAncestor_iff`, `related_iff` — the questions asked of a hierarchy, in the same words;
* `Acyclic.extend`, `Acyclic.of_joined` — when new arrows close no cycle;
* `IsForest.bottomUp` — induction from the nested tasks to the task.
-/
import Mathlib.Data.Fintype.Card
import Mathlib.Data.List.Perm.Subperm
import Mathlib.Logic.Relation
import Workplan.Hierarchy

namespace Workplan

set_option autoImplicit false

/-! ## Arrows without cycles -/

section Arrows

variable {α : Type} {r s : α → α → Prop}

/-- No way along the arrows leads back to its start. -/
def Acyclic (r : α → α → Prop) : Prop :=
  ∀ a, ¬ Relation.TransGen r a a

theorem Acyclic.mono (acyclic : Acyclic r) (fewer : ∀ a b, s a b → r a b) : Acyclic s :=
  fun a cycle => acyclic a (Relation.TransGen.mono fewer _ _ cycle)

/-- Among finitely many things, what follows along the arrows holds of all. -/
theorem Acyclic.wellFounded [Finite α] (acyclic : Acyclic r) : WellFounded r := by
  have trans : IsTrans α (Relation.TransGen r) := ⟨fun _ _ _ => Relation.TransGen.trans⟩
  have irrefl : Std.Irrefl (Relation.TransGen r) := ⟨acyclic⟩
  exact Subrelation.wf (fun arrow => .single arrow)
    (Finite.wellFounded_of_trans_of_irrefl (Relation.TransGen r))

theorem Acyclic.reversed (acyclic : Acyclic r) : Acyclic (Function.swap r) :=
  fun a cycle => acyclic a (Relation.transGen_swap.mp cycle)

/-- One arrow between two things is no cycle. -/
theorem acyclic_one {source target : α} (differ : source ≠ target) :
    Acyclic fun a b => a = source ∧ b = target := by
  have ends : ∀ {a b}, Relation.TransGen (fun a b => a = source ∧ b = target) a b →
      a = source ∧ b = target := by
    intro a b way
    induction way with
    | single arrow => exact arrow
    | tail _ arrow ih => exact ⟨ih.1, arrow.2⟩
  intro a cycle
  obtain ⟨first, last⟩ := ends cycle
  exact differ (first.symm.trans last)

/-- A way that uses new arrows, all from one source, comes to the source by old ones and goes on
by old ones from the last new target. -/
theorem old_way_or_through_source {source : α} {targets : α → Prop}
    (arrows : ∀ a b, s a b → r a b ∨ a = source ∧ targets b) {a b : α}
    (way : Relation.TransGen s a b) :
    Relation.TransGen r a b ∨ Relation.ReflTransGen r a source ∧
      ∃ target, targets target ∧ Relation.ReflTransGen r target b := by
  induction way with
  | single arrow =>
    rcases arrows _ _ arrow with old | ⟨rfl, new⟩
    · exact .inl (.single old)
    · exact .inr ⟨.refl, _, new, .refl⟩
  | tail _ arrow ih =>
    rcases arrows _ _ arrow with old | ⟨rfl, new⟩
    · rcases ih with way | ⟨first, target, new, last⟩
      · exact .inl (way.tail old)
      · exact .inr ⟨first, target, new, last.tail old⟩
    · rcases ih with way | ⟨first, -⟩
      · exact .inr ⟨way.to_reflTransGen, _, new, .refl⟩
      · exact .inr ⟨first, _, new, .refl⟩

/-- New arrows from one source close no cycle if no target leads back to the source. -/
theorem Acyclic.extend {source : α} {targets : α → Prop} (acyclic : Acyclic r)
    (arrows : ∀ a b, s a b → r a b ∨ a = source ∧ targets b)
    (apart : ∀ target, targets target → ¬ Relation.ReflTransGen r target source) : Acyclic s := by
  intro a cycle
  rcases old_way_or_through_source arrows cycle with old | ⟨first, target, new, last⟩
  · exact acyclic a old
  · exact apart target new (last.trans first)

/-- Arrows that lead on after their ends are joined, or join them without a cycle, have no cycle. -/
theorem Acyclic.of_joined {joins : α → α → Prop} (acyclic : Acyclic r) (joinsAcyclic : Acyclic joins)
    (f : α → α)
    (arrows : ∀ a b, s a b → Relation.TransGen r (f a) (f b) ∨ f a = f b ∧ joins a b) :
    Acyclic s := by
  have joined : ∀ {a b}, Relation.TransGen s a b →
      Relation.TransGen r (f a) (f b) ∨ f a = f b ∧ Relation.TransGen joins a b := by
    intro a b way
    induction way with
    | single arrow =>
      rcases arrows _ _ arrow with leads | ⟨same, join⟩
      · exact .inl leads
      · exact .inr ⟨same, .single join⟩
    | tail _ arrow ih =>
      rcases arrows _ _ arrow with leads | ⟨same, join⟩ <;> rcases ih with before | ⟨joined, way⟩
      · exact .inl (before.trans leads)
      · exact .inl (joined ▸ leads)
      · exact .inl (same ▸ before)
      · exact .inr ⟨joined.trans same, way.tail join⟩
  intro a cycle
  rcases joined cycle with leads | ⟨-, way⟩
  · exact acyclic (f a) leads
  · exact joinsAcyclic a way

end Arrows

namespace Hierarchy

/-! ## Forests -/

/-- The task lies in the container, directly or through others. -/
def Inside (h : Hierarchy) : TaskId → TaskId → Prop :=
  Relation.TransGen fun task container => h.container task = some container

/-- The task is the outer one or lies in it. -/
def Under (h : Hierarchy) (task outer : TaskId) : Prop :=
  task = outer ∨ h.Inside task outer

/-- Containers and nested tasks agree, and containment has no cycle. -/
structure IsForest (h : Hierarchy) : Prop where
  mem_nested : ∀ container task, task ∈ h.nested container ↔ h.container task = some container
  nodup_nested : ∀ container, (h.nested container).Nodup
  mem_tasks : ∀ task container, h.container task = some container →
    task ∈ h.tasks ∧ container ∈ h.tasks
  not_inside_self : ∀ task, ¬ h.Inside task task

variable {h : Hierarchy}

theorem Inside.of_container {task container : TaskId} (found : h.container task = some container) :
    h.Inside task container :=
  .single found

theorem Inside.trans {a b c : TaskId} (lower : h.Inside a b) (upper : h.Inside b c) :
    h.Inside a c :=
  Relation.TransGen.trans lower upper

theorem inside_iff {task outer : TaskId} :
    h.Inside task outer ↔ ∃ container, h.container task = some container ∧
      (outer = container ∨ h.Inside container outer) := by
  rw [Inside, Relation.TransGen.head'_iff]
  simp only [Relation.reflTransGen_iff_eq_or_transGen]

theorem Under.trans {a b c : TaskId} (lower : h.Under a b) (upper : h.Under b c) : h.Under a c := by
  rcases lower with rfl | lower
  · exact upper
  · rcases upper with rfl | upper
    · exact .inr lower
    · exact .inr (lower.trans upper)

theorem IsForest.mem_tasks_of_inside (forest : h.IsForest) {task outer : TaskId}
    (inside : h.Inside task outer) : task ∈ h.tasks ∧ outer ∈ h.tasks := by
  induction inside with
  | single found => exact forest.mem_tasks _ _ found
  | tail _ found ih => exact ⟨ih.1, (forest.mem_tasks _ _ found).2⟩

/-! ## Upwards -/

theorem inside_of_mem_climb {steps : Nat} {task outer : TaskId}
    (member : outer ∈ h.climb steps task) : h.Inside task outer := by
  induction steps generalizing task with
  | zero => simp [climb] at member
  | succ steps ih =>
    simp only [climb] at member
    split at member
    · simp at member
    · rename_i container found
      rcases List.mem_cons.mp member with rfl | above
      · exact .of_container found
      · exact (Inside.of_container found).trans (ih above)

theorem IsForest.nodup_climb (forest : h.IsForest) (steps : Nat) (task : TaskId) :
    (task :: h.climb steps task).Nodup := by
  induction steps generalizing task with
  | zero => simp [climb]
  | succ steps ih =>
    refine List.nodup_cons.mpr ⟨fun member => forest.not_inside_self task (inside_of_mem_climb member), ?_⟩
    simp only [climb]
    split
    · exact List.nodup_nil
    · exact ih _

theorem IsForest.length_climb_lt (forest : h.IsForest) {task : TaskId} (known : task ∈ h.tasks)
    (steps : Nat) : (h.climb steps task).length < h.tasks.length := by
  have inside : task :: h.climb steps task ⊆ h.tasks := by
    intro outer member
    rcases List.mem_cons.mp member with rfl | above
    · exact known
    · exact (forest.mem_tasks_of_inside (inside_of_mem_climb above)).2
  have short := ((forest.nodup_climb steps task).subperm inside).length_le
  exact short

/-- A climb that ends before its steps do would not go further with another step. -/
theorem climb_succ_of_short {steps : Nat} {task : TaskId}
    (short : (h.climb steps task).length < steps) : h.climb (steps + 1) task = h.climb steps task := by
  induction steps generalizing task with
  | zero => simp at short
  | succ steps ih =>
    cases found : h.container task with
    | none => simp [climb, found]
    | some container =>
      simp only [climb, found, List.length_cons, Nat.add_lt_add_iff_right] at short
      have further := ih short
      simp only [climb, found] at further ⊢
      rw [further]

theorem ancestors_of_root {task : TaskId} (root : h.container task = none) :
    h.ancestors task = [] := by
  unfold ancestors
  cases h.tasks.length <;> simp [climb, root]

theorem IsForest.ancestors_cons (forest : h.IsForest) {task container : TaskId}
    (found : h.container task = some container) :
    h.ancestors task = container :: h.ancestors container := by
  obtain ⟨known, -⟩ := forest.mem_tasks task container found
  obtain ⟨steps, size⟩ : ∃ steps, h.tasks.length = steps + 1 :=
    Nat.exists_eq_add_one.mpr (List.length_pos_of_mem known)
  have bound := forest.length_climb_lt known (steps + 1)
  have first : h.climb (steps + 1) task = container :: h.climb steps container := by
    simp only [climb, found]
  rw [first, List.length_cons, size] at bound
  rw [ancestors, ancestors, size, first, climb_succ_of_short (by omega)]

theorem IsForest.mem_ancestors_iff (forest : h.IsForest) {task outer : TaskId} :
    outer ∈ h.ancestors task ↔ h.Inside task outer := by
  refine ⟨inside_of_mem_climb, fun inside => ?_⟩
  induction inside using Relation.TransGen.head_induction_on with
  | single found => simp [forest.ancestors_cons found]
  | head found _ ih => simp [forest.ancestors_cons found, ih]

theorem IsForest.length_ancestors_lt (forest : h.IsForest) {task outer : TaskId}
    (inside : h.Inside task outer) : (h.ancestors outer).length < (h.ancestors task).length := by
  induction inside using Relation.TransGen.head_induction_on with
  | single found => simp [forest.ancestors_cons found]
  | head found _ ih => simp only [forest.ancestors_cons found, List.length_cons]; omega

theorem IsForest.length_ancestors_le (forest : h.IsForest) (task : TaskId) :
    (h.ancestors task).length ≤ h.tasks.length := by
  cases found : h.container task with
  | none => simp [ancestors_of_root found]
  | some container =>
    exact Nat.le_of_lt (forest.length_climb_lt (forest.mem_tasks _ _ found).1 _)

theorem IsForest.isAncestor_iff (forest : h.IsForest) {outer task : TaskId} :
    h.isAncestor outer task = true ↔ h.Inside task outer := by
  rw [isAncestor, List.contains_iff_mem, forest.mem_ancestors_iff]

theorem IsForest.related_iff (forest : h.IsForest) {a b : TaskId} :
    h.related a b = true ↔ a = b ∨ h.Inside b a ∨ h.Inside a b := by
  simp only [related, Bool.or_eq_true, decide_eq_true_eq, forest.isAncestor_iff, or_assoc]

/-! ## Downwards -/

theorem IsForest.inside_of_mem_descend (forest : h.IsForest) {steps : Nat} {task outer : TaskId}
    (member : task ∈ h.descend steps outer) : h.Inside task outer := by
  induction steps generalizing outer with
  | zero => simp [descend] at member
  | succ steps ih =>
    obtain ⟨child, nested, below⟩ := List.mem_flatMap.mp member
    have direct := Inside.of_container ((forest.mem_nested outer child).mp nested)
    rcases List.mem_cons.mp below with rfl | deeper
    · exact direct
    · exact (ih deeper).trans direct

/-- A task is listed as soon as there are steps for its depth below the start. -/
theorem IsForest.mem_descend (forest : h.IsForest) {task outer : TaskId}
    (inside : h.Inside task outer) {steps : Nat}
    (enough : (h.ancestors task).length ≤ steps + (h.ancestors outer).length) :
    task ∈ h.descend steps outer := by
  induction inside generalizing steps with
  | single found =>
    have deeper := forest.length_ancestors_lt (Inside.of_container found)
    obtain ⟨less, rfl⟩ := Nat.exists_eq_succ_of_ne_zero (n := steps) (by omega)
    exact List.mem_flatMap.mpr ⟨_, (forest.mem_nested _ _).mpr found, List.mem_cons_self⟩
  | @tail middle outer inside found ih =>
    have deeper := forest.length_ancestors_lt inside
    have above : (h.ancestors middle).length = (h.ancestors outer).length + 1 := by
      simp [forest.ancestors_cons found]
    obtain ⟨less, rfl⟩ := Nat.exists_eq_succ_of_ne_zero (n := steps) (by omega)
    refine List.mem_flatMap.mpr ⟨middle, (forest.mem_nested _ _).mpr found, ?_⟩
    exact List.mem_cons_of_mem _ (ih (by omega))

theorem IsForest.mem_descendants_iff (forest : h.IsForest) {task outer : TaskId} :
    task ∈ h.descendants outer ↔ h.Inside task outer := by
  refine ⟨forest.inside_of_mem_descend, fun inside => forest.mem_descend inside ?_⟩
  have bound := forest.length_ancestors_le task
  omega

/-- What follows for a task from its nested tasks holds of every task. -/
theorem IsForest.bottomUp (forest : h.IsForest) {motive : TaskId → Prop}
    (step : ∀ task, (∀ child ∈ h.nested task, motive child) → motive task) (task : TaskId) :
    motive task := by
  induction room : h.tasks.length - (h.ancestors task).length using Nat.strongRecOn
    generalizing task with
  | ind room ih =>
    refine step task fun child nested => ih _ ?_ child rfl
    have found := (forest.mem_nested task child).mp nested
    have bound := forest.length_ancestors_le child
    have deeper := forest.length_ancestors_lt (Inside.of_container found)
    omega

end Hierarchy

end Workplan
