/-
# Workplan.Proofs.LongestWays — the layer of a task is the length of the longest way into it

Layers are told apart by levels: every task stands one level above the highest of the tasks that lead to
it, or at the bottom (`Leveled`). So a way can climb no faster than the levels do, and one that goes
back from a task along the highest sources climbs just as fast; it also meets every level in between, so
no layer is empty.

* `Leveled.isGreatest` — the level of a task is the greatest length of a way that ends in it;
* `layers_leveled` — the layers are the tasks level by level;
* `layers_spec` — there are layers exactly if nothing comes before itself; they hold every task once,
  each as high as the longest way into it; a refusal names a task that comes before itself.
-/
import Mathlib.Order.Bounds.Defs
import Workplan.Proofs.Admission

namespace Workplan

set_option autoImplicit false

/-- Some way along the arrows has so many of them and ends here. -/
inductive WayTo {α : Type} (arrow : α → α → Prop) : Nat → α → Prop where
  | start (a : α) : WayTo arrow 0 a
  | onward {length : Nat} {a b : α} (way : WayTo arrow length a) (next : arrow a b) :
      WayTo arrow (length + 1) b

namespace Flow

variable {flow : Flow} {known : List (TaskId × Nat)} {task : TaskId} {level : Nat}

theorem Leveled.length_le (leveled : flow.Leveled known) {length : Nat}
    (way : WayTo flow.Leads length task) (there : (task, level) ∈ known) : length ≤ level := by
  induction way generalizing level with
  | start => exact Nat.zero_le level
  | onward _ leads ih =>
    obtain ⟨below, lower, less⟩ := (leveled _ level there).1 _ leads
    exact Nat.lt_of_le_of_lt (ih lower) less

theorem Leveled.exists_way (leveled : flow.Leveled known) (there : (task, level) ∈ known) :
    WayTo flow.Leads level task := by
  induction level generalizing task with
  | zero => exact .start task
  | succ level ih =>
    rcases (leveled task _ there).2 with bottom | ⟨source, below, leads, lower, next⟩
    · contradiction
    · obtain rfl := Nat.succ.inj next
      exact .onward (ih lower) leads

theorem Leveled.isGreatest (leveled : flow.Leveled known) (there : (task, level) ∈ known) :
    IsGreatest {length | WayTo flow.Leads length task} level :=
  ⟨leveled.exists_way there, fun _ way => leveled.length_le way there⟩

/-- Below a level that some task has, every level has one. -/
theorem Leveled.exists_at (leveled : flow.Leveled known) (there : (task, level) ∈ known) {low : Nat}
    (below : low ≤ level) : ∃ lower, (lower, low) ∈ known := by
  induction level generalizing task with
  | zero =>
    obtain rfl := Nat.le_zero.mp below
    exact ⟨task, there⟩
  | succ level ih =>
    rcases Nat.lt_or_eq_of_le below with less | rfl
    · rcases (leveled task _ there).2 with bottom | ⟨source, under, -, lower, next⟩
      · contradiction
      · obtain rfl := Nat.succ.inj next
        exact ih lower (Nat.le_of_lt_succ less)
    · exact ⟨task, there⟩

/-- The layers are the levels, from the bottom up to the highest one that a task has. -/
theorem layers_leveled (closed : flow.Closed) {layers : List (List TaskId)}
    (done : flow.layers = .ok layers) : ∃ known, flow.Leveled known ∧
      ∀ level layer, layers[level]? = some layer → layer ≠ [] ∧
        ∀ task, task ∈ layer ↔ (task, level) ∈ known := by
  unfold Flow.layers at done
  split at done
  · contradiction
  · rename_i list order
    cases done
    have sorted := order_isSorted closed order
    obtain ⟨leveled, -⟩ := sorted.levels_spec closed
    obtain ⟨-, -, reached⟩ := foldl_max_spec ((flow.levels list []).map fun entry => entry.2 + 1) 0
    refine ⟨flow.levels list [], leveled, fun level layer there => ?_⟩
    obtain ⟨counted, rfl⟩ := List.getElem?_eq_some_iff.mp there
    simp only [List.length_map, List.length_range] at counted
    simp only [List.getElem_map, List.getElem_range, mem_layer, implies_true, and_true]
    rcases reached with none | top
    · omega
    · obtain ⟨⟨_, height⟩, member, top⟩ := List.mem_map.mp top
      have below : level ≤ height := by simp only at top; omega
      obtain ⟨lower, there⟩ := leveled.exists_at member below
      exact List.ne_nil_of_mem (mem_layer.mpr there)

end Flow

section Plan

variable {o : Outline} {net : Network}

/-- Of two tasks of the outline, the one has to be placed before the other. -/
def Outline.Before (o : Outline) (net : Network) (a b : TaskId) : Prop :=
  Precedes o.hierarchy net a b ∧ a ∈ o.ids ∧ b ∈ o.ids

theorem leads_ofPlan_eq (forest : o.hierarchy.IsForest) (net : Network) :
    (Flow.ofPlan o net).Leads = o.Before net := by
  funext a b
  exact propext (leads_ofPlan_iff forest)

/-- The flow of a plan has layers exactly if none of its tasks comes before itself. Then every task is in
one layer, once; the number of its layer is the greatest length of a way that ends in it, so that every
arrow leads to a later layer; and no layer is empty. Otherwise the task that is named comes before
itself. -/
theorem layers_spec (forest : o.hierarchy.IsForest) (net : Network) :
    ((∃ layers, (Flow.ofPlan o net).layers = .ok layers) ↔ Acyclic (o.Before net)) ∧
    (∀ layers, (Flow.ofPlan o net).layers = .ok layers →
      layers.flatten.Perm o.ids ∧ layers.flatten.Nodup ∧
      (∀ level layer, layers[level]? = some layer → layer ≠ [] ∧
        ∀ task ∈ layer, IsGreatest {length | WayTo (o.Before net) length task} level) ∧
      ∀ (low high : Nat) (lower higher : List TaskId), layers[low]? = some lower → layers[high]? = some higher →
        ∀ a ∈ lower, ∀ b ∈ higher, o.Before net a b → low < high) ∧
    ∀ reason, (Flow.ofPlan o net).layers = .error reason →
      ∃ task, reason = .cycle task ∧ Relation.TransGen (o.Before net) task task := by
  have closed := closed_ofPlan net forest
  rw [← leads_ofPlan_eq forest]
  refine ⟨Flow.exists_layers_iff closed, fun layers done => ?_,
    fun reason => Flow.leads_self_of_layers_error closed⟩
  have sorted := Flow.layers_isSorted closed done
  obtain ⟨known, leveled, layered⟩ := Flow.layers_leveled closed done
  have highest : ∀ level layer, layers[level]? = some layer → ∀ task ∈ layer,
      IsGreatest {length | WayTo (Flow.ofPlan o net).Leads length task} level :=
    fun level layer there task member =>
      leveled.isGreatest (((layered level layer there).2 task).mp member)
  refine ⟨sorted.perm, sorted.perm.nodup_iff.mpr closed.nodup_tasks, fun level layer there =>
    ⟨(layered level layer there).1, highest level layer there⟩, ?_⟩
  intro low high lower higher atLow atHigh a inLower b inHigher leads
  exact (highest high higher atHigh b inHigher).2
    (.onward (highest low lower atLow a inLower).1 leads)

end Plan

/-- The task inside the container waits as well, and only then the container itself is placed. When the
other task waits for the inner one in turn, one of the two is named. -/
theorem layers_spec_in_container : ∃ o, Sample.outline = .ok o ∧ o.hierarchy.IsForest ∧
    (Flow.ofPlan o Sample.network).layers = .ok [[Sample.other], [Sample.inner], [Sample.outer]] ∧
    IsGreatest {length | WayTo (o.Before Sample.network) length Sample.outer} 2 ∧
    ∃ task, (Flow.ofPlan o (Sample.network.insertLink
        { key := ⟨Sample.other, Sample.inner⟩ })).layers = .error (.cycle task) ∧
      Relation.TransGen (o.Before (Sample.network.insertLink
        { key := ⟨Sample.other, Sample.inner⟩ })) task task := by
  obtain ⟨o, built⟩ : ∃ o, Sample.outline = .ok o := ⟨_, rfl⟩
  obtain ⟨coherent, -⟩ := Sample.coherent_outline built
  obtain ⟨-, layered, -⟩ := layers_spec coherent.forest Sample.network
  obtain ⟨-, -, refused⟩ := layers_spec coherent.forest
    (Sample.network.insertLink { key := ⟨Sample.other, Sample.inner⟩ })
  have layers : (Flow.ofPlan o Sample.network).layers =
      .ok [[Sample.other], [Sample.inner], [Sample.outer]] := by
    cases built
    decide
  obtain ⟨-, -, highest, -⟩ := layered _ layers
  obtain ⟨reason, loop⟩ : ∃ reason, (Flow.ofPlan o (Sample.network.insertLink
      { key := ⟨Sample.other, Sample.inner⟩ })).layers = .error reason := by
    cases built
    exact ⟨_, rfl⟩
  obtain ⟨task, rfl, cycle⟩ := refused reason loop
  exact ⟨o, built, coherent.forest, layers, (highest 2 _ rfl).2 _ (by simp), task, loop, cycle⟩

end Workplan
