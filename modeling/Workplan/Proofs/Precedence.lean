/-
# Workplan.Proofs.Precedence — what a plan places before what

`Precedes` says it without the arcs of a flow: the dependee of a link comes before the dependant
and all that lies in it, and a task comes before its container. It depends on the containers and on
the keys of the links, and on nothing else.

* `acyclic_insertLink_iff` — a new link closes a cycle exactly when its dependee was reached from
  its dependant already;
* `leads_ofPlan_iff` — the arcs of a plan's flow are these, between the tasks of the outline;
* `exists_order_iff_acyclic` — so the tasks of a plan can be put in order exactly when nothing
  comes before itself.

A plan in which that holds, and whose links lie on a forest, is `Coherent`. In such a plan one can
argue `forwards`, from what comes before a task, and `backwards`.
-/
import Mathlib.Data.Fintype.EquivFin
import Workplan.Proofs.FlowOrder
import Workplan.Proofs.OutlineEdits

namespace Workplan

set_option autoImplicit false

/-- The one task has to be placed before the other. -/
inductive Precedes (h : Hierarchy) (net : Network) : TaskId → TaskId → Prop where
  /-- A link holds for its dependant and for whatever lies in the dependant. -/
  | link {key : LinkKey} {task : TaskId} : net.contains key = true → h.Under task key.dependant →
      Precedes h net key.dependee task
  /-- A container takes its dates from what lies in it. -/
  | containment {task container : TaskId} : h.container task = some container →
      Precedes h net task container

namespace Network

/-- Both tasks of every link are known. -/
def LiesOn (net : Network) (h : Hierarchy) : Prop :=
  ∀ key, net.contains key = true → h.knows key.dependant = true ∧ h.knows key.dependee = true

theorem contains_iff {net : Network} {key : LinkKey} :
    net.contains key = true ↔ ∃ link ∈ net.links, link.key = key :=
  Catalog.contains_iff

theorem contains_of_mem {net : Network} {link : Link} (member : link ∈ net.links) :
    net.contains link.key = true :=
  contains_iff.mpr ⟨link, member, rfl⟩

theorem contains_insertLink {net : Network} {link : Link} {key : LinkKey} :
    (net.insertLink link).contains key = true ↔ key = link.key ∨ net.contains key = true := by
  simp only [contains_iff, insertLink, Catalog.mem_insert]
  constructor
  · rintro ⟨found, rfl | ⟨member, -⟩, rfl⟩
    · exact .inl rfl
    · exact .inr ⟨found, member, rfl⟩
  · rintro (rfl | ⟨found, member, rfl⟩)
    · exact ⟨link, .inl rfl, rfl⟩
    · by_cases same : found.key = link.key
      · exact ⟨link, .inl rfl, same.symm⟩
      · exact ⟨found, .inr ⟨member, same⟩, rfl⟩

theorem contains_of_eraseLink {net : Network} {erased key : LinkKey}
    (kept : (net.eraseLink erased).contains key = true) : net.contains key = true := by
  obtain ⟨link, member, rfl⟩ := contains_iff.mp kept
  exact contains_of_mem (Catalog.mem_erase.mp member).1

theorem contains_updateLink {net : Network} {changed key : LinkKey} {f : Link → Link}
    {keeps : ∀ link, (f link).key = link.key} :
    (net.updateLink changed f keeps).contains key = net.contains key := by
  rw [Bool.eq_iff_iff, contains_iff, contains_iff]
  simp only [updateLink, Catalog.mem_update]
  constructor
  · rintro ⟨_, ⟨link, there, rfl⟩, rfl⟩
    exact ⟨link, there, by split <;> simp [keeps]⟩
  · rintro ⟨link, member, rfl⟩
    exact ⟨_, ⟨link, member, rfl⟩, by split <;> simp [keeps]⟩

theorem LiesOn.insertLink {net : Network} {h : Hierarchy} (lies : net.LiesOn h) {link : Link}
    (dependant : h.knows link.dependant = true) (dependee : h.knows link.dependee = true) :
    (net.insertLink link).LiesOn h := by
  intro key there
  rcases contains_insertLink.mp there with rfl | old
  · exact ⟨dependant, dependee⟩
  · exact lies key old

theorem not_contains_empty {defaults : LinkDefaults} {key : LinkKey} :
    ¬ (empty defaults).contains key = true := by
  rw [contains_iff]
  rintro ⟨link, member, -⟩
  exact Catalog.not_mem_empty link member

end Network

/-! ## The arrows -/

section Arrows

variable {h : Hierarchy} {net : Network}

theorem Precedes.of_inside {task outer : TaskId} (inside : h.Inside task outer) :
    Relation.TransGen (Precedes h net) task outer :=
  Relation.TransGen.mono (fun _ _ found => .containment found) _ _ inside

theorem Precedes.of_under {task outer : TaskId} (under : h.Under task outer) :
    Relation.ReflTransGen (Precedes h net) task outer := by
  rcases under with rfl | inside
  · exact .refl
  · exact (Precedes.of_inside inside).to_reflTransGen

theorem Precedes.of_fewer {fewer : Network} {a b : TaskId}
    (kept : ∀ key, fewer.contains key = true → net.contains key = true)
    (arrow : Precedes h fewer a b) : Precedes h net a b := by
  cases arrow with
  | link there under => exact .link (kept _ there) under
  | containment found => exact .containment found

theorem under_congr {other : Hierarchy} (same : other.container = h.container) :
    other.Under = h.Under := by
  funext task outer
  simp only [Hierarchy.Under, Hierarchy.Inside, same]

/-- Only the containers count. -/
theorem precedes_congr {other : Hierarchy} (same : other.container = h.container) :
    Precedes other net = Precedes h net := by
  have inside := under_congr same
  funext a b
  rw [eq_iff_iff]
  constructor
  · rintro (@⟨key, _, there, under⟩ | found)
    · exact .link there (inside ▸ under)
    · exact .containment (same ▸ found)
  · rintro (@⟨key, _, there, under⟩ | found)
    · exact .link there (inside ▸ under)
    · exact .containment (same ▸ found)

theorem precedes_of_insertLink {link : Link} {a b : TaskId}
    (arrow : Precedes h (net.insertLink link) a b) :
    Precedes h net a b ∨ a = link.dependee ∧ h.Under b link.dependant := by
  cases arrow with
  | link there under =>
    rcases Network.contains_insertLink.mp there with rfl | old
    · exact .inr ⟨rfl, under⟩
    · exact .inl (.link old under)
  | containment found => exact .inl (.containment found)

/-- Reached from the task or from one that lies in it. -/
def ReachedFrom (h : Hierarchy) (net : Network) (start task : TaskId) : Prop :=
  ∃ first, h.Under first start ∧ Relation.ReflTransGen (Precedes h net) first task

theorem ReachedFrom.step {start a b : TaskId} (found : ReachedFrom h net start a)
    (arrow : Precedes h net a b) : ReachedFrom h net start b := by
  obtain ⟨first, under, way⟩ := found
  exact ⟨first, under, way.tail arrow⟩

theorem ReachedFrom.upwards {start task outer : TaskId} (found : ReachedFrom h net start task)
    (under : h.Under task outer) : ReachedFrom h net start outer := by
  obtain ⟨first, below, way⟩ := found
  exact ⟨first, below, way.trans (Precedes.of_under under)⟩

/-- A new link closes a cycle exactly when its dependee was already reached from its dependant or
from something in it. -/
theorem acyclic_insertLink_iff {link : Link} (acyclic : Acyclic (Precedes h net)) :
    Acyclic (Precedes h (net.insertLink link)) ↔
      ¬ ReachedFrom h net link.dependant link.dependee := by
  constructor
  · rintro extended ⟨task, under, way⟩
    have old : ∀ a b, Precedes h net a b → Precedes h (net.insertLink link) a b := fun a b =>
      Precedes.of_fewer fun key there => Network.contains_insertLink.mpr (.inr there)
    have new : Precedes h (net.insertLink link) link.dependee task :=
      .link (Network.contains_insertLink.mpr (.inl rfl)) under
    exact extended task (Relation.TransGen.tail' (Relation.ReflTransGen.mono old _ _ way) new)
  · intro apart
    exact acyclic.extend (fun a b => precedes_of_insertLink) fun target under way =>
      apart ⟨target, under, way⟩

/-- In a plan without cycles no link ties a task to itself or to one that contains it or lies in
it. -/
theorem apart_of_acyclic (acyclic : Acyclic (Precedes h net)) {key : LinkKey}
    (there : net.contains key = true) : key.dependant ≠ key.dependee ∧
      ¬ h.Inside key.dependant key.dependee ∧ ¬ h.Inside key.dependee key.dependant := by
  have arrow : Precedes h net key.dependee key.dependant := .link there (.inl rfl)
  refine ⟨fun same => ?_, fun inside => ?_, fun inside => ?_⟩
  · exact acyclic key.dependant (.single (same ▸ arrow))
  · exact acyclic key.dependee (.head arrow (Precedes.of_inside inside))
  · exact acyclic key.dependee (.single (.link there (.inr inside)))

end Arrows

/-! ## The flow of a plan -/

section Flow

variable {o : Outline} {net : Network}

theorem leads_ofPlan_iff (forest : o.hierarchy.IsForest) {a b : TaskId} :
    (Flow.ofPlan o net).Leads a b ↔ Precedes o.hierarchy net a b ∧ a ∈ o.ids ∧ b ∈ o.ids := by
  simp only [Flow.Leads, Flow.mem_arcs_ofPlan, Flow.mem_containmentArcs, Flow.mem_linkArcs,
    forest.mem_descendants_iff, Outline.contains_iff]
  constructor
  · rintro ⟨arc, ⟨⟨-, found, -⟩ | ⟨link, member, source, target⟩, known⟩, rfl, rfl⟩
    · exact ⟨.containment found, known⟩
    · have there := Network.contains_of_mem member
      rw [source] at known ⊢
      rcases target with ⟨same, -⟩ | ⟨inside, -⟩
      · exact ⟨.link there (.inl same), known⟩
      · exact ⟨.link there (.inr inside), known⟩
  · rintro ⟨arrow, knownA, knownB⟩
    cases arrow with
    | link there under =>
      obtain ⟨link, member, rfl⟩ := Network.contains_iff.mp there
      rcases under with rfl | inside
      · exact ⟨⟨link.dependee, link.dependant, .explicit link⟩,
          ⟨.inr ⟨link, member, rfl, .inl ⟨rfl, rfl⟩⟩, knownA, knownB⟩, rfl, rfl⟩
      · exact ⟨⟨link.dependee, b, .inherited link⟩,
          ⟨.inr ⟨link, member, rfl, .inr ⟨inside, rfl⟩⟩, knownA, knownB⟩, rfl, rfl⟩
    | containment found =>
      exact ⟨⟨a, b, .containment⟩, ⟨.inl ⟨knownA, found, rfl⟩, knownA, knownB⟩, rfl, rfl⟩

theorem closed_ofPlan (net : Network) (forest : o.hierarchy.IsForest) : (Flow.ofPlan o net).Closed where
  nodup_tasks := o.nodup_ids
  mem_tasks _ _ leads := ((leads_ofPlan_iff forest).mp leads).2

theorem mem_ids_of_precedes (forest : o.hierarchy.IsForest) (lies : net.LiesOn o.hierarchy)
    {a b : TaskId} (arrow : Precedes o.hierarchy net a b) : a ∈ o.ids ∧ b ∈ o.ids := by
  cases arrow with
  | @link key _ there under =>
    obtain ⟨dependant, dependee⟩ := lies _ there
    refine ⟨Outline.contains_iff.mp dependee, ?_⟩
    rcases under with rfl | inside
    · exact Outline.contains_iff.mp dependant
    · exact (forest.mem_tasks_of_inside inside).1
  | containment found => exact forest.mem_tasks _ _ found

theorem leads_ofPlan (forest : o.hierarchy.IsForest) (lies : net.LiesOn o.hierarchy) :
    (Flow.ofPlan o net).Leads = Precedes o.hierarchy net := by
  funext a b
  rw [eq_iff_iff, leads_ofPlan_iff forest]
  exact ⟨And.left, fun arrow => ⟨arrow, mem_ids_of_precedes forest lies arrow⟩⟩

theorem exists_order_iff_acyclic (forest : o.hierarchy.IsForest) (lies : net.LiesOn o.hierarchy) :
    (∃ list, (Flow.ofPlan o net).order = .ok list) ↔ Acyclic (Precedes o.hierarchy net) := by
  rw [Flow.order_eq_ok_iff (closed_ofPlan net forest), leads_ofPlan forest lies]

/-- A plan that can be computed: its containers form a forest, its links lie on it, and nothing
comes before itself. -/
structure Coherent (o : Outline) (net : Network) : Prop where
  forest : o.hierarchy.IsForest
  liesOn : net.LiesOn o.hierarchy
  acyclic : Acyclic (Precedes o.hierarchy net)

theorem acyclic_leads (forest : o.hierarchy.IsForest)
    (acyclic : Acyclic (Precedes o.hierarchy net)) : Acyclic (Flow.ofPlan o net).Leads :=
  acyclic.mono fun _ _ leads => ((leads_ofPlan_iff forest).mp leads).1

end Flow

/-! ## Induction along a plan -/

instance : Finite TaskId :=
  Finite.of_injective (fun task => (⟨task.number, task.number_lt⟩ : Fin 4294967296))
    fun _ _ same => TaskId.ext (congrArg Fin.val same)

variable {o : Outline} {net : Network} {motive : TaskId → Prop}

/-- What follows for a task from all that comes before it holds of every task. -/
theorem Coherent.forwards (coherent : Coherent o net)
    (step : ∀ task, (∀ earlier, Precedes o.hierarchy net earlier task → motive earlier) →
      motive task) (task : TaskId) : motive task :=
  coherent.acyclic.wellFounded.induction task step

/-- What follows for a task from all that it comes before holds of every task. -/
theorem Coherent.backwards (coherent : Coherent o net)
    (step : ∀ task, (∀ later, Precedes o.hierarchy net task later → motive later) →
      motive task) (task : TaskId) : motive task :=
  coherent.acyclic.reversed.wellFounded.induction task step

end Workplan
