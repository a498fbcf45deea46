/-
# Workplan.Proofs.Demands — what the arcs into a task ask of its start

Each arc adds a date to the strong demands or to the weak ones, or the dates of a subtask, so the
fold over the arcs collects three sets. In the flow of a plan these are told by links and containers:

* `demands_spec` — the windows that the fold leaves, by the dates collected;
* `collected_strongDate?` — the strong dates are those of the task's own links that are strong or
  violated;
* `strongDates_union_collected` — with the weak ones they are the dates of all links on the task and
  on what contains it;
* `mem_subtaskDates`, `subtaskDates_eq_nil_iff` — the dates of the tasks nested in it.
-/
import Workplan.Proofs.Precedence
import Workplan.Proofs.StartWindows

namespace Workplan.Schedule

set_option autoImplicit false

open Window

/-! ## One arc after another -/

section Fold

variable (o : Outline) (cal : Calendar) (task : TaskId)

/-- The date of an arc that pulls the start to it. -/
def strongDate? (arc : Arc) : Option Date :=
  match arc.cause with
  | .explicit link =>
    (link.forward? o.span? cal).bind fun collision =>
      if isWeak link collision then none else some (cal.closestFrom collision.acceptable)
  | .inherited _ | .containment => none

/-- The date of an arc that only holds the start back. -/
def weakDate? (arc : Arc) : Option Date :=
  match arc.cause with
  | .explicit link =>
    (link.forward? o.span? cal).bind fun collision =>
      if isWeak link collision then some (cal.closestFrom collision.acceptable) else none
  | .inherited link =>
    ((link.retarget task).forward? o.span? cal).map fun collision =>
      cal.closestFrom collision.acceptable
  | .containment => none

/-- The dates of the subtask that an arc comes from. -/
def subtaskDates (arc : Arc) : List Date :=
  match arc.cause with
  | .containment => ((o.task? arc.source).map fun child => [child.start, child.finish]).getD []
  | .explicit _ | .inherited _ => []

/-- Holds a window back to a date, if there is one. -/
def hold (w : Option Window) (date? : Option Date) : Option Window :=
  match date? with
  | none => w
  | some date => w.bind (·.intersect (.atLeast date))

theorem demand_eq (d : Demands) (arc : Arc) : demand o cal task d arc =
    ⟨hold d.strong (strongDate? o cal arc), hold d.weak (weakDate? o cal task arc),
      d.subtaskDates ++ subtaskDates o arc⟩ := by
  obtain ⟨source, target, cause⟩ := arc
  cases cause with
  | explicit link =>
    cases found : link.forward? o.span? cal with
    | none => simp [demand, strongDate?, weakDate?, subtaskDates, hold, found]
    | some collision =>
      have window := linkWindow_forward? found
      cases weak : isWeak link collision <;>
        simp [demand, strongDate?, weakDate?, subtaskDates, hold, found, weak, window]
  | inherited link =>
    cases found : (link.retarget task).forward? o.span? cal with
    | none => simp [demand, strongDate?, weakDate?, subtaskDates, hold, found]
    | some collision =>
      have window := linkWindow_forward? found
      simp [demand, strongDate?, weakDate?, subtaskDates, hold, found, window]
  | containment =>
    cases found : o.task? source <;>
      simp [demand, strongDate?, weakDate?, subtaskDates, hold, found]

/-- The dates that a function of arcs tells of a list of arcs. -/
def collected (date? : Arc → Option Date) (arcs : List Arc) : Set Date :=
  {date | ∃ arc ∈ arcs, date? arc = some date}

theorem collected_cons (date? : Arc → Option Date) (arc : Arc) (rest : List Arc) :
    collected date? (arc :: rest) = {date | date? arc = some date} ∪ collected date? rest := by
  ext date
  simp [collected]

theorem opensAt_hold {w : Option Window} {dates : Set Date} (opens : OpensAt w dates)
    (date? : Option Date) : OpensAt (hold w date?) (dates ∪ {date | date? = some date}) := by
  cases date? with
  | none =>
    have same : ({date | none = some date} : Set Date) = ∅ := by simp
    rw [same, Set.union_empty]
    exact opens
  | some date =>
    have same : ({other | some date = some other} : Set Date) = {date} := by
      ext other
      simp [eq_comm]
    obtain ⟨window, windowIs⟩ := opens.exists_window
    rw [windowIs] at opens ⊢
    rw [same]
    exact opens.intersect (opensAt_atLeast date)

theorem foldl_demand_spec (arcs : List Arc) {d : Demands} {S T : Set Date}
    (strong : OpensAt d.strong S) (weak : OpensAt d.weak T) :
    OpensAt (arcs.foldl (demand o cal task) d).strong (S ∪ collected (strongDate? o cal) arcs) ∧
      OpensAt (arcs.foldl (demand o cal task) d).weak
        (T ∪ collected (weakDate? o cal task) arcs) ∧
      (arcs.foldl (demand o cal task) d).subtaskDates =
        d.subtaskDates ++ arcs.flatMap (subtaskDates o) := by
  induction arcs generalizing d S T with
  | nil =>
    have none : ∀ date? : Arc → Option Date, collected date? [] = ∅ := by simp [collected]
    simpa [none] using ⟨strong, weak⟩
  | cons arc rest ih =>
    rw [List.foldl_cons, demand_eq, collected_cons, collected_cons, ← Set.union_assoc,
      ← Set.union_assoc, List.flatMap_cons, ← List.append_assoc]
    exact ih (opensAt_hold strong _) (opensAt_hold weak _)

theorem demands_spec (flow : Flow) :
    OpensAt (demands flow o cal task).strong
        (collected (strongDate? o cal) (flow.incoming task)) ∧
      OpensAt (demands flow o cal task).weak
        (collected (weakDate? o cal task) (flow.incoming task)) ∧
      (demands flow o cal task).subtaskDates =
        (flow.incoming task).flatMap (subtaskDates o) := by
  have spec := foldl_demand_spec o cal task (flow.incoming task) (d := {}) (.all rfl) (.all rfl)
  simpa [demands] using spec

end Fold

/-! ## The arcs of a plan -/

section Plan

variable {o seen : Outline} {net : Network} {cal : Calendar} {task : TaskId}

theorem retarget_dependant (link : Link) : link.retarget link.dependant = link := rfl

theorem mem_incoming_explicit (lies : net.LiesOn o.hierarchy) {link : Link} :
    (∃ arc ∈ (Flow.ofPlan o net).incoming task, arc.cause = .explicit link) ↔
      link ∈ net.links ∧ link.dependant = task := by
  simp only [Flow.mem_incoming, Flow.mem_arcs_ofPlan, Flow.mem_containmentArcs, Flow.mem_linkArcs]
  constructor
  · rintro ⟨⟨source, target, cause⟩, ⟨⟨arrow, -⟩, rfl⟩, rfl⟩
    obtain ⟨member, -, same⟩ : link ∈ net.toList ∧ source = link.dependee ∧
        target = link.dependant := by simpa using arrow
    exact ⟨member, same.symm⟩
  · rintro ⟨member, rfl⟩
    obtain ⟨dependant, dependee⟩ := lies _ (Network.contains_of_mem member)
    exact ⟨⟨link.dependee, link.dependant, .explicit link⟩,
      ⟨⟨.inr ⟨link, member, rfl, .inl ⟨rfl, rfl⟩⟩, dependee, dependant⟩, rfl⟩, rfl⟩

theorem mem_incoming_inherited (forest : o.hierarchy.IsForest) (lies : net.LiesOn o.hierarchy)
    {link : Link} :
    (∃ arc ∈ (Flow.ofPlan o net).incoming task, arc.cause = .inherited link) ↔
      link ∈ net.links ∧ o.hierarchy.Inside task link.dependant := by
  simp only [Flow.mem_incoming, Flow.mem_arcs_ofPlan, Flow.mem_containmentArcs, Flow.mem_linkArcs,
    forest.mem_descendants_iff]
  constructor
  · rintro ⟨⟨source, target, cause⟩, ⟨⟨arrow, -⟩, rfl⟩, rfl⟩
    obtain ⟨member, -, inside⟩ : link ∈ net.toList ∧ source = link.dependee ∧
        o.hierarchy.Inside target link.dependant := by simpa using arrow
    exact ⟨member, inside⟩
  · rintro ⟨member, inside⟩
    obtain ⟨-, dependee⟩ := lies _ (Network.contains_of_mem member)
    have known := Outline.contains_iff.mpr (forest.mem_tasks_of_inside inside).1
    exact ⟨⟨link.dependee, task, .inherited link⟩,
      ⟨⟨.inr ⟨link, member, rfl, .inr ⟨inside, rfl⟩⟩, dependee, known⟩, rfl⟩, rfl⟩

theorem mem_incoming_containment (forest : o.hierarchy.IsForest) {child : TaskId} :
    (∃ arc ∈ (Flow.ofPlan o net).incoming task, arc.cause = .containment ∧ arc.source = child) ↔
      o.container child = some task := by
  simp only [Flow.mem_incoming, Flow.mem_arcs_ofPlan, Flow.mem_containmentArcs, Flow.mem_linkArcs]
  constructor
  · rintro ⟨⟨source, target, cause⟩, ⟨⟨arrow, -⟩, rfl⟩, rfl, rfl⟩
    obtain ⟨-, found⟩ : source ∈ o.ids ∧ o.container source = some target := by
      simpa using arrow
    exact found
  · intro found
    obtain ⟨knownChild, known⟩ := forest.mem_tasks child task found
    exact ⟨⟨child, task, .containment⟩, ⟨⟨.inl ⟨knownChild, found, rfl⟩,
      Outline.contains_iff.mpr knownChild, Outline.contains_iff.mpr known⟩, rfl⟩, rfl, rfl⟩

/-- The dates of the links of the task itself that are strong or violated. -/
def strongDates (net : Network) (seen : Outline) (cal : Calendar) (task : TaskId) : Set Date :=
  {date | ∃ link ∈ net.links, link.dependant = task ∧ ∃ collision,
    link.forward? seen.span? cal = some collision ∧ isWeak link collision = false ∧
      cal.closestFrom collision.acceptable = date}

/-- The dates of all links on the task and on what contains it, each as if it were the task's own. -/
def linkDates (net : Network) (h : Hierarchy) (seen : Outline) (cal : Calendar) (task : TaskId) :
    Set Date :=
  {date | ∃ link ∈ net.links, h.Under task link.dependant ∧ ∃ collision,
    (link.retarget task).forward? seen.span? cal = some collision ∧
      cal.closestFrom collision.acceptable = date}

theorem collected_strongDate? (lies : net.LiesOn o.hierarchy) :
    collected (strongDate? seen cal) ((Flow.ofPlan o net).incoming task) =
      strongDates net seen cal task := by
  ext date
  constructor
  · rintro ⟨arc, member, asks⟩
    cases cause : arc.cause with
    | explicit link =>
      obtain ⟨known, own⟩ := (mem_incoming_explicit lies).mp ⟨arc, member, cause⟩
      simp only [strongDate?, cause, Option.bind_eq_some_iff] at asks
      obtain ⟨collision, found, asks⟩ := asks
      split at asks
      · contradiction
      · rename_i strong
        exact ⟨link, known, own, collision, found, Bool.not_eq_true _ ▸ strong,
          Option.some.inj asks⟩
    | inherited => simp [strongDate?, cause] at asks
    | containment => simp [strongDate?, cause] at asks
  · rintro ⟨link, known, own, collision, found, strong, rfl⟩
    obtain ⟨arc, member, cause⟩ := (mem_incoming_explicit lies).mpr ⟨known, own⟩
    exact ⟨arc, member, by simp [strongDate?, cause, found, strong]⟩

/-- Strong and weak dates together are the dates of all links that bear on the task. -/
theorem strongDates_union_collected (forest : o.hierarchy.IsForest)
    (lies : net.LiesOn o.hierarchy) :
    strongDates net seen cal task ∪
        collected (weakDate? seen cal task) ((Flow.ofPlan o net).incoming task) =
      linkDates net o.hierarchy seen cal task := by
  ext date
  constructor
  · rintro (⟨link, known, rfl, collision, found, -, asks⟩ | ⟨arc, member, asks⟩)
    · exact ⟨link, known, .inl rfl, collision, found, asks⟩
    · cases cause : arc.cause with
      | explicit link =>
        obtain ⟨known, rfl⟩ := (mem_incoming_explicit lies).mp ⟨arc, member, cause⟩
        simp only [weakDate?, cause, Option.bind_eq_some_iff] at asks
        obtain ⟨collision, found, asks⟩ := asks
        split at asks
        · exact ⟨link, known, .inl rfl, collision, found, Option.some.inj asks⟩
        · contradiction
      | inherited link =>
        obtain ⟨known, inside⟩ := (mem_incoming_inherited forest lies).mp ⟨arc, member, cause⟩
        simp only [weakDate?, cause, Option.map_eq_some_iff] at asks
        obtain ⟨collision, found, asks⟩ := asks
        exact ⟨link, known, .inr inside, collision, found, asks⟩
      | containment => simp [weakDate?, cause] at asks
  · rintro ⟨link, known, rfl | inside, collision, found, rfl⟩
    · rw [retarget_dependant] at found
      cases weak : isWeak link collision with
      | false => exact .inl ⟨link, known, rfl, collision, found, weak, rfl⟩
      | true =>
        obtain ⟨arc, member, cause⟩ := (mem_incoming_explicit lies).mpr ⟨known, rfl⟩
        exact .inr ⟨arc, member, by simp [weakDate?, cause, found, weak]⟩
    · obtain ⟨arc, member, cause⟩ := (mem_incoming_inherited forest lies).mpr ⟨known, inside⟩
      exact .inr ⟨arc, member, by simp [weakDate?, cause, found]⟩

theorem mem_subtaskDates (forest : o.hierarchy.IsForest) {date : Date} :
    date ∈ (demands (Flow.ofPlan o net) seen cal task).subtaskDates ↔
      ∃ id child, o.container id = some task ∧ seen.task? id = some child ∧
        (date = child.start ∨ date = child.finish) := by
  rw [(demands_spec seen cal task _).2.2, List.mem_flatMap]
  constructor
  · rintro ⟨arc, member, inside⟩
    cases cause : arc.cause with
    | explicit => simp [subtaskDates, cause] at inside
    | inherited => simp [subtaskDates, cause] at inside
    | containment =>
      have found := (mem_incoming_containment forest).mp ⟨arc, member, cause, rfl⟩
      cases known : seen.task? arc.source with
      | none => simp [subtaskDates, cause, known] at inside
      | some child =>
        exact ⟨arc.source, child, found, known, by simpa [subtaskDates, cause, known] using inside⟩
  · rintro ⟨id, child, found, known, ends⟩
    obtain ⟨arc, member, cause, rfl⟩ := (mem_incoming_containment forest).mpr found
    exact ⟨arc, member, by simpa [subtaskDates, cause, known] using ends⟩

/-- Where the same tasks are known, only a task without subtasks is told no dates of subtasks. -/
theorem subtaskDates_eq_nil_iff (forest : o.hierarchy.IsForest) (same : seen.hierarchy = o.hierarchy) :
    (demands (Flow.ofPlan o net) seen cal task).subtaskDates = [] ↔ o.nested task = [] := by
  constructor
  · intro none
    by_contra some
    obtain ⟨id, nested⟩ := List.exists_mem_of_ne_nil _ some
    have below := (forest.mem_nested task id).mp nested
    have ids : seen.ids = o.ids := congrArg Hierarchy.tasks same
    obtain ⟨child, known⟩ :=
      Outline.exists_task?_iff.mpr (ids ▸ (forest.mem_tasks _ _ below).1 : id ∈ seen.ids)
    have member : child.start ∈ (demands (Flow.ofPlan o net) seen cal task).subtaskDates :=
      (mem_subtaskDates forest).mpr ⟨id, child, below, known, .inl rfl⟩
    rw [none] at member
    contradiction
  · intro leaf
    refine List.eq_nil_iff_forall_not_mem.mpr fun date member => ?_
    obtain ⟨id, _, below, -⟩ := (mem_subtaskDates forest).mp member
    have nested : id ∈ o.nested task := (forest.mem_nested task id).mpr below
    rw [leaf] at nested
    contradiction

end Plan

end Workplan.Schedule
